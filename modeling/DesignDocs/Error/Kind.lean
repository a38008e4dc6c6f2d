namespace DesignDocs

/-- Some kinds travel inside messages: a message that begins with the label of such a kind and a
colon is read back as that kind. -/
inductive ErrorKind
  | malformedJson
  | unknownIndexType
  | invalidFieldShape
  | duplicateName
  | validation
  | invalidSelector
  | inputOutput
  | fileNotFound
  | permissionDenied
  | encoding
  | internal
  deriving DecidableEq

namespace ErrorKind

def label : ErrorKind → String
  | malformedJson => "Malformed JSON"
  | unknownIndexType => "Unknown index type"
  | invalidFieldShape => "Invalid field shape"
  | duplicateName => "Duplicate name"
  | validation => "Validation error"
  | invalidSelector => "Invalid selector"
  | inputOutput => "IO error"
  | fileNotFound => "File not found"
  | permissionDenied => "Permission denied"
  | encoding => "Encoding error"
  | internal => "Internal error"

def travelling : List ErrorKind :=
  [unknownIndexType, invalidFieldShape, duplicateName, invalidSelector, validation]

def labels (kind : ErrorKind) (message : String) : Bool :=
  (kind.label ++ ":").toList.isPrefixOf message.toList

/-- The kind whose label begins the message. -/
def ofMessage? (message : String) : Option ErrorKind :=
  travelling.find? (labels · message)

/-- A message without label is one about malformed JSON. -/
def ofMessage (message : String) : ErrorKind :=
  (ofMessage? message).getD malformedJson

end ErrorKind

end DesignDocs
