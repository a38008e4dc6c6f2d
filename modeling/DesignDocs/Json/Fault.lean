import DesignDocs.Error.Kind
import DesignDocs.Json.Number
import DesignDocs.Text.Quoted

namespace DesignDocs.Json

/-- A text that is not the form of a JSON value. -/
inductive FormFault
  | endInValue
  | endInArray
  | endInObject
  | endInString
  | noValue
  | badWord
  | noColon
  | noCommaInArray
  | noCommaInObject
  | nameNotString
  | trailingComma
  | trailingText
  | badNumber
  | numberTooLarge
  | badEscape
  | brokenSurrogatePair
  | loneSurrogate
  | badCodePoint
  | controlCharacter
  | tooDeep
  deriving DecidableEq

def FormFault.message : FormFault → String
  | endInValue => "EOF while parsing a value"
  | endInArray => "EOF while parsing a list"
  | endInObject => "EOF while parsing an object"
  | endInString => "EOF while parsing a string"
  | noValue => "expected value"
  | badWord => "expected ident"
  | noColon => "expected `:`"
  | noCommaInArray => "expected `,` or `]`"
  | noCommaInObject => "expected `,` or `\x7d`"
  | nameNotString => "key must be a string"
  | trailingComma => "trailing comma"
  | trailingText => "trailing characters"
  | badNumber => "invalid number"
  | numberTooLarge => "number out of range"
  | badEscape => "invalid escape"
  | brokenSurrogatePair => "unexpected end of hex escape"
  | loneSurrogate => "lone leading surrogate in hex escape"
  | badCodePoint => "invalid unicode code point"
  | controlCharacter => "control character (\\u0000-\\u001F) found while parsing a string"
  | tooDeep => "recursion limit exceeded"

/-- What a reader found in place of what it wanted. -/
inductive Found
  | null
  | bool (b : Bool)
  | number (n : Number)
  | string (s : String)
  | array
  | object

def Found.text : Found → String
  | null => "null"
  | bool b => if b then "boolean `true`" else "boolean `false`"
  | number (.integer i _) => s!"integer `{toString i}`"
  | number (.float x h) => s!"floating point `{(Number.float x h).text}`"
  | string s => s!"string {Text.quote s}"
  | array => "sequence"
  | object => "map"

/-- An entry of a list of index fields that is not a field. -/
inductive FieldFault
  | empty
  | twoNames (name other : String)
  | untyped (name : String)
  | badDirection (name direction : String)
  | badType (name type : String)
  deriving DecidableEq

def FieldFault.message : FieldFault → String
  | empty => "index field entry is an empty object"
  | twoNames name other =>
    s!"index field entry must name exactly one field, found '{name}' and '{other}'"
  | untyped name => s!"text index field '{name}' must declare a type"
  | badDirection name direction =>
    s!"json index field '{name}' has direction '{direction}', expected 'asc' or 'desc'"
  | badType name type =>
    s!"text index field '{name}' has type '{type}', expected 'string', 'number' or 'boolean'"

inductive Fault
  | form (f : FormFault)
  | mismatch (found : Found) (expected : String)
  | negative (value : Int)
  | severalVariants
  | unknownVariant (name : String) (expected : String)
  | noVariant (union : String)
  | missing (name : String)
  | repeated (name : String)
  /-- A record given as an array ends before the required member at `index`. -/
  | shortRecord (index : Nat) (record : String) (members : Nat)
  | surplusItems (count : Nat)
  | nameRepeated (name : String)
  | keyRepeated (key : String)
  | unknownIndexType (name : String)
  | fieldShape (f : FieldFault)
  | definitionNotObject
  /-- A fault met inside an index definition, whose message is carried along as text. -/
  | inDefinition (f : Fault)

namespace Fault

def labelled (kind : ErrorKind) (message : String) : String := s!"{kind.label}: {message}"

def message : Fault → String
  | form f => f.message
  | mismatch found expected => s!"invalid type: {found.text}, expected {expected}"
  | negative value => s!"invalid value: integer `{toString value}`, expected u64"
  | severalVariants => "invalid value: map, expected map with a single key"
  | unknownVariant name expected => s!"unknown variant `{name}`, expected {expected}"
  | noVariant union => s!"data did not match any variant of untagged enum {union}"
  | missing name => s!"missing field `{name}`"
  | repeated name => s!"duplicate field `{name}`"
  | shortRecord index record members =>
    s!"invalid length {index}, expected {record} with {members} elements"
  | surplusItems count => s!"invalid length {count}, expected fewer elements in array"
  | nameRepeated name => labelled .duplicateName s!"'{name}' is defined more than once"
  | keyRepeated key => labelled .duplicateName s!"key '{key}' is defined more than once"
  | unknownIndexType name =>
    labelled .unknownIndexType s!"'{name}' is not a known index type"
  | fieldShape f => labelled .invalidFieldShape f.message
  | definitionNotObject => "index definition `def` must be an object"
  | inDefinition f => f.message

def kind : Fault → ErrorKind
  | nameRepeated _ | keyRepeated _ => .duplicateName
  | unknownIndexType _ => .unknownIndexType
  | fieldShape _ => .invalidFieldShape
  | inDefinition f => f.kind
  | _ => .malformedJson

/-- The kind that can be told from what a fault shows: that it lies in the form, or its words. -/
def apparentKind : Fault → ErrorKind
  | form _ => .malformedJson
  | f => .ofMessage f.message

end Fault

end DesignDocs.Json
