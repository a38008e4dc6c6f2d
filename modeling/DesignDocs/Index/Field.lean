import DesignDocs.Index.SortOrder
import DesignDocs.Wire

namespace DesignDocs

open Json (Reader)

def splitAtLastColon (s : String) : Option (String × String) :=
  let (after, before) := s.toList.reverse.span (· != ':')
  match before with
  | [] => none
  | _ :: before => some (String.ofList before.reverse, String.ofList after.reverse)

def readSingle : Json.Members → Except Json.Fault (String × String)
  | .done => .error (.fieldShape .empty)
  | .fault f => .error f
  | .cons name value _ rest => do
    let text ← Reader.text value
    match rest with
    | .done => return (name, text)
    | .fault f => .error f
    | .cons other _ _ _ => .error (.fieldShape (.twoNames name other))

structure JsonField where
  name : String
  order : Option SortOrder
  deriving DecidableEq

namespace JsonField

def ascending (name : String) : JsonField := ⟨name, some .ascending⟩
def descending (name : String) : JsonField := ⟨name, some .descending⟩
def unordered (name : String) : JsonField := ⟨name, none⟩

def spec (f : JsonField) : String :=
  match f.order with
  | some order => f.name ++ ":" ++ order.text
  | none => f.name

def parse (s : String) : Except DesignError JsonField :=
  match splitAtLastColon s with
  | none => .ok (unordered s)
  | some (name, direction) => (SortOrder.parse direction).map fun order ↦ ⟨name, some order⟩

def read : Reader JsonField
  | .string name => .ok (unordered name)
  | .object members => do
    let (name, direction) ← readSingle members
    match SortOrder.ofText? direction with
    | some order => return ⟨name, some order⟩
    | none => .error (.fieldShape (.badDirection name direction))
  | s => .error (s.mismatch "a field name or a single-entry object of field name to direction")

def toJson (f : JsonField) : Json :=
  match f.order with
  | some order => .object [(f.name, .string order.text)]
  | none => .string f.name

instance : Wire JsonField := ⟨read, toJson⟩

end JsonField

inductive TextFieldType
  | string
  | number
  | boolean
  deriving DecidableEq

namespace TextFieldType

def text : TextFieldType → String
  | string => "string"
  | number => "number"
  | boolean => "boolean"

def ofText? : String → Option TextFieldType
  | "string" => some string
  | "number" => some number
  | "boolean" => some boolean
  | _ => none

def parse (s : String) : Except DesignError TextFieldType :=
  match ofText? s with
  | some type => .ok type
  | none =>
    .error (.of .invalidFieldShape
      s!"'{s}' is not a text field type, expected 'string', 'number' or 'boolean'")

end TextFieldType

structure TextField where
  name : String
  type : TextFieldType
  deriving DecidableEq

namespace TextField

def spec (f : TextField) : String := f.name ++ ":" ++ f.type.text

def parse (s : String) : Except DesignError TextField :=
  match splitAtLastColon s with
  | some (name, type) => (TextFieldType.parse type).map fun type ↦ ⟨name, type⟩
  | none => .error (.of .invalidFieldShape s!"text index field '{s}' must declare a type")

def read : Reader TextField
  | .string name => .error (.fieldShape (.untyped name))
  | .object members => do
    let (name, type) ← readSingle members
    match TextFieldType.ofText? type with
    | some type => return ⟨name, type⟩
    | none => .error (.fieldShape (.badType name type))
  | s => .error (s.mismatch "a single-entry object of field name to type")

def toJson (f : TextField) : Json := .object [(f.name, .string f.type.text)]

instance : Wire TextField := ⟨read, toJson⟩

end TextField

end DesignDocs
