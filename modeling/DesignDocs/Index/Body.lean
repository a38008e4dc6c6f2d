import DesignDocs.Analyzer
import DesignDocs.Index.Field
import DesignDocs.Selector.Basic

namespace DesignDocs

open Json (Reader Record member?)

inductive IndexType
  | json
  | text
  | special
  deriving DecidableEq

namespace IndexType

def name : IndexType → String
  | json => "json"
  | text => "text"
  | special => "special"

def ofName? : String → Option IndexType
  | "json" => some json
  | "text" => some text
  | "special" => some special
  | _ => none

def parse (s : String) : Except DesignError IndexType :=
  match ofName? s with
  | some type => .ok type
  | none => .error (.of .unknownIndexType s!"'{s}' is not a known index type")

def read : Reader IndexType := fun s ↦ do
  let name ← Reader.text s
  match ofName? name with
  | some type => return type
  | none => .error (.unknownIndexType name)

def toJson (type : IndexType) : Json := .string type.name

instance : Wire IndexType := ⟨read, toJson⟩

end IndexType

structure JsonBody where
  partialFilter : Option Selector
  selector : Option Selector
  fields : List JsonField

namespace JsonBody

inductive Member
  | partialFilter (s : Option Selector)
  | selector (s : Option Selector)
  | fields (l : List JsonField)

def record : Record Member where
  expected := "struct JsonIndexDef"
  fields :=
    [.optional "partial_filter_selector" fun s ↦
        (Reader.optional Selector.read s).map .partialFilter,
      .optional "selector" fun s ↦ (Reader.optional Selector.read s).map .selector,
      .essential "fields" fun s ↦ (Reader.list JsonField.read s).map .fields]

def new (fields : List JsonField) : JsonBody := ⟨none, none, fields⟩

instance : BEq JsonBody where
  beq b c := b.partialFilter == c.partialFilter && b.selector == c.selector &&
    b.fields == c.fields

def read : Reader JsonBody := fun s ↦ do
  let ms ← record.read s
  let fields ← Json.required "fields" (ms.findSome? fun | .fields l => some l | _ => none)
  return {
    partialFilter := ms.findSome? fun | .partialFilter s => s | _ => none
    selector := ms.findSome? fun | .selector s => s | _ => none
    fields }

def toJson (b : JsonBody) : Json :=
  .object (member? "partial_filter_selector" Selector.toJson b.partialFilter ++
    member? "selector" Selector.toJson b.selector ++
    [("fields", .array (b.fields.map JsonField.toJson))])

instance : Wire JsonBody := ⟨read, toJson⟩

end JsonBody

structure TextBody where
  defaultAnalyzer : Option Analyzer
  defaultField : Option DefaultField
  partialFilter : Option Selector
  selector : Option Selector
  fields : Option (List TextField)
  indexArrayLengths : Option Bool

namespace TextBody

inductive Member
  | defaultAnalyzer (a : Option Analyzer)
  | defaultField (d : Option DefaultField)
  | partialFilter (s : Option Selector)
  | selector (s : Option Selector)
  | fields (l : Option (List TextField))
  | indexArrayLengths (b : Option Bool)

def record : Record Member where
  expected := "struct TextIndexDef"
  fields :=
    [(Json.Field.optional "default_analyzer" fun s ↦
        (Reader.optional Analyzer.read s).map .defaultAnalyzer).alsoCalled "analyzer",
      .optional "default_field" fun s ↦ (Reader.optional DefaultField.read s).map .defaultField,
      .optional "partial_filter_selector" fun s ↦
        (Reader.optional Selector.read s).map .partialFilter,
      .optional "selector" fun s ↦ (Reader.optional Selector.read s).map .selector,
      .optional "fields" fun s ↦ (Reader.optional (.list TextField.read) s).map .fields,
      .optional "index_array_lengths" fun s ↦ (Reader.bool.optional s).map .indexArrayLengths]

def unset : TextBody := ⟨none, none, none, none, none, none⟩

instance : BEq TextBody where
  beq b c := b.defaultAnalyzer == c.defaultAnalyzer && b.defaultField == c.defaultField &&
    b.partialFilter == c.partialFilter && b.selector == c.selector && b.fields == c.fields &&
    b.indexArrayLengths == c.indexArrayLengths

def read : Reader TextBody := fun s ↦ do
  let ms ← record.read s
  return {
    defaultAnalyzer := ms.findSome? fun | .defaultAnalyzer a => a | _ => none
    defaultField := ms.findSome? fun | .defaultField d => d | _ => none
    partialFilter := ms.findSome? fun | .partialFilter s => s | _ => none
    selector := ms.findSome? fun | .selector s => s | _ => none
    fields := ms.findSome? fun | .fields l => l | _ => none
    indexArrayLengths := ms.findSome? fun | .indexArrayLengths b => b | _ => none }

def toJson (b : TextBody) : Json :=
  .object (member? "default_analyzer" Analyzer.toJson b.defaultAnalyzer ++
    member? "default_field" DefaultField.toJson b.defaultField ++
    member? "partial_filter_selector" Selector.toJson b.partialFilter ++
    member? "selector" Selector.toJson b.selector ++
    member? "fields" (fun l ↦ .array (l.map TextField.toJson)) b.fields ++
    member? "index_array_lengths" .bool b.indexArrayLengths)

instance : Wire TextBody := ⟨read, toJson⟩

end TextBody

/-- What an index is made of, by its type. -/
inductive IndexBody
  | json (b : JsonBody)
  | text (b : TextBody)
  | special (b : JsonBody)

namespace IndexBody

def type : IndexBody → IndexType
  | json _ => .json
  | text _ => .text
  | special _ => .special

protected def beq : IndexBody → IndexBody → Bool
  | json b, json c => b == c
  | text b, text c => b == c
  | special b, special c => b == c
  | _, _ => false

instance : BEq IndexBody := ⟨IndexBody.beq⟩

def read : IndexType → Reader IndexBody
  | .json, s => (JsonBody.read s).map json
  | .text, s => (TextBody.read s).map text
  | .special, s => (JsonBody.read s).map special

def toJson : IndexBody → Json
  | json b | special b => b.toJson
  | text b => b.toJson

def jsonFields? : IndexBody → Option (List JsonField)
  | json b | special b => some b.fields
  | text _ => none

def textFields? : IndexBody → Option (List TextField)
  | json _ | special _ => none
  | text b => b.fields

/-- The names of the fields, each with its direction or its type; fields are ascending unless they
say otherwise. -/
def fields : IndexBody → List (String × String)
  | json b | special b => b.fields.map fun f ↦ (f.name, (f.order.getD .ascending).text)
  | text b => (b.fields.getD []).map fun f ↦ (f.name, f.type.text)

def fieldSpecs : IndexBody → List String
  | json b | special b => b.fields.map JsonField.spec
  | text b => (b.fields.getD []).map TextField.spec

/-- The partial filter, or the selector where there is no partial filter. -/
def filter? : IndexBody → Option Selector
  | json b | special b => b.partialFilter.or b.selector
  | text b => b.partialFilter.or b.selector

end IndexBody

end DesignDocs
