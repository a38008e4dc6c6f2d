import DesignDocs.Index.Body

namespace DesignDocs

open Json (Reader Record member?)

/-- A name may be absent, null or a text. -/
structure QueryIndex where
  designDocument : Option (Option String)
  name : Option (Option String)
  body : IndexBody

namespace QueryIndex

def new (designDocument name : Option String) (body : IndexBody) : QueryIndex :=
  ⟨designDocument.map some, name.map some, body⟩

def designDocument? (i : QueryIndex) : Option String := i.designDocument.join

def name? (i : QueryIndex) : Option String := i.name.join

def type (i : QueryIndex) : IndexType := i.body.type

instance : BEq QueryIndex where
  beq i j := i.designDocument == j.designDocument && i.name == j.name && i.body == j.body

inductive Member
  | designDocument (s : Option String)
  | name (s : Option String)
  | type (t : IndexType)
  | body (v : Value)

def record : Record Member where
  expected := "struct RawIndexDefinition"
  fields :=
    [.optional "ddoc" fun s ↦ (Reader.text.optional s).map .designDocument,
      .optional "name" fun s ↦ (Reader.text.optional s).map .name,
      .optional "type" fun s ↦ (IndexType.read s).map .type,
      (Json.Field.essential "def" fun s ↦ s.distinctValue.map .body).alsoCalled "index"]

def readBody (type : IndexType) (body : Value) : Except Json.Fault IndexBody :=
  match body.json with
  | .object _ => (IndexBody.read type (.ofJson body.json)).mapError .inDefinition
  | _ => .error .definitionNotObject

/-- A definition without type is one of a json index. -/
def read : Reader QueryIndex := fun s ↦ do
  let ms ← record.read s
  let value ← Json.required "def" (ms.findSome? fun | .body v => some v | _ => none)
  let type := (ms.findSome? fun | .type t => some t | _ => none).getD .json
  let body ← readBody type value
  return {
    designDocument := ms.findSome? fun | .designDocument s => some s | _ => none
    name := ms.findSome? fun | .name s => some s | _ => none
    body }

def nullable : Option String → Json
  | some s => .string s
  | none => .null

def toJsonUnder (key : String) (i : QueryIndex) : Json :=
  .object (member? "ddoc" nullable i.designDocument ++ member? "name" nullable i.name ++
    [("type", i.type.toJson), (key, i.body.toJson)])

def toJson (i : QueryIndex) : Json := i.toJsonUnder "def"

instance : Wire QueryIndex := ⟨read, toJson⟩

def display (i : QueryIndex) : String :=
  i.name?.getD "<unnamed>" ++ " (" ++ i.type.name ++ ") [" ++
    String.intercalate ", " i.body.fieldSpecs ++ "]"

end QueryIndex

end DesignDocs
