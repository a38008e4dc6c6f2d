import DesignDocs.Wire

namespace DesignDocs

open Json (Reader Source Field Record member?)

namespace AnalyzerConfig

inductive Member
  | name (s : String)
  | default (s : Option String)
  | fields (m : Option (NamedMap String))
  | stopwords (l : Option (List String))

/-- Analyzers by field; a field that is repeated keeps its first place and its last analyzer. -/
def readFields : Reader (NamedMap String)
  | .object members => (go members).map .ofList
  | s => .error (s.mismatch "a map")
where
  go : Json.Members → Except Json.Fault (List (String × String))
    | .done => .ok []
    | .fault f => .error f
    | .cons name value _ rest => do
      let analyzer ← Reader.text value
      let others ← go rest
      return (name, analyzer) :: others

def record : Record Member where
  expected := "struct AnalyzerConfig"
  fields :=
    [.essential "name" fun s ↦ (Reader.text s).map .name,
      .optional "default" fun s ↦ (Reader.text.optional s).map .default,
      .optional "fields" fun s ↦ (Reader.optional readFields s).map .fields,
      .optional "stopwords" fun s ↦ (Reader.optional (.list .text) s).map .stopwords]

end AnalyzerConfig

structure AnalyzerConfig where
  name : String
  default : Option String
  fields : Option (NamedMap String)
  stopwords : Option (List String)
  extras : Extras AnalyzerConfig.record.names

namespace AnalyzerConfig

def new (name : String) : AnalyzerConfig := ⟨name, none, none, none, .none⟩

def withDefault (c : AnalyzerConfig) (analyzer : String) : AnalyzerConfig :=
  { c with default := some analyzer }

def perField (default : String) : AnalyzerConfig := (new "perfield").withDefault default

def withField (c : AnalyzerConfig) (field analyzer : String) : AnalyzerConfig :=
  { c with fields := some ((c.fields.getD .empty).insert field analyzer) }

def withStopwords (c : AnalyzerConfig) (words : List String) : AnalyzerConfig :=
  { c with stopwords := some words }

def field? (c : AnalyzerConfig) (field : String) : Option String :=
  c.fields.bind (·.find? field)

instance : BEq AnalyzerConfig where
  beq c d := c.name == d.name && c.default == d.default && c.fields == d.fields &&
    c.stopwords == d.stopwords && c.extras == d.extras

def read : Reader AnalyzerConfig := fun s ↦ do
  let ms ← record.readKeeping s
  let name ← Json.required "name" (ms.modelled.findSome? fun | .name s => some s | _ => none)
  return {
    name
    default := ms.modelled.findSome? fun | .default s => s | _ => none
    fields := ms.modelled.findSome? fun | .fields m => m | _ => none
    stopwords := ms.modelled.findSome? fun | .stopwords l => l | _ => none
    extras := .ofMembers ms.others }

def fieldsToJson (m : NamedMap String) : Json :=
  .object (m.entries.map fun p ↦ (p.1, .string p.2))

def toJson (c : AnalyzerConfig) : Json :=
  .object (("name", .string c.name) :: member? "default" .string c.default ++
    member? "fields" fieldsToJson c.fields ++
    member? "stopwords" (fun l ↦ .array (l.map .string)) c.stopwords ++ c.extras.toMembers)

instance : Wire AnalyzerConfig := ⟨read, toJson⟩

end AnalyzerConfig

inductive Analyzer
  | named (name : String)
  | config (c : AnalyzerConfig)

namespace Analyzer

def name : Analyzer → String
  | named name => name
  | config c => c.name

protected def beq : Analyzer → Analyzer → Bool
  | named m, named n => m == n
  | config c, config d => c == d
  | _, _ => false

instance : BEq Analyzer := ⟨Analyzer.beq⟩

/-- The whole tree is read first; then it is a name, a configuration or neither. -/
def read : Reader Analyzer := fun s ↦ do
  let tree ← s.tree
  match tree with
  | .string name => return named name
  | tree =>
    match AnalyzerConfig.read (.ofJson tree) with
    | .ok c => return config c
    | .error _ => .error (.noVariant "Analyzer")

def toJson : Analyzer → Json
  | named name => .string name
  | config c => c.toJson

instance : Wire Analyzer := ⟨read, toJson⟩

end Analyzer

structure DefaultField where
  enabled : Option Bool
  analyzer : Option Analyzer

namespace DefaultField

inductive Member
  | enabled (b : Option Bool)
  | analyzer (a : Option Analyzer)

def record : Record Member where
  expected := "struct DefaultField"
  fields :=
    [.optional "enabled" fun s ↦ (Reader.bool.optional s).map .enabled,
      .optional "analyzer" fun s ↦ (Reader.optional Analyzer.read s).map .analyzer]

def unset : DefaultField := ⟨none, none⟩

def enabledWith (analyzer : String) : DefaultField := ⟨some true, some (.named analyzer)⟩

def disabled : DefaultField := ⟨some false, none⟩

def withEnabled (d : DefaultField) (b : Bool) : DefaultField := { d with enabled := some b }

def withAnalyzer (d : DefaultField) (a : Analyzer) : DefaultField := { d with analyzer := some a }

instance : BEq DefaultField where
  beq d e := d.enabled == e.enabled && d.analyzer == e.analyzer

def read : Reader DefaultField := fun s ↦ do
  let ms ← record.read s
  return {
    enabled := ms.findSome? fun | .enabled b => b | _ => none
    analyzer := ms.findSome? fun | .analyzer a => a | _ => none }

def toJson (d : DefaultField) : Json :=
  .object (member? "enabled" .bool d.enabled ++ member? "analyzer" Analyzer.toJson d.analyzer)

instance : Wire DefaultField := ⟨read, toJson⟩

end DefaultField

end DesignDocs
