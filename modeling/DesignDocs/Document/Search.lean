import DesignDocs.Analyzer
import DesignDocs.Document.Script

namespace DesignDocs

open Json (Reader Record member?)

structure SearchIndex where
  index : Script
  analyzer : Option Analyzer

namespace SearchIndex

inductive Member
  | index (s : Script)
  | analyzer (a : Option Analyzer)

def record : Record Member where
  expected := "struct SearchIndex"
  fields :=
    [.essential "index" fun s ↦ (Script.read s).map .index,
      .optional "analyzer" fun s ↦ (Reader.optional Analyzer.read s).map .analyzer]

def new (index : Script) : SearchIndex := ⟨index, none⟩

def withAnalyzer (i : SearchIndex) (a : Analyzer) : SearchIndex := { i with analyzer := some a }

instance : BEq SearchIndex where
  beq i j := i.index == j.index && i.analyzer == j.analyzer

def read : Reader SearchIndex := fun s ↦ do
  let ms ← record.read s
  let index ← Json.required "index" (ms.findSome? fun | .index s => some s | _ => none)
  return { index, analyzer := ms.findSome? fun | .analyzer a => a | _ => none }

def toJson (i : SearchIndex) : Json :=
  .object (("index", i.index.toJson) :: member? "analyzer" Analyzer.toJson i.analyzer)

instance : Wire SearchIndex := ⟨read, toJson⟩

end SearchIndex

structure FulltextIndex where
  index : Script
  defaults : Option Object
  analyzer : Option String

namespace FulltextIndex

inductive Member
  | index (s : Script)
  | defaults (o : Option Object)
  | analyzer (s : Option String)

def record : Record Member where
  expected := "struct FulltextIndex"
  fields :=
    [.essential "index" fun s ↦ (Script.read s).map .index,
      .optional "defaults" fun s ↦ (Reader.object.optional s).map .defaults,
      .optional "analyzer" fun s ↦ (Reader.text.optional s).map .analyzer]

def new (index : Script) : FulltextIndex := ⟨index, none, none⟩

def withDefaults (i : FulltextIndex) (o : Object) : FulltextIndex := { i with defaults := some o }

def withAnalyzer (i : FulltextIndex) (s : String) : FulltextIndex := { i with analyzer := some s }

instance : BEq FulltextIndex where
  beq i j := i.index == j.index && i.defaults == j.defaults && i.analyzer == j.analyzer

def read : Reader FulltextIndex := fun s ↦ do
  let ms ← record.read s
  let index ← Json.required "index" (ms.findSome? fun | .index s => some s | _ => none)
  return {
    index
    defaults := ms.findSome? fun | .defaults o => o | _ => none
    analyzer := ms.findSome? fun | .analyzer s => s | _ => none }

def toJson (i : FulltextIndex) : Json :=
  .object (("index", i.index.toJson) :: member? "defaults" NamedMap.toJson i.defaults ++
    member? "analyzer" .string i.analyzer)

instance : Wire FulltextIndex := ⟨read, toJson⟩

end FulltextIndex

end DesignDocs
