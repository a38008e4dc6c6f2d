import DesignDocs.Document.Script

namespace DesignDocs

open Json (Reader Record member?)

inductive MapFunction
  | script (s : Script)
  | query (o : Object)

namespace MapFunction

def isEmpty : MapFunction → Bool
  | script s => s.isBlank
  | query o => o.isEmpty

protected def beq : MapFunction → MapFunction → Bool
  | script s, script t => s == t
  | query o, query p => o == p
  | _, _ => false

instance : BEq MapFunction := ⟨MapFunction.beq⟩

def read : Reader MapFunction := fun s ↦ do
  match ← s.tree with
  | .string source => return script ⟨source⟩
  | .object members => return query (Json.objectOf members)
  | _ => .error (.noVariant "MapFunction")

def toJson : MapFunction → Json
  | script s => s.toJson
  | query o => o.toJson

instance : Wire MapFunction := ⟨read, toJson⟩

end MapFunction

inductive BuiltinReducer
  | sum
  | count
  | stats
  | approxCountDistinct
  deriving DecidableEq

namespace BuiltinReducer

def keyword : BuiltinReducer → String
  | sum => "_sum"
  | count => "_count"
  | stats => "_stats"
  | approxCountDistinct => "_approx_count_distinct"

def ofKeyword? : String → Option BuiltinReducer
  | "_sum" => some sum
  | "_count" => some count
  | "_stats" => some stats
  | "_approx_count_distinct" => some approxCountDistinct
  | _ => none

end BuiltinReducer

/-- A reducer is a function, or the keyword of a built-in one with blanks around it or not. -/
structure Reducer where
  text : String
  deriving DecidableEq

namespace Reducer

def ofBuiltin (b : BuiltinReducer) : Reducer := ⟨b.keyword⟩

def builtin? (r : Reducer) : Option BuiltinReducer :=
  BuiltinReducer.ofKeyword? (Text.trim r.text)

def isBuiltin (r : Reducer) : Bool := r.builtin?.isSome

def read : Reader Reducer := fun s ↦ (Reader.text s).map .mk

def toJson (r : Reducer) : Json := .string r.text

instance : Wire Reducer := ⟨read, toJson⟩

end Reducer

namespace View

inductive Member
  | map (f : MapFunction)
  | reduce (r : Option Reducer)
  | dbcopy (s : Option String)
  | options (o : Option Object)

def record : Record Member where
  expected := "struct MapReduce"
  fields :=
    [.essential "map" fun s ↦ (MapFunction.read s).map .map,
      .optional "reduce" fun s ↦ (Reader.optional Reducer.read s).map .reduce,
      .optional "dbcopy" fun s ↦ (Reader.text.optional s).map .dbcopy,
      .optional "options" fun s ↦ (Reader.object.optional s).map .options]

end View

structure View where
  map : MapFunction
  reduce : Option Reducer
  dbcopy : Option String
  options : Option Object
  extras : Extras View.record.names

namespace View

def new (map : MapFunction) : View := ⟨map, none, none, none, .none⟩

def withReduce (v : View) (r : Reducer) : View := { v with reduce := some r }
def withDbcopy (v : View) (s : String) : View := { v with dbcopy := some s }
def withOptions (v : View) (o : Object) : View := { v with options := some o }

instance : BEq View where
  beq v w := v.map == w.map && v.reduce == w.reduce && v.dbcopy == w.dbcopy &&
    v.options == w.options && v.extras == w.extras

def read : Reader View := fun s ↦ do
  let ms ← record.readKeeping s
  let map ← Json.required "map" (ms.modelled.findSome? fun | .map f => some f | _ => none)
  return {
    map
    reduce := ms.modelled.findSome? fun | .reduce r => r | _ => none
    dbcopy := ms.modelled.findSome? fun | .dbcopy s => s | _ => none
    options := ms.modelled.findSome? fun | .options o => o | _ => none
    extras := .ofMembers ms.others }

def toJson (v : View) : Json :=
  .object (("map", v.map.toJson) :: member? "reduce" Reducer.toJson v.reduce ++
    member? "dbcopy" .string v.dbcopy ++ member? "options" NamedMap.toJson v.options ++
    v.extras.toMembers)

instance : Wire View := ⟨read, toJson⟩

end View

end DesignDocs
