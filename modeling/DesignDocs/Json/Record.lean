import DesignDocs.Json.Reader

namespace DesignDocs.Json

/-- A modelled member, read into the type `ε` of the members of its record. -/
structure Field (ε : Type) where
  name : String
  /-- A second spelling of the name. -/
  otherName? : Option String
  required : Bool
  read : Reader ε

namespace Field

variable {ε : Type}

def spelled (f : Field ε) (key : String) : Bool := f.name == key || f.otherName? == some key

def essential (name : String) (read : Reader ε) : Field ε := ⟨name, none, true, read⟩

def optional (name : String) (read : Reader ε) : Field ε := ⟨name, none, false, read⟩

def alsoCalled (f : Field ε) (name : String) : Field ε := { f with otherName? := some name }

end Field

def field? {ε : Type} (fields : List (Field ε)) (key : String) : Option (Field ε) :=
  fields.find? (·.spelled key)

/-- What becomes of members that are not modelled. -/
inductive Others
  | skipped
  | kept

/-- The modelled members of a record in the order met, and the others that were kept. -/
structure Members.Sorted (ε : Type) where
  modelled : List ε
  others : List (String × Json)

/-- Reads the members after those of the fields named in `seen`. -/
def Members.sort {ε : Type} (fields : List (Field ε)) (others : Others) (seen : List String) :
    Members → Except Fault (Members.Sorted ε)
  | .done => .ok ⟨[], []⟩
  | .fault f => .error f
  | .cons key value skip rest =>
    match field? fields key with
    | some field =>
      if seen.contains field.name then .error (.repeated field.name)
      else do
        let e ← field.read value
        let s ← rest.sort fields others (field.name :: seen)
        return { s with modelled := e :: s.modelled }
    | none =>
      match others with
      | .kept => do
        let v ← value.tree
        let s ← rest.sort fields others seen
        return { s with others := (key, v) :: s.others }
      | .skipped =>
        match skip with
        | some f => .error f
        | none => rest.sort fields others seen

/-- Why no further item is wanted. A text that lacks the end of the array, or has a comma before
it, is told from one with more items. -/
def Items.unwanted (surplus : Fault) : Items → Option Fault
  | .done => none
  | .fault (.form .trailingComma) => some (.form .trailingComma)
  | .fault (.form .endInArray) => some (.form .endInArray)
  | _ => some surplus

/-- An object with modelled members, which come in any order, each at most once. Other members are
passed over, or kept by records that keep what they do not model. A record that keeps none may also
be given as the array of its members in their own order, the last ones left out. -/
structure Record (ε : Type) where
  /-- What a reader expects where this record does not stand. -/
  expected : String
  fields : List (Field ε)

namespace Record

variable {ε : Type}

def readItems (r : Record ε) (surplus : Fault) (index : Nat) :
    List (Field ε) → Items → Except Fault (List ε)
  | [], items =>
    match items.unwanted surplus with
    | some f => .error f
    | none => .ok []
  | _ :: _, .fault f => .error f
  | field :: fields, .done =>
    if field.required then .error (.shortRecord index r.expected r.fields.length)
    else r.readItems surplus (index + 1) fields .done
  | field :: fields, .cons head tail => do
    let e ← field.read head
    let es ← r.readItems surplus (index + 1) fields tail
    return e :: es

/-- The members of a record that passes over what it does not model. -/
def read (r : Record ε) : Reader (List ε)
  | .array items surplus => r.readItems surplus 0 r.fields items
  | .object members => (members.sort r.fields .skipped []).map (·.modelled)
  | s => .error (s.mismatch r.expected)

/-- The members of a record that keeps what it does not model. -/
def readKeeping (r : Record ε) : Reader (Members.Sorted ε)
  | .object members => members.sort r.fields .kept []
  | s => .error (s.mismatch r.expected)

def names (r : Record ε) : List String := r.fields.map (·.name)

end Record

def required {α : Type} (name : String) : Option α → Except Fault α
  | some a => .ok a
  | none => .error (.missing name)

def member? {α : Type} (name : String) (toJson : α → Json) : Option α → List (String × Json)
  | some a => [(name, toJson a)]
  | none => []

end DesignDocs.Json

namespace DesignDocs

/-- The members that a record keeps beside those it models. -/
structure Extras (modelled : List String) where
  members : Object
  unmodelled : ∀ name ∈ members.names, name ∉ modelled

namespace Extras

variable {modelled : List String}

def none : Extras modelled := ⟨.empty, by simp [NamedMap.empty, NamedMap.names]⟩

def ofMembers (members : List (String × Json)) : Extras modelled where
  members := (Json.objectOf members).filterNames fun name ↦ !modelled.contains name
  unmodelled := by
    intro name h
    obtain ⟨p, hp, rfl⟩ := List.mem_map.1 h
    simpa using (List.mem_filter.1 hp).2

instance : BEq (Extras modelled) := ⟨fun x y ↦ x.members == y.members⟩

def toMembers (x : Extras modelled) : List (String × Json) :=
  x.members.entries.map fun p ↦ (p.1, p.2.json)

end Extras

end DesignDocs
