import DesignDocs.Json.Number
import DesignDocs.NamedMap

namespace DesignDocs

/-- A tree as it may be spelled: its objects may repeat a key. In a `Value` none does. -/
inductive Json
  | null
  | bool (b : Bool)
  | number (n : Json.Number)
  | string (s : String)
  | array (items : List Json)
  | object (members : List (String × Json))

namespace Json

mutual

/-- No object of the tree repeats a key. -/
def Distinct : Json → Prop
  | array items => DistinctItems items
  | object members => (members.map Prod.fst).Nodup ∧ DistinctMembers members
  | _ => True

def DistinctItems : List Json → Prop
  | [] => True
  | v :: vs => v.Distinct ∧ DistinctItems vs

def DistinctMembers : List (String × Json) → Prop
  | [] => True
  | (_, v) :: ms => v.Distinct ∧ DistinctMembers ms

end

theorem distinctItems_iff {items : List Json} :
    DistinctItems items ↔ ∀ v ∈ items, v.Distinct := by
  induction items with
  | nil => simp [DistinctItems]
  | cons v vs ih => simp [DistinctItems, ih]

theorem distinctMembers_iff {members : List (String × Json)} :
    DistinctMembers members ↔ ∀ p ∈ members, p.2.Distinct := by
  induction members with
  | nil => simp [DistinctMembers]
  | cons p ms ih => obtain ⟨k, v⟩ := p; simp [DistinctMembers, ih]

mutual

/-- The tree in which a repeated key keeps its first place and its last value. -/
def merge : Json → Json
  | array items => array (mergeItems items)
  | object members => object (NamedMap.ofList (mergeMembers members)).entries
  | v => v

def mergeItems : List Json → List Json
  | [] => []
  | v :: vs => v.merge :: mergeItems vs

def mergeMembers : List (String × Json) → List (String × Json)
  | [] => []
  | (k, v) :: ms => (k, v.merge) :: mergeMembers ms

end

mutual

/-- Equality of trees without repeated keys: the order of members does not count. -/
protected def beq : Json → Json → Bool
  | null, null => true
  | bool a, bool b => a == b
  | number m, number n => m == n
  | string s, string t => s == t
  | array xs, array ys => beqItems xs ys
  | object xs, object ys => xs.length == ys.length && beqMembers xs ys
  | _, _ => false

def beqItems : List Json → List Json → Bool
  | [], [] => true
  | x :: xs, y :: ys => x.beq y && beqItems xs ys
  | _, _ => false

def beqMembers : List (String × Json) → List (String × Json) → Bool
  | [], _ => true
  | (k, v) :: ms, ns =>
    (match ns.lookup k with
      | some w => v.beq w
      | none => false) && beqMembers ms ns

end

theorem mem_putEntry {α : Type} {name : String} {a : α} {l : List (String × α)}
    {p : String × α} (h : p ∈ putEntry name a l) : p.2 = a ∨ p ∈ l := by
  induction l with
  | nil => simp_all [putEntry]
  | cons q rest ih =>
    simp only [putEntry] at h
    split at h <;> simp only [List.mem_cons] at h ⊢
    · rcases h with rfl | h
      · exact .inl rfl
      · exact .inr (.inr h)
    · rcases h with rfl | h
      · exact .inr (.inl rfl)
      · exact (ih h).imp_right .inr

theorem mem_ofList {α : Type} {l : List (String × α)} {p : String × α}
    (h : p ∈ (NamedMap.ofList l).entries) : ∃ q ∈ l, q.2 = p.2 := by
  suffices ∀ m : NamedMap α,
      p ∈ (l.foldl (fun m p ↦ m.insert p.1 p.2) m).entries →
        p ∈ m.entries ∨ ∃ q ∈ l, q.2 = p.2 by
    simpa [NamedMap.empty] using this .empty h
  clear h
  induction l with
  | nil => exact fun m h ↦ .inl h
  | cons q l ih =>
    intro m h
    rcases ih _ h with h | ⟨r, hr, e⟩
    · rcases mem_putEntry h with e | h
      · exact .inr ⟨q, by simp, e.symm⟩
      · exact .inl h
    · exact .inr ⟨r, by simp [hr], e⟩

mutual

theorem distinct_merge : ∀ v : Json, v.merge.Distinct
  | null | bool _ | number _ | string _ => by simp [merge, Distinct]
  | array items => by simpa [merge, Distinct] using distinctItems_mergeItems items
  | object members => by
    refine ⟨NamedMap.distinct _, distinctMembers_iff.2 fun p hp ↦ ?_⟩
    obtain ⟨q, hq, e⟩ := mem_ofList hp
    exact e ▸ distinctMembers_iff.1 (distinctMembers_mergeMembers members) q hq

theorem distinctItems_mergeItems : ∀ items : List Json, DistinctItems (mergeItems items)
  | [] => trivial
  | v :: vs => ⟨distinct_merge v, distinctItems_mergeItems vs⟩

theorem distinctMembers_mergeMembers :
    ∀ members : List (String × Json), DistinctMembers (mergeMembers members)
  | [] => trivial
  | (_, v) :: ms => ⟨distinct_merge v, distinctMembers_mergeMembers ms⟩

end

end Json

/-- A JSON tree none of whose objects repeats a key. -/
structure Value where
  json : Json
  distinct : json.Distinct

abbrev Object := NamedMap Value

namespace Value

def ofJson (v : Json) : Value := ⟨v.merge, v.distinct_merge⟩

instance : BEq Value := ⟨fun v w ↦ v.json.beq w.json⟩

def null : Value := ⟨.null, trivial⟩
def bool (b : Bool) : Value := ⟨.bool b, trivial⟩
def number (n : Json.Number) : Value := ⟨.number n, trivial⟩
def string (s : String) : Value := ⟨.string s, trivial⟩

def array (items : List Value) : Value where
  json := .array (items.map Value.json)
  distinct := Json.distinctItems_iff.2 fun v hv ↦ by
    obtain ⟨w, -, rfl⟩ := List.mem_map.1 hv
    exact w.distinct

def object (o : Object) : Value where
  json := .object (o.entries.map fun p ↦ (p.1, p.2.json))
  distinct := by
    refine ⟨by simpa [List.map_map, Function.comp_def] using o.distinct,
      Json.distinctMembers_iff.2 fun p hp ↦ ?_⟩
    obtain ⟨q, -, rfl⟩ := List.mem_map.1 hp
    exact q.2.distinct

def object? : Value → Option Object
  | ⟨.object members, h⟩ => some
    { entries := members.pmap (fun p hp ↦ (p.1, ⟨p.2, hp⟩)) (Json.distinctMembers_iff.1 h.2)
      distinct := by simpa [List.map_pmap] using h.1 }
  | _ => none

end Value

namespace Json

def objectOf (members : List (String × Json)) : Object :=
  NamedMap.ofList (members.map fun p ↦ (p.1, Value.ofJson p.2))

end Json

def NamedMap.toJson (o : Object) : Json := (Value.object o).json

end DesignDocs
