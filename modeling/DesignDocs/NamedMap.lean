namespace DesignDocs

/-- Sets the value of a name: in place if it is there, at the end if not. -/
def putEntry {α : Type} (name : String) (a : α) : List (String × α) → List (String × α)
  | [] => [(name, a)]
  | (n, b) :: rest => if n = name then (n, a) :: rest else (n, b) :: putEntry name a rest

theorem names_putEntry {α : Type} (name : String) (a : α) (l : List (String × α)) :
    (putEntry name a l).map Prod.fst =
      if name ∈ l.map Prod.fst then l.map Prod.fst else l.map Prod.fst ++ [name] := by
  induction l with
  | nil => simp [putEntry]
  | cons p rest ih =>
    obtain ⟨n, b⟩ := p
    by_cases h : n = name
    · simp [putEntry, h]
    · have hn : ¬ name = n := fun e ↦ h e.symm
      by_cases hm : name ∈ rest.map Prod.fst
      · simp only [putEntry, h, if_false, List.map_cons, ih, hm, if_true, List.mem_cons, hn,
          false_or]
      · simp only [putEntry, h, if_false, List.map_cons, ih, hm, List.mem_cons, hn, or_self,
          List.cons_append]

/-- A map from names to values that remembers the order in which names came. -/
structure NamedMap (α : Type) where
  entries : List (String × α)
  distinct : (entries.map Prod.fst).Nodup

namespace NamedMap

variable {α β : Type}

def empty : NamedMap α := ⟨[], List.nodup_nil⟩

def names (m : NamedMap α) : List String := m.entries.map Prod.fst

def size (m : NamedMap α) : Nat := m.entries.length

def isEmpty (m : NamedMap α) : Bool := m.entries.isEmpty

def find? (m : NamedMap α) (name : String) : Option α := m.entries.lookup name

def contains (m : NamedMap α) (name : String) : Bool := m.names.contains name

def insert (m : NamedMap α) (name : String) (a : α) : NamedMap α where
  entries := putEntry name a m.entries
  distinct := by
    rw [names_putEntry]
    split
    · exact m.distinct
    · next h =>
      exact List.nodup_append.2 ⟨m.distinct, by simp, fun x hx y hy e ↦ h (by simp_all)⟩

def push (m : NamedMap α) (name : String) (a : α) (h : name ∉ m.names) : NamedMap α where
  entries := m.entries ++ [(name, a)]
  distinct := by
    simp only [List.map_append, List.map_cons, List.map_nil]
    exact List.nodup_append.2 ⟨m.distinct, by simp, fun x hx y hy e ↦ h (by simp_all [names])⟩

def singleton (name : String) (a : α) : NamedMap α := ⟨[(name, a)], by simp⟩

/-- A name that is repeated in the list keeps its first place and its last value. -/
def ofList (l : List (String × α)) : NamedMap α :=
  l.foldl (fun m p ↦ m.insert p.1 p.2) empty

def map (f : α → β) (m : NamedMap α) : NamedMap β where
  entries := m.entries.map fun p ↦ (p.1, f p.2)
  distinct := by simpa [List.map_map, Function.comp_def] using m.distinct

def filterNames (p : String → Bool) (m : NamedMap α) : NamedMap α where
  entries := m.entries.filter fun e ↦ p e.1
  distinct := (List.filter_sublist.map Prod.fst).nodup m.distinct

protected def beq [BEq α] (m n : NamedMap α) : Bool :=
  m.size == n.size && m.entries.all fun p ↦
    match n.find? p.1 with
    | some b => p.2 == b
    | none => false

instance [BEq α] : BEq (NamedMap α) := ⟨NamedMap.beq⟩

@[simp] theorem names_empty : (empty : NamedMap α).names = [] := rfl

@[simp] theorem names_push (m : NamedMap α) (name : String) (a : α) (h : name ∉ m.names) :
    (m.push name a h).names = m.names ++ [name] := by
  simp [push, names]

theorem names_insert (m : NamedMap α) (name : String) (a : α) :
    (m.insert name a).names = if name ∈ m.names then m.names else m.names ++ [name] :=
  names_putEntry name a m.entries

@[simp] theorem names_map (f : α → β) (m : NamedMap α) : (m.map f).names = m.names := by
  simp [map, names, Function.comp_def]

theorem lookup_cons_eq (name : String) (a : α) (l : List (String × α)) (n : String) :
    ((name, a) :: l).lookup n = if n = name then some a else l.lookup n := by
  by_cases e : n = name
  · simp [e]
  · simp [List.lookup_cons, beq_eq_false_iff_ne.2 e, e]

theorem lookup_putEntry (name : String) (a : α) (l : List (String × α)) (n : String) :
    (putEntry name a l).lookup n = if n = name then some a else l.lookup n := by
  induction l with
  | nil => simp only [putEntry, lookup_cons_eq]
  | cons p rest ih =>
    obtain ⟨k, b⟩ := p
    by_cases hk : k = name <;> by_cases e : n = name <;> by_cases hn : n = k <;>
      simp_all [putEntry, lookup_cons_eq]

theorem lookup_eq_some_iff {l : List (String × α)} (h : (l.map Prod.fst).Nodup) {name : String}
    {a : α} : l.lookup name = some a ↔ (name, a) ∈ l := by
  induction l with
  | nil => simp
  | cons p rest ih =>
    obtain ⟨n, b⟩ := p
    simp only [List.map_cons, List.nodup_cons] at h
    by_cases e : name = n
    · subst e
      have : (name, a) ∉ rest := fun hm ↦ h.1 (List.mem_map.2 ⟨_, hm, rfl⟩)
      simp [this, eq_comm]
    · simp [lookup_cons_eq, ih h.2, e]

theorem lookup_eq_none_iff {l : List (String × α)} {name : String} :
    l.lookup name = none ↔ name ∉ l.map Prod.fst := by
  induction l with
  | nil => simp
  | cons p rest ih =>
    obtain ⟨k, b⟩ := p
    by_cases e : name = k
    · simp [e]
    · rw [lookup_cons_eq, if_neg e, ih, List.map_cons, List.mem_cons, not_or]
      exact ⟨fun h ↦ ⟨e, h⟩, And.right⟩

theorem find?_eq_some_iff {m : NamedMap α} {name : String} {a : α} :
    m.find? name = some a ↔ (name, a) ∈ m.entries :=
  lookup_eq_some_iff m.distinct

theorem find?_eq_none_iff {m : NamedMap α} {name : String} :
    m.find? name = none ↔ name ∉ m.names :=
  lookup_eq_none_iff

theorem find?_push (m : NamedMap α) (name : String) (a : α) (h : name ∉ m.names) (n : String) :
    (m.push name a h).find? n = if n = name then some a else m.find? n := by
  by_cases e : n = name
  · subst e
    simp [find?_eq_some_iff, push]
  · simp only [find?, push, List.lookup_append, lookup_cons_eq, e, if_false, List.lookup_nil,
      Option.or_none]

theorem find?_insert (m : NamedMap α) (name : String) (a : α) (n : String) :
    (m.insert name a).find? n = if n = name then some a else m.find? n :=
  lookup_putEntry name a m.entries n

end NamedMap

end DesignDocs
