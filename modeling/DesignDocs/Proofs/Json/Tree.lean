import DesignDocs.Json.Basic

namespace DesignDocs

namespace NamedMap

variable {α : Type}

theorem ext_entries {m n : NamedMap α} (h : m.entries = n.entries) : m = n := by
  cases m; cases n; cases h; rfl

theorem putEntry_of_notMem {name : String} (a : α) {l : List (String × α)}
    (h : name ∉ l.map Prod.fst) : putEntry name a l = l ++ [(name, a)] := by
  induction l with
  | nil => rfl
  | cons p rest ih =>
    obtain ⟨n, b⟩ := p
    simp only [List.map_cons, List.mem_cons, not_or] at h
    rw [putEntry, if_neg (Ne.symm h.1), ih h.2, List.cons_append]

theorem entries_insert_of_notMem {m : NamedMap α} {name : String} (a : α) (h : name ∉ m.names) :
    (m.insert name a).entries = m.entries ++ [(name, a)] := putEntry_of_notMem a h

theorem entries_foldl_insert {l : List (String × α)} {m : NamedMap α}
    (h : (m.names ++ l.map Prod.fst).Nodup) :
    (l.foldl (fun m p ↦ m.insert p.1 p.2) m).entries = m.entries ++ l := by
  induction l generalizing m with
  | nil => simp
  | cons p l ih =>
    obtain ⟨name, a⟩ := p
    have hn : name ∉ m.names := fun hm ↦ (List.nodup_append.1 h).2.2 name hm name (by simp) rfl
    have hnames : (m.insert name a).names = m.names ++ [name] := by
      rw [names_insert, if_neg hn]
    have h' : ((m.insert name a).names ++ l.map Prod.fst).Nodup := by
      rw [hnames]
      simpa using h
    rw [List.foldl_cons, ih h', entries_insert_of_notMem a hn]
    simp

theorem mem_names_foldl_insert {l : List (String × α)} {m : NamedMap α}
    {name : String} (h : name ∈ (l.foldl (fun m p ↦ m.insert p.1 p.2) m).names) :
    name ∈ m.names ∨ name ∈ l.map Prod.fst := by
  induction l generalizing m with
  | nil => exact .inl h
  | cons p l ih =>
    rw [List.map_cons, List.mem_cons]
    obtain h | h := ih h
    · rw [names_insert] at h
      split at h
      · exact .inl h
      · obtain h | h := List.mem_append.1 h
        · exact .inl h
        · exact .inr (.inl (List.mem_singleton.1 h))
    · exact .inr (.inr h)

theorem entries_ofList {l : List (String × α)} (h : (l.map Prod.fst).Nodup) :
    (ofList l).entries = l := by
  have h' := entries_foldl_insert (m := (empty : NamedMap α)) (l := l) (by simpa using h)
  simpa [ofList, empty] using h'

theorem find?_foldl_insert (l : List (String × α)) (m : NamedMap α) (name : String) :
    (l.foldl (fun m p ↦ m.insert p.1 p.2) m).find? name =
      (l.reverse.lookup name).or (m.find? name) := by
  induction l generalizing m with
  | nil => rfl
  | cons p l ih =>
    rw [List.foldl_cons, ih, find?_insert, List.reverse_cons, List.lookup_append,
      lookup_cons_eq, List.lookup_nil, Option.or_assoc]
    split <;> rfl

/-- A name that is repeated in the list has its last value. -/
theorem find?_ofList (l : List (String × α)) (name : String) :
    (ofList l).find? name = l.reverse.lookup name := by
  rw [ofList, find?_foldl_insert]
  exact Option.or_none

theorem ofList_entries (m : NamedMap α) : ofList m.entries = m :=
  ext_entries (entries_ofList m.distinct)

end NamedMap

namespace Json

/-- What holds of a tree when it holds of its items or of the values of its members, holds of
every tree. -/
@[elab_as_elim]
theorem induct {P : Json → Prop} (null : P .null) (bool : ∀ b, P (.bool b))
    (number : ∀ n, P (.number n)) (string : ∀ s, P (.string s))
    (array : ∀ items, (∀ v ∈ items, P v) → P (.array items))
    (object : ∀ members, (∀ p ∈ members, P p.2) → P (.object members)) (v : Json) : P v := by
  refine @Json.rec P (fun items ↦ ∀ v ∈ items, P v) (fun members ↦ ∀ p ∈ members, P p.2)
    (fun p ↦ P p.2) null bool number string array object ?_ ?_ ?_ ?_ ?_ v
  · exact fun _ h ↦ absurd h List.not_mem_nil
  · exact fun v vs hv hvs ↦ List.forall_mem_cons.2 ⟨hv, hvs⟩
  · exact fun _ h ↦ absurd h List.not_mem_nil
  · exact fun p ms hp hms ↦ List.forall_mem_cons.2 ⟨hp, hms⟩
  · exact fun _ _ h ↦ h

theorem distinct_string (s : String) : (string s).Distinct := trivial

theorem distinct_bool (b : Bool) : (bool b).Distinct := trivial

section

variable {α : Type} {f : α → Json}

theorem distinct_some {v : Json} (h : v.Distinct) : ∀ w ∈ some v, w.Distinct := by
  rintro w ⟨⟩
  exact h

theorem distinct_map (h : ∀ a, (f a).Distinct) (o : Option α) : ∀ v ∈ o.map f, v.Distinct := by
  intro v hv
  obtain ⟨a, -, rfl⟩ := Option.map_eq_some_iff.1 hv
  exact h a

theorem distinct_array_map (h : ∀ a, (f a).Distinct) (l : List α) :
    (array (l.map f)).Distinct := by
  rw [Distinct, distinctItems_iff, List.forall_mem_map]
  exact fun a _ ↦ h a

theorem distinct_object_map (h : ∀ a, (f a).Distinct) (m : NamedMap α) :
    (object (m.entries.map fun p ↦ (p.1, f p.2))).Distinct := by
  rw [Distinct, distinctMembers_iff, List.forall_mem_map, List.map_map]
  exact ⟨m.distinct, fun p _ ↦ h p.2⟩

end

/-- Some object of the tree has the key more than once. -/
inductive Repeats (key : String) : Json → Prop
  | here {members : List (String × Json)} (h : 2 ≤ (members.map Prod.fst).count key) :
    Repeats key (.object members)
  | item {items : List Json} {v : Json} (hv : v ∈ items) (h : Repeats key v) :
    Repeats key (.array items)
  | member {members : List (String × Json)} {p : String × Json} (hp : p ∈ members)
      (h : Repeats key p.2) :
    Repeats key (.object members)

theorem Repeats.not_distinct {key : String} {v : Json} (h : v.Repeats key) : ¬ v.Distinct := by
  induction h with
  | here h => exact fun hd ↦ absurd (List.nodup_iff_count.1 hd.1 key) (by omega)
  | item hv _ ih => exact fun hd ↦ ih (distinctItems_iff.1 hd _ hv)
  | member hp _ ih => exact fun hd ↦ ih (distinctMembers_iff.1 hd.2 _ hp)

mutual

/-- How many objects and arrays stand in one another. -/
def depth : Json → Nat
  | array items => depthItems items + 1
  | object members => depthMembers members + 1
  | _ => 0

def depthItems : List Json → Nat
  | [] => 0
  | v :: vs => max v.depth (depthItems vs)

def depthMembers : List (String × Json) → Nat
  | [] => 0
  | (_, v) :: ms => max v.depth (depthMembers ms)

end

theorem depthItems_le_iff {items : List Json} {n : Nat} :
    depthItems items ≤ n ↔ ∀ v ∈ items, v.depth ≤ n := by
  induction items with
  | nil => simp [depthItems]
  | cons v vs ih => rw [depthItems, Nat.max_le, ih, List.forall_mem_cons]

theorem depthMembers_le_iff {members : List (String × Json)} {n : Nat} :
    depthMembers members ≤ n ↔ ∀ p ∈ members, p.2.depth ≤ n := by
  induction members with
  | nil => simp [depthMembers]
  | cons p ms ih => rw [depthMembers, Nat.max_le, ih, List.forall_mem_cons]

mutual

/-- No number of the tree is a float. -/
def Integral : Json → Prop
  | number (.float ..) => False
  | array items => IntegralItems items
  | object members => IntegralMembers members
  | _ => True

def IntegralItems : List Json → Prop
  | [] => True
  | v :: vs => v.Integral ∧ IntegralItems vs

def IntegralMembers : List (String × Json) → Prop
  | [] => True
  | (_, v) :: ms => v.Integral ∧ IntegralMembers ms

end

theorem integralItems_iff {items : List Json} :
    IntegralItems items ↔ ∀ v ∈ items, v.Integral := by
  induction items with
  | nil => simp [IntegralItems]
  | cons v vs ih => simp [IntegralItems, ih]

theorem integralMembers_iff {members : List (String × Json)} :
    IntegralMembers members ↔ ∀ p ∈ members, p.2.Integral := by
  induction members with
  | nil => simp [IntegralMembers]
  | cons p ms ih => obtain ⟨k, v⟩ := p; simp [IntegralMembers, ih]

mutual

def decidableIntegral : ∀ v : Json, Decidable v.Integral
  | null | bool _ | string _ | number (.integer ..) => isTrue trivial
  | number (.float ..) => isFalse id
  | array items => decidableIntegralItems items
  | object members => decidableIntegralMembers members

def decidableIntegralItems : ∀ items : List Json, Decidable (IntegralItems items)
  | [] => isTrue trivial
  | v :: vs => @instDecidableAnd _ _ (decidableIntegral v) (decidableIntegralItems vs)

def decidableIntegralMembers :
    ∀ members : List (String × Json), Decidable (IntegralMembers members)
  | [] => isTrue trivial
  | (_, v) :: ms => @instDecidableAnd _ _ (decidableIntegral v) (decidableIntegralMembers ms)

end

instance (v : Json) : Decidable v.Integral := decidableIntegral v

theorem mergeItems_eq_map (items : List Json) : mergeItems items = items.map merge := by
  induction items with
  | nil => rfl
  | cons v vs ih => simp [mergeItems, ih]

theorem mergeMembers_eq_map (members : List (String × Json)) :
    mergeMembers members = members.map fun p ↦ (p.1, p.2.merge) := by
  induction members with
  | nil => rfl
  | cons p ms ih => obtain ⟨k, v⟩ := p; simp [mergeMembers, ih]

theorem merge_of_distinct {v : Json} (h : v.Distinct) : v.merge = v := by
  induction v using induct with
  | null | bool | number | string => rfl
  | array items ih =>
    rw [Distinct, distinctItems_iff] at h
    have he : items.map merge = items.map id :=
      List.map_congr_left fun v hv ↦ ih v hv (h v hv)
    rw [merge, mergeItems_eq_map, he, List.map_id]
  | object members ih =>
    rw [Distinct, distinctMembers_iff] at h
    have he : members.map (fun p ↦ (p.1, p.2.merge)) = members.map id :=
      List.map_congr_left fun p hp ↦ by rw [ih p hp (h.2 p hp), id]
    rw [merge, mergeMembers_eq_map, he, List.map_id, NamedMap.entries_ofList h.1]

end Json

namespace Value

theorem ext_json {v w : Value} (h : v.json = w.json) : v = w := by
  cases v; cases w; cases h; rfl

theorem ofJson_of_distinct {v : Json} (h : v.Distinct) : ofJson v = ⟨v, h⟩ :=
  ext_json (Json.merge_of_distinct h)

theorem distinct_toJson (o : Object) : o.toJson.Distinct := (Value.object o).distinct

@[simp] theorem ofJson_json (v : Value) : ofJson v.json = v :=
  ext_json (Json.merge_of_distinct v.distinct)

end Value

theorem Json.objectOf_entries (o : Object) :
    objectOf (o.entries.map fun p ↦ (p.1, p.2.json)) = o := by
  simp [objectOf, Function.comp_def, NamedMap.ofList_entries]

theorem Json.mem_names_objectOf {members : List (String × Json)} {name : String}
    (h : name ∈ (objectOf members).names) : name ∈ members.map Prod.fst := by
  obtain h | h := NamedMap.mem_names_foldl_insert h
  · cases h
  · rwa [List.map_map] at h

theorem Json.entries_objectOf {members : List (String × Json)} (h : (object members).Distinct) :
    (objectOf members).entries.map (fun p ↦ (p.1, p.2.json)) = members := by
  have hnames : ((members.map fun p ↦ (p.1, Value.ofJson p.2)).map Prod.fst).Nodup := by
    simpa [Function.comp_def] using h.1
  have hvalues : members.map (fun p ↦ (p.1, (Value.ofJson p.2).json)) = members.map id :=
    List.map_congr_left fun p hp ↦ by
      rw [Value.ofJson_of_distinct (distinctMembers_iff.1 h.2 p hp), id]
  rw [objectOf, NamedMap.entries_ofList hnames, List.map_map]
  exact hvalues.trans (List.map_id members)

theorem Json.toJson_objectOf {members : List (String × Json)} (h : (object members).Distinct) :
    (objectOf members).toJson = .object members :=
  congrArg Json.object (entries_objectOf h)

end DesignDocs
