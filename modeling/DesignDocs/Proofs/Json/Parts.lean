import DesignDocs.Proofs.Json.Layout

namespace DesignDocs.Json

def members : Json → List (String × Json)
  | object members => members
  | _ => []

def items : Json → List Json
  | array items => items
  | _ => []

/-- The value of the member with the key, and null where there is none. -/
def under (v : Json) (key : String) : Json := (v.members.lookup key).getD null

theorem Distinct.members {v : Json} (h : v.Distinct) : ∀ p ∈ v.members, p.2.Distinct := by
  cases v with
  | object members => exact distinctMembers_iff.1 h.2
  | _ => exact List.forall_mem_nil _

theorem Distinct.items {v : Json} (h : v.Distinct) : ∀ x ∈ v.items, x.Distinct := by
  cases v with
  | array items => exact distinctItems_iff.1 h
  | _ => exact List.forall_mem_nil _

theorem Distinct.under {v : Json} (h : v.Distinct) (key : String) : (v.under key).Distinct := by
  cases hlookup : v.members.lookup key with
  | none =>
    rw [Json.under, hlookup]
    trivial
  | some w =>
    rw [Json.under, hlookup]
    exact h.members _ (mem_of_lookup hlookup)

/-- A step from a tree to one of its parts. -/
inductive Step
  | member (key : String)
  | item (index : Nat)

def part? : List Step → Json → Option Json
  | [], v => some v
  | .member key :: path, object members => (members.lookup key).bind (part? path)
  | .item index :: path, array items => items[index]?.bind (part? path)
  | _ :: _, _ => none

theorem rel_getElem? {α β : Type} {r : α → β → Prop} {xs : List α} {ys : List β}
    (h : List.Forall₂ r xs ys) (index : Nat) : Option.Rel r xs[index]? ys[index]? := by
  induction h generalizing index with
  | nil => exact .none
  | cons hxy _ ih =>
    cases index with
    | zero => exact .some hxy
    | succ index => exact ih index

theorem rel_bind {α β γ δ : Type} {r : α → β → Prop} {s : γ → δ → Prop} {o : Option α}
    {p : Option β} {f : α → Option γ} {g : β → Option δ} (h : Option.Rel r o p)
    (hfg : ∀ a ∈ o, ∀ b, r a b → Option.Rel s (f a) (g b)) :
    Option.Rel s (o.bind f) (p.bind g) := by
  cases h with
  | none => exact .none
  | some hab => exact hfg _ rfl _ hab

namespace Permuted

variable {v w : Json} (h : Permuted v w) (hv : v.Distinct)

include h hv

theorem rel_part? (path : List Step) : Option.Rel Permuted (part? path v) (part? path w) := by
  induction path generalizing v w with
  | nil => exact .some h
  | cons step path ih =>
    have h' := h
    cases h' with
    | array hitems =>
      rw [Distinct, distinctItems_iff] at hv
      cases step with
      | member key => exact .none
      | item index =>
        exact rel_bind (rel_getElem? hitems index) fun a ha b hab ↦
          ih hab (hv a (List.mem_of_getElem? ha))
    | object =>
      cases step with
      | member key =>
        exact rel_bind (h.rel_lookup_of_object hv.1 key) fun a ha b hab ↦
          ih hab (hv.of_lookup ha)
      | item index => exact .none
    | _ => cases step <;> exact .none

/-- The texts of a permuted tree are those of the tree, each in its place. -/
theorem part?_eq_string_iff (path : List Step) (s : String) :
    part? path v = some (.string s) ↔ part? path w = some (.string s) := by
  have hrel := h.rel_part? hv path
  constructor
  · intro hs
    rw [hs, Option.rel_some_iff] at hrel
    obtain ⟨u, hu, hsu⟩ := hrel
    cases hsu
    exact hu
  · intro hs
    rw [hs] at hrel
    cases hx : part? path v with
    | none =>
      rw [hx] at hrel
      cases hrel
    | some u =>
      rw [hx, Option.rel_some_some] at hrel
      cases hrel
      rfl

end Permuted

namespace Slot

variable {F : Format} {o : Option Json}

theorem members_normal_named (F : Format) (o : Option Json) :
    (((optional (.named F)).normal o).getD null).members =
      (o.getD null).members.map fun p ↦ (p.1, F.normal p.2) := by
  cases o with
  | none => rfl
  | some v => cases v <;> rfl

theorem items_normal_list (F : Format) (o : Option Json) :
    (((optional (.list F)).normal o).getD null).items = (o.getD null).items.map F.normal := by
  cases o with
  | none => rfl
  | some v => cases v <;> rfl

theorem accepts_of_mem_named (h : (optional (.named F)).Accepts o) {p : String × Json}
    (hp : p ∈ (o.getD null).members) : F.Accepts p.2 := by
  cases o with
  | none => cases hp
  | some v =>
    obtain rfl | ⟨members, rfl, hall⟩ := h v rfl
    · cases hp
    · exact hall p hp

theorem accepts_of_mem_list (h : (optional (.list F)).Accepts o) {x : Json}
    (hx : x ∈ (o.getD null).items) : F.Accepts x := by
  cases o with
  | none => cases hx
  | some v =>
    obtain rfl | ⟨items, rfl, hall⟩ := h v rfl
    · cases hx
    · exact hall x hx

theorem whole_named (hnull : o ≠ some null) (h : ∀ p ∈ (o.getD null).members, F.Whole p.2) :
    (optional (.named F)).Whole o := by
  rintro v hv
  cases hv
  refine ⟨fun hv ↦ hnull (congrArg some hv), ?_⟩
  rintro members rfl
  exact h

theorem whole_list (hnull : o ≠ some null) (h : ∀ x ∈ (o.getD null).items, F.Whole x) :
    (optional (.list F)).Whole o := by
  rintro v hv
  cases hv
  refine ⟨fun hv ↦ hnull (congrArg some hv), ?_⟩
  rintro items rfl
  exact h

theorem whole_optional (hnull : o ≠ some null) (h : ∀ v ∈ o, F.Whole v) : (optional F).Whole o :=
  fun v hv ↦ ⟨fun he ↦ hnull (he ▸ hv), h v hv⟩

end Slot

namespace Record

variable {ε : Type} {r : Record ε}

/-- No optional member of the record is null. -/
def NullFree (r : Record ε) (v : Json) : Prop :=
  ∀ f ∈ r.fields, f.required = false → f.given v.members ≠ some null

/-- An object all of whose members the record models. -/
def Modelled (r : Record ε) (v : Json) : Prop :=
  ∃ members, v = .object members ∧ ∀ p ∈ members, p.1 ∈ r.names

instance decidableNeNull : ∀ o : Option Json, Decidable (o ≠ some null)
  | some null => isFalse fun h ↦ h rfl
  | none | some (bool _) | some (number _) | some (string _) | some (array _) | some (object _) =>
    isTrue nofun

instance decidableNullFree (v : Json) : Decidable (r.NullFree v) :=
  inferInstanceAs (Decidable (∀ f ∈ r.fields, f.required = false →
    f.given v.members ≠ some null))

instance decidableModelled : ∀ v : Json, Decidable (r.Modelled v)
  | .object members => decidable_of_iff (∀ p ∈ members, p.1 ∈ r.names)
    ⟨fun h ↦ ⟨members, rfl, h⟩, fun ⟨_, he, h⟩ ↦ Json.object.inj he ▸ h⟩
  | .null | .bool _ | .number _ | .string _ | .array _ => isFalse nofun

variable {others : Others} {slots : List Slot} {members : List (String × Json)}

theorem names_or_beside (hother : ∀ f ∈ r.fields, f.otherName? = none) :
    ∀ p ∈ members, p.1 ∈ r.names ∨ p ∈ r.beside members .kept := by
  intro p hp
  by_cases hname : p.1 ∈ r.names
  · exact .inl hname
  · refine .inr ?_
    rw [beside, unmodelled_eq hother]
    exact List.mem_filter.2 ⟨hp, decide_eq_true hname⟩

theorem forall₂_of_zipWith {α β γ : Type} {p : α → γ → Prop} {f : α → β → γ} {xs : List α}
    {ys : List β} (hl : xs.length = ys.length) (h : List.Forall₂ p xs (List.zipWith f xs ys)) :
    List.Forall₂ (fun x y ↦ p x (f x y)) xs ys := by
  induction xs generalizing ys with
  | nil =>
    obtain rfl := List.length_eq_zero_iff.1 hl.symm
    exact .nil
  | cons x xs ih =>
    match ys with
    | y :: ys =>
      obtain ⟨hxy, hrest⟩ := List.forall₂_cons.1 h
      exact .cons hxy (ih (Nat.succ.inj hl) hrest)

/-- Under the name of each field stands what its slot makes of the value given. -/
theorem forall₂_lookup_rewritten (hu : Unambiguous r.fields)
    (hl : r.fields.length = slots.length) (members : List (String × Json)) :
    List.Forall₂ (fun f (s : Slot) ↦ (r.rewritten others slots members).lookup f.name =
      s.normal (f.given members)) r.fields slots := by
  have hvalues : (r.values slots members).length = r.names.length := by
    rw [values, List.length_zipWith, ← hl, Nat.min_self, names, List.length_map]
  have hbeside : ∀ p ∈ r.beside members others, p.1 ∉ r.names := fun _ ↦ notMem_of_mem_beside hu
  have hlookup := forall₂_lookup_written hu.nodup_names hvalues hbeside
  rw [names, List.forall₂_map_left_iff] at hlookup
  exact forall₂_of_zipWith hl hlookup

/-- What a record keeps is written in the order in which it came. -/
theorem unmodelled_normal (hu : Unambiguous r.fields) (v : Json) :
    unmodelled r.fields ((Format.record r .kept slots hu).normal v).members =
      unmodelled r.fields v.members := by
  cases v with
  | object members =>
    rw [normal_object_kept]
    change (written r.names (r.values slots members) ++ unmodelled r.fields members).filter _ =
      unmodelled r.fields members
    have hwritten : (written r.names (r.values slots members)).filter
        (fun p ↦ (field? r.fields p.1).isNone) = [] := by
      refine List.filter_eq_nil_iff.2 fun p hp ↦ ?_
      obtain ⟨f, hf, hname⟩ := List.mem_map.1 (mem_written hp).1
      rw [← hname, hu.field?_name hf]
      exact Bool.false_ne_true
    rw [List.filter_append, hwritten, List.nil_append, unmodelled, List.filter_filter]
    simp only [Bool.and_self]
  | _ => rfl

end Record

end DesignDocs.Json
