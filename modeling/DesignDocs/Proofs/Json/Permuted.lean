import DesignDocs.Proofs.Json.Equality
import Mathlib.Data.List.Nodup

namespace DesignDocs

section Lookup

variable {α : Type}

theorem lookup_filter_names (p : String → Bool) (l : List (String × α)) (key : String) :
    (l.filter fun e ↦ p e.1).lookup key = if p key then l.lookup key else none := by
  induction l with
  | nil => simp
  | cons e l ih =>
    obtain ⟨name, a⟩ := e
    by_cases hk : key = name
    · subst hk
      cases hp : p key <;> simp [hp, ih]
    · rw [NamedMap.lookup_cons_eq, if_neg hk, ← ih]
      cases hp : p name
      · rw [List.filter_cons_of_neg (by simpa using hp)]
      · rw [List.filter_cons_of_pos (by simpa using hp), NamedMap.lookup_cons_eq, if_neg hk]

theorem forall₂_imp_of_mem {β : Type} {r s : α → β → Prop} {xs : List α} {ys : List β}
    (h : List.Forall₂ r xs ys) (hs : ∀ x ∈ xs, ∀ y ∈ ys, r x y → s x y) :
    List.Forall₂ s xs ys := by
  induction h with
  | nil => exact .nil
  | @cons x y xs ys h _ ih =>
    refine .cons (hs x List.mem_cons_self y List.mem_cons_self h) (ih fun a ha b hb ↦ ?_)
    exact hs a (List.mem_cons_of_mem x ha) b (List.mem_cons_of_mem y hb)

theorem lookup_eq_of_perm {l m : List (String × α)} (h : l.Perm m) (hl : (l.map Prod.fst).Nodup)
    (key : String) : l.lookup key = m.lookup key := by
  have hm : (m.map Prod.fst).Nodup := (h.map Prod.fst).nodup_iff.1 hl
  refine Option.ext fun a ↦ ?_
  rw [NamedMap.lookup_eq_some_iff hl, NamedMap.lookup_eq_some_iff hm, h.mem_iff]

end Lookup

namespace Json

/-- The members of objects may be permuted; all else stands as it stood. -/
inductive Permuted : Json → Json → Prop
  | null : Permuted null null
  | bool (b : Bool) : Permuted (bool b) (bool b)
  | number (n : Number) : Permuted (number n) (number n)
  | string (s : String) : Permuted (string s) (string s)
  | array {xs ys : List Json} : List.Forall₂ Permuted xs ys → Permuted (array xs) (array ys)
  | object {xs ys zs : List (String × Json)} : xs.map Prod.fst = ys.map Prod.fst →
      List.Forall₂ Permuted (xs.map Prod.snd) (ys.map Prod.snd) → ys.Perm zs →
      Permuted (object xs) (object zs)

namespace Permuted

theorem refl (v : Json) : Permuted v v := by
  induction v using induct with
  | null => exact .null
  | bool b => exact .bool b
  | number n => exact .number n
  | string s => exact .string s
  | array items ih => exact .array (List.forall₂_same.2 ih)
  | object members ih =>
    refine .object rfl (List.forall₂_same.2 fun v hv ↦ ?_) (.refl _)
    obtain ⟨p, hp, rfl⟩ := List.mem_map.1 hv
    exact ih p hp

theorem rel_lookup {xs ys : List (String × Json)} (hnames : xs.map Prod.fst = ys.map Prod.fst)
    (hvalues : List.Forall₂ Permuted (xs.map Prod.snd) (ys.map Prod.snd)) (key : String) :
    Option.Rel Permuted (xs.lookup key) (ys.lookup key) := by
  induction xs generalizing ys with
  | nil =>
    obtain rfl := List.map_eq_nil_iff.1 hnames.symm
    exact .none
  | cons p xs ih =>
    obtain ⟨name, v⟩ := p
    match ys with
    | (name', w) :: ys =>
      obtain ⟨rfl, htail⟩ : name = name' ∧ xs.map Prod.fst = ys.map Prod.fst :=
        List.cons.inj hnames
      obtain ⟨hv, hvalues⟩ := List.forall₂_cons.1 hvalues
      rw [NamedMap.lookup_cons_eq, NamedMap.lookup_cons_eq]
      split
      · exact .some hv
      · exact ih htail hvalues

theorem rel_lookup_of_object {xs zs : List (String × Json)} (h : Permuted (.object xs) (.object zs))
    (hx : (xs.map Prod.fst).Nodup) (key : String) :
    Option.Rel Permuted (xs.lookup key) (zs.lookup key) := by
  cases h with
  | object hnames hvalues hperm =>
    rw [← lookup_eq_of_perm hperm (hnames ▸ hx)]
    exact rel_lookup hnames hvalues key

/-- Members that are permuted under each key can be listed in one order. -/
theorem of_lookup {xs zs : List (String × Json)} (hx : (xs.map Prod.fst).Nodup)
    (hz : (zs.map Prod.fst).Nodup)
    (h : ∀ key, Option.Rel Permuted (xs.lookup key) (zs.lookup key)) :
    Permuted (.object xs) (.object zs) := by
  have hvalue : ∀ p ∈ xs, ∃ w, zs.lookup p.1 = some w ∧ Permuted p.2 w := by
    intro p hp
    have hp' := h p.1
    rwa [(NamedMap.lookup_eq_some_iff hx).2 hp, Option.rel_some_iff] at hp'
  -- the second members in the order of the first
  let ys := xs.map fun p ↦ (p.1, (zs.lookup p.1).getD .null)
  have hnames : xs.map Prod.fst = ys.map Prod.fst := by simp [ys]
  have hy : (ys.map Prod.fst).Nodup := hnames ▸ hx
  have hperm : ys.Perm zs ↔ ∀ q, q ∈ ys ↔ q ∈ zs :=
    List.perm_ext_iff_of_nodup (List.Nodup.of_map _ hy) (List.Nodup.of_map _ hz)
  refine .object hnames ?_ (hperm.2 fun q ↦ ⟨?_, ?_⟩)
  · rw [List.map_map, List.forall₂_map_left_iff, List.forall₂_map_right_iff, List.forall₂_same]
    intro p hp
    obtain ⟨w, hw, hpw⟩ := hvalue p hp
    change Permuted p.2 ((zs.lookup p.1).getD .null)
    rwa [hw]
  · intro hq
    obtain ⟨p, hp, rfl⟩ := List.mem_map.1 hq
    obtain ⟨w, hw, -⟩ := hvalue p hp
    rw [hw]
    exact mem_of_lookup hw
  · intro hq
    have hlookup := (NamedMap.lookup_eq_some_iff hz).2 hq
    have hrel := h q.1
    cases hu : xs.lookup q.1 with
    | none =>
      rw [hu, hlookup] at hrel
      cases hrel
    | some u => exact List.mem_map.2 ⟨(q.1, u), mem_of_lookup hu, by rw [hlookup]; rfl⟩

theorem same {v w : Json} (h : Permuted v w) (hv : v.Distinct) : Same v w := by
  induction v using induct generalizing w with
  | null => cases h; exact .null
  | bool b => cases h; exact .bool b
  | number n => cases h; exact .number n.beq_refl
  | string s => cases h; exact .string s
  | array items ih =>
    cases h with
    | array h =>
      rw [Distinct, distinctItems_iff] at hv
      exact .array (forall₂_imp_of_mem h fun x hx y _ hxy ↦ ih x hx hxy (hv x hx))
  | object members ih =>
    have h' := h
    cases h' with
    | object =>
      rw [Distinct, distinctMembers_iff] at hv
      refine .object fun key ↦ ?_
      have hrel := h.rel_lookup_of_object hv.1 key
      cases hk : members.lookup key with
      | none =>
        rw [hk, Option.rel_none_iff] at hrel
        rw [hrel]
        exact .none
      | some x =>
        rw [hk, Option.rel_some_iff] at hrel
        obtain ⟨y, hy, hxy⟩ := hrel
        have hmem := mem_of_lookup hk
        rw [hy]
        exact .some (ih (key, x) hmem hxy (hv.2 _ hmem))

end Permuted

end Json

end DesignDocs
