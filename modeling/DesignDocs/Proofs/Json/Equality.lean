import DesignDocs.Proofs.Json.Tree
import Mathlib.Data.List.Forall2

namespace DesignDocs

section Lookup

variable {α β : Type} {r : α → β → Prop}

theorem Option.rel_none_iff {o : Option β} : Option.Rel r none o ↔ o = none :=
  ⟨fun | .none => rfl, fun h ↦ h ▸ .none⟩

theorem Option.rel_some_iff {a : α} {o : Option β} :
    Option.Rel r (some a) o ↔ ∃ b, o = some b ∧ r a b :=
  ⟨fun | .some h => ⟨_, rfl, h⟩, fun ⟨_, he, h⟩ ↦ he ▸ .some h⟩

theorem Option.eq_none_iff_of_rel {o : Option α} {p : Option β} (h : Option.Rel r o p) :
    o = none ↔ p = none := by
  cases h <;> simp

theorem Option.rel_symm_of_mem {s : β → α → Prop} {o : Option α} {p : Option β}
    (h : Option.Rel r o p) (hs : ∀ a ∈ o, ∀ b, r a b → s b a) : Option.Rel s p o := by
  cases h with
  | none => exact .none
  | some h => exact .some (hs _ rfl _ h)

theorem Option.rel_trans_of_mem {γ : Type} {s : β → γ → Prop} {t : α → γ → Prop} {o : Option α}
    {p : Option β} {q : Option γ} (h : Option.Rel r o p) (h' : Option.Rel s p q)
    (ht : ∀ a ∈ o, ∀ b c, r a b → s b c → t a c) : Option.Rel t o q := by
  cases h with
  | none =>
    cases h'
    exact .none
  | some h =>
    cases h' with
    | some h' => exact .some (ht _ rfl _ _ h h')

theorem forall₂_symm_of_mem {s : β → α → Prop} {xs : List α} {ys : List β}
    (h : List.Forall₂ r xs ys) (hs : ∀ a ∈ xs, ∀ b, r a b → s b a) : List.Forall₂ s ys xs := by
  induction h with
  | nil => exact .nil
  | cons h _ ih =>
    exact .cons (hs _ List.mem_cons_self _ h) (ih fun a ha ↦ hs a (List.mem_cons_of_mem _ ha))

theorem forall₂_trans_of_mem {γ : Type} {s : β → γ → Prop} {t : α → γ → Prop} {xs : List α}
    {ys : List β} {zs : List γ} (h : List.Forall₂ r xs ys) (h' : List.Forall₂ s ys zs)
    (ht : ∀ a ∈ xs, ∀ b c, r a b → s b c → t a c) : List.Forall₂ t xs zs := by
  induction h generalizing zs with
  | nil =>
    cases h'
    exact .nil
  | cons h _ ih =>
    cases h' with
    | cons h' hs =>
      exact .cons (ht _ List.mem_cons_self _ _ h h')
        (ih hs fun a ha ↦ ht a (List.mem_cons_of_mem _ ha))

theorem subset_of_length_le {xs ys : List String} (hx : xs.Nodup) (h : xs ⊆ ys)
    (hlen : ys.length ≤ xs.length) : ys ⊆ xs := by
  intro y hy
  by_contra hn
  have hle := List.Nodup.length_le_of_subset (List.nodup_cons.2 ⟨hn, hx⟩)
    (List.cons_subset.2 ⟨hy, h⟩)
  rw [List.length_cons] at hle
  omega

theorem mem_of_lookup {l : List (String × α)} {key : String} {a : α}
    (h : l.lookup key = some a) : (key, a) ∈ l := by
  induction l with
  | nil => cases h
  | cons p l ih =>
    obtain ⟨name, b⟩ := p
    rw [NamedMap.lookup_cons_eq] at h
    split at h
    · next he =>
      cases h
      exact he ▸ List.mem_cons_self
    · exact List.mem_cons_of_mem _ (ih h)

theorem forall₂_congr_of_mem {s : α → β → Prop} {xs : List α} {ys : List β}
    (h : ∀ x ∈ xs, ∀ y ∈ ys, (r x y ↔ s x y)) : List.Forall₂ r xs ys ↔ List.Forall₂ s xs ys := by
  induction xs generalizing ys with
  | nil => rw [List.forall₂_nil_left_iff, List.forall₂_nil_left_iff]
  | cons x xs ih =>
    cases ys with
    | nil => exact iff_of_false nofun nofun
    | cons y ys =>
      rw [List.forall₂_cons, List.forall₂_cons, h x List.mem_cons_self y List.mem_cons_self,
        ih fun a ha b hb ↦ h a (List.mem_cons_of_mem x ha) b (List.mem_cons_of_mem y hb)]

section

variable {xs : List (String × α)} {ys : List (String × β)}

theorem mem_names_iff_of_rel (h : ∀ key, Option.Rel r (xs.lookup key) (ys.lookup key))
    (key : String) : key ∈ xs.map Prod.fst ↔ key ∈ ys.map Prod.fst := by
  rw [← not_iff_not, ← NamedMap.lookup_eq_none_iff, ← NamedMap.lookup_eq_none_iff]
  exact Option.eq_none_iff_of_rel (h key)

theorem length_eq_of_rel (hx : (xs.map Prod.fst).Nodup) (hy : (ys.map Prod.fst).Nodup)
    (h : ∀ key, Option.Rel r (xs.lookup key) (ys.lookup key)) : xs.length = ys.length := by
  have hle := hx.length_le_of_subset fun key ↦ (mem_names_iff_of_rel h key).1
  have hge := hy.length_le_of_subset fun key ↦ (mem_names_iff_of_rel h key).2
  rw [List.length_map, List.length_map] at hle hge
  omega

/-- Two lists agree under each name when they are of one length and the second agrees with each
entry of the first. -/
theorem rel_lookup_iff (hx : (xs.map Prod.fst).Nodup) (hy : (ys.map Prod.fst).Nodup) :
    (∀ key, Option.Rel r (xs.lookup key) (ys.lookup key)) ↔
      xs.length = ys.length ∧ ∀ p ∈ xs, ∃ b, ys.lookup p.1 = some b ∧ r p.2 b := by
  constructor
  · intro h
    refine ⟨length_eq_of_rel hx hy h, fun p hp ↦ ?_⟩
    have hp' := h p.1
    rwa [(NamedMap.lookup_eq_some_iff hx).2 hp, Option.rel_some_iff] at hp'
  · rintro ⟨hlen, h⟩ key
    have hxy : xs.map Prod.fst ⊆ ys.map Prod.fst := by
      intro name hname
      obtain ⟨p, hp, rfl⟩ := List.mem_map.1 hname
      obtain ⟨b, hb, -⟩ := h p hp
      exact List.mem_map.2 ⟨(p.1, b), (NamedMap.lookup_eq_some_iff hy).1 hb, rfl⟩
    -- of one length, the second list has no name but those of the first
    have hyx := subset_of_length_le hx hxy (by simp [hlen])
    cases hk : xs.lookup key with
    | none =>
      have hn : key ∉ ys.map Prod.fst := fun hm ↦ NamedMap.lookup_eq_none_iff.1 hk (hyx hm)
      rw [NamedMap.lookup_eq_none_iff.2 hn]
      exact .none
    | some a =>
      rw [Option.rel_some_iff]
      exact h (key, a) ((NamedMap.lookup_eq_some_iff hx).1 hk)

end

theorem lookup_map_snd (f : α → β) (l : List (String × α)) (key : String) :
    (l.map fun p ↦ (p.1, f p.2)).lookup key = (l.lookup key).map f := by
  induction l with
  | nil => rfl
  | cons p l ih =>
    rw [List.map_cons, NamedMap.lookup_cons_eq, NamedMap.lookup_cons_eq, ih]
    split <;> rfl

end Lookup

namespace Json

/-- Trees that differ in the order of members only. -/
inductive Same : Json → Json → Prop
  | null : Same null null
  | bool (b : Bool) : Same (bool b) (bool b)
  | number {m n : Number} : m == n → Same (number m) (number n)
  | string (s : String) : Same (string s) (string s)
  | array {xs ys : List Json} : List.Forall₂ Same xs ys → Same (array xs) (array ys)
  | object {xs ys : List (String × Json)} :
      (∀ key, Option.Rel Same (xs.lookup key) (ys.lookup key)) → Same (object xs) (object ys)

@[simp] theorem same_array_iff {xs ys : List Json} :
    Same (array xs) (array ys) ↔ List.Forall₂ Same xs ys :=
  ⟨fun | .array h => h, .array⟩

theorem same_object_iff {xs ys : List (String × Json)} :
    Same (object xs) (object ys) ↔ ∀ key, Option.Rel Same (xs.lookup key) (ys.lookup key) :=
  ⟨fun | .object h => h, .object⟩

@[simp] theorem same_string_iff {s t : String} : Same (string s) (string t) ↔ s = t :=
  ⟨fun | .string _ => rfl, fun h ↦ h ▸ .string s⟩

@[simp] theorem same_bool_iff {a b : Bool} : Same (bool a) (bool b) ↔ a = b :=
  ⟨fun | .bool _ => rfl, fun h ↦ h ▸ .bool a⟩

@[simp] theorem same_number_iff {m n : Number} : Same (number m) (number n) ↔ m == n :=
  ⟨fun | .number h => h, .number⟩

theorem same_string_left_iff {s : String} {w : Json} : Same (string s) w ↔ w = string s :=
  ⟨fun | .string _ => rfl, fun h ↦ h ▸ .string s⟩

theorem exists_of_same_object {xs : List (String × Json)} {w : Json} (h : Same (object xs) w) :
    ∃ ys, w = object ys ∧ ∀ key, Option.Rel Same (xs.lookup key) (ys.lookup key) := by
  cases h with
  | object h => exact ⟨_, rfl, h⟩

theorem exists_of_same_array {xs : List Json} {w : Json} (h : Same (array xs) w) :
    ∃ ys, w = array ys ∧ List.Forall₂ Same xs ys := by
  cases h with
  | array h => exact ⟨_, rfl, h⟩

theorem exists_of_same_singleton {name : String} {v w : Json} (hw : w.Distinct)
    (h : Same (object [(name, v)]) w) : ∃ u, w = object [(name, u)] ∧ Same v u := by
  obtain ⟨ys, rfl, hrel⟩ := exists_of_same_object h
  have hx : ([(name, v)].map Prod.fst).Nodup := by simp
  have hlen := length_eq_of_rel hx hw.1 hrel
  have hname := hrel name
  rw [NamedMap.lookup_cons_eq, if_pos rfl, Option.rel_some_iff] at hname
  obtain ⟨u, hu, hvu⟩ := hname
  match ys with
  | [q] =>
    have hq : (name, u) ∈ [q] := mem_of_lookup hu
    rw [← List.mem_singleton.1 hq]
    exact ⟨u, rfl, hvu⟩

theorem same_singleton_iff {name name' : String} {v w : Json} :
    Same (object [(name, v)]) (object [(name', w)]) ↔ name = name' ∧ Same v w := by
  constructor
  · intro h
    have hname := same_object_iff.1 h name
    rw [NamedMap.lookup_cons_eq, if_pos rfl, NamedMap.lookup_cons_eq] at hname
    split at hname
    · next he =>
      cases hname with
      | some hvw => exact ⟨he, hvw⟩
    · cases hname
  · rintro ⟨rfl, hvw⟩
    refine same_object_iff.2 fun key ↦ ?_
    rw [NamedMap.lookup_cons_eq, NamedMap.lookup_cons_eq]
    split
    · exact .some hvw
    · exact .none

namespace Same

theorem refl (v : Json) : Same v v := by
  induction v using induct with
  | null => exact .null
  | bool b => exact .bool b
  | number n => exact .number n.beq_refl
  | string s => exact .string s
  | array items ih => exact .array (List.forall₂_same.2 ih)
  | object members ih =>
    refine .object fun key ↦ ?_
    cases hk : members.lookup key with
    | none => exact .none
    | some v => exact .some (ih _ (mem_of_lookup hk))

theorem symm {v w : Json} (h : Same v w) : Same w v := by
  induction v using induct generalizing w with
  | null => cases h; exact .null
  | bool b => cases h; exact .bool b
  | number n =>
    cases h with
    | number h => exact .number (Number.beq_comm _ _ ▸ h)
  | string s => cases h; exact .string s
  | array items ih =>
    cases h with
    | array h => exact .array (forall₂_symm_of_mem h fun v hv w ↦ ih v hv)
  | object members ih =>
    cases h with
    | object h =>
      refine .object fun key ↦ Option.rel_symm_of_mem (h key) fun v hv w ↦ ?_
      exact ih (key, v) (mem_of_lookup hv)

theorem trans {u v w : Json} (h : Same u v) (h' : Same v w) : Same u w := by
  induction u using induct generalizing v w with
  | null => cases h; exact h'
  | bool b => cases h; exact h'
  | number n =>
    cases h with
    | number h =>
      cases h' with
      | number h' => exact .number (Number.beq_trans h h')
  | string s => cases h; exact h'
  | array items ih =>
    cases h with
    | array h =>
      cases h' with
      | array h' => exact .array (forall₂_trans_of_mem h h' fun u hu v w ↦ ih u hu)
  | object members ih =>
    cases h with
    | object h =>
      cases h' with
      | object h' =>
        refine .object fun key ↦ Option.rel_trans_of_mem (h key) (h' key) fun u hu v w ↦ ?_
        exact ih (key, u) (mem_of_lookup hu)

end Same

theorem beqItems_iff {xs ys : List Json} :
    beqItems xs ys ↔ List.Forall₂ (fun v w ↦ v.beq w) xs ys := by
  induction xs generalizing ys with
  | nil => cases ys <;> simp [beqItems]
  | cons x xs ih => cases ys <;> simp [beqItems, ih]

theorem beqMembers_iff {xs ys : List (String × Json)} :
    beqMembers xs ys ↔ ∀ p ∈ xs, ∃ w, ys.lookup p.1 = some w ∧ p.2.beq w := by
  induction xs with
  | nil => simp [beqMembers]
  | cons p xs ih =>
    obtain ⟨key, v⟩ := p
    rw [beqMembers, Bool.and_eq_true, ih, List.forall_mem_cons]
    cases ys.lookup key <;> simp

/-- The test of equality finds trees that differ in the order of members only. -/
theorem beq_iff_same {v w : Json} (hv : v.Distinct) (hw : w.Distinct) : v.beq w ↔ Same v w := by
  induction v using induct generalizing w with
  | null =>
    cases w with
    | null => exact iff_of_true rfl .null
    | _ => exact iff_of_false Bool.false_ne_true nofun
  | bool a =>
    cases w with
    | bool b => rw [Json.beq, beq_iff_eq, same_bool_iff]
    | _ => exact iff_of_false Bool.false_ne_true nofun
  | number m =>
    cases w with
    | number n => rw [Json.beq, same_number_iff]
    | _ => exact iff_of_false Bool.false_ne_true nofun
  | string s =>
    cases w with
    | string t => rw [Json.beq, beq_iff_eq, same_string_iff]
    | _ => exact iff_of_false Bool.false_ne_true nofun
  | array xs ih =>
    cases w with
    | array ys =>
      rw [Distinct, distinctItems_iff] at hv hw
      rw [Json.beq, beqItems_iff, same_array_iff]
      exact forall₂_congr_of_mem fun x hx y hy ↦ ih x hx (hv x hx) (hw y hy)
    | _ => exact iff_of_false Bool.false_ne_true nofun
  | object xs ih =>
    cases w with
    | object ys =>
      rw [Distinct, distinctMembers_iff] at hv hw
      rw [Json.beq, Bool.and_eq_true, beq_iff_eq, beqMembers_iff, same_object_iff,
        rel_lookup_iff hv.1 hw.1]
      refine and_congr_right fun _ ↦ forall₂_congr fun p hp ↦ exists_congr fun w' ↦
        and_congr_right fun hlookup ↦ ?_
      exact ih p hp (hv.2 p hp) (hw.2 _ (mem_of_lookup hlookup))
    | _ => exact iff_of_false Bool.false_ne_true nofun

end Json

namespace Value

theorem beq_iff_same {v w : Value} : v == w ↔ Json.Same v.json w.json :=
  Json.beq_iff_same v.distinct w.distinct

end Value

namespace NamedMap

variable {α : Type} [BEq α]

theorem beq_iff_find? {m n : NamedMap α} :
    m == n ↔ ∀ name, Option.Rel (fun a b ↦ a == b) (m.find? name) (n.find? name) := by
  change NamedMap.beq m n ↔ _
  rw [NamedMap.beq, Bool.and_eq_true, beq_iff_eq, List.all_eq_true]
  refine Iff.trans (and_congr_right fun _ ↦ forall₂_congr fun p _ ↦ ?_)
    (rel_lookup_iff m.distinct n.distinct).symm
  rw [find?]
  cases n.entries.lookup p.1 <;> simp

end NamedMap

namespace Json

variable {α : Type} [BEq α] {f : α → Json}

/-- What is written for two things is the same just when they are equal. -/
def Faithful (f : α → Json) : Prop := ∀ a b, Same (f a) (f b) ↔ a == b

namespace Faithful

theorem string : Faithful Json.string := fun s t ↦ by rw [same_string_iff, beq_iff_eq]

theorem bool : Faithful Json.bool := fun a b ↦ by rw [same_bool_iff, beq_iff_eq]

theorem value : Faithful Value.json := fun _ _ ↦ Value.beq_iff_same.symm

theorem rel_map_iff (h : Faithful f) {o p : Option α} :
    Option.Rel Same (o.map f) (p.map f) ↔ o == p := by
  cases o <;> cases p <;> simp [h _ _, Option.rel_none_iff]

theorem list (h : Faithful f) : Faithful fun l : List α ↦ array (l.map f) := fun l m ↦ by
  rw [same_array_iff]
  induction l generalizing m with
  | nil => cases m <;> simp
  | cons a l ih =>
    cases m with
    | nil => exact iff_of_false nofun Bool.false_ne_true
    | cons b m => rw [List.map_cons, List.map_cons, List.forall₂_cons, h a b, ih m]; simp

theorem named (h : Faithful f) :
    Faithful fun m : NamedMap α ↦ object (m.entries.map fun p ↦ (p.1, f p.2)) := fun m n ↦ by
  rw [same_object_iff, NamedMap.beq_iff_find?]
  refine forall_congr' fun name ↦ ?_
  rw [lookup_map_snd, lookup_map_snd, h.rel_map_iff, NamedMap.find?, NamedMap.find?]
  cases m.entries.lookup name <;> cases n.entries.lookup name <;> simp [Option.rel_none_iff]

theorem object : Faithful NamedMap.toJson := named value

end Faithful

end Json

end DesignDocs
