import DesignDocs.Proofs.Json.Permuted

namespace DesignDocs.Json

/-- A format says which trees are taken, what is written again for a tree that is taken, and when
this is the whole tree. That the order of members decides none of it is part of what a format is,
and so proved once for each way to make formats of others. -/
structure Format where
  Accepts : Json → Prop
  /-- What is written for a tree that is taken. -/
  normal : Json → Json
  /-- Nothing is dropped or renamed when the tree is written. -/
  Whole : Json → Prop
  accepts_of_same : ∀ {v w}, v.Distinct → w.Distinct → Same v w → Accepts v → Accepts w
  same_normal : ∀ {v w}, v.Distinct → w.Distinct → Same v w → Accepts v →
    Same (normal v) (normal w)
  permuted_normal : ∀ {v}, v.Distinct → Accepts v → Whole v → Permuted (normal v) v

theorem Distinct.of_lookup {ms : List (String × Json)} (h : (object ms).Distinct) {key : String}
    {v : Json} (hv : ms.lookup key = some v) : v.Distinct :=
  distinctMembers_iff.1 h.2 _ (mem_of_lookup hv)

theorem forall_mem_of_forall₂ {α β : Type} {r : α → β → Prop} {p : α → Prop} {q : β → Prop}
    {xs : List α} {ys : List β} (h : List.Forall₂ r xs ys) (hp : ∀ x ∈ xs, p x)
    (hq : ∀ x ∈ xs, ∀ y ∈ ys, r x y → p x → q y) : ∀ y ∈ ys, q y := by
  induction h with
  | nil => exact List.forall_mem_nil q
  | @cons x y xs ys hxy _ ih =>
    refine List.forall_mem_cons.2 ⟨?_, ih (fun z hz ↦ hp z (List.mem_cons_of_mem x hz)) ?_⟩
    · exact hq x List.mem_cons_self y List.mem_cons_self hxy (hp x List.mem_cons_self)
    · exact fun z hz w hw ↦ hq z (List.mem_cons_of_mem x hz) w (List.mem_cons_of_mem y hw)

namespace Format

def plain (P : Json → Prop) (h : ∀ {v w}, v.Distinct → w.Distinct → Same v w → P v → P w) :
    Format where
  Accepts := P
  normal := id
  Whole _ := True
  accepts_of_same := h
  same_normal _ _ hs _ := hs
  permuted_normal _ _ _ := .refl _

def any : Format := plain (fun _ ↦ True) fun _ _ _ _ ↦ trivial

def word (P : String → Prop) : Format :=
  plain (fun v ↦ ∃ s, v = string s ∧ P s) fun _ _ hs ⟨s, hv, hp⟩ ↦ by
    subst hv
    exact ⟨s, same_string_left_iff.1 hs, hp⟩

def text : Format := word fun _ ↦ True

def nullableText : Format :=
  plain (fun v ↦ v = null ∨ ∃ s, v = string s) fun _ _ hs hv ↦ by
    obtain rfl | ⟨s, rfl⟩ := hv
    · cases hs
      exact .inl rfl
    · exact .inr ⟨s, same_string_left_iff.1 hs⟩

def bool : Format :=
  plain (fun v ↦ ∃ b, v = .bool b) fun _ _ hs ⟨b, hv⟩ ↦ by
    subst hv
    cases hs
    exact ⟨b, rfl⟩

def count : Format :=
  plain (fun v ↦ ∃ i h, v = number (.integer i h) ∧ 0 ≤ i) fun _ _ hs ⟨i, h, hv, hi⟩ ↦ by
    subst hv
    cases hs with
    | @number _ n hn =>
      cases n with
      | float x hx =>
        rw [Number.integer_beq_float] at hn
        cases hn
      | integer j hj =>
        obtain rfl := (Number.integer_beq_integer h hj).1 hn
        exact ⟨i, h, rfl, hi⟩

def object : Format :=
  plain (fun v ↦ ∃ members, v = .object members) fun _ _ hs ⟨members, hv⟩ ↦ by
    subst hv
    obtain ⟨ys, rfl, -⟩ := exists_of_same_object hs
    exact ⟨ys, rfl⟩

def entry (P : String → Prop) : Format :=
  plain (fun v ↦ ∃ name s, v = .object [(name, string s)] ∧ P s)
    fun _ hw hs ⟨name, s, hv, hp⟩ ↦ by
      subst hv
      obtain ⟨u, rfl, hu⟩ := exists_of_same_singleton hw hs
      rw [same_string_left_iff.1 hu]
      exact ⟨name, s, rfl, hp⟩

/-- The trees of a format that are objects. -/
def ofObject (F : Format) : Format where
  Accepts v := object.Accepts v ∧ F.Accepts v
  normal := F.normal
  Whole := F.Whole
  accepts_of_same hv hw hs h :=
    ⟨object.accepts_of_same hv hw hs h.1, F.accepts_of_same hv hw hs h.2⟩
  same_normal hv hw hs h := F.same_normal hv hw hs h.2
  permuted_normal hv h := F.permuted_normal hv h.2

def textOr (F : Format) : Format where
  Accepts v := text.Accepts v ∨ F.Accepts v
  normal
    | string s => string s
    | v => F.normal v
  Whole v := text.Accepts v ∨ F.Whole v
  accepts_of_same hv hw hs :=
    .imp (text.accepts_of_same hv hw hs) (F.accepts_of_same hv hw hs)
  same_normal {v w} hv hw hs h := by
    have hs' := hs
    cases hs' with
    | string s => exact .string s
    | _ =>
      obtain ⟨s, hv', -⟩ | h := h
      · cases hv'
      · exact F.same_normal hv hw hs h
  permuted_normal {v} hv h hwhole := by
    cases v with
    | string s => exact .string s
    | _ =>
      obtain ⟨s, hv', -⟩ | h := h
      · cases hv'
      · obtain ⟨s, hv', -⟩ | hwhole := hwhole
        · cases hv'
        · exact F.permuted_normal hv h hwhole

/-- A format that is chosen by what a tree has, in whatever order its members come. -/
def depending {κ : Type} (key : Json → κ)
    (hkey : ∀ {v w}, v.Distinct → w.Distinct → Same v w → key v = key w) (F : κ → Format) :
    Format where
  Accepts v := (F (key v)).Accepts v
  normal v := (F (key v)).normal v
  Whole v := (F (key v)).Whole v
  accepts_of_same hv hw hs h := by
    rw [← hkey hv hw hs]
    exact (F _).accepts_of_same hv hw hs h
  same_normal hv hw hs h := by
    rw [← hkey hv hw hs]
    exact (F _).same_normal hv hw hs h
  permuted_normal hv := (F _).permuted_normal hv

def list (F : Format) : Format where
  Accepts v := ∃ items, v = array items ∧ ∀ x ∈ items, F.Accepts x
  normal
    | array items => array (items.map F.normal)
    | v => v
  Whole v := ∀ items, v = array items → ∀ x ∈ items, F.Whole x
  accepts_of_same hv hw hs := by
    rintro ⟨xs, rfl, hxs⟩
    obtain ⟨ys, rfl, hxy⟩ := exists_of_same_array hs
    rw [Distinct, distinctItems_iff] at hv hw
    exact ⟨ys, rfl, forall_mem_of_forall₂ hxy hxs fun x hx y hy ↦
      F.accepts_of_same (hv x hx) (hw y hy)⟩
  same_normal hv hw hs := by
    rintro ⟨xs, rfl, hxs⟩
    obtain ⟨ys, rfl, hxy⟩ := exists_of_same_array hs
    rw [Distinct, distinctItems_iff] at hv hw
    rw [same_array_iff, List.forall₂_map_left_iff, List.forall₂_map_right_iff]
    exact forall₂_imp_of_mem hxy fun x hx y hy h ↦
      F.same_normal (hv x hx) (hw y hy) h (hxs x hx)
  permuted_normal hv := by
    rintro ⟨xs, rfl, hxs⟩ hwhole
    rw [Distinct, distinctItems_iff] at hv
    refine .array ?_
    rw [List.forall₂_map_left_iff, List.forall₂_same]
    exact fun x hx ↦ F.permuted_normal (hv x hx) (hxs x hx) (hwhole xs rfl x hx)

def named (F : Format) : Format where
  Accepts v := ∃ members, v = .object members ∧ ∀ p ∈ members, F.Accepts p.2
  normal
    | .object members => .object (members.map fun p ↦ (p.1, F.normal p.2))
    | v => v
  Whole v := ∀ members, v = .object members → ∀ p ∈ members, F.Whole p.2
  accepts_of_same hv hw hs := by
    rintro ⟨xs, rfl, hxs⟩
    obtain ⟨ys, rfl, hxy⟩ := exists_of_same_object hs
    refine ⟨ys, rfl, fun p hp ↦ ?_⟩
    have hrel := hxy p.1
    rw [(NamedMap.lookup_eq_some_iff hw.1).2 hp] at hrel
    cases hx : xs.lookup p.1 with
    | none =>
      rw [hx] at hrel
      cases hrel
    | some x =>
      rw [hx, Option.rel_some_some] at hrel
      exact F.accepts_of_same (hv.of_lookup hx) (distinctMembers_iff.1 hw.2 p hp) hrel
        (hxs _ (mem_of_lookup hx))
  same_normal hv hw hs := by
    rintro ⟨xs, rfl, hxs⟩
    obtain ⟨ys, rfl, hxy⟩ := exists_of_same_object hs
    refine .object fun key ↦ ?_
    rw [lookup_map_snd, lookup_map_snd]
    have hrel := hxy key
    cases hx : xs.lookup key with
    | none =>
      rw [hx, Option.rel_none_iff] at hrel
      rw [hrel]
      exact .none
    | some x =>
      rw [hx, Option.rel_some_iff] at hrel
      obtain ⟨y, hy, h⟩ := hrel
      rw [hy]
      exact .some (F.same_normal (hv.of_lookup hx) (hw.of_lookup hy) h
        (hxs _ (mem_of_lookup hx)))
  permuted_normal {v} hv := by
    rintro ⟨xs, rfl, hxs⟩ hwhole
    refine .object (by simp) ?_ (.refl xs)
    rw [List.map_map, List.forall₂_map_left_iff, List.forall₂_map_right_iff, List.forall₂_same]
    exact fun p hp ↦ F.permuted_normal (distinctMembers_iff.1 hv.2 p hp) (hxs p hp)
      (hwhole xs rfl p hp)

theorem normal_list {F : Format} (h : F.normal = id) : F.list.normal = id := by
  funext v
  cases v with
  | array items => exact congrArg Json.array (by rw [h, List.map_id])
  | _ => rfl

theorem normal_named {F : Format} (h : F.normal = id) : F.named.normal = id := by
  funext v
  cases v with
  | object members =>
    refine congrArg Json.object ?_
    rw [h]
    exact List.map_id members
  | _ => rfl

end Format

/-- A value that is there and not null. -/
def notNull : Option Json → Option Json
  | some .null => none
  | o => o

/-- What a record does with the value that a field is given. -/
inductive Slot
  /-- The value must be there. -/
  | essential (F : Format)
  /-- A null counts as absent. -/
  | optional (F : Format)
  /-- The value may be absent; a null is taken only if the format has it. -/
  | free (F : Format)
  /-- Where the value is absent, another is written. -/
  | defaulted (F : Format) (v : Json)

namespace Slot

def Accepts : Slot → Option Json → Prop
  | essential F, o => ∃ v, o = some v ∧ F.Accepts v
  | optional F, o => ∀ v ∈ o, v = .null ∨ F.Accepts v
  | free F, o | defaulted F _, o => ∀ v ∈ o, F.Accepts v

def normal : Slot → Option Json → Option Json
  | optional _, some .null => none
  | essential F, o | optional F, o | free F, o => o.map F.normal
  | defaulted F v, o => some (o.elim v F.normal)

def Whole : Slot → Option Json → Prop
  | essential F, o | free F, o => ∀ v ∈ o, F.Whole v
  | optional F, o => ∀ v ∈ o, v ≠ .null ∧ F.Whole v
  | defaulted F _, o => ∃ v, o = some v ∧ F.Whole v

theorem normal_optional {F : Format} {v : Json} (h : v ≠ .null) :
    (optional F).normal (some v) = some (F.normal v) := by
  cases v <;> first | rfl | exact absurd rfl h

theorem normal_optional_eq (F : Format) (o : Option Json) :
    (optional F).normal o = (notNull o).map F.normal := by
  cases o with
  | none => rfl
  | some v => cases v <;> rfl

variable {o p : Option Json} (ho : ∀ v ∈ o, v.Distinct)

include ho

theorem accepts_of_rel (hp : ∀ v ∈ p, v.Distinct) (h : Option.Rel Same o p) {s : Slot}
    (hs : s.Accepts o) : s.Accepts p := by
  cases h with
  | none => exact hs
  | @some v w h =>
    have hv := ho v rfl
    have hw := hp w rfl
    cases s with
    | essential F =>
      obtain ⟨_, ⟨⟩, hs⟩ := hs
      exact ⟨w, rfl, F.accepts_of_same hv hw h hs⟩
    | optional F =>
      rintro _ ⟨⟩
      obtain rfl | hs := hs v rfl
      · cases h
        exact .inl rfl
      · exact .inr (F.accepts_of_same hv hw h hs)
    | free F | defaulted F =>
      rintro _ ⟨⟩
      exact F.accepts_of_same hv hw h (hs v rfl)

theorem rel_normal (hp : ∀ v ∈ p, v.Distinct) (h : Option.Rel Same o p) {s : Slot}
    (hs : s.Accepts o) : Option.Rel Same (s.normal o) (s.normal p) := by
  cases h with
  | none =>
    cases s with
    | defaulted F u => exact .some (.refl u)
    | _ => exact .none
  | @some v w h =>
    have hv := ho v rfl
    have hw := hp w rfl
    cases s with
    | essential F =>
      obtain ⟨_, ⟨⟩, hs⟩ := hs
      exact .some (F.same_normal hv hw h hs)
    | optional F =>
      obtain rfl | hs := hs v rfl
      · cases h
        exact .none
      · by_cases hnull : v = .null
        · subst hnull
          cases h
          exact .none
        · have hnull' : w ≠ .null := by
            rintro rfl
            cases h
            exact hnull rfl
          rw [normal_optional hnull, normal_optional hnull']
          exact .some (F.same_normal hv hw h hs)
    | free F | defaulted F => exact .some (F.same_normal hv hw h (hs v rfl))

theorem permuted_normal {s : Slot} (hs : s.Accepts o) (hwhole : s.Whole o) :
    Option.Rel Permuted (s.normal o) o := by
  cases o with
  | none =>
    cases s with
    | defaulted F u =>
      obtain ⟨_, ⟨⟩, -⟩ := hwhole
    | _ => exact .none
  | some v =>
    have hv := ho v rfl
    cases s with
    | essential F =>
      obtain ⟨_, ⟨⟩, hs⟩ := hs
      exact .some (F.permuted_normal hv hs (hwhole v rfl))
    | optional F =>
      obtain ⟨hnull, hwhole⟩ := hwhole v rfl
      rw [normal_optional hnull]
      exact .some (F.permuted_normal hv ((hs v rfl).resolve_left hnull) hwhole)
    | free F => exact .some (F.permuted_normal hv (hs v rfl) (hwhole v rfl))
    | defaulted F u =>
      obtain ⟨_, ⟨⟩, hwhole⟩ := hwhole
      exact .some (F.permuted_normal hv (hs v rfl) hwhole)

end Slot

end DesignDocs.Json
