import DesignDocs.Proofs.Json.Format
import DesignDocs.Proofs.Json.Given

namespace DesignDocs

theorem rel_findSome?_lookup {α β : Type} {r : α → β → Prop} {xs : List (String × α)}
    {ys : List (String × β)} (h : ∀ key, Option.Rel r (xs.lookup key) (ys.lookup key))
    (keys : List String) :
    Option.Rel r (keys.findSome? fun key ↦ xs.lookup key)
      (keys.findSome? fun key ↦ ys.lookup key) := by
  induction keys with
  | nil => exact .none
  | cons key keys ih =>
    have hkey := h key
    rw [List.findSome?_cons, List.findSome?_cons]
    cases hx : xs.lookup key with
    | none =>
      rw [hx, Option.rel_none_iff] at hkey
      rw [hkey]
      exact ih
    | some x =>
      rw [hx, Option.rel_some_iff] at hkey
      obtain ⟨y, hy, hxy⟩ := hkey
      rw [hy]
      exact .some hxy

theorem exists_mem_of_forall₂ {α β : Type} {p : α → β → Prop} {xs : List α} {ys : List β}
    (h : List.Forall₂ p xs ys) {x : α} (hx : x ∈ xs) : ∃ y ∈ ys, p x y := by
  induction h with
  | nil => cases hx
  | @cons a b xs ys hab _ ih =>
    obtain rfl | hx := List.mem_cons.1 hx
    · exact ⟨b, List.mem_cons_self, hab⟩
    · obtain ⟨y, hy, hxy⟩ := ih hx
      exact ⟨y, List.mem_cons_of_mem b hy, hxy⟩

theorem forall₂_and {α β : Type} {p q : α → β → Prop} {xs : List α} {ys : List β}
    (hp : List.Forall₂ p xs ys) (hq : List.Forall₂ q xs ys) :
    List.Forall₂ (fun x y ↦ p x y ∧ q x y) xs ys := by
  induction hp with
  | nil => exact .nil
  | cons hxy _ ih =>
    obtain ⟨hxy', hq⟩ := List.forall₂_cons.1 hq
    exact .cons ⟨hxy, hxy'⟩ (ih hq)

theorem forall₂_zipWith {α β γ δ : Type} {p : α → β → Prop} {q : γ → δ → Prop}
    {f : α → β → γ} {g : α → β → δ} {xs : List α} {ys : List β} (h : List.Forall₂ p xs ys)
    (hq : ∀ x ∈ xs, ∀ y, p x y → q (f x y) (g x y)) :
    List.Forall₂ q (List.zipWith f xs ys) (List.zipWith g xs ys) := by
  induction h with
  | nil => exact .nil
  | @cons x y xs ys hxy _ ih =>
    exact .cons (hq x List.mem_cons_self y hxy) (ih fun a ha ↦ hq a (List.mem_cons_of_mem x ha))

theorem forall₂_zipWith_right {α β γ : Type} {p p' : α → β → Prop} {q : α → γ → Prop}
    {f : α → β → γ} {xs : List α} {ys : List β} (h : List.Forall₂ p xs ys)
    (h' : List.Forall₂ p' xs ys) (hq : ∀ x ∈ xs, ∀ y, p x y → p' x y → q x (f x y)) :
    List.Forall₂ q xs (List.zipWith f xs ys) := by
  induction h with
  | nil => exact .nil
  | @cons x y xs ys hxy _ ih =>
    obtain ⟨hxy', h'⟩ := List.forall₂_cons.1 h'
    exact .cons (hq x List.mem_cons_self y hxy hxy')
      (ih h' fun a ha ↦ hq a (List.mem_cons_of_mem x ha))

namespace Json

variable {ε : Type}

theorem Field.distinct_given {f : Field ε} {members : List (String × Json)}
    (h : (Json.object members).Distinct) : ∀ v ∈ f.given members, v.Distinct := by
  intro v hv
  obtain ⟨key, -, hm⟩ := exists_of_given hv
  exact distinctMembers_iff.1 h.2 _ hm

namespace Record

variable (r : Record ε) (others : Others) (slots : List Slot)

/-- The members that a tree gives a record. A record that keeps others is read from objects. -/
def given? : Others → Json → Option (List (String × Json))
  | .skipped, v => r.members? v
  | .kept, .object members => some members
  | .kept, _ => none

/-- What a record keeps beside its own members. -/
def beside (members : List (String × Json)) : Others → List (String × Json)
  | .skipped => []
  | .kept => unmodelled r.fields members

/-- Each field is spelled at most once, and each slot takes what its field is given. -/
structure Fits (members : List (String × Json)) : Prop where
  once : (spelledNames r.fields members).Nodup
  slots : List.Forall₂ (fun f (s : Slot) ↦ s.Accepts (f.given members)) r.fields slots

/-- What the slots make of the members, field by field. -/
def values (members : List (String × Json)) : List (Option Json) :=
  List.zipWith (fun f s ↦ s.normal (f.given members)) r.fields slots

/-- The members that are written for those that a record is given. -/
def rewritten (members : List (String × Json)) : List (String × Json) :=
  written r.names (r.values slots members) ++ r.beside members others

/-- Every member has the name of a field or is kept, and no slot drops any of it. -/
structure Complete (members : List (String × Json)) : Prop where
  names : ∀ p ∈ members, p.1 ∈ r.names ∨ p ∈ r.beside members others
  slots : List.Forall₂ (fun f (s : Slot) ↦ s.Whole (f.given members)) r.fields slots

variable {r others slots}

theorem given?_object (members : List (String × Json)) :
    r.given? others (.object members) = some members := by
  cases others <;> rfl

theorem Unambiguous.nodup_names (hu : Unambiguous r.fields) : r.names.Nodup := hu.nodup_map_name

theorem notMem_of_mem_beside (hu : Unambiguous r.fields) {members : List (String × Json)}
    {p : String × Json} (hp : p ∈ r.beside members others) : p.1 ∉ r.names := by
  cases others with
  | skipped => cases hp
  | kept =>
    intro hm
    obtain ⟨f, hf, he⟩ := List.mem_map.1 hm
    have hnone := (List.mem_filter.1 hp).2
    rw [← he, hu.field?_name hf] at hnone
    cases hnone

theorem beside_sublist (members : List (String × Json)) :
    (r.beside members others).Sublist members := by
  cases others with
  | skipped => exact List.nil_sublist members
  | kept => exact List.filter_sublist

theorem distinct_beside {members : List (String × Json)} (hd : (Json.object members).Distinct) :
    (Json.object (r.beside members others)).Distinct := by
  refine ⟨((beside_sublist members).map Prod.fst).nodup hd.1, distinctMembers_iff.2 fun p hp ↦ ?_⟩
  exact distinctMembers_iff.1 hd.2 p ((beside_sublist members).subset hp)

theorem map_fst_zip_sublist {α β : Type} (xs : List α) (ys : List β) :
    ((xs.zip ys).map Prod.fst).Sublist xs := by
  induction xs generalizing ys with
  | nil => exact List.nil_sublist _
  | cons x xs ih =>
    cases ys with
    | nil => exact List.nil_sublist _
    | cons y ys => exact (ih ys).cons_cons x

theorem rel_lookup_zip {names : List String} {xs ys : List Json} (h : List.Forall₂ Same xs ys)
    (key : String) :
    Option.Rel Same ((names.zip xs).lookup key) ((names.zip ys).lookup key) := by
  induction h generalizing names with
  | nil =>
    rw [List.zip_nil_right, List.lookup_nil]
    exact .none
  | cons hxy _ ih =>
    cases names with
    | nil => exact .none
    | cons name names =>
      rw [List.zip_cons_cons, List.zip_cons_cons, NamedMap.lookup_cons_eq,
        NamedMap.lookup_cons_eq]
      split
      · exact .some hxy
      · exact ih

theorem distinct_of_given? (hn : r.names.Nodup) {v : Json} (hv : v.Distinct)
    {members : List (String × Json)} (h : r.given? others v = some members) :
    (Json.object members).Distinct := by
  cases v with
  | object ms =>
    rw [given?_object] at h
    cases h
    exact hv
  | array items =>
    cases others with
    | kept => cases h
    | skipped =>
      obtain ⟨-, he⟩ := Option.ite_none_right_eq_some.1 h
      cases he
      rw [Distinct, distinctItems_iff] at hv
      refine ⟨(map_fst_zip_sublist _ _).nodup hn, distinctMembers_iff.2 fun p hp ↦ ?_⟩
      exact hv p.2 (List.of_mem_zip hp).2
  | _ => cases others <;> cases h

theorem exists_given?_of_same {v w : Json} (hs : Same v w) {xs : List (String × Json)}
    (h : r.given? others v = some xs) :
    ∃ ys, r.given? others w = some ys ∧
      ∀ key, Option.Rel Same (xs.lookup key) (ys.lookup key) := by
  cases hs with
  | @object _ ys hrel =>
    rw [given?_object] at h
    cases h
    exact ⟨ys, given?_object ys, hrel⟩
  | @array items items' hitems =>
    cases others with
    | kept => cases h
    | skipped =>
      obtain ⟨hlen, he⟩ := Option.ite_none_right_eq_some.1 h
      cases he
      rw [hitems.length_eq] at hlen
      exact ⟨r.names.zip items', if_pos hlen, rel_lookup_zip hitems⟩
  | _ => cases others <;> cases h

section

variable {xs ys : List (String × Json)} (hx : (Json.object xs).Distinct)
  (hy : (Json.object ys).Distinct)
  (h : ∀ key, Option.Rel Same (xs.lookup key) (ys.lookup key))

include h in
theorem rel_given (f : Field ε) : Option.Rel Same (f.given xs) (f.given ys) :=
  rel_findSome?_lookup h f.spellings

include hx hy h

theorem perm_spelledNames (fields : List (Field ε)) :
    (spelledNames fields xs).Perm (spelledNames fields ys) := by
  have hkeys : (xs.map Prod.fst).Perm (ys.map Prod.fst) :=
    (List.perm_ext_iff_of_nodup hx.1 hy.1).2 (mem_names_iff_of_rel h)
  have hnames := hkeys.filterMap fun key ↦ (field? fields key).map (·.name)
  rwa [List.filterMap_map, List.filterMap_map] at hnames

theorem Fits.of_rel (hfits : r.Fits slots xs) : r.Fits slots ys where
  once := (perm_spelledNames hx hy h r.fields).nodup_iff.1 hfits.once
  slots := hfits.slots.imp fun f _ hs ↦
    Slot.accepts_of_rel (Field.distinct_given hx) (Field.distinct_given hy) (rel_given h f) hs

theorem Fits.rel_values (hfits : r.Fits slots xs) :
    List.Forall₂ (Option.Rel Same) (r.values slots xs) (r.values slots ys) :=
  forall₂_zipWith hfits.slots fun f _ _ hs ↦
    Slot.rel_normal (Field.distinct_given hx) (Field.distinct_given hy) (rel_given h f) hs

omit hx hy in
theorem same_beside : Same (.object (r.beside xs others)) (.object (r.beside ys others)) := by
  cases others with
  | skipped => exact .refl _
  | kept =>
    refine .object fun key ↦ ?_
    rw [beside, beside, unmodelled, unmodelled,
      lookup_filter_names fun name ↦ (field? r.fields name).isNone,
      lookup_filter_names fun name ↦ (field? r.fields name).isNone]
    split
    · exact h key
    · exact .none

theorem Fits.same_rewritten (hu : Unambiguous r.fields) (hfits : r.Fits slots xs) :
    Same (.object (r.rewritten others slots xs)) (.object (r.rewritten others slots ys)) := by
  have hlen : ∀ ms, (r.values slots ms).length = r.names.length := by
    intro ms
    rw [values, List.length_zipWith, ← hfits.slots.length_eq, Nat.min_self, names,
      List.length_map]
  rw [rewritten, rewritten, same_written_append_iff hu.nodup_names (hlen xs) (hlen ys)
    (fun _ ↦ notMem_of_mem_beside hu) fun _ ↦ notMem_of_mem_beside hu]
  exact ⟨hfits.rel_values hx hy h, same_beside h⟩

end

section

variable {members : List (String × Json)}

theorem Complete.given_eq (hu : Unambiguous r.fields) (h : r.Complete others slots members)
    {f : Field ε} (hf : f ∈ r.fields) : f.given members = members.lookup f.name := by
  cases hlookup : members.lookup f.name with
  | some v => rw [Field.given, Field.spellings, List.findSome?_cons, hlookup]
  | none =>
    rw [Option.eq_none_iff_forall_ne_some]
    intro v hv
    obtain ⟨key, hs, hm⟩ := Field.exists_of_given hv
    obtain hkey | hbeside := h.names _ hm
    · obtain ⟨g, hg, rfl⟩ := List.mem_map.1 hkey
      obtain rfl := hu.eq_of_spelled hf hg hs (spelled_name g)
      exact NamedMap.lookup_eq_none_iff.1 hlookup (List.mem_map_of_mem hm)
    · cases others with
      | skipped => cases hbeside
      | kept =>
        have hnone := (List.mem_filter.1 hbeside).2
        rw [hu.field?_eq_some_iff.2 ⟨hf, hs⟩] at hnone
        cases hnone

theorem lookup_written_append_of_notMem {names : List String} {values : List (Option Json)}
    {key : String} (hk : key ∉ names) (xs : List (String × Json)) :
    (written names values ++ xs).lookup key = xs.lookup key := by
  have hnone : (written names values ++ []).lookup key = none :=
    lookup_written_of_notMem hk (List.forall_mem_nil _)
  rw [List.append_nil] at hnone
  rw [List.lookup_append, hnone, Option.none_or]

theorem forall₂_lookup_written {names : List String} {values : List (Option Json)}
    {xs : List (String × Json)} (hn : names.Nodup) (hl : values.length = names.length)
    (hxn : ∀ p ∈ xs, p.1 ∉ names) :
    List.Forall₂ (fun name o ↦ (written names values ++ xs).lookup name = o) names values := by
  induction names generalizing values with
  | nil =>
    obtain rfl := List.length_eq_zero_iff.1 hl
    exact .nil
  | cons name names ih =>
    match values with
    | o :: values =>
      obtain ⟨hname, hn⟩ := List.nodup_cons.1 hn
      have hxn : ∀ p ∈ xs, p.1 ≠ name ∧ p.1 ∉ names := fun p hp ↦ by simpa using hxn p hp
      have htail := ih hn (Nat.succ.inj hl) fun p hp ↦ (hxn p hp).2
      refine .cons ?_ (forall₂_imp_of_mem htail fun key hk o _ h ↦ ?_)
      · rw [lookup_written_cons hname fun p hp ↦ (hxn p hp).1, if_pos rfl]
      · rw [lookup_written_cons hname fun p hp ↦ (hxn p hp).1,
          if_neg (ne_of_mem_of_not_mem hk hname), h]

theorem eq_of_written_eq {names : List String} (hn : names.Nodup)
    {as bs : List (Option Json)} (ha : as.length = names.length) (hb : bs.length = names.length)
    (h : written names as = written names bs) : as = bs := by
  have hvalues : ∀ {values : List (Option Json)}, values.length = names.length →
      names.map (List.lookup · (written names values ++ [])) = values := by
    intro values hl
    have hlookup := forall₂_lookup_written hn hl (List.forall_mem_nil _)
    rwa [← List.forall₂_map_left_iff, List.forall₂_eq_eq_eq] at hlookup
  rw [← hvalues ha, ← hvalues hb, h]

theorem lookup_beside (h : r.Complete others slots members) (hd : (Json.object members).Distinct)
    {key : String} (hk : key ∉ r.names) :
    (r.beside members others).lookup key = members.lookup key := by
  refine Option.ext fun v ↦ ?_
  rw [NamedMap.lookup_eq_some_iff (distinct_beside hd).1, NamedMap.lookup_eq_some_iff hd.1]
  refine ⟨fun hm ↦ (beside_sublist members).subset hm, fun hm ↦ ?_⟩
  exact (h.names _ hm).resolve_left hk

/-- What is written for a complete record is the record, in another order. -/
theorem Complete.permuted_rewritten (hu : Unambiguous r.fields)
    (h : r.Complete others slots members) (hfits : r.Fits slots members)
    (hd : (Json.object members).Distinct) :
    Permuted (.object (r.rewritten others slots members)) (.object members) := by
  have hvalues : List.Forall₂ (fun name o ↦ Option.Rel Permuted o (members.lookup name)) r.names
      (r.values slots members) := by
    rw [Record.names, List.forall₂_map_left_iff]
    refine forall₂_zipWith_right hfits.slots h.slots fun f hf s hs hwhole ↦ ?_
    rw [← h.given_eq hu hf]
    exact Slot.permuted_normal (Field.distinct_given hd) hs hwhole
  refine .of_lookup (nodup_written_append hu.nodup_names (distinct_beside hd).1 fun _ ↦
    notMem_of_mem_beside hu) hd.1 fun key ↦ ?_
  by_cases hk : key ∈ r.names
  · obtain ⟨o, -, hlookup, ho⟩ := exists_mem_of_forall₂ (forall₂_and (forall₂_lookup_written
      hu.nodup_names hvalues.length_eq.symm fun _ ↦ notMem_of_mem_beside hu) hvalues) hk
    rw [rewritten, hlookup]
    exact ho
  · rw [rewritten, lookup_written_append_of_notMem hk, lookup_beside h hd hk]
    cases members.lookup key with
    | none => exact .none
    | some v => exact .some (.refl v)

end

end Record

open Record in
/-- A record with a slot for each field. -/
def Format.record (r : Record ε) (others : Others) (slots : List Slot)
    (hu : Unambiguous r.fields) : Format where
  Accepts v := ∃ members, r.given? others v = some members ∧ r.Fits slots members
  normal v := (r.given? others v).elim v fun members ↦
    .object (r.rewritten others slots members)
  Whole v := ∃ members, v = .object members ∧ r.Complete others slots members
  accepts_of_same hv hw hs := by
    rintro ⟨xs, hxs, hfits⟩
    obtain ⟨ys, hys, h⟩ := exists_given?_of_same hs hxs
    exact ⟨ys, hys, hfits.of_rel (distinct_of_given? hu.nodup_names hv hxs)
      (distinct_of_given? hu.nodup_names hw hys) h⟩
  same_normal hv hw hs := by
    rintro ⟨xs, hxs, hfits⟩
    obtain ⟨ys, hys, h⟩ := exists_given?_of_same hs hxs
    rw [hxs, hys]
    exact hfits.same_rewritten (distinct_of_given? hu.nodup_names hv hxs)
      (distinct_of_given? hu.nodup_names hw hys) h hu
  permuted_normal hv := by
    rintro ⟨members, hmembers, hfits⟩ ⟨members', rfl, hcomplete⟩
    rw [given?_object] at hmembers ⊢
    cases hmembers
    exact hcomplete.permuted_rewritten hu hfits hv

namespace Record

variable {r : Record ε} {slots : List Slot} (hu : Unambiguous r.fields)
  (members : List (String × Json))

theorem normal_object_skipped : (Format.record r .skipped slots hu).normal (.object members) =
    .object (written r.names (r.values slots members)) :=
  congrArg Json.object (List.append_nil _)

omit members in
theorem exists_of_accepts_kept {v : Json} (h : (Format.record r .kept slots hu).Accepts v) :
    ∃ members, v = .object members ∧ r.Fits slots members := by
  obtain ⟨members, hmembers, hfits⟩ := h
  cases v with
  | object =>
    cases hmembers
    exact ⟨members, rfl, hfits⟩
  | _ => cases hmembers

theorem normal_object_kept : (Format.record r .kept slots hu).normal (.object members) =
    .object (written r.names (r.values slots members) ++ unmodelled r.fields members) := rfl

end Record

end Json

end DesignDocs
