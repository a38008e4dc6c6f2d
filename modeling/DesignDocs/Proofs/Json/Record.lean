import DesignDocs.Json.Record
import DesignDocs.Proofs.Json.Codec
import DesignDocs.Proofs.Json.Equality
import Mathlib.Data.List.ReduceOption

namespace DesignDocs

theorem Json.Field.spelled_iff {ε : Type} {f : Json.Field ε} (h : f.otherName? = none)
    {key : String} : f.spelled key ↔ f.name = key := by
  simp [spelled, h]

namespace Extras

variable {modelled : List String}

theorem ofMembers_toMembers (x : Extras modelled) : ofMembers x.toMembers = x := by
  obtain ⟨o, ho⟩ := x
  have hfilter : o.filterNames (fun name ↦ !modelled.contains name) = o := by
    refine NamedMap.ext_entries (List.filter_eq_self.2 fun p hp ↦ ?_)
    have hp := ho p.1 (List.mem_map.2 ⟨p, hp, rfl⟩)
    simpa using hp
  simp only [ofMembers, toMembers, Json.objectOf_entries, hfilter]

theorem members_ofMembers {xs : List (String × Json)} (hx : ∀ p ∈ xs, p.1 ∉ modelled) :
    (ofMembers xs : Extras modelled).members = Json.objectOf xs := by
  refine NamedMap.ext_entries (List.filter_eq_self.2 fun e he ↦ ?_)
  obtain ⟨p, hp, hname⟩ := List.mem_map.1 (Json.mem_names_objectOf (List.mem_map_of_mem he))
  have hnot := hx p hp
  rw [hname] at hnot
  simpa using hnot

/-- Members without repeats that are not modelled are kept as they stand. -/
theorem toMembers_ofMembers {xs : List (String × Json)} (hd : (Json.object xs).Distinct)
    (hx : ∀ p ∈ xs, p.1 ∉ modelled) : (ofMembers xs : Extras modelled).toMembers = xs := by
  rw [toMembers, members_ofMembers hx]
  exact Json.entries_objectOf hd

theorem notMem_of_mem {x : Extras modelled} {p : String × Json} (hp : p ∈ x.toMembers) :
    p.1 ∉ modelled := by
  obtain ⟨q, hq, rfl⟩ := List.mem_map.1 hp
  exact x.unmodelled q.1 (List.mem_map.2 ⟨q, hq, rfl⟩)

theorem field?_of_mem {ε : Type} {r : Json.Record ε}
    (hother : ∀ f ∈ r.fields, f.otherName? = Option.none) {x : Extras r.names}
    {p : String × Json} (hp : p ∈ x.toMembers) : Json.field? r.fields p.1 = Option.none := by
  refine List.find?_eq_none.2 fun f hf hs ↦ notMem_of_mem hp ?_
  exact List.mem_map.2 ⟨f, hf, (Json.Field.spelled_iff (hother f hf)).1 hs⟩

theorem distinct_toMembers (x : Extras modelled) : (Json.object x.toMembers).Distinct :=
  (Value.object x.members).distinct

theorem same_toMembers_iff {x y : Extras modelled} :
    Json.Same (.object x.toMembers) (.object y.toMembers) ↔ x == y :=
  Json.Faithful.object x.members y.members

end Extras

namespace Json

open Source (ofTree ofTreeItems ofTreeMembers)

variable {α ε : Type}

namespace Record

/-- The members that have a value, each under its name. -/
def written : List String → List (Option Json) → List (String × Json)
  | name :: names, some v :: values => (name, v) :: written names values
  | _ :: names, none :: values => written names values
  | _, _ => []

section

variable {name : String} {names : List String} {values : List (Option Json)}

@[simp] theorem written_nil : written [] values = [] := by cases values <;> rfl

@[simp] theorem written_some (v : Json) :
    written (name :: names) (some v :: values) = (name, v) :: written names values := rfl

@[simp] theorem written_map (toJson : α → Json) (o : Option α) :
    written (name :: names) (o.map toJson :: values) =
      member? name toJson o ++ written names values := by
  cases o <;> rfl

theorem written_option (o : Option Json) :
    written (name :: names) (o :: values) = member? name id o ++ written names values := by
  cases o <;> rfl

theorem mem_written {p : String × Json} (h : p ∈ written names values) :
    p.1 ∈ names ∧ some p.2 ∈ values := by
  induction names generalizing values with
  | nil => simp at h
  | cons name names ih =>
    match values with
    | [] => cases h
    | none :: values =>
      obtain ⟨hname, hvalue⟩ := ih h
      exact ⟨List.mem_cons_of_mem _ hname, List.mem_cons_of_mem _ hvalue⟩
    | some v :: values =>
      obtain rfl | h := List.mem_cons.1 h
      · exact ⟨List.mem_cons_self, List.mem_cons_self⟩
      · obtain ⟨hname, hvalue⟩ := ih h
        exact ⟨List.mem_cons_of_mem _ hname, List.mem_cons_of_mem _ hvalue⟩

theorem map_fst_written_sublist : ((written names values).map Prod.fst).Sublist names := by
  induction names generalizing values with
  | nil => simp
  | cons name names ih =>
    match values with
    | [] => exact List.nil_sublist _
    | none :: _ => exact ih.cons name
    | some _ :: _ => exact ih.cons_cons name

theorem nodup_written_append (hn : names.Nodup) {xs : List (String × Json)}
    (hx : (xs.map Prod.fst).Nodup) (hxn : ∀ p ∈ xs, p.1 ∉ names) :
    ((written names values ++ xs).map Prod.fst).Nodup := by
  rw [List.map_append, List.nodup_append]
  refine ⟨map_fst_written_sublist.nodup hn, hx, ?_⟩
  rintro key hkey _ hother rfl
  obtain ⟨p, hp, rfl⟩ := List.mem_map.1 hother
  exact hxn p hp (map_fst_written_sublist.subset hkey)

theorem distinct_written_append (hn : names.Nodup) (hv : ∀ o ∈ values, ∀ v ∈ o, v.Distinct)
    {xs : List (String × Json)} (hx : (Json.object xs).Distinct) (hxn : ∀ p ∈ xs, p.1 ∉ names) :
    (Json.object (written names values ++ xs)).Distinct := by
  rw [Distinct, distinctMembers_iff] at hx ⊢
  refine ⟨nodup_written_append hn hx.1 hxn, fun p hp ↦ ?_⟩
  obtain hp | hp := List.mem_append.1 hp
  · exact hv (some p.2) (mem_written hp).2 p.2 rfl
  · exact hx.2 p hp

theorem lookup_written_of_notMem (hn : name ∉ names) {xs : List (String × Json)}
    (hxn : ∀ p ∈ xs, p.1 ≠ name) : (written names values ++ xs).lookup name = none := by
  rw [NamedMap.lookup_eq_none_iff]
  intro hm
  obtain ⟨p, hp, he⟩ := List.mem_map.1 hm
  obtain hp | hp := List.mem_append.1 hp
  · exact hn (he ▸ (mem_written hp).1)
  · exact hxn p hp he

theorem lookup_written_cons (hn : name ∉ names) {xs : List (String × Json)}
    (hxn : ∀ p ∈ xs, p.1 ≠ name) (o : Option Json) (key : String) :
    (written (name :: names) (o :: values) ++ xs).lookup key =
      if key = name then o else (written names values ++ xs).lookup key := by
  cases o with
  | some v => exact NamedMap.lookup_cons_eq name v _ key
  | none =>
    rw [written]
    split
    · next he => rw [he, lookup_written_of_notMem hn hxn]
    · rfl

/-- Two records are written alike when they agree on each member and on what they keep beside. -/
theorem same_written_append_iff (hn : names.Nodup) {as bs : List (Option Json)}
    (ha : as.length = names.length) (hb : bs.length = names.length) {xs ys : List (String × Json)}
    (hxn : ∀ p ∈ xs, p.1 ∉ names) (hyn : ∀ p ∈ ys, p.1 ∉ names) :
    Same (.object (written names as ++ xs)) (.object (written names bs ++ ys)) ↔
      List.Forall₂ (Option.Rel Same) as bs ∧ Same (.object xs) (.object ys) := by
  induction names generalizing as bs with
  | nil =>
    obtain rfl := List.length_eq_zero_iff.1 ha
    obtain rfl := List.length_eq_zero_iff.1 hb
    simp
  | cons name names ih =>
    match as, bs with
    | a :: as, b :: bs =>
      obtain ⟨hname, hn⟩ := List.nodup_cons.1 hn
      have hx : ∀ p ∈ xs, p.1 ≠ name ∧ p.1 ∉ names := fun p hp ↦ by simpa using hxn p hp
      have hy : ∀ p ∈ ys, p.1 ≠ name ∧ p.1 ∉ names := fun p hp ↦ by simpa using hyn p hp
      have ih := ih hn (Nat.succ.inj ha) (Nat.succ.inj hb) (fun p hp ↦ (hx p hp).2)
        fun p hp ↦ (hy p hp).2
      rw [List.forall₂_cons, and_assoc, ← ih, same_object_iff, same_object_iff]
      simp only [lookup_written_cons hname fun p hp ↦ (hx p hp).1,
        lookup_written_cons hname fun p hp ↦ (hy p hp).1]
      constructor
      · intro h
        refine ⟨by simpa using h name, fun key ↦ ?_⟩
        by_cases he : key = name
        · rw [he, lookup_written_of_notMem hname fun p hp ↦ (hx p hp).1,
            lookup_written_of_notMem hname fun p hp ↦ (hy p hp).1]
          exact .none
        · simpa [he] using h key
      · rintro ⟨hab, h⟩ key
        split
        · exact hab
        · exact h key

end

/-- Each field reads its value, where it has one, as the member given for it. -/
inductive ReadsFields : List (Field ε) → List (Option Json) → List (Option ε) → Prop
  | nil : ReadsFields [] [] []
  | absent (f : Field ε) {fs : List (Field ε)} {values : List (Option Json)}
      {members : List (Option ε)} :
      ReadsFields fs values members → ReadsFields (f :: fs) (none :: values) (none :: members)
  | present {f : Field ε} {v : Json} {e : ε} {fs : List (Field ε)} {values : List (Option Json)}
      {members : List (Option ε)} :
      Reads f.read v e → ReadsFields fs values members →
        ReadsFields (f :: fs) (some v :: values) (some e :: members)

theorem ReadsFields.option {f : Field ε} {o : Option α} {toJson : α → Json} {member : α → ε}
    {fs : List (Field ε)} {values : List (Option Json)} {members : List (Option ε)}
    (h : ∀ a ∈ o, Reads f.read (toJson a) (member a)) (hs : ReadsFields fs values members) :
    ReadsFields (f :: fs) (o.map toJson :: values) (o.map member :: members) := by
  cases o with
  | none => exact .absent f hs
  | some a => exact .present (h a rfl) hs

/-- No name of the record stands for a field before its own. -/
def Separate (fields : List (Field ε)) : Prop := fields.Pairwise fun f g ↦ ¬ f.spelled g.name

theorem spelled_name (f : Field ε) : f.spelled f.name := by simp [Field.spelled]

theorem field?_of_separate {before fs : List (Field ε)} {f : Field ε}
    (h : Separate (before ++ f :: fs)) : field? (before ++ f :: fs) f.name = some f := by
  have hnone : before.find? (·.spelled f.name) = none := by
    rw [List.find?_eq_none]
    exact fun g hg ↦ (List.pairwise_append.1 h).2.2 g hg f List.mem_cons_self
  rw [field?, List.find?_append, hnone, Option.none_or]
  exact List.find?_cons_of_pos (spelled_name f)

theorem notMem_of_separate {before fs : List (Field ε)} {f : Field ε}
    (h : Separate (before ++ f :: fs)) : f.name ∉ before.map (·.name) := by
  intro hm
  obtain ⟨g, hg, he⟩ := List.mem_map.1 hm
  refine (List.pairwise_append.1 h).2.2 g hg f List.mem_cons_self ?_
  rw [← he]
  exact spelled_name g

theorem nodup_names {r : Record ε} (h : Separate r.fields) : r.names.Nodup := by
  rw [names, List.nodup_iff_pairwise_ne, List.pairwise_map]
  refine h.imp fun {f g} hfg he ↦ hfg ?_
  rw [← he]
  exact spelled_name f

section

variable {fields : List (Field ε)} {others : Others} {surplus : Nat → Fault}
  {xs ys : List (String × Json)}

theorem sort_cons_of_field {key : String} {f : Field ε} (h : field? fields key = some f)
    (value : Source) (skip : Option Fault) (rest : Members) (seen : List String) :
    (Members.cons key value skip rest).sort fields others seen =
      if seen.contains f.name then .error (.repeated f.name)
      else do
        let e ← f.read value
        let s ← rest.sort fields others (f.name :: seen)
        return { s with modelled := e :: s.modelled } := by
  rw [Members.sort.eq_def]
  simp only [h]

theorem sort_cons_kept {key : String} (h : field? fields key = none)
    (value : Source) (skip : Option Fault) (rest : Members) (seen : List String) :
    (Members.cons key value skip rest).sort fields .kept seen = do
      let v ← value.tree
      let s ← rest.sort fields .kept seen
      return { s with others := (key, v) :: s.others } := by
  rw [Members.sort.eq_def]
  simp only [h]

theorem sort_cons_ok {key : String} {f : Field ε} {value : Source} {seen : List String}
    (hf : field? fields key = some f) (hnew : seen.contains f.name = false) {e : ε}
    (hv : f.read value = .ok e) (rest : Members) :
    (Members.cons key value none rest).sort fields others seen =
      (rest.sort fields others (f.name :: seen)).map fun s ↦
        { s with modelled := e :: s.modelled } := by
  rw [sort_cons_of_field hf, hnew, if_neg Bool.false_ne_true, hv, Except.ok_bind]
  exact Except.bind_pure_eq_map _ _

theorem sort_singleton {key : String} {f : Field ε} {seen : List String}
    (hf : field? fields key = some f) (hnew : seen.contains f.name = false) (value : Source) :
    (Members.cons key value none .done).sort fields others seen =
      (f.read value).map fun e ↦ ⟨[e], []⟩ := by
  rw [sort_cons_of_field hf, hnew, if_neg Bool.false_ne_true]
  exact Except.bind_pure_eq_map _ _

/-- The keys spell the same field, or none, and the field reads the values alike as far as `view`
tells. -/
def Alike (fields : List (Field ε)) (surplus : Nat → Fault) (view : ε → α)
    (p q : String × Json) : Prop :=
  field? fields p.1 = field? fields q.1 ∧ ∀ f, field? fields p.1 = some f →
    (f.read (ofTree surplus p.2)).map view = (f.read (ofTree surplus q.2)).map view

theorem Alike.refl (view : ε → α) (p : String × Json) : Alike fields surplus view p p :=
  ⟨rfl, fun _ _ ↦ rfl⟩

theorem map_sorted_cons (view : ε → α) (x : Except Fault ε)
    (rest : Except Fault (Members.Sorted ε)) :
    (x >>= fun e ↦ rest.map fun s ↦ ({ s with modelled := e :: s.modelled } :
        Members.Sorted ε)).map (fun s ↦ s.modelled.map view) =
      x.map view >>= fun a ↦ (rest.map fun s ↦ s.modelled.map view).map (a :: ·) := by
  cases x with
  | error f => rfl
  | ok e => cases rest <;> rfl

/-- Members that are alike one by one are sorted out alike. -/
theorem sort_alike {view : ε → α} (h : List.Forall₂ (Alike fields surplus view) xs ys)
    (seen : List String) :
    ((ofTreeMembers surplus xs).sort fields .skipped seen).map (fun s ↦ s.modelled.map view) =
      ((ofTreeMembers surplus ys).sort fields .skipped seen).map fun s ↦ s.modelled.map view := by
  induction h generalizing seen with
  | nil => rfl
  | @cons p q xs ys hpq _ ih =>
    obtain ⟨key, v⟩ := p
    obtain ⟨key', w⟩ := q
    obtain ⟨hfield, hread⟩ := hpq
    dsimp only at hfield hread
    cases hf : field? fields key with
    | none =>
      simp only [ofTreeMembers, Members.sort, ← hfield, hf]
      exact ih seen
    | some f =>
      rw [ofTreeMembers, ofTreeMembers, sort_cons_of_field hf,
        sort_cons_of_field (hfield.symm.trans hf)]
      split
      · rfl
      · simp only [Except.bind_pure_eq_map]
        rw [map_sorted_cons, map_sorted_cons, hread f hf, ih]

/-- The members written for the fields are sorted out in their order, whatever comes of the
members after them. -/
theorem sort_written (hsep : Separate fields)
    (hx : ∀ seen, (ofTreeMembers surplus xs).sort fields others seen = .ok ⟨[], ys⟩)
    {before fs : List (Field ε)} {values : List (Option Json)} {members : List (Option ε)}
    (hr : ReadsFields fs values members) (hf : fields = before ++ fs) {seen : List String}
    (hseen : ∀ name ∈ seen, name ∈ before.map (·.name)) :
    (ofTreeMembers surplus (written (fs.map (·.name)) values ++ xs)).sort fields others seen =
      .ok ⟨members.reduceOption, ys⟩ := by
  induction hr generalizing before seen with
  | nil => exact hx seen
  | absent f hr ih =>
    refine ih (by rw [hf, List.append_cons]) fun name hname ↦ ?_
    rw [List.map_append]
    exact List.mem_append_left _ (hseen name hname)
  | @present f v e fs values members hv hr ih =>
    subst hf
    have hnew : seen.contains f.name = false := by
      rw [Bool.eq_false_iff]
      intro hc
      exact notMem_of_separate hsep (hseen _ (List.contains_iff_mem.1 hc))
    have hseen' : ∀ name ∈ f.name :: seen, name ∈ (before ++ [f]).map (·.name) := by
      intro name hname
      rw [List.map_append]
      obtain rfl | hname := List.mem_cons.1 hname
      · simp
      · exact List.mem_append_left _ (hseen name hname)
    rw [List.map_cons, written, List.cons_append, ofTreeMembers,
      sort_cons_of_field (field?_of_separate hsep), hnew, if_neg Bool.false_ne_true, hv surplus,
      Except.ok_bind, ih (List.append_cons before f fs) hseen']
    rfl

theorem sort_nil (fields : List (Field ε)) (others : Others) (surplus : Nat → Fault)
    (seen : List String) : (ofTreeMembers surplus []).sort fields others seen = .ok ⟨[], []⟩ := rfl

theorem sort_kept (h : ∀ p ∈ xs, field? fields p.1 = none) (seen : List String) :
    (ofTreeMembers surplus xs).sort fields .kept seen = .ok ⟨[], xs⟩ := by
  induction xs with
  | nil => rfl
  | cons p xs ih =>
    obtain ⟨hp, hxs⟩ := List.forall_mem_cons.1 h
    rw [ofTreeMembers, sort_cons_kept hp, Source.tree_ofTree, Except.ok_bind, ih hxs]
    rfl

end

section

variable {r : Record ε} {surplus : Nat → Fault} {xs ys : List (String × Json)}

theorem read_alike {view : ε → α} (h : List.Forall₂ (Alike r.fields surplus view) xs ys) :
    (r.read (ofTree surplus (.object xs))).map (List.map view) =
      (r.read (ofTree surplus (.object ys))).map (List.map view) := by
  have hmap : ∀ x : Except Fault (Members.Sorted ε),
      (x.map (·.modelled)).map (List.map view) = x.map fun s ↦ s.modelled.map view := by
    rintro (_ | _) <;> rfl
  rw [ofTree, ofTree, read, read, hmap, hmap, sort_alike h]

/-- A record is read alike from members that have the same values under keys that spell the same
fields. -/
theorem read_respelled
    (h : List.Forall₂ (fun p q ↦ field? r.fields p.1 = field? r.fields q.1 ∧ p.2 = q.2) xs ys)
    (surplus : Nat → Fault) :
    r.read (ofTree surplus (.object xs)) = r.read (ofTree surplus (.object ys)) := by
  have halike : List.Forall₂ (Alike r.fields surplus id) xs ys :=
    h.imp fun _ _ ⟨hfield, hvalue⟩ ↦ ⟨hfield, fun _ _ ↦ by rw [hvalue]⟩
  have hid : ∀ x : Except Fault (List ε), x.map (List.map id) = x := by
    rintro (_ | es)
    · rfl
    · rw [Except.map_ok, List.map_id]
  rw [← hid (r.read _), read_alike halike, hid]

end

section

variable {r : Record ε} {values values' : List (Option Json)} {members : List (Option ε)}

/-- A record is found in the members that were written for it. -/
theorem read_written (hsep : Separate r.fields) (hr : ReadsFields r.fields values members) :
    Reads r.read (.object (written r.names values)) members.reduceOption := fun surplus ↦ by
  have h : (ofTreeMembers surplus (written r.names values ++ [])).sort r.fields .skipped [] =
      .ok ⟨members.reduceOption, []⟩ :=
    sort_written hsep (sort_nil r.fields .skipped surplus) hr (List.nil_append _).symm (by simp)
  rw [List.append_nil] at h
  rw [ofTree, read, h, Except.map_ok]

/-- A record that keeps other members finds them after its own. -/
theorem readKeeping_written (hsep : Separate r.fields)
    (hother : ∀ f ∈ r.fields, f.otherName? = none) (hr : ReadsFields r.fields values members)
    (x : Extras r.names) :
    Reads r.readKeeping (.object (written r.names values ++ x.toMembers))
      ⟨members.reduceOption, x.toMembers⟩ := fun surplus ↦ by
  have hx : ∀ p ∈ x.toMembers, field? r.fields p.1 = none := fun p ↦
    Extras.field?_of_mem hother
  have h : (ofTreeMembers surplus (written r.names values ++ x.toMembers)).sort r.fields .kept [] =
      .ok ⟨members.reduceOption, x.toMembers⟩ :=
    sort_written hsep (sort_kept hx) hr (List.nil_append _).symm (by simp)
  rw [ofTree, readKeeping, h]

theorem distinct_keeping (hsep : Separate r.fields) (hv : ∀ o ∈ values, ∀ v ∈ o, v.Distinct)
    (x : Extras r.names) : (Json.object (written r.names values ++ x.toMembers)).Distinct :=
  distinct_written_append (nodup_names hsep) hv x.distinct_toMembers fun _ ↦ Extras.notMem_of_mem

theorem distinct_written (hsep : Separate r.fields) (hv : ∀ o ∈ values, ∀ v ∈ o, v.Distinct) :
    (Json.object (written r.names values)).Distinct := by
  simpa [Extras.toMembers, Extras.none, NamedMap.empty] using distinct_keeping hsep hv .none

theorem same_keeping_iff (hsep : Separate r.fields) (hl : values.length = r.names.length)
    (hl' : values'.length = r.names.length) {x y : Extras r.names} :
    Same (.object (written r.names values ++ x.toMembers))
        (.object (written r.names values' ++ y.toMembers)) ↔
      List.Forall₂ (Option.Rel Same) values values' ∧ x == y := by
  rw [same_written_append_iff (nodup_names hsep) hl hl' (fun _ ↦ Extras.notMem_of_mem)
    fun _ ↦ Extras.notMem_of_mem, Extras.same_toMembers_iff]

theorem same_written_iff (hsep : Separate r.fields) (hl : values.length = r.names.length)
    (hl' : values'.length = r.names.length) :
    Same (.object (written r.names values)) (.object (written r.names values')) ↔
      List.Forall₂ (Option.Rel Same) values values' := by
  have h := same_written_append_iff (nodup_names hsep) hl hl' (List.forall_mem_nil _)
    (List.forall_mem_nil _)
  simpa [Same.refl] using h

end

/-- A member is sought in what was found for the fields one after the other. -/
@[simp] theorem findSome?_reduceOption_map_cons {β : Type} (p : ε → Option α) (f : β → ε)
    (o : Option β) (members : List (Option ε)) :
    (o.map f :: members).reduceOption.findSome? p =
      (o.bind fun b ↦ p (f b)).or (members.reduceOption.findSome? p) := by
  cases o with
  | none => rfl
  | some b =>
    change (f b :: members.reduceOption).findSome? p = _
    rw [List.findSome?_cons, Option.bind_some]
    cases p (f b) <;> rfl

end Record

end Json

end DesignDocs
