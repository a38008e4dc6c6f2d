import DesignDocs.Proofs.Json.Members
import Mathlib.Data.List.Nodup
import Mathlib.Data.List.Pairwise

namespace DesignDocs.Json

open Source (ofTreeItems ofTreeMembers trailing)

variable {α ε : Type}

namespace Field

def spellings (f : Field ε) : List String := f.name :: f.otherName?.toList

/-- The value that members give a field. -/
def given (f : Field ε) (members : List (String × Json)) : Option Json :=
  f.spellings.findSome? fun key ↦ members.lookup key

theorem mem_spellings_iff {f : Field ε} {key : String} : key ∈ f.spellings ↔ f.spelled key := by
  rw [spellings, spelled, List.mem_cons, Option.mem_toList, Bool.or_eq_true, beq_iff_eq, beq_iff_eq,
    eq_comm]

theorem name_mem_spellings (f : Field ε) : f.name ∈ f.spellings := List.mem_cons_self

theorem given_eq_lookup {f : Field ε} (h : f.otherName? = none) (members : List (String × Json)) :
    f.given members = members.lookup f.name := by
  simp [given, spellings, h]

@[simp] theorem given_essential (name : String) (read : Reader ε)
    (members : List (String × Json)) : (essential name read).given members = members.lookup name :=
  given_eq_lookup rfl members

@[simp] theorem given_optional (name : String) (read : Reader ε)
    (members : List (String × Json)) : (optional name read).given members = members.lookup name :=
  given_eq_lookup rfl members

@[simp] theorem given_alsoCalled (f : Field ε) (other : String) (members : List (String × Json)) :
    (f.alsoCalled other).given members =
      (members.lookup f.name).or (members.lookup other) := by
  simp only [given, spellings, alsoCalled, Option.toList, List.findSome?_cons, List.findSome?_nil]
  cases members.lookup f.name <;> cases members.lookup other <;> rfl

theorem exists_of_given {f : Field ε} {members : List (String × Json)} {v : Json}
    (h : f.given members = some v) : ∃ key, f.spelled key ∧ (key, v) ∈ members := by
  obtain ⟨key, hkey, hlookup⟩ := List.exists_of_findSome?_eq_some h
  exact ⟨key, mem_spellings_iff.1 hkey, mem_of_lookup hlookup⟩

theorem isSome_given {f : Field ε} {members : List (String × Json)} {p : String × Json}
    (hp : p ∈ members) (hs : f.spelled p.1) : (f.given members).isSome := by
  rw [given, List.findSome?_isSome_iff]
  refine ⟨p.1, mem_spellings_iff.2 hs, ?_⟩
  rw [Option.isSome_iff_ne_none, ne_eq, NamedMap.lookup_eq_none_iff, not_not]
  exact List.mem_map_of_mem hp

end Field

namespace Record

def Unambiguous (fields : List (Field ε)) : Prop := (fields.flatMap Field.spellings).Nodup

section

variable {fields : List (Field ε)} {members : List (String × Json)}

namespace Unambiguous

variable (h : Unambiguous fields)

include h

theorem eq_of_spelled {f g : Field ε} (hf : f ∈ fields) (hg : g ∈ fields) {key : String}
    (hfk : f.spelled key) (hgk : g.spelled key) : f = g := by
  have : Std.Symm (Function.onFun List.Disjoint fun f : Field ε ↦ f.spellings) :=
    ⟨fun _ _ hd _ hg hf ↦ hd hf hg⟩
  by_contra hne
  exact (List.nodup_flatMap.1 h).2.forall hf hg hne (Field.mem_spellings_iff.2 hfk)
    (Field.mem_spellings_iff.2 hgk)

theorem eq_of_name {f g : Field ε} (hf : f ∈ fields) (hg : g ∈ fields) (he : f.name = g.name) :
    f = g :=
  h.eq_of_spelled hf hg (spelled_name f) (he ▸ spelled_name g)

theorem field?_eq_some_iff {f : Field ε} {key : String} :
    field? fields key = some f ↔ f ∈ fields ∧ f.spelled key := by
  constructor
  · intro hf
    exact ⟨List.mem_of_find?_eq_some hf,
      List.find?_some (p := fun f : Field ε ↦ f.spelled key) hf⟩
  · rintro ⟨hf, hs⟩
    have hsome : (field? fields key).isSome := List.find?_isSome.2 ⟨f, hf, hs⟩
    obtain ⟨g, hg⟩ := Option.isSome_iff_exists.1 hsome
    have hgs : g.spelled key := List.find?_some (p := fun f : Field ε ↦ f.spelled key) hg
    rw [hg, h.eq_of_spelled (List.mem_of_find?_eq_some hg) hf hgs hs]

theorem field?_name {f : Field ε} (hf : f ∈ fields) : field? fields f.name = some f :=
  h.field?_eq_some_iff.2 ⟨hf, spelled_name f⟩

theorem nodup_map_name : (fields.map (·.name)).Nodup := by
  refine List.Nodup.map_on (fun f hf g hg ↦ h.eq_of_name hf hg) ?_
  refine (List.nodup_flatMap.1 h).2.imp fun {f g} hd he ↦ ?_
  subst he
  exact hd f.name_mem_spellings f.name_mem_spellings

end Unambiguous

/-- Two members that spell one field are one. -/
theorem eq_of_field? (hn : (spelledNames fields members).Nodup) {p q : String × Json}
    (hp : p ∈ members) (hq : q ∈ members) {f : Field ε} (hpf : field? fields p.1 = some f)
    (hqf : field? fields q.1 = some f) : p = q := by
  have hpairs : members.Pairwise fun p q ↦ ∀ name, (field? fields p.1).map (·.name) = some name →
      ∀ name', (field? fields q.1).map (·.name) = some name' → name ≠ name' :=
    List.pairwise_filterMap.1 hn
  have : Std.Symm fun p q : String × Json ↦
      ∀ name, (field? fields p.1).map (·.name) = some name →
        ∀ name', (field? fields q.1).map (·.name) = some name' → name ≠ name' :=
    ⟨fun _ _ hd n hn n' hn' ↦ (hd n' hn' n hn).symm⟩
  by_contra hne
  exact hpairs.forall hp hq hne f.name (by rw [hpf]; rfl) f.name (by rw [hqf]; rfl) rfl

theorem given_eq_some_iff (hu : Unambiguous fields) (hn : (spelledNames fields members).Nodup)
    {f : Field ε} (hf : f ∈ fields) {v : Json} :
    f.given members = some v ↔ ∃ key, f.spelled key ∧ (key, v) ∈ members := by
  refine ⟨Field.exists_of_given, ?_⟩
  rintro ⟨key, hs, hm⟩
  obtain ⟨w, hw⟩ := Option.isSome_iff_exists.1 (Field.isSome_given hm hs)
  obtain ⟨key', hs', hm'⟩ := Field.exists_of_given hw
  have he : (key', w) = (key, v) := eq_of_field? hn hm' hm
    (hu.field?_eq_some_iff.2 ⟨hf, hs'⟩) (hu.field?_eq_some_iff.2 ⟨hf, hs⟩)
  cases he
  exact hw

theorem decodable_iff (hu : Unambiguous fields) (hn : (spelledNames fields members).Nodup) :
    Decodable fields members ↔
      ∀ f ∈ fields, ∀ v, f.given members = some v → ∃ e, decode f.read v = .ok e := by
  constructor
  · intro h f hf v hv
    obtain ⟨key, hs, hm⟩ := Field.exists_of_given hv
    exact h (key, v) hm f (hu.field?_eq_some_iff.2 ⟨hf, hs⟩)
  · intro h p hp f hpf
    obtain ⟨hf, hs⟩ := hu.field?_eq_some_iff.1 hpf
    exact h f hf p.2 ((given_eq_some_iff hu hn hf).2 ⟨p.1, hs, hp⟩)

theorem findSome?_of_unique {l : List ε} {pick : ε → Option α} {x : Option α}
    (h : ∀ e ∈ l, pick e = none ∨ pick e = x) (hx : x.isSome → ∃ e ∈ l, pick e = x) :
    l.findSome? pick = x := by
  cases hl : l.findSome? pick with
  | none =>
    cases x with
    | none => rfl
    | some a =>
      obtain ⟨e, he, hpick⟩ := hx rfl
      rw [List.findSome?_eq_none_iff.1 hl e he] at hpick
      exact hpick
  | some a =>
    obtain ⟨e, he, hpick⟩ := List.exists_of_findSome?_eq_some hl
    obtain hnone | hsome := h e he
    · rw [hnone] at hpick
      cases hpick
    · rw [← hsome, hpick]

/-- What is found for a field is made of the value that the field is given. -/
theorem findSome?_found (hu : Unambiguous fields) (hn : (spelledNames fields members).Nodup)
    {f : Field ε} (hf : f ∈ fields) {pick : ε → Option α}
    (hp : ∀ g ∈ fields, g.name ≠ f.name → ∀ v e, decode g.read v = .ok e → pick e = none) :
    (found fields members).findSome? pick =
      (f.given members).bind fun v ↦ (decode f.read v).toOption.bind pick := by
  refine findSome?_of_unique (fun e he ↦ ?_) fun hsome ↦ ?_
  · obtain ⟨p, hpm, g, hg, hread⟩ := mem_found he
    obtain ⟨hgf, hgs⟩ := hu.field?_eq_some_iff.1 hg
    by_cases hname : g.name = f.name
    · obtain rfl := hu.eq_of_name hgf hf hname
      rw [(given_eq_some_iff hu hn hf).2 ⟨p.1, hgs, hpm⟩, Option.bind_some, hread]
      exact .inr rfl
    · exact .inl (hp g hgf hname p.2 e hread)
  · obtain ⟨b, hb⟩ := Option.isSome_iff_exists.1 hsome
    obtain ⟨v, hv, hdecoded⟩ := Option.bind_eq_some_iff.1 hb
    obtain ⟨e, he, hpick⟩ := Option.bind_eq_some_iff.1 hdecoded
    obtain ⟨key, hs, hm⟩ := Field.exists_of_given hv
    refine ⟨e, List.mem_filterMap.2 ⟨(key, v), hm, ?_⟩, by rw [hpick, hb]⟩
    rw [hu.field?_eq_some_iff.2 ⟨hf, hs⟩, Option.bind_some, he]

theorem findSome?_found_of_spelled (hu : Unambiguous fields)
    (hn : (spelledNames fields members).Nodup) {f : Field ε} (hf : f ∈ fields) {key : String}
    (hs : f.spelled key) {v : Json} (hm : (key, v) ∈ members) {e : ε}
    (he : decode f.read v = .ok e) {pick : ε → Option α}
    (hp : ∀ g ∈ fields, g.name ≠ f.name → ∀ v e, decode g.read v = .ok e → pick e = none) :
    (found fields members).findSome? pick = pick e := by
  rw [findSome?_found hu hn hf hp, (given_eq_some_iff hu hn hf).2 ⟨key, hs, hm⟩,
    Option.bind_some, he]
  rfl

end

section

variable {fields : List (Field ε)} {members : List (String × Json)}

theorem nodup_of_sort {seen : List String} {s : Members.Sorted ε}
    (h : (ofTreeMembers trailing members).sort fields .kept seen = .ok s) :
    (spelledNames fields members).Nodup ∧ ∀ name ∈ seen, name ∉ spelledNames fields members := by
  induction members generalizing seen s with
  | nil => exact ⟨List.nodup_nil, fun _ _ ↦ List.not_mem_nil⟩
  | cons p ms ih =>
    obtain ⟨key, v⟩ := p
    cases hf : field? fields key with
    | none =>
      rw [ofTreeMembers, sort_cons_kept hf, Source.tree_ofTree, Except.ok_bind] at h
      obtain ⟨t, ht, -⟩ := Except.bind_eq_ok_iff.1 h
      rw [spelledNames_cons_of_none hf]
      exact ih ht
    | some f =>
      rw [ofTreeMembers, sort_cons_of_field hf] at h
      split at h
      · cases h
      · next hseen =>
        obtain ⟨e, -, h⟩ := Except.bind_eq_ok_iff.1 h
        obtain ⟨t, ht, -⟩ := Except.bind_eq_ok_iff.1 h
        obtain ⟨hnodup, hnew⟩ := ih ht
        obtain ⟨hname, hnew⟩ := List.forall_mem_cons.1 hnew
        rw [spelledNames_cons_of_some hf]
        refine ⟨List.nodup_cons.2 ⟨hname, hnodup⟩, fun name hs hm ↦ ?_⟩
        obtain rfl | hm := List.mem_cons.1 hm
        · exact hseen (List.contains_iff_mem.2 hs)
        · exact hnew name hs hm

theorem sort_skipped (seen : List String) :
    (ofTreeMembers trailing members).sort fields .skipped seen =
      ((ofTreeMembers trailing members).sort fields .kept seen).map fun s ↦
        ⟨s.modelled, []⟩ := by
  induction members generalizing seen with
  | nil => rfl
  | cons p ms ih =>
    obtain ⟨key, v⟩ := p
    cases hf : field? fields key with
    | none =>
      rw [ofTreeMembers, sort_cons_kept hf, Source.tree_ofTree, Except.ok_bind,
        Members.sort.eq_def]
      simp only [hf]
      rw [ih]
      cases (ofTreeMembers trailing ms).sort fields .kept seen <;> rfl
    | some f =>
      rw [ofTreeMembers, sort_cons_of_field hf, sort_cons_of_field hf]
      split
      · rfl
      · cases f.read (Source.ofTree trailing v) with
        | error fault => rfl
        | ok e =>
          rw [Except.ok_bind, Except.ok_bind, ih]
          cases (ofTreeMembers trailing ms).sort fields .kept (f.name :: seen) <;> rfl

variable {r : Record ε}

/-- A record is read from an object in which every field is spelled at most once and every
modelled member decodes. -/
theorem readKeeping_object_iff {s : Members.Sorted ε} :
    decode r.readKeeping (.object members) = .ok s ↔
      (spelledNames r.fields members).Nodup ∧ Decodable r.fields members ∧
        s = ⟨found r.fields members, unmodelled r.fields members⟩ := by
  constructor
  · intro h
    have hnodup := (nodup_of_sort h).1
    obtain ⟨hall, hsorted⟩ | ⟨fault, -, hfault⟩ := readKeeping_cases (r := r) hnodup
    · rw [h] at hsorted
      exact ⟨hnodup, hall, Except.ok.inj hsorted⟩
    · rw [h] at hfault
      cases hfault
  · rintro ⟨hnodup, hall, rfl⟩
    obtain ⟨-, hsorted⟩ | ⟨fault, ⟨p, hp, f, hf, he⟩, -⟩ := readKeeping_cases (r := r) hnodup
    · exact hsorted
    · obtain ⟨e, hok⟩ := hall p hp f hf
      rw [he] at hok
      cases hok

theorem read_object (r : Record ε) (members : List (String × Json)) :
    decode r.read (.object members) =
      (decode r.readKeeping (.object members)).map fun s ↦ s.modelled := by
  change ((ofTreeMembers trailing members).sort r.fields .skipped []).map _ =
    ((ofTreeMembers trailing members).sort r.fields .kept []).map _
  rw [sort_skipped]
  cases (ofTreeMembers trailing members).sort r.fields .kept [] <;> rfl

/-- A modelled member that does not decode gives its fault to a record whose others do. -/
theorem read_object_of_error (hn : (spelledNames r.fields members).Nodup) {key : String} {v : Json}
    (hm : (key, v) ∈ members) {f : Field ε} (hf : field? r.fields key = some f) {fault : Fault}
    (hv : decode f.read v = .error fault) (hothers : ∀ p ∈ members, p ≠ (key, v) →
      ∀ g, field? r.fields p.1 = some g → ∃ e, decode g.read p.2 = .ok e) :
    decode r.read (.object members) = .error fault := by
  rw [read_object]
  obtain ⟨hall, -⟩ | ⟨fault', ⟨p, hp, g, hg, hfault⟩, hread⟩ := readKeeping_cases hn
  · obtain ⟨e, he⟩ := hall (key, v) hm f hf
    rw [hv] at he
    cases he
  · by_cases hpkey : p = (key, v)
    · subst hpkey
      obtain rfl := Option.some.inj (hf.symm.trans hg)
      rw [hv] at hfault
      cases hfault
      rw [hread, Except.map_error]
    · obtain ⟨e, he⟩ := hothers p hp hpkey g hg
      rw [he] at hfault
      cases hfault

theorem decode_read_ne_ok {key key' : String} (hkey : key ∈ members.map Prod.fst)
    (hkey' : key' ∈ members.map Prod.fst) (hne : key ≠ key') {f : Field ε}
    (hf : field? r.fields key = some f) (hf' : field? r.fields key' = some f) (es : List ε) :
    decode r.read (.object members) ≠ .ok es := by
  rw [read_object, ne_eq, Except.map_eq_ok_iff]
  rintro ⟨s, hs, -⟩
  obtain ⟨p, hp, rfl⟩ := List.mem_map.1 hkey
  obtain ⟨q, hq, rfl⟩ := List.mem_map.1 hkey'
  exact hne (congrArg Prod.fst (eq_of_field? (readKeeping_object_iff.1 hs).1 hp hq hf hf'))

end

section

variable {r : Record ε}

theorem readItems_iff {n index : Nat} {fields : List (Field ε)} {items : List Json} {es : List ε} :
    r.readItems (trailing n) index fields (ofTreeItems trailing items) = .ok es ↔
      items.length ≤ fields.length ∧ (∀ f ∈ fields.drop items.length, f.required = false) ∧
        List.Forall₂ (fun p e ↦ decode p.1.read p.2 = .ok e) (fields.zip items) es := by
  induction fields generalizing index items es with
  | nil =>
    cases items with
    | nil =>
      have hread : r.readItems (trailing n) index [] (ofTreeItems trailing []) = .ok [] := rfl
      rw [hread, List.zip_nil_left, List.forall₂_nil_left_iff, Except.ok.injEq, eq_comm]
      exact (and_iff_right Nat.le.refl).symm.trans (and_congr_right fun _ ↦
        (and_iff_right (List.forall_mem_nil _)).symm)
    | cons v vs => exact iff_of_false nofun (by simp)
  | cons f fs ih =>
    cases items with
    | nil =>
      have ih := @ih (index + 1) [] es
      rw [ofTreeItems, readItems]
      cases hreq : f.required with
      | true => exact iff_of_false nofun (by simp [hreq])
      | false =>
        rw [if_neg Bool.false_ne_true, ← ofTreeItems, ih]
        simp [hreq]
    | cons v vs =>
      rw [ofTreeItems, readItems, Except.bind_eq_ok_iff]
      simp only [List.length_cons, Nat.add_le_add_iff_right, List.drop_succ_cons,
        List.zip_cons_cons, List.forall₂_cons_left_iff]
      constructor
      · rintro ⟨e, he, hes⟩
        obtain ⟨es, hread, hes⟩ := Except.bind_eq_ok_iff.1 hes
        cases hes
        obtain ⟨hlen, hreq, hall⟩ := ih.1 hread
        exact ⟨hlen, hreq, e, es, he, hall, rfl⟩
      · rintro ⟨hlen, hreq, e, es, he, hall, rfl⟩
        exact ⟨e, he, Except.bind_eq_ok_iff.2 ⟨es, ih.2 ⟨hlen, hreq, hall⟩, rfl⟩⟩

theorem forall₂_zip_iff {fields fs : List (Field ε)} (hu : Unambiguous fields)
    (hfs : ∀ f ∈ fs, f ∈ fields) {items : List Json} {es : List ε} :
    List.Forall₂ (fun p e ↦ decode p.1.read p.2 = .ok e) (fs.zip items) es ↔
      Decodable fields ((fs.map (·.name)).zip items) ∧
        es = found fields ((fs.map (·.name)).zip items) := by
  induction fs generalizing items es with
  | nil => simp [Decodable, found]
  | cons f fs ih =>
    obtain ⟨hf, hfs⟩ := List.forall_mem_cons.1 hfs
    cases items with
    | nil => simp [Decodable, found]
    | cons v vs =>
      have hfield := hu.field?_name hf
      rw [List.zip_cons_cons, List.map_cons, List.zip_cons_cons, List.forall₂_cons_left_iff]
      cases hv : decode f.read v with
      | error fault =>
        refine iff_of_false (by simp) fun h ↦ ?_
        obtain ⟨e, he⟩ := h.1 (f.name, v) List.mem_cons_self f hfield
        rw [hv] at he
        cases he
      | ok e =>
        have hfound : found fields ((f.name, v) :: (fs.map (·.name)).zip vs) =
            e :: found fields ((fs.map (·.name)).zip vs) :=
          List.filterMap_cons_some (by rw [hfield, Option.bind_some, hv]; rfl)
        rw [decodable_cons_of_ok hfield hv, hfound]
        constructor
        · rintro ⟨_, es, ⟨⟩, hall, rfl⟩
          obtain ⟨hdecodable, rfl⟩ := (ih hfs).1 hall
          exact ⟨hdecodable, rfl⟩
        · rintro ⟨hdecodable, rfl⟩
          exact ⟨e, _, rfl, (ih hfs).2 ⟨hdecodable, rfl⟩, rfl⟩

/-- The members that a tree gives a record: those of an object, or the items of an array under the
names of the fields that they stand for. -/
def members? (r : Record ε) : Json → Option (List (String × Json))
  | .object members => some members
  | .array items => if items.length ≤ r.fields.length then some (r.names.zip items) else none
  | _ => none

theorem spelledNames_zip {fields fs : List (Field ε)} (hu : Unambiguous fields)
    (hfs : ∀ f ∈ fs, f ∈ fields) (items : List Json) :
    (spelledNames fields ((fs.map (·.name)).zip items)).Sublist (fs.map (·.name)) := by
  induction fs generalizing items with
  | nil => exact List.nil_sublist _
  | cons f fs ih =>
    obtain ⟨hf, hfs⟩ := List.forall_mem_cons.1 hfs
    cases items with
    | nil => exact List.nil_sublist _
    | cons v vs =>
      rw [List.map_cons, List.zip_cons_cons, spelledNames_cons_of_some (hu.field?_name hf)]
      exact (ih hfs vs).cons_cons f.name

theorem given_zip_of_mem_drop (hu : Unambiguous r.fields) {items : List Json} {f : Field ε}
    (hf : f ∈ r.fields.drop items.length) : f.given (r.names.zip items) = none := by
  rw [Option.eq_none_iff_forall_ne_some]
  intro v hv
  obtain ⟨key, hs, hm⟩ := Field.exists_of_given hv
  have hnames : (r.fields.take items.length).map (·.name) = r.names.take items.length :=
    List.map_take
  have hkey : key ∈ (r.fields.take items.length).map (·.name) := by
    rw [hnames]
    obtain ⟨i, hi, he⟩ := List.mem_iff_getElem.1 hm
    rw [List.getElem_zip] at he
    rw [List.length_zip] at hi
    exact List.mem_take_iff_getElem.2 ⟨i, by omega, (Prod.ext_iff.1 he).1⟩
  obtain ⟨g, hg, rfl⟩ := List.mem_map.1 hkey
  have he := hu.eq_of_spelled (List.mem_of_mem_drop hf) (List.mem_of_mem_take hg) hs
    (spelled_name g)
  subst he
  have hnodup := hu.nodup_map_name
  rw [← List.take_append_drop items.length r.fields, List.map_append] at hnodup
  exact (List.nodup_append.1 hnodup).2.2 _ hkey _ (List.mem_map_of_mem hf) rfl

theorem exists_members_of_read (hu : Unambiguous r.fields) {v : Json} {es : List ε}
    (h : decode r.read v = .ok es) :
    ∃ members, r.members? v = some members ∧ (spelledNames r.fields members).Nodup ∧
      Decodable r.fields members ∧ es = found r.fields members := by
  cases v with
  | object members =>
    rw [read_object] at h
    obtain ⟨s, hs, rfl⟩ := Except.map_eq_ok_iff.1 h
    obtain ⟨hnodup, hall, rfl⟩ := readKeeping_object_iff.1 hs
    exact ⟨members, rfl, hnodup, hall, rfl⟩
  | array items =>
    obtain ⟨hlen, -, hitems⟩ := readItems_iff.1 h
    obtain ⟨hall, hes⟩ := (forall₂_zip_iff hu fun f hf ↦ hf).1 hitems
    exact ⟨r.names.zip items, if_pos hlen,
      (spelledNames_zip hu (fun f hf ↦ hf) items).nodup hu.nodup_map_name, hall, hes⟩
  | _ => cases h

theorem read_of_members (hu : Unambiguous r.fields) {v : Json} {members : List (String × Json)}
    (hv : r.members? v = some members) (hn : (spelledNames r.fields members).Nodup)
    (hd : Decodable r.fields members)
    (hreq : ∀ f ∈ r.fields, f.required → (f.given members).isSome) :
    decode r.read v = .ok (found r.fields members) := by
  cases v with
  | object ms =>
    cases hv
    rw [read_object, readKeeping_object_iff.2 ⟨hn, hd, rfl⟩, Except.map_ok]
  | array items =>
    obtain ⟨hlen, he⟩ := Option.ite_none_right_eq_some.1 hv
    cases he
    refine readItems_iff.2 ⟨hlen, fun f hf ↦ ?_, (forall₂_zip_iff hu fun f hf ↦ hf).2 ⟨hd, rfl⟩⟩
    rw [Bool.eq_false_iff]
    intro hrequired
    have hgiven := hreq f (List.mem_of_mem_drop hf) hrequired
    rw [given_zip_of_mem_drop hu hf] at hgiven
    cases hgiven
  | _ => cases hv

end

end Record

end DesignDocs.Json
