import DesignDocs.Proofs.Json.Record

namespace DesignDocs.Json

open Source (ofTree ofTreeMembers trailing)

variable {α ε : Type}

def decode (read : Reader α) (v : Json) : Except Fault α := read (ofTree trailing v)

theorem Reader.decode_object (members : List (String × Json)) :
    decode object (.object members) = .ok (objectOf members) := by
  have htrees : (ofTreeMembers trailing members).trees = .ok members :=
    Source.trees_ofTreeMembers fun p _ ↦ Source.tree_ofTree p.2
  rw [decode, ofTree, object, htrees]
  rfl

/-- The entries are the decoded members, one for each and in their order. -/
def Decodes (read : Reader α) (members : List (String × Json)) (entries : List (String × α)) :
    Prop :=
  List.Forall₂ (fun p q ↦ p.1 = q.1 ∧ decode read p.2 = .ok q.2) members entries

section

variable {read : Reader α} {members : List (String × Json)}

theorem readNamed_cases (h : ∀ p ∈ members, ∃ a, decode read p.2 = .ok a) (before : NamedMap α) :
    ((before.names ++ members.map Prod.fst).Nodup ∧
      ∃ m l, (ofTreeMembers trailing members).readNamed read before = .ok m ∧
        m.entries = before.entries ++ l ∧ Decodes read members l) ∨
    ∃ name, 2 ≤ (before.names ++ members.map Prod.fst).count name ∧
      (ofTreeMembers trailing members).readNamed read before = .error (.nameRepeated name) := by
  induction members generalizing before with
  | nil =>
    refine .inl ⟨?_, before, [], rfl, (List.append_nil _).symm, .nil⟩
    rw [List.map_nil, List.append_nil]
    exact before.distinct
  | cons p ms ih =>
    obtain ⟨name, v⟩ := p
    obtain ⟨⟨a, ha⟩, hms⟩ := List.forall_mem_cons.1 h
    have hread : (ofTreeMembers trailing ((name, v) :: ms)).readNamed read before =
        if hn : name ∈ before.names then .error (.nameRepeated name)
        else (ofTreeMembers trailing ms).readNamed read (before.push name a hn) := by
      rw [ofTreeMembers, Members.readNamed, show read (ofTree trailing v) = .ok a from ha,
        Except.ok_bind]
    by_cases hn : name ∈ before.names
    · refine .inr ⟨name, ?_, ?_⟩
      · have hbefore := List.one_le_count_iff.2 hn
        rw [List.count_append, List.map_cons, List.count_cons_self]
        omega
      · rw [hread, dif_pos hn]
    · have hnames : (before.push name a hn).names ++ ms.map Prod.fst =
          before.names ++ ((name, v) :: ms).map Prod.fst := by
        simp
      rw [hread, dif_neg hn, ← hnames]
      obtain ⟨hnodup, m, l, hm, hentries, hl⟩ | hrepeat := ih hms (before.push name a hn)
      · refine .inl ⟨hnodup, m, (name, a) :: l, hm, ?_, .cons ⟨rfl, ha⟩ hl⟩
        rw [hentries, NamedMap.push, List.append_assoc, List.singleton_append]
      · exact .inr hrepeat

/-- A section is read when no name comes twice in it, and is refused for a name that does. -/
theorem named_cases (h : ∀ p ∈ members, ∃ a, decode read p.2 = .ok a) :
    ((members.map Prod.fst).Nodup ∧ ∃ m,
      decode (Reader.optional (.named read)) (.object members) = .ok (some m) ∧
        Decodes read members m.entries) ∨
    ∃ name, 2 ≤ (members.map Prod.fst).count name ∧
      decode (Reader.optional (.named read)) (.object members) = .error (.nameRepeated name) := by
  have hdecode : decode (Reader.optional (.named read)) (.object members) =
      ((ofTreeMembers trailing members).readNamed read .empty).map some := rfl
  rw [hdecode]
  obtain ⟨hnodup, m, l, hm, hentries, hl⟩ | ⟨name, hcount, hname⟩ := readNamed_cases h .empty
  · refine .inl ⟨hnodup, m, by rw [hm]; rfl, ?_⟩
    rw [hentries]
    exact hl
  · exact .inr ⟨name, hcount, by rw [hname]; rfl⟩

theorem Decodes.map_fst_eq {entries : List (String × α)} (h : Decodes read members entries) :
    members.map Prod.fst = entries.map Prod.fst := by
  induction h with
  | nil => rfl
  | cons hp _ ih => rw [List.map_cons, List.map_cons, hp.1, ih]

theorem Decodes.mem_iff {entries : List (String × α)} (h : Decodes read members entries)
    {name : String} {a : α} :
    (name, a) ∈ entries ↔ ∃ v, (name, v) ∈ members ∧ decode read v = .ok a := by
  induction h with
  | nil => simp
  | @cons p q ms es hp _ ih =>
    obtain ⟨key, v⟩ := p
    obtain ⟨key', b⟩ := q
    obtain ⟨rfl, hv⟩ : key = key' ∧ decode read v = .ok b := hp
    simp only [List.mem_cons, Prod.mk.injEq, ih]
    constructor
    · rintro (⟨rfl, rfl⟩ | ⟨w, hw, hread⟩)
      · exact ⟨v, .inl ⟨rfl, rfl⟩, hv⟩
      · exact ⟨w, .inr hw, hread⟩
    · rintro ⟨w, ⟨rfl, rfl⟩ | hw, hread⟩
      · rw [hv] at hread
        cases hread
        exact .inl ⟨rfl, rfl⟩
      · exact .inr ⟨w, hw, hread⟩

end

namespace Record

variable {fields : List (Field ε)} {members : List (String × Json)}

def spelledNames (fields : List (Field ε)) (members : List (String × Json)) : List String :=
  members.filterMap fun p ↦ (field? fields p.1).map (·.name)

/-- The modelled members that decode. -/
def found (fields : List (Field ε)) (members : List (String × Json)) : List ε :=
  members.filterMap fun p ↦ (field? fields p.1).bind fun f ↦ (decode f.read p.2).toOption

def unmodelled (fields : List (Field ε)) (members : List (String × Json)) :
    List (String × Json) :=
  members.filter fun p ↦ (field? fields p.1).isNone

/-- All modelled members decode. -/
def Decodable (fields : List (Field ε)) (members : List (String × Json)) : Prop :=
  ∀ p ∈ members, ∀ f, field? fields p.1 = some f → ∃ e, decode f.read p.2 = .ok e

/-- Some modelled member does not decode, and this is its fault. -/
def FailsWith (fields : List (Field ε)) (members : List (String × Json)) (fault : Fault) : Prop :=
  ∃ p ∈ members, ∃ f, field? fields p.1 = some f ∧ decode f.read p.2 = .error fault

section

variable {key : String} {v : Json}

theorem decodable_cons_of_none (h : field? fields key = none) :
    Decodable fields ((key, v) :: members) ↔ Decodable fields members := by
  rw [Decodable, List.forall_mem_cons]
  exact and_iff_right (by simp [h])

theorem decodable_cons_of_ok {f : Field ε} {e : ε} (h : field? fields key = some f)
    (hv : decode f.read v = .ok e) :
    Decodable fields ((key, v) :: members) ↔ Decodable fields members := by
  rw [Decodable, List.forall_mem_cons]
  exact and_iff_right (by simp [h, hv])

theorem FailsWith.cons {fault : Fault} (h : FailsWith fields members fault)
    (p : String × Json) : FailsWith fields (p :: members) fault := by
  obtain ⟨q, hq, hfails⟩ := h
  exact ⟨q, List.mem_cons_of_mem p hq, hfails⟩

theorem spelledNames_cons_of_none (h : field? fields key = none) :
    spelledNames fields ((key, v) :: members) = spelledNames fields members :=
  List.filterMap_cons_none (by rw [h]; rfl)

theorem spelledNames_cons_of_some {f : Field ε} (h : field? fields key = some f) :
    spelledNames fields ((key, v) :: members) = f.name :: spelledNames fields members :=
  List.filterMap_cons_some (by rw [h]; rfl)

end

theorem sort_cases {seen : List String} (hn : (spelledNames fields members).Nodup)
    (hs : ∀ name ∈ seen, name ∉ spelledNames fields members) :
    (Decodable fields members ∧ (ofTreeMembers trailing members).sort fields .kept seen =
      .ok ⟨found fields members, unmodelled fields members⟩) ∨
    ∃ fault, FailsWith fields members fault ∧
      (ofTreeMembers trailing members).sort fields .kept seen = .error fault := by
  induction members generalizing seen with
  | nil => exact .inl ⟨nofun, rfl⟩
  | cons p ms ih =>
    obtain ⟨key, v⟩ := p
    cases hf : field? fields key with
    | none =>
      rw [spelledNames_cons_of_none hf] at hn hs
      rw [ofTreeMembers, sort_cons_kept hf, Source.tree_ofTree, Except.ok_bind,
        decodable_cons_of_none hf]
      obtain ⟨hall, hsort⟩ | ⟨fault, hfails, hsort⟩ := ih hn hs
      · refine .inl ⟨hall, ?_⟩
        rw [hsort]
        simp [found, unmodelled, hf]
      · refine .inr ⟨fault, hfails.cons _, ?_⟩
        rw [hsort]
        rfl
    | some f =>
      rw [spelledNames_cons_of_some hf] at hn hs
      obtain ⟨hname, hn⟩ := List.nodup_cons.1 hn
      have hnew : seen.contains f.name = false := by
        rw [Bool.eq_false_iff]
        intro hc
        exact hs _ (List.contains_iff_mem.1 hc) List.mem_cons_self
      have hs' : ∀ name ∈ f.name :: seen, name ∉ spelledNames fields ms :=
        List.forall_mem_cons.2 ⟨hname, fun name hseen hm ↦
          hs name hseen (List.mem_cons_of_mem _ hm)⟩
      rw [ofTreeMembers, sort_cons_of_field hf, hnew, if_neg Bool.false_ne_true]
      cases hv : decode f.read v with
      | error fault =>
        refine .inr ⟨fault, ⟨(key, v), List.mem_cons_self, f, hf, hv⟩, ?_⟩
        rw [show f.read (ofTree trailing v) = .error fault from hv]
        rfl
      | ok e =>
        rw [show f.read (ofTree trailing v) = .ok e from hv, Except.ok_bind,
          decodable_cons_of_ok hf hv]
        obtain ⟨hall, hsort⟩ | ⟨fault, hfails, hsort⟩ := ih hn hs'
        · refine .inl ⟨hall, ?_⟩
          rw [hsort]
          simp [found, unmodelled, hf, hv, Except.toOption]
        · refine .inr ⟨fault, hfails.cons _, ?_⟩
          rw [hsort]
          rfl

/-- A record whose modelled members come once is read when each of them decodes, and fails with
the fault of one that does not. -/
theorem readKeeping_cases {r : Record ε} (hn : (spelledNames r.fields members).Nodup) :
    (Decodable r.fields members ∧ decode r.readKeeping (.object members) =
      .ok ⟨found r.fields members, unmodelled r.fields members⟩) ∨
    ∃ fault, FailsWith r.fields members fault ∧
      decode r.readKeeping (.object members) = .error fault :=
  sort_cases hn nofun

section

variable {r : Record ε} (hother : ∀ f ∈ r.fields, f.otherName? = none)

include hother

theorem name_of_field? {key : String} {f : Field ε} (h : field? r.fields key = some f) :
    f.name = key := by
  have hspelled : f.spelled key := List.find?_some (p := fun f : Field ε ↦ f.spelled key) h
  exact (Field.spelled_iff (hother f (List.mem_of_find?_eq_some h))).1 hspelled

theorem mem_names_iff {key : String} : key ∈ r.names ↔ (field? r.fields key).isSome := by
  constructor
  · intro h
    obtain ⟨f, hf, rfl⟩ := List.mem_map.1 h
    rw [field?, List.find?_isSome]
    exact ⟨f, hf, spelled_name f⟩
  · intro h
    obtain ⟨f, hf⟩ := Option.isSome_iff_exists.1 h
    rw [← name_of_field? hother hf]
    exact List.mem_map_of_mem (List.mem_of_find?_eq_some hf)

theorem spelledNames_eq (members : List (String × Json)) :
    spelledNames r.fields members =
      (members.map Prod.fst).filter fun key ↦ (field? r.fields key).isSome := by
  induction members with
  | nil => rfl
  | cons p ms ih =>
    rw [List.map_cons, List.filter_cons, ← ih]
    cases hf : field? r.fields p.1 with
    | none => exact spelledNames_cons_of_none hf
    | some f =>
      rw [← name_of_field? hother hf]
      exact spelledNames_cons_of_some hf

theorem nodup_spelledNames (h : ∀ name ∈ r.names, (members.map Prod.fst).count name ≤ 1) :
    (spelledNames r.fields members).Nodup := by
  rw [spelledNames_eq hother, List.nodup_iff_count]
  intro name
  by_cases hname : name ∈ r.names
  · have hkept := (mem_names_iff hother).1 hname
    rw [List.count_filter (p := fun key ↦ (field? r.fields key).isSome) hkept]
    exact h name hname
  · rw [List.count_eq_zero.2]
    · exact Nat.zero_le 1
    · intro hm
      exact hname ((mem_names_iff hother).2 (List.mem_filter.1 hm).2)

theorem unmodelled_eq (members : List (String × Json)) :
    unmodelled r.fields members = members.filter fun p ↦ p.1 ∉ r.names := by
  refine List.filter_congr fun p _ ↦ ?_
  cases hf : field? r.fields p.1 <;> simp [mem_names_iff hother, hf]

end

variable {key : String} {pick : ε → Option α}

theorem mem_found {e : ε} (h : e ∈ found fields members) :
    ∃ p ∈ members, ∃ f, field? fields p.1 = some f ∧ decode f.read p.2 = .ok e := by
  obtain ⟨p, hp, he⟩ := List.mem_filterMap.1 h
  obtain ⟨f, hf, hread⟩ := Option.bind_eq_some_iff.1 he
  refine ⟨p, hp, f, hf, ?_⟩
  cases hd : decode f.read p.2 with
  | error fault =>
    rw [hd] at hread
    cases hread
  | ok a =>
    rw [hd] at hread
    cases hread
    rfl

def PicksFrom (fields : List (Field ε)) (key : String) (pick : ε → Option α) : Prop :=
  ∀ name v f e, name ≠ key → field? fields name = some f → decode f.read v = .ok e → pick e = none

theorem findSome?_found_of_notMem (hp : PicksFrom fields key pick)
    (hk : key ∉ members.map Prod.fst) : (found fields members).findSome? pick = none := by
  rw [List.findSome?_eq_none_iff]
  intro e he
  obtain ⟨p, hmem, f, hf, hread⟩ := mem_found he
  refine hp p.1 p.2 f e ?_ hf hread
  rintro rfl
  exact hk (List.mem_map_of_mem hmem)

theorem findSome?_found_of_mem (hp : PicksFrom fields key pick)
    (hk : (members.map Prod.fst).count key ≤ 1) {v : Json} (hm : (key, v) ∈ members) {f : Field ε}
    (hf : field? fields key = some f) {e : ε} (he : decode f.read v = .ok e) :
    (found fields members).findSome? pick = pick e := by
  obtain ⟨before, after, rfl⟩ := List.append_of_mem hm
  rw [List.map_append, List.map_cons, List.count_append, List.count_cons_self] at hk
  have hbefore : key ∉ before.map Prod.fst := List.count_eq_zero.1 (by omega)
  have hafter : key ∉ after.map Prod.fst := List.count_eq_zero.1 (by omega)
  have hfound : found fields (before ++ (key, v) :: after) =
      found fields before ++ e :: found fields after := by
    rw [found, List.filterMap_append, List.filterMap_cons_some]
    · rfl
    · rw [hf, Option.bind_some, he]
      rfl
  rw [hfound, List.findSome?_append, findSome?_found_of_notMem hp hbefore, Option.none_or,
    List.findSome?_cons, findSome?_found_of_notMem hp hafter]
  cases pick e <;> rfl

end Record

end DesignDocs.Json
