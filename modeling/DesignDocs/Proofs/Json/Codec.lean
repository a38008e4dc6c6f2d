import DesignDocs.Json.Record
import DesignDocs.Proofs.Json.Source

namespace DesignDocs

namespace Json

open Source (ofTree ofTreeItems ofTreeMembers)

variable {α β : Type}

/-- The reader finds `a` in the tree, in a text as well as in a value. -/
def Reads (read : Reader α) (v : Json) (a : α) : Prop := ∀ surplus, read (ofTree surplus v) = .ok a

namespace Reads

theorem map {read : Reader α} {v : Json} {a : α} (h : Reads read v a) (f : α → β) :
    Reads (fun s ↦ (read s).map f) v (f a) := fun surplus ↦ by
  dsimp only
  rw [h surplus, Except.map_ok]

theorem optional {read : Reader α} {v : Json} {a : α} (h : Reads read v a) (hv : v ≠ .null) :
    Reads (Reader.optional read) v (some a) := fun surplus ↦ by
  have hr := h surplus
  cases v with
  | null => exact absurd rfl hv
  | _ =>
    rw [ofTree] at hr ⊢
    rw [Reader.optional, hr, Except.map_ok]
    exact nofun

theorem text (s : String) : Reads Reader.text (.string s) s := fun _ ↦ rfl

theorem bool (b : Bool) : Reads Reader.bool (.bool b) b := fun _ ↦ rfl

theorem count (n : UInt64) : Reads Reader.count (.number (.ofUInt64 n)) n := fun surplus ↦ by
  have hread : Reader.count (ofTree surplus (.number (.ofUInt64 n))) =
      if 0 ≤ (n.toNat : Int) then .ok (UInt64.ofNat (n.toNat : Int).toNat)
      else .error (.negative n.toNat) := rfl
  rw [hread, if_pos (Int.natCast_nonneg _), Int.toNat_natCast, UInt64.ofNat_toNat]

theorem optionalText (s : String) : Reads Reader.text.optional (.string s) (some s) :=
  (text s).optional nofun

theorem object (o : Object) : Reads Reader.object o.toJson o := fun surplus ↦ by
  have htrees : (ofTreeMembers surplus (o.entries.map fun p ↦ (p.1, p.2.json))).trees =
      .ok (o.entries.map fun p ↦ (p.1, p.2.json)) :=
    Source.trees_ofTreeMembers fun p _ ↦ Source.tree_ofTree p.2
  rw [NamedMap.toJson, Value.object, ofTree, Reader.object, htrees, Except.map_ok,
    objectOf_entries]

theorem list {read : Reader α} {f : α → Json} (h : ∀ a, Reads read (f a) a) (l : List α) :
    Reads (Reader.list read) (.array (l.map f)) l := fun surplus ↦ by
  have hall : (ofTreeItems surplus (l.map f)).readAll read = .ok l := by
    induction l with
    | nil => rfl
    | cons a l ih =>
      rw [List.map_cons, ofTreeItems, Items.readAll, h a surplus, ih]
      rfl
  rw [ofTree, Reader.list, hall]

theorem texts (l : List String) : Reads (.list .text) (.array (l.map .string)) l :=
  list text l

theorem readNamed {read : Reader α} {f : α → Json} {l : List (String × α)} {before : NamedMap α}
    {surplus : Nat → Fault} (h : ∀ a, Reads read (f a) a)
    (hd : ((before.entries ++ l).map Prod.fst).Nodup) :
    (ofTreeMembers surplus (l.map fun p ↦ (p.1, f p.2))).readNamed read before =
      .ok ⟨before.entries ++ l, hd⟩ := by
  induction l generalizing before with
  | nil =>
    simp only [List.map_nil, ofTreeMembers, Members.readNamed, Except.ok.injEq]
    exact NamedMap.ext_entries (by simp)
  | cons p l ih =>
    obtain ⟨name, a⟩ := p
    have hnew : name ∉ before.names := by
      intro hm
      rw [List.map_append] at hd
      exact (List.nodup_append.1 hd).2.2 name hm name (by simp) rfl
    have hd' : (((before.push name a hnew).entries ++ l).map Prod.fst).Nodup := by
      simpa [NamedMap.push] using hd
    rw [List.map_cons, ofTreeMembers, Members.readNamed, h a surplus, Except.ok_bind, dif_neg hnew,
      ih hd']
    simp [NamedMap.push]

theorem named {read : Reader α} {f : α → Json} (h : ∀ a, Reads read (f a) a) (m : NamedMap α) :
    Reads (Reader.named read) (.object (m.entries.map fun p ↦ (p.1, f p.2))) m := fun surplus ↦ by
  have hd : ((NamedMap.empty.entries ++ m.entries).map Prod.fst).Nodup := by
    simpa [NamedMap.empty] using m.distinct
  rw [ofTree, Reader.named, readNamed h hd]
  exact congrArg Except.ok (NamedMap.ext_entries rfl)

end Reads

theorem distinctValues_ofTreeItems {surplus : Nat → Fault} {items : List Json}
    (hd : ∀ v ∈ items, v.Distinct)
    (h : ∀ v ∈ items, ∀ hv : v.Distinct, (ofTree surplus v).distinctValue = .ok ⟨v, hv⟩) :
    (ofTreeItems surplus items).distinctValues = .ok (items.pmap Value.mk hd) := by
  induction items with
  | nil => rfl
  | cons v vs ih =>
    obtain ⟨hv, hvs⟩ := List.forall_mem_cons.1 hd
    have ih := ih hvs fun w hw ↦ h w (List.mem_cons_of_mem v hw)
    rw [ofTreeItems, Items.distinctValues, h v List.mem_cons_self hv, Except.ok_bind, ih]
    rfl

theorem distinctMembers_ofTreeMembers {surplus : Nat → Fault} {members : List (String × Json)}
    (before : Object) (hd : ∀ p ∈ members, p.2.Distinct)
    (hn : (before.names ++ members.map Prod.fst).Nodup)
    (h : ∀ p ∈ members, ∀ hp : p.2.Distinct, (ofTree surplus p.2).distinctValue = .ok ⟨p.2, hp⟩) :
    ∃ o, (ofTreeMembers surplus members).distinctMembers before = .ok o ∧
      o.entries = before.entries ++ members.pmap (fun p hp ↦ (p.1, ⟨p.2, hp⟩)) hd := by
  induction members generalizing before with
  | nil => exact ⟨before, rfl, by simp⟩
  | cons p ms ih =>
    obtain ⟨name, v⟩ := p
    obtain ⟨hv, hms⟩ := List.forall_mem_cons.1 hd
    have hnew : name ∉ before.names := fun hm ↦
      (List.nodup_append.1 hn).2.2 name hm name (by simp) rfl
    obtain ⟨o, ho, hentries⟩ := ih (before.push name ⟨v, hv⟩ hnew) hms (by simpa using hn)
      fun q hq ↦ h q (List.mem_cons_of_mem _ hq)
    refine ⟨o, ?_, by simp [hentries, NamedMap.push]⟩
    rw [ofTreeMembers, Members.distinctMembers, h (name, v) List.mem_cons_self hv, Except.ok_bind,
      dif_neg hnew, ho]

/-- A tree without repeats is read as itself where repeats are refused. -/
theorem Reads.distinctValue {v : Json} (h : v.Distinct) :
    Reads Source.distinctValue v ⟨v, h⟩ := fun surplus ↦ by
  induction v using induct with
  | null | bool | number | string => rfl
  | array items ih =>
    have hd := distinctItems_iff.1 h
    rw [ofTree, Source.distinctValue, distinctValues_ofTreeItems hd fun v hv hv' ↦ ih v hv hv',
      Except.map_ok]
    exact congrArg Except.ok (Value.ext_json (by simp [Value.array, List.map_pmap]))
  | object members ih =>
    have hd := distinctMembers_iff.1 h.2
    obtain ⟨o, ho, hentries⟩ := distinctMembers_ofTreeMembers .empty hd (by simpa using h.1)
      fun p hp hp' ↦ ih p hp hp'
    rw [ofTree, Source.distinctValue, ho, Except.map_ok]
    refine congrArg Except.ok (Value.ext_json ?_)
    simp [Value.object, hentries, NamedMap.empty, List.map_pmap]

mutual

/-- What is read where repeats are refused is the whole tree. -/
theorem tree_of_distinctValue : ∀ {s : Source} {v : Value}, s.distinctValue = .ok v →
    s.tree = .ok v.json
  | .null, _, h | .bool _, _, h | .number _, _, h | .string _, _, h => by
    cases h
    rfl
  | .array _ _, _, h => by
    obtain ⟨vs, hvs, rfl⟩ := Except.map_eq_ok_iff.1 h
    rw [Source.tree, trees_of_distinctValues hvs]
    rfl
  | .object _, _, h => by
    obtain ⟨o, ho, rfl⟩ := Except.map_eq_ok_iff.1 h
    obtain ⟨ms, hms, he⟩ := trees_of_distinctMembers ho
    rw [Source.tree, hms, Except.map_ok]
    exact congrArg (fun ms ↦ Except.ok (Json.object ms)) he.symm

theorem trees_of_distinctValues : ∀ {items : Items} {vs : List Value},
    items.distinctValues = .ok vs → items.trees = .ok (vs.map Value.json)
  | .done, _, h => by
    cases h
    rfl
  | .cons _ _, _, h => by
    obtain ⟨v, hv, h⟩ := Except.bind_eq_ok_iff.1 h
    obtain ⟨vs, hvs, h⟩ := Except.bind_eq_ok_iff.1 h
    cases h
    rw [Items.trees, tree_of_distinctValue hv, trees_of_distinctValues hvs]
    rfl

theorem trees_of_distinctMembers : ∀ {members : Members} {before o : Object},
    members.distinctMembers before = .ok o → ∃ ms, members.trees = .ok ms ∧
      (o.entries.map fun p ↦ (p.1, p.2.json)) =
        (before.entries.map fun p ↦ (p.1, p.2.json)) ++ ms
  | .done, _, _, h => by
    cases h
    exact ⟨[], rfl, (List.append_nil _).symm⟩
  | .cons name _ _ _, before, _, h => by
    rw [Members.distinctMembers] at h
    obtain ⟨v, hv, h⟩ := Except.bind_eq_ok_iff.1 h
    split at h
    · cases h
    · obtain ⟨ms, hms, he⟩ := trees_of_distinctMembers h
      refine ⟨(name, v.json) :: ms, ?_, ?_⟩
      · rw [Members.trees, tree_of_distinctValue hv, hms]
        rfl
      · rw [he, NamedMap.push, List.map_append, List.append_assoc]
        rfl

end

theorem distinctValues_ofTreeItems_cases {surplus : Nat → Fault} {items : List Json}
    (h : ∀ v ∈ items, (∃ w, (ofTree surplus v).distinctValue = .ok w) ∨
      ∃ key, v.Repeats key ∧ (ofTree surplus v).distinctValue = .error (.keyRepeated key)) :
    (∃ ws, (ofTreeItems surplus items).distinctValues = .ok ws) ∨
      ∃ key, (∃ v ∈ items, v.Repeats key) ∧
        (ofTreeItems surplus items).distinctValues = .error (.keyRepeated key) := by
  induction items with
  | nil => exact .inl ⟨[], rfl⟩
  | cons v vs ih =>
    obtain ⟨hv, hvs⟩ := List.forall_mem_cons.1 h
    rw [ofTreeItems, Items.distinctValues]
    obtain ⟨w, hw⟩ | ⟨key, hrepeats, hkey⟩ := hv
    · rw [hw, Except.ok_bind]
      obtain ⟨ws, hws⟩ | ⟨key, ⟨u, hu, hrepeats⟩, hkey⟩ := ih hvs
      · exact .inl ⟨w :: ws, by rw [hws]; rfl⟩
      · exact .inr ⟨key, ⟨u, List.mem_cons_of_mem v hu, hrepeats⟩, by rw [hkey]; rfl⟩
    · exact .inr ⟨key, ⟨v, List.mem_cons_self, hrepeats⟩, by rw [hkey]; rfl⟩

/-- The keys before count with those of the members. -/
theorem distinctMembers_ofTreeMembers_cases {surplus : Nat → Fault}
    {members : List (String × Json)}
    (h : ∀ p ∈ members, (∃ w, (ofTree surplus p.2).distinctValue = .ok w) ∨
      ∃ key, p.2.Repeats key ∧ (ofTree surplus p.2).distinctValue = .error (.keyRepeated key))
    (before : Object) :
    (∃ o, (ofTreeMembers surplus members).distinctMembers before = .ok o) ∨
      ∃ key, (2 ≤ (before.names ++ members.map Prod.fst).count key ∨
          ∃ p ∈ members, p.2.Repeats key) ∧
        (ofTreeMembers surplus members).distinctMembers before = .error (.keyRepeated key) := by
  induction members generalizing before with
  | nil => exact .inl ⟨before, rfl⟩
  | cons p ms ih =>
    obtain ⟨name, v⟩ := p
    obtain ⟨hv, hms⟩ := List.forall_mem_cons.1 h
    rw [ofTreeMembers, Members.distinctMembers]
    obtain ⟨w, hw⟩ | ⟨key, hrepeats, hkey⟩ := hv
    · rw [hw, Except.ok_bind]
      split
      · next hname =>
        have hcount : 0 < before.names.count name := List.count_pos_iff.2 hname
        refine .inr ⟨name, .inl ?_, rfl⟩
        rw [List.map_cons, List.count_append, List.count_cons_self]
        omega
      · next hname =>
        obtain ho | ⟨key, hkeys, hkey⟩ := ih hms (before.push name w hname)
        · exact .inl ho
        · rw [NamedMap.names_push, List.append_assoc] at hkeys
          refine .inr ⟨key, hkeys.imp_right ?_, hkey⟩
          exact fun ⟨q, hq, hrepeats⟩ ↦ ⟨q, List.mem_cons_of_mem _ hq, hrepeats⟩
    · exact .inr ⟨key, .inr ⟨_, List.mem_cons_self, hrepeats⟩, by rw [hkey]; rfl⟩

/-- Where repeats are refused, a tree is read or refused for a key that it repeats. -/
theorem distinctValue_ofTree_cases (surplus : Nat → Fault) (v : Json) :
    (∃ w, (ofTree surplus v).distinctValue = .ok w) ∨
      ∃ key, v.Repeats key ∧ (ofTree surplus v).distinctValue = .error (.keyRepeated key) := by
  induction v using induct with
  | null | bool | number | string => exact .inl ⟨_, rfl⟩
  | array items ih =>
    rw [ofTree, Source.distinctValue]
    obtain ⟨ws, hws⟩ | ⟨key, ⟨v, hv, hrepeats⟩, hkey⟩ := distinctValues_ofTreeItems_cases ih
    · exact .inl ⟨_, by rw [hws]; rfl⟩
    · exact .inr ⟨key, .item hv hrepeats, by rw [hkey]; rfl⟩
  | object members ih =>
    rw [ofTree, Source.distinctValue]
    obtain ⟨o, ho⟩ | ⟨key, hkeys, hkey⟩ := distinctMembers_ofTreeMembers_cases ih .empty
    · exact .inl ⟨_, by rw [ho]; rfl⟩
    · refine .inr ⟨key, ?_, by rw [hkey]; rfl⟩
      obtain h | ⟨p, hp, hrepeats⟩ := hkeys
      · exact .here h
      · exact .member hp hrepeats

theorem exists_keyRepeated {v : Json} (h : ¬ v.Distinct) (surplus : Nat → Fault) :
    ∃ key, v.Repeats key ∧ (ofTree surplus v).distinctValue = .error (.keyRepeated key) := by
  obtain ⟨w, hw⟩ | hkey := distinctValue_ofTree_cases surplus v
  · -- what is read has no repeats, and it is the whole tree
    have htree := tree_of_distinctValue hw
    rw [Source.tree_ofTree] at htree
    cases htree
    exact absurd w.distinct h
  · exact hkey

theorem distinct_iff {v : Json} : v.Distinct ↔ ∀ key, ¬ v.Repeats key := by
  refine ⟨fun h key hrepeats ↦ hrepeats.not_distinct h, fun h ↦ ?_⟩
  by_contra hd
  obtain ⟨key, hrepeats, -⟩ := exists_keyRepeated hd Source.trailing
  exact h key hrepeats

end Json

end DesignDocs
