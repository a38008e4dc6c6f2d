import DesignDocs.Proofs.Json.Confined
import DesignDocs.Proofs.Json.Described
import DesignDocs.Proofs.Json.Record
import Mathlib.Order.MinMax

namespace DesignDocs.Json

variable {α β ε : Type}

theorem depth_object_le_iff {members : List (String × Json)} {n : Nat} (hn : 0 < n) :
    (object members).depth ≤ n ↔ ∀ p ∈ members, p.2.depth < n := by
  rw [depth, Nat.succ_le_iff, Nat.lt_iff_le_pred hn, depthMembers_le_iff]
  exact forall₂_congr fun p _ ↦ (Nat.lt_iff_le_pred hn).symm

mutual

/-- Objects and arrays stand in one another at most so deep. Where a fault is, nothing is deep. -/
def Source.Within (n : Nat) : Source → Prop
  | .array items _ => items.Within n
  | .object members => members.Within n
  | _ => True

def Items.Within (n : Nat) : Items → Prop
  | .done => 0 < n
  | .fault _ => True
  | .cons head tail => 0 < n ∧ head.Within (n - 1) ∧ tail.Within n

def Members.Within (n : Nat) : Members → Prop
  | .done => 0 < n
  | .fault _ => True
  | .cons _ value _ rest => 0 < n ∧ value.Within (n - 1) ∧ rest.Within n

end

namespace Source

theorem within_ofScalar (n : Nat) (value : Scalar) : (ofScalar value).Within n := by
  cases value <;> trivial

theorem within_itemsFrom {depth n : Nat} {ts : List Token} (hvalue : (ofTokens depth ts).Within n)
    (hafter : ∀ rest, skipValue ts = .ok rest → (itemsAfter depth rest).Within (n + 1)) :
    (itemsFrom depth ts).Within (n + 1) := by
  rw [itemsFrom]
  refine ⟨Nat.succ_pos n, hvalue, ?_⟩
  split
  · next rest h => exact hafter rest h
  · trivial

theorem within_stopped (n : Nat) (name : String) (f : FormFault) :
    (Members.stopped name f).Within (n + 1) :=
  ⟨Nat.succ_pos n, trivial, trivial⟩

/-- By induction on the tokens: what stands inside so many objects and arrays has those levels left
that are missing to the limit. -/
theorem within_all :
    (∀ depth ts, (ofTokens depth ts).Within (depthLimit - depth)) ∧
      (∀ depth ts, (membersOpened depth ts).Within (depthLimit - depth + 1)) ∧
      (∀ depth ts, (membersFrom depth ts).Within (depthLimit - depth + 1)) ∧
      (∀ depth ts, (membersAfter depth ts).Within (depthLimit - depth + 1)) ∧
      (∀ depth ts, (itemsOpened depth ts).Within (depthLimit - depth + 1)) ∧
      (∀ depth ts, (itemsFrom depth ts).Within (depthLimit - depth + 1)) ∧
      ∀ depth ts, (itemsAfter depth ts).Within (depthLimit - depth + 1) := by
  apply ofTokens.mutual_induct
  case case6 =>
    intro depth rest hitems
    rw [ofTokens, Source.Within]
    split
    · next hdepth => rwa [Nat.sub_add_eq, Nat.sub_add_cancel (Nat.sub_pos_of_lt hdepth)] at hitems
    · trivial
  case case7 =>
    intro depth rest hmembers
    rw [ofTokens, Source.Within]
    split
    · next hdepth =>
      rwa [Nat.sub_add_eq, Nat.sub_add_cancel (Nat.sub_pos_of_lt hdepth)] at hmembers
    · trivial
  case case12 =>
    intro depth o rest f ho
    rw [membersFrom, ho]
    trivial
  case case13 =>
    intro depth o name ho rest after hskip hvalue hafter
    rw [membersFrom_of_skip ho hskip]
    exact ⟨Nat.succ_pos _, hvalue, hafter⟩
  case case14 =>
    intro depth o name ho rest f hskip hvalue
    rw [membersFrom_of_skip_error ho hskip]
    exact ⟨Nat.succ_pos _, hvalue, trivial⟩
  case case15 =>
    intro depth o name ho
    rw [membersFrom, ho]
    exact within_stopped _ name _
  case case16 =>
    intro depth o name ho t ts ht
    rw [membersFrom.eq_def]
    simp only [ho]
    exact within_stopped _ name _
  case case17 =>
    intro depth ts hts
    rw [membersFrom]
    · trivial
    · exact hts
  case case27 =>
    intro depth ts hvalue hafter
    exact within_itemsFrom hvalue hafter
  -- Elsewhere the source ends, or goes on as another function has it.
  all_goals
    intros
    simp_all [ofTokens, membersOpened, membersAfter, itemsOpened, itemsAfter, Source.Within,
      Items.Within, Members.Within, within_ofScalar]

theorem within_ofTokens (ts : List Token) : (ofTokens 0 ts).Within depthLimit :=
  within_all.1 0 ts

theorem within_ofItems {items : List Json} {n : Nat} (hn : 0 < n)
    (h : ∀ v ∈ items, (ofJson v).Within (n - 1)) : (ofItems items).Within n := by
  induction items with
  | nil => exact hn
  | cons v vs ih =>
    obtain ⟨hv, hvs⟩ := List.forall_mem_cons.1 h
    exact ⟨hn, hv, ih hvs⟩

theorem within_ofMembers {members : List (String × Json)} {n : Nat} (hn : 0 < n)
    (h : ∀ p ∈ members, (ofJson p.2).Within (n - 1)) : (ofMembers members).Within n := by
  induction members with
  | nil => exact hn
  | cons p ms ih =>
    obtain ⟨hp, hms⟩ := List.forall_mem_cons.1 h
    exact ⟨hn, hp, ih hms⟩

theorem within_ofJson {v : Json} {n : Nat} (h : v.depth ≤ n) : (ofJson v).Within n := by
  induction v using induct generalizing n with
  | null | bool | number | string => trivial
  | array items ih =>
    have hitems := depthItems_le_iff.1 (Nat.le_sub_one_of_lt h)
    exact within_ofItems (Nat.zero_lt_of_lt h) fun v hv ↦ ih v hv (hitems v hv)
  | object members ih =>
    have hmembers := depthMembers_le_iff.1 (Nat.le_sub_one_of_lt h)
    exact within_ofMembers (Nat.zero_lt_of_lt h) fun p hp ↦ ih p hp (hmembers p hp)

mutual

/-- A tree is no deeper than the source in which it is found. -/
theorem depth_le_of_tree {n : Nat} : ∀ {s : Source} {v : Json}, s.Within n → s.tree = .ok v →
    v.depth ≤ n
  | .null, _, _, h | .bool _, _, _, h | .number _, _, _, h | .string _, _, _, h => by
    cases h
    exact Nat.zero_le n
  | .array _ _, _, hs, h => by
    obtain ⟨vs, hvs, rfl⟩ := Except.map_eq_ok_iff.1 h
    exact depthItems_lt_of_trees hs hvs
  | .object _, _, hs, h => by
    obtain ⟨ms, hms, rfl⟩ := Except.map_eq_ok_iff.1 h
    exact depthMembers_lt_of_trees hs hms

theorem depthItems_lt_of_trees {n : Nat} : ∀ {items : Items} {vs : List Json}, items.Within n →
    items.trees = .ok vs → depthItems vs < n
  | .done, _, hs, h => by
    cases h
    exact hs
  | .cons _ _, _, ⟨hn, hhead, htail⟩, h => by
    obtain ⟨v, hv, h⟩ := Except.bind_eq_ok_iff.1 h
    obtain ⟨vs, hvs, h⟩ := Except.bind_eq_ok_iff.1 h
    cases h
    have hlt := Nat.lt_of_le_sub_one hn (depth_le_of_tree hhead hv)
    exact Nat.max_lt.2 ⟨hlt, depthItems_lt_of_trees htail hvs⟩

theorem depthMembers_lt_of_trees {n : Nat} : ∀ {members : Members} {ms : List (String × Json)},
    members.Within n → members.trees = .ok ms → depthMembers ms < n
  | .done, _, hs, h => by
    cases h
    exact hs
  | .cons _ _ _ _, _, ⟨hn, hvalue, hrest⟩, h => by
    obtain ⟨v, hv, h⟩ := Except.bind_eq_ok_iff.1 h
    obtain ⟨ms, hms, h⟩ := Except.bind_eq_ok_iff.1 h
    cases h
    have hlt := Nat.lt_of_le_sub_one hn (depth_le_of_tree hvalue hv)
    exact Nat.max_lt.2 ⟨hlt, depthMembers_lt_of_trees hrest hms⟩

end

end Source

theorem depthMembers_ofList_le (l : List (String × Json)) :
    depthMembers (NamedMap.ofList l).entries ≤ depthMembers l := by
  rw [depthMembers_le_iff]
  intro p hp
  obtain ⟨q, hq, he⟩ := mem_ofList hp
  exact he ▸ depthMembers_le_iff.1 le_rfl q hq

mutual

theorem depth_merge_le : ∀ v : Json, v.merge.depth ≤ v.depth
  | .null | .bool _ | .number _ | .string _ => le_rfl
  | .array items => Nat.succ_le_succ (depthItems_mergeItems_le items)
  | .object members =>
    Nat.succ_le_succ ((depthMembers_ofList_le _).trans (depthMembers_mergeMembers_le members))

theorem depthItems_mergeItems_le : ∀ vs : List Json, depthItems (mergeItems vs) ≤ depthItems vs
  | [] => le_rfl
  | v :: vs => max_le_max (depth_merge_le v) (depthItems_mergeItems_le vs)

theorem depthMembers_mergeMembers_le :
    ∀ ms : List (String × Json), depthMembers (mergeMembers ms) ≤ depthMembers ms
  | [] => le_rfl
  | (_, v) :: ms => max_le_max (depth_merge_le v) (depthMembers_mergeMembers_le ms)

end

theorem depth_toJson_objectOf_le (ms : List (String × Json)) :
    (objectOf ms).toJson.depth ≤ depthMembers ms + 1 := by
  refine Nat.succ_le_succ (depthMembers_le_iff.2 ?_)
  rw [List.forall_mem_map]
  intro p hp
  obtain ⟨q, hq, he⟩ := mem_ofList hp
  obtain ⟨m, hm, rfl⟩ := List.mem_map.1 hq
  rw [← he]
  exact (depth_merge_le m.2).trans (depthMembers_le_iff.1 le_rfl m hm)

/-- What is written for a result nests no deeper than the source of the result. -/
def Shallow (toJson? : α → Option Json) (read : Reader α) : Prop :=
  ∀ ⦃n : Nat⦄ ⦃s : Source⦄ ⦃a : α⦄, s.Within n → read s = .ok a → ∀ v ∈ toJson? a, v.depth ≤ n

namespace Shallow

variable {read : Reader α} {toJson? : α → Option Json}

theorem of_flat {toJson : α → Json} (h : ∀ a, (toJson a).depth = 0) :
    Shallow (fun a ↦ some (toJson a)) read := by
  rintro n s a - - _ ⟨⟩
  exact (h a).trans_le n.zero_le

theorem map (h : Shallow toJson? read) {f : α → β} {toJson?' : β → Option Json}
    (hf : ∀ a, toJson?' (f a) = toJson? a) : Shallow toJson?' fun s ↦ (read s).map f := by
  intro n s b hs hb v hv
  obtain ⟨a, ha, rfl⟩ := Except.map_eq_ok_iff.1 hb
  exact h hs ha v (hf a ▸ hv)

theorem depthItems_lt_of_readAll {toJson : α → Json} (h : Shallow (fun a ↦ some (toJson a)) read)
    {n : Nat} : ∀ {items : Items} {as : List α}, items.Within n → items.readAll read = .ok as →
      depthItems (as.map toJson) < n
  | .done, _, hs, has => by
    cases has
    exact hs
  | .cons _ _, _, ⟨hn, hhead, htail⟩, has => by
    obtain ⟨a, ha, has⟩ := Except.bind_eq_ok_iff.1 has
    obtain ⟨as, hrest, has⟩ := Except.bind_eq_ok_iff.1 has
    cases has
    have hlt := Nat.lt_of_le_sub_one hn (h hhead ha _ rfl)
    exact Nat.max_lt.2 ⟨hlt, depthItems_lt_of_readAll h htail hrest⟩

theorem depth_lt_of_readNamed {toJson : α → Json} (h : Shallow (fun a ↦ some (toJson a)) read)
    {n : Nat} : ∀ {members : Members} {before m : NamedMap α}, members.Within n →
      members.readNamed read before = .ok m → (∀ p ∈ before.entries, (toJson p.2).depth < n) →
      0 < n ∧ ∀ p ∈ m.entries, (toJson p.2).depth < n
  | .done, _, _, hs, hm, hbefore => by
    cases hm
    exact ⟨hs, hbefore⟩
  | .cons name _ _ _, before, _, ⟨hn, hvalue, hrest⟩, hm, hbefore => by
    obtain ⟨a, ha, hm⟩ := Except.bind_eq_ok_iff.1 hm
    split at hm
    · cases hm
    · next hnew =>
      refine depth_lt_of_readNamed h hrest hm fun p hp ↦ ?_
      obtain hp | hp := List.mem_append.1 hp
      · exact hbefore p hp
      · obtain rfl := List.mem_singleton.1 hp
        exact Nat.lt_of_le_sub_one hn (h hvalue ha _ rfl)

theorem optional {toJson : α → Json} (h : Shallow (fun a ↦ some (toJson a)) read) :
    Shallow (fun o ↦ o.map toJson) (Reader.optional read) := by
  intro n s o hs ho v hv
  obtain ⟨a, rfl, rfl⟩ := Option.map_eq_some_iff.1 hv
  cases s with
  | null => cases ho
  | _ =>
    obtain ⟨b, hb, he⟩ := Except.map_eq_ok_iff.1 ho
    cases he
    exact h hs hb _ rfl

theorem text : Shallow (fun s ↦ some (.string s)) Reader.text :=
  of_flat fun _ ↦ rfl

theorem object : Shallow (fun o ↦ some o.toJson) Reader.object := by
  rintro n s o hs ho _ ⟨⟩
  cases s with
  | object members =>
    obtain ⟨ms, hms, rfl⟩ := Except.map_eq_ok_iff.1 ho
    exact (depth_toJson_objectOf_le ms).trans (Source.depthMembers_lt_of_trees hs hms)
  | _ => cases ho

theorem list {toJson : α → Json} (h : Shallow (fun a ↦ some (toJson a)) read) :
    Shallow (fun as ↦ some (.array (as.map toJson))) (Reader.list read) := by
  rintro n s as hs has _ ⟨⟩
  cases s with
  | array items surplus => exact depthItems_lt_of_readAll h hs has
  | _ => cases has

theorem named {toJson : α → Json} (h : Shallow (fun a ↦ some (toJson a)) read) :
    Shallow (fun m ↦ some (.object (m.entries.map fun p ↦ (p.1, toJson p.2))))
      (Reader.named read) := by
  rintro n s m hs hm _ ⟨⟩
  cases s with
  | object members =>
    obtain ⟨hn, hentries⟩ := depth_lt_of_readNamed h hs hm nofun
    rw [depth_object_le_iff hn, List.forall_mem_map]
    exact hentries
  | _ => cases hm

theorem depth_le_of_symbols (h : Shallow toJson? read) {cs : List Text.Symbol} {a : α}
    (ha : read.symbols cs = .ok a) : ∀ v ∈ toJson? a, v.depth ≤ depthLimit := by
  rw [Reader.symbols] at ha
  split at ha
  · cases ha
  · next b hb =>
    split at ha <;> cases ha
    exact h (Source.within_ofTokens _) hb

end Shallow

theorem Items.unwanted_fault_ne_none (surplus f : Fault) :
    (Items.fault f).unwanted surplus ≠ none := by
  intro h
  rw [Items.unwanted.eq_def] at h
  split at h
  · next hitems => cases hitems
  all_goals cases h

section

variable {fields : List (Field ε)} {toJson? : ε → Option Json} {n : Nat}

theorem Members.depth_lt_of_sort {others : Others} (h : ∀ f ∈ fields, Shallow toJson? f.read) :
    ∀ {members : Members} {seen : List String} {sorted : Members.Sorted ε}, members.Within n →
      members.sort fields others seen = .ok sorted →
      0 < n ∧ (∀ e ∈ sorted.modelled, ∀ v ∈ toJson? e, v.depth < n) ∧
        ∀ p ∈ sorted.others, p.2.depth < n
  | .done, _, _, hs, he => by
    cases he
    exact ⟨hs, nofun, nofun⟩
  | .cons key value skip rest, seen, sorted, ⟨hn, hvalue, hrest⟩, he => by
    rw [Members.sort.eq_def] at he
    dsimp only at he
    split at he
    · next f hf =>
      split at he
      · cases he
      · obtain ⟨e, hread, he⟩ := Except.bind_eq_ok_iff.1 he
        obtain ⟨sorted, hsort, he⟩ := Except.bind_eq_ok_iff.1 he
        cases he
        obtain ⟨-, hmodelled, hothers⟩ := depth_lt_of_sort h hrest hsort
        have hfield := h f (List.mem_of_find?_eq_some hf) hvalue hread
        refine ⟨hn, List.forall_mem_cons.2 ⟨fun v hv ↦ ?_, hmodelled⟩, hothers⟩
        exact Nat.lt_of_le_sub_one hn (hfield v hv)
    · cases others with
      | kept =>
        obtain ⟨v, hv, he⟩ := Except.bind_eq_ok_iff.1 he
        obtain ⟨sorted, hsort, he⟩ := Except.bind_eq_ok_iff.1 he
        cases he
        obtain ⟨-, hmodelled, hothers⟩ := depth_lt_of_sort h hrest hsort
        have hother := Nat.lt_of_le_sub_one hn (Source.depth_le_of_tree hvalue hv)
        exact ⟨hn, hmodelled, List.forall_mem_cons.2 ⟨hother, hothers⟩⟩
      | skipped =>
        cases skip with
        | some f => cases he
        | none => exact depth_lt_of_sort h hrest he

namespace Record

variable {r : Record ε}

theorem depth_lt_of_readItems {surplus : Fault} :
    ∀ {fields : List (Field ε)} {index : Nat} {items : Items} {es : List ε},
      (∀ f ∈ fields, Shallow toJson? f.read) → items.Within n →
      r.readItems surplus index fields items = .ok es →
      0 < n ∧ ∀ e ∈ es, ∀ v ∈ toJson? e, v.depth < n
  | [], _, items, es, _, hs, he => by
    rw [readItems] at he
    split at he
    · cases he
    · next hwanted =>
      cases he
      cases items with
      | done => exact ⟨hs, List.forall_mem_nil _⟩
      | fault f => exact absurd hwanted (Items.unwanted_fault_ne_none surplus f)
      | cons head tail => cases hwanted
  | _ :: _, _, .fault _, _, _, _, he => by cases he
  | f :: fs, index, .done, es, h, hs, he => by
    rw [readItems] at he
    split at he
    · cases he
    · exact depth_lt_of_readItems (fun g hg ↦ h g (List.mem_cons_of_mem f hg)) hs he
  | f :: fs, index, .cons head tail, es, h, ⟨hn, hhead, htail⟩, he => by
    obtain ⟨e, hread, he⟩ := Except.bind_eq_ok_iff.1 he
    obtain ⟨es, hes, he⟩ := Except.bind_eq_ok_iff.1 he
    cases he
    obtain ⟨hf, hfs⟩ := List.forall_mem_cons.1 h
    obtain ⟨-, hall⟩ := depth_lt_of_readItems hfs htail hes
    refine ⟨hn, List.forall_mem_cons.2 ⟨fun v hv ↦ ?_, hall⟩⟩
    exact Nat.lt_of_le_sub_one hn (hf hhead hread v hv)

variable {s : Source} (h : ∀ f ∈ r.fields, Shallow toJson? f.read) (hs : s.Within n)

include h hs

theorem depth_lt_of_read {es : List ε} (he : r.read s = .ok es) :
    0 < n ∧ ∀ e ∈ es, ∀ v ∈ toJson? e, v.depth < n := by
  cases s with
  | array items surplus => exact depth_lt_of_readItems h hs he
  | object members =>
    obtain ⟨sorted, hsort, rfl⟩ := Except.map_eq_ok_iff.1 he
    obtain ⟨hn, hmodelled, -⟩ := Members.depth_lt_of_sort h hs hsort
    exact ⟨hn, hmodelled⟩
  | _ => cases he

theorem depth_lt_of_readKeeping {sorted : Members.Sorted ε} (he : r.readKeeping s = .ok sorted) :
    0 < n ∧ (∀ e ∈ sorted.modelled, ∀ v ∈ toJson? e, v.depth < n) ∧
      ∀ p ∈ sorted.others, p.2.depth < n := by
  cases s with
  | object members => exact Members.depth_lt_of_sort h hs he
  | _ => cases he

end Record

end

section

variable {es : List ε} {pick : ε → Option α} {toJson : α → Json} {toJson? : ε → Option Json}

theorem exists_mem_of_findSome? (h : ∀ e a, pick e = some a → toJson? e = some (toJson a)) :
    ∀ v ∈ (es.findSome? pick).map toJson, ∃ e ∈ es, v ∈ toJson? e := by
  intro v hv
  obtain ⟨a, ha, rfl⟩ := Option.map_eq_some_iff.1 hv
  obtain ⟨e, he, hpick⟩ := List.exists_of_findSome?_eq_some ha
  exact ⟨e, he, h e a hpick⟩

theorem exists_mem_of_required {name : String} {a : α}
    (ha : required name (es.findSome? pick) = .ok a)
    (h : ∀ e a, pick e = some a → toJson? e = some (toJson a)) :
    ∀ v ∈ some (toJson a), ∃ e ∈ es, v ∈ toJson? e := by
  have hall : ∀ v ∈ (es.findSome? pick).map toJson, ∃ e ∈ es, v ∈ toJson? e :=
    exists_mem_of_findSome? h
  rwa [required_eq_ok_iff.1 ha] at hall

end

namespace Record

variable {r : Record ε} {toJson? : ε → Option Json} {n : Nat} {s : Source}
  {slots : List (Option Json)} (h : ∀ f ∈ r.fields, Shallow toJson? f.read) (hs : s.Within n)

include h hs

theorem depth_written_le {es : List ε} (he : r.read s = .ok es)
    (hslots : ∀ o ∈ slots, ∀ v ∈ o, ∃ e ∈ es, v ∈ toJson? e) :
    (Json.object (written r.names slots)).depth ≤ n := by
  obtain ⟨hn, hes⟩ := depth_lt_of_read h hs he
  rw [depth_object_le_iff hn]
  intro p hp
  obtain ⟨e, hmem, hv⟩ := hslots _ (mem_written hp).2 p.2 rfl
  exact hes e hmem p.2 hv

theorem depth_keeping_le {sorted : Members.Sorted ε} (he : r.readKeeping s = .ok sorted)
    (hslots : ∀ o ∈ slots, ∀ v ∈ o, ∃ e ∈ sorted.modelled, v ∈ toJson? e) :
    (Json.object (written r.names slots ++
      (Extras.ofMembers sorted.others : Extras r.names).toMembers)).depth ≤ n := by
  obtain ⟨hn, hmodelled, hothers⟩ := depth_lt_of_readKeeping h hs he
  rw [depth_object_le_iff hn, List.forall_mem_append]
  constructor
  · intro p hp
    obtain ⟨e, hmem, hv⟩ := hslots _ (mem_written hp).2 p.2 rfl
    exact hmodelled e hmem p.2 hv
  · rw [Extras.toMembers, List.forall_mem_map]
    intro p hp
    have hdepth := (depth_toJson_objectOf_le sorted.others).trans
      ((depth_object_le_iff hn).2 hothers)
    exact (depth_object_le_iff hn).1 hdepth _ (List.mem_map_of_mem (List.mem_of_mem_filter hp))

end Record

end DesignDocs.Json
