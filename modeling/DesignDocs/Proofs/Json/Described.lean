import DesignDocs.Proofs.Json.Layout
import DesignDocs.Proofs.Json.Steady

namespace DesignDocs

theorem Except.map_bind {ε α β γ : Type} (x : Except ε α) (f : α → β) (g : β → Except ε γ) :
    (x.map f >>= g) = x >>= fun a ↦ g (f a) := by
  cases x <;> rfl

theorem exists_forall₂ {α β : Type} {p : α → β → Prop} {xs : List α}
    (h : ∀ x ∈ xs, ∃ y, p x y) : ∃ ys, List.Forall₂ p xs ys := by
  induction xs with
  | nil => exact ⟨[], .nil⟩
  | cons x xs ih =>
    obtain ⟨⟨y, hy⟩, hxs⟩ := List.forall_mem_cons.1 h
    obtain ⟨ys, hys⟩ := ih hxs
    exact ⟨y :: ys, .cons hy hys⟩

theorem map_eq_map_of_forall₂ {α β γ : Type} {p : α → β → Prop} {f : α → γ} {g : β → γ}
    {xs : List α} {ys : List β} (h : List.Forall₂ p xs ys)
    (he : ∀ x ∈ xs, ∀ y, p x y → g y = f x) : ys.map g = xs.map f := by
  induction h with
  | nil => rfl
  | @cons x y xs ys hxy _ ih =>
    rw [List.map_cons, List.map_cons, he x List.mem_cons_self y hxy,
      ih fun a ha ↦ he a (List.mem_cons_of_mem x ha)]

theorem map_eq_zipWith {α β γ : Type} {p : α → β → Prop} {f : α → γ} {g : α → β → γ}
    {xs : List α} {ys : List β} (h : List.Forall₂ p xs ys)
    (he : ∀ x ∈ xs, ∀ y, p x y → f x = g x y) : xs.map f = List.zipWith g xs ys := by
  induction h with
  | nil => rfl
  | @cons x y xs ys hxy _ ih =>
    rw [List.map_cons, List.zipWith_cons_cons, he x List.mem_cons_self y hxy,
      ih fun a ha ↦ he a (List.mem_cons_of_mem x ha)]

namespace Json

open Source (ofTree ofTreeItems ofTreeMembers trailing)

variable {α β ε : Type}

theorem required_eq_ok_iff {name : String} {o : Option α} {a : α} :
    required name o = .ok a ↔ o = some a := by
  cases o with
  | none => exact iff_of_false nofun nofun
  | some b => rw [required, Except.ok.injEq, Option.some.injEq]

theorem Steady.ok_iff {read : Reader α} (h : Steady read) {v : Json} {a : α} :
    read (ofTree .surplusItems v) = .ok a ↔ decode read v = .ok a := by
  obtain h | ⟨n, hn⟩ := h v
  · have he : read (ofTree .surplusItems v) = decode read v := h _ _
    rw [he]
  · have hvalue : read (ofTree .surplusItems v) = .error (.surplusItems n) := hn _
    have htext : decode read v = .error (trailing n) := hn _
    rw [hvalue, htext]
    exact iff_of_false nofun nofun

/-- From a text and from a value a steady reader fails with faults of one kind. -/
theorem Steady.exists_error {read : Reader α} (h : Steady read) {v : Json} {f : Fault}
    (hf : decode read v = .error f) :
    ∃ g, read (ofTree .surplusItems v) = .error g ∧ g.kind = f.kind := by
  obtain h | ⟨n, hn⟩ := h v
  · exact ⟨f, (h _ _).trans hf, rfl⟩
  · have htext : decode read v = .error (trailing n) := hn _
    rw [hf] at htext
    cases htext
    exact ⟨_, hn _, rfl⟩

namespace Format

/-- The reader takes just the trees of the format, and the writer writes for what was read the
normal form of the tree. Trees are without repeats here, as those of values are. -/
structure Describes (F : Format) (read : Reader α) (toJson : α → Json) : Prop where
  exists_ok : ∀ {v}, v.Distinct → F.Accepts v → ∃ a, decode read v = .ok a
  of_ok : ∀ {v a}, v.Distinct → decode read v = .ok a → F.Accepts v ∧ toJson a = F.normal v

namespace Describes

variable {F : Format} {read : Reader α} {toJson : α → Json}

theorem exists_ok_iff (h : F.Describes read toJson) {v : Json} (hv : v.Distinct) :
    (∃ a, decode read v = .ok a) ↔ F.Accepts v :=
  ⟨fun ⟨_, ha⟩ ↦ (h.of_ok hv ha).1, h.exists_ok hv⟩

theorem map (h : F.Describes read toJson) (f : α → β) {toJson' : β → Json}
    (he : ∀ a, toJson' (f a) = toJson a) : F.Describes (fun s ↦ (read s).map f) toJson' where
  exists_ok hv haccepts := by
    obtain ⟨a, ha⟩ := h.exists_ok hv haccepts
    exact ⟨f a, Except.map_eq_ok_iff.2 ⟨a, ha, rfl⟩⟩
  of_ok hv hb := by
    obtain ⟨a, ha, rfl⟩ := Except.map_eq_ok_iff.1 hb
    rw [he]
    exact h.of_ok hv ha

theorem text : Format.text.Describes Reader.text .string where
  exists_ok := by
    rintro _ - ⟨s, rfl, -⟩
    exact ⟨s, rfl⟩
  of_ok {v s} _ h := by
    cases v with
    | string t =>
      cases h
      exact ⟨⟨s, rfl, trivial⟩, rfl⟩
    | _ => cases h

theorem bool : Format.bool.Describes Reader.bool .bool where
  exists_ok := by
    rintro _ - ⟨b, rfl⟩
    exact ⟨b, rfl⟩
  of_ok {v b} _ h := by
    cases v with
    | bool c =>
      cases h
      exact ⟨⟨b, rfl⟩, rfl⟩
    | _ => cases h

theorem count : Format.count.Describes Reader.count fun n ↦ .number (.ofUInt64 n) where
  exists_ok := by
    rintro _ - ⟨i, h, rfl, hi⟩
    exact ⟨UInt64.ofNat i.toNat, if_pos hi⟩
  of_ok {v n} _ hn := by
    cases v with
    | number m =>
      cases m with
      | float x h => cases hn
      | integer i h =>
        have hread : decode Reader.count (.number (.integer i h)) =
            if 0 ≤ i then .ok (UInt64.ofNat i.toNat) else .error (.negative i) := rfl
        rw [hread] at hn
        split at hn
        · next hi =>
          cases hn
          have hlt : i.toNat < 18446744073709551616 := by
            have hword : i < 0x10000000000000000 := h.2
            omega
          have htoNat : (UInt64.ofNat i.toNat).toNat = i.toNat := UInt64.toNat_ofNat_of_lt' hlt
          refine ⟨⟨i, h, rfl, hi⟩, ?_⟩
          simp only [Number.ofUInt64, htoNat, Int.toNat_of_nonneg hi]
          rfl
        · cases hn
    | _ => cases hn

theorem object : Format.object.Describes Reader.object NamedMap.toJson where
  exists_ok := by
    rintro _ - ⟨members, rfl⟩
    exact ⟨objectOf members, Reader.decode_object members⟩
  of_ok {v o} hv h := by
    cases v with
    | object members =>
      rw [Reader.decode_object] at h
      cases h
      exact ⟨⟨members, rfl⟩, toJson_objectOf hv⟩
    | _ => cases h

theorem any : Format.any.Describes Source.distinctValue Value.json where
  exists_ok hv _ := ⟨_, Reads.distinctValue hv trailing⟩
  of_ok {v w} hv h := by
    rw [decode, Reads.distinctValue hv trailing] at h
    cases h
    exact ⟨trivial, rfl⟩

theorem readAll_iff {items : List Json} {l : List α} :
    (ofTreeItems trailing items).readAll read = .ok l ↔
      List.Forall₂ (fun v a ↦ decode read v = .ok a) items l := by
  induction items generalizing l with
  | nil =>
    rw [ofTreeItems, Items.readAll, List.forall₂_nil_left_iff, Except.ok.injEq, eq_comm]
  | cons v vs ih =>
    rw [ofTreeItems, Items.readAll, Except.bind_eq_ok_iff, List.forall₂_cons_left_iff]
    refine exists_congr fun a ↦ ?_
    rw [Except.bind_eq_ok_iff]
    constructor
    · rintro ⟨ha, as, has, hl⟩
      cases hl
      exact ⟨as, ha, ih.1 has, rfl⟩
    · rintro ⟨as, ha, has, rfl⟩
      exact ⟨ha, as, ih.2 has, rfl⟩

theorem list (h : F.Describes read toJson) :
    F.list.Describes (Reader.list read) fun l ↦ .array (l.map toJson) where
  exists_ok := by
    rintro _ hv ⟨items, rfl, hitems⟩
    rw [Distinct, distinctItems_iff] at hv
    obtain ⟨l, hl⟩ := exists_forall₂ fun x hx ↦ h.exists_ok (hv x hx) (hitems x hx)
    exact ⟨l, readAll_iff.2 hl⟩
  of_ok {v l} hv hl := by
    cases v with
    | array items =>
      rw [Distinct, distinctItems_iff] at hv
      have hall := readAll_iff.1 hl
      refine ⟨⟨items, rfl, fun x hx ↦ ?_⟩, congrArg Json.array ?_⟩
      · obtain ⟨a, -, ha⟩ := exists_mem_of_forall₂ hall hx
        exact (h.of_ok (hv x hx) ha).1
      · exact map_eq_map_of_forall₂ hall fun x hx a ha ↦ (h.of_ok (hv x hx) ha).2
    | _ => cases hl

/-- A reader that makes maps of decoded members is described as the reader of the values is. -/
theorem of_decodes (h : F.Describes read toJson) {read' : Reader (NamedMap α)}
    (hex : ∀ {members}, (members.map Prod.fst).Nodup →
      (∀ p ∈ members, ∃ a, decode read p.2 = .ok a) →
        ∃ m, decode read' (.object members) = .ok m)
    (hdecodes : ∀ {v m}, v.Distinct → decode read' v = .ok m →
      ∃ members, v = .object members ∧ Decodes read members m.entries) :
    F.named.Describes read' fun m ↦ .object (m.entries.map fun p ↦ (p.1, toJson p.2)) where
  exists_ok := by
    rintro _ hv ⟨members, rfl, hmembers⟩
    exact hex hv.1 fun p hp ↦ h.exists_ok (distinctMembers_iff.1 hv.2 p hp) (hmembers p hp)
  of_ok {v m} hv hm := by
    obtain ⟨members, rfl, hall⟩ := hdecodes hv hm
    have hmember : ∀ p ∈ members, ∀ q : String × α, p.1 = q.1 ∧ decode read p.2 = .ok q.2 →
        F.Accepts p.2 ∧ (q.1, toJson q.2) = (p.1, F.normal p.2) := by
      rintro p hp q ⟨hname, hq⟩
      obtain ⟨haccepts, hnormal⟩ := h.of_ok (distinctMembers_iff.1 hv.2 p hp) hq
      exact ⟨haccepts, by rw [hname, hnormal]⟩
    refine ⟨⟨members, rfl, fun p hp ↦ ?_⟩, congrArg Json.object ?_⟩
    · obtain ⟨q, -, hq⟩ := exists_mem_of_forall₂ hall hp
      exact (hmember p hp q hq).1
    · exact map_eq_map_of_forall₂ hall fun p hp q hq ↦ (hmember p hp q hq).2

theorem exists_decode_named {members : List (String × Json)} (hn : (members.map Prod.fst).Nodup)
    (h : ∀ p ∈ members, ∃ a, decode read p.2 = .ok a) :
    ∃ m, decode (Reader.named read) (.object members) = .ok m ∧
      Decodes read members m.entries := by
  obtain ⟨-, m, l, hm, hentries, hl⟩ | ⟨name, hcount, -⟩ := readNamed_cases h .empty
  · rw [NamedMap.empty, List.nil_append] at hentries
    exact ⟨m, hm, hentries ▸ hl⟩
  · have hle := List.nodup_iff_count_le_one.1 hn name
    rw [NamedMap.names_empty, List.nil_append] at hcount
    omega

theorem forall_ok_of_readNamed {members : List (String × Json)} {before m : NamedMap α}
    (h : (ofTreeMembers trailing members).readNamed read before = .ok m) :
    ∀ p ∈ members, ∃ a, decode read p.2 = .ok a := by
  induction members generalizing before with
  | nil => exact List.forall_mem_nil _
  | cons p ms ih =>
    obtain ⟨name, v⟩ := p
    rw [ofTreeMembers, Members.readNamed] at h
    obtain ⟨a, ha, h⟩ := Except.bind_eq_ok_iff.1 h
    split at h
    · cases h
    · exact List.forall_mem_cons.2 ⟨⟨a, ha⟩, ih h⟩

theorem named (h : F.Describes read toJson) :
    F.named.Describes (Reader.named read) fun m ↦
      .object (m.entries.map fun p ↦ (p.1, toJson p.2)) := by
  refine h.of_decodes (fun hn hall ↦ ?_) fun {v m} hv hm ↦ ?_
  · obtain ⟨m, hm, -⟩ := exists_decode_named hn hall
    exact ⟨m, hm⟩
  · cases v with
    | object members =>
      obtain ⟨n, hn, hdecodes⟩ := exists_decode_named hv.1 (forall_ok_of_readNamed hm)
      rw [hm] at hn
      cases hn
      exact ⟨members, rfl, hdecodes⟩
    | _ => cases hm

end Describes

end Format

/-- The field reads what the slot takes, and what is written for the member that it reads is what
the slot makes of the value. -/
structure Slot.Describes (s : Slot) (f : Field ε) (key : ε → String) (toJson? : ε → Option Json) :
    Prop where
  accepts_none : s.Accepts none ↔ f.required = false
  normal_none : s.normal none = none
  key_eq : ∀ {v e}, decode f.read v = .ok e → key e = f.name
  exists_ok : ∀ {v}, v.Distinct → s.Accepts (some v) → ∃ e, decode f.read v = .ok e
  of_ok : ∀ {v e}, v.Distinct → decode f.read v = .ok e →
    s.Accepts (some v) ∧ toJson? e = s.normal (some v)

namespace Slot

theorem isSome_normal {s : Slot} (h : ¬ s.Accepts none) {o : Option Json} (ho : s.Accepts o) :
    (s.normal o).isSome := by
  cases s with
  | essential F =>
    obtain ⟨v, rfl, -⟩ := ho
    rfl
  | _ => exact absurd nofun h

namespace Describes

variable {F : Format} {read : Reader α} {toJson : α → Json} {name : String} {key : ε → String}
  {toJson? : ε → Option Json}

theorem essential (h : F.Describes read toJson) {c : α → ε} (hkey : ∀ a, key (c a) = name)
    (hjson : ∀ a, toJson? (c a) = some (toJson a)) :
    (Slot.essential F).Describes (.essential name fun s ↦ (read s).map c) key toJson? where
  accepts_none := iff_of_false nofun nofun
  normal_none := rfl
  key_eq he := by
    obtain ⟨a, -, rfl⟩ := Except.map_eq_ok_iff.1 he
    exact hkey a
  exists_ok := by
    rintro v hv ⟨_, ⟨⟩, haccepts⟩
    obtain ⟨a, ha⟩ := h.exists_ok hv haccepts
    exact ⟨c a, Except.map_eq_ok_iff.2 ⟨a, ha, rfl⟩⟩
  of_ok {v e} hv he := by
    obtain ⟨a, ha, rfl⟩ := Except.map_eq_ok_iff.1 he
    obtain ⟨haccepts, hnormal⟩ := h.of_ok hv ha
    exact ⟨⟨v, rfl, haccepts⟩, by rw [hjson, hnormal]; rfl⟩

theorem free (h : F.Describes read toJson) {c : α → ε} (hkey : ∀ a, key (c a) = name)
    (hjson : ∀ a, toJson? (c a) = some (toJson a)) :
    (Slot.free F).Describes (.optional name fun s ↦ (read s).map c) key toJson? where
  accepts_none := iff_of_true nofun rfl
  normal_none := rfl
  key_eq he := by
    obtain ⟨a, -, rfl⟩ := Except.map_eq_ok_iff.1 he
    exact hkey a
  exists_ok hv haccepts := by
    obtain ⟨a, ha⟩ := h.exists_ok hv (haccepts _ rfl)
    exact ⟨c a, Except.map_eq_ok_iff.2 ⟨a, ha, rfl⟩⟩
  of_ok {v e} hv he := by
    obtain ⟨a, ha, rfl⟩ := Except.map_eq_ok_iff.1 he
    obtain ⟨haccepts, hnormal⟩ := h.of_ok hv ha
    refine ⟨?_, by rw [hjson, hnormal]; rfl⟩
    rintro _ ⟨⟩
    exact haccepts

theorem decode_optional_of_ne {v : Json} (h : v ≠ .null) :
    decode (Reader.optional read) v = (decode read v).map some := by
  cases v <;> first | rfl | exact absurd rfl h

theorem optional (h : F.Describes read toJson) {c : Option α → ε} (hkey : ∀ o, key (c o) = name)
    (hjson : ∀ o, toJson? (c o) = o.map toJson) :
    (Slot.optional F).Describes (.optional name fun s ↦ (Reader.optional read s).map c) key
      toJson? where
  accepts_none := iff_of_true nofun rfl
  normal_none := rfl
  key_eq he := by
    obtain ⟨o, -, rfl⟩ := Except.map_eq_ok_iff.1 he
    exact hkey o
  exists_ok {v} hv haccepts := by
    obtain rfl | haccepts := haccepts _ rfl
    · exact ⟨c none, rfl⟩
    · by_cases hnull : v = .null
      · subst hnull
        exact ⟨c none, rfl⟩
      · obtain ⟨a, ha⟩ := h.exists_ok hv haccepts
        refine ⟨c (some a), Except.map_eq_ok_iff.2 ⟨some a, ?_, rfl⟩⟩
        exact (decode_optional_of_ne hnull).trans (Except.map_eq_ok_iff.2 ⟨a, ha, rfl⟩)
  of_ok {v e} hv he := by
    obtain ⟨o, ho, rfl⟩ := Except.map_eq_ok_iff.1 he
    rw [hjson]
    by_cases hnull : v = .null
    · subst hnull
      cases ho
      refine ⟨?_, rfl⟩
      rintro _ ⟨⟩
      exact .inl rfl
    · obtain ⟨a, ha, rfl⟩ := Except.map_eq_ok_iff.1 ((decode_optional_of_ne hnull).symm.trans ho)
      obtain ⟨haccepts, hnormal⟩ := h.of_ok hv ha
      refine ⟨?_, by rw [normal_optional hnull, ← hnormal]; rfl⟩
      rintro _ ⟨⟩
      exact .inr haccepts

theorem alsoCalled {s : Slot} {f : Field ε} (h : s.Describes f key toJson?) (other : String) :
    s.Describes (f.alsoCalled other) key toJson? where
  accepts_none := h.accepts_none
  normal_none := h.normal_none
  key_eq := h.key_eq
  exists_ok := h.exists_ok
  of_ok := h.of_ok

end Describes

end Slot

namespace Record

/-- What is written for the members of a key. -/
def shown (key : ε → String) (toJson? : ε → Option Json) (es : List ε) (name : String) :
    Option Json :=
  es.findSome? fun e ↦ if key e = name then toJson? e else none

theorem map_eq_shown {key : ε → String} {toJson? : ε → Option Json} {name : String}
    {pick : ε → Option α} {toJson : α → Json}
    (h : ∀ e, (pick e).map toJson = if key e = name then toJson? e else none) (es : List ε) :
    (es.findSome? pick).map toJson = shown key toJson? es name := by
  rw [List.map_findSome?, shown]
  exact congrArg (List.findSome? · es) (funext h)

section

variable {r : Record ε} {slots : List Slot} {key : ε → String} {toJson? : ε → Option Json}
  (hslots : List.Forall₂ (fun f (s : Slot) ↦ s.Describes f key toJson?) r.fields slots)

include hslots

theorem key_eq_of_decode {f : Field ε} (hf : f ∈ r.fields) {v : Json} {e : ε}
    (he : decode f.read v = .ok e) : key e = f.name := by
  obtain ⟨s, -, hs⟩ := exists_mem_of_forall₂ hslots hf
  exact hs.key_eq he

variable (hu : Unambiguous r.fields) {members : List (String × Json)}
  (hd : (Json.object members).Distinct)

include hu hd

/-- What is written for the members found is what the slots make of the values given. -/
theorem shown_found (hn : (spelledNames r.fields members).Nodup)
    (hall : Decodable r.fields members) {f : Field ε} (hf : f ∈ r.fields) {s : Slot}
    (hs : s.Describes f key toJson?) :
    shown key toJson? (found r.fields members) f.name = s.normal (f.given members) := by
  rw [shown, findSome?_found hu hn hf fun g hg hne v e he ↦
    if_neg (key_eq_of_decode hslots hg he ▸ hne)]
  cases hgiven : f.given members with
  | none => exact hs.normal_none.symm
  | some v =>
    obtain ⟨e, he⟩ := (decodable_iff hu hn).1 hall f hf v hgiven
    rw [Option.bind_some, he]
    exact (if_pos (hs.key_eq he)).trans (hs.of_ok (Field.distinct_given hd v hgiven) he).2

theorem map_shown_found (hn : (spelledNames r.fields members).Nodup)
    (hall : Decodable r.fields members) :
    r.names.map (shown key toJson? (found r.fields members)) = r.values slots members := by
  rw [names, List.map_map, values]
  exact map_eq_zipWith hslots fun f hf s hs ↦ shown_found hslots hu hd hn hall hf hs

theorem fits_iff :
    r.Fits slots members ↔ (spelledNames r.fields members).Nodup ∧ Decodable r.fields members ∧
      ∀ f ∈ r.fields, f.required → (f.given members).isSome := by
  constructor
  · rintro ⟨hn, hfits⟩
    have hboth := forall₂_and hslots hfits
    refine ⟨hn, (decodable_iff hu hn).2 fun f hf v hv ↦ ?_, fun f hf hrequired ↦ ?_⟩
    · obtain ⟨s, -, hs, haccepts⟩ := exists_mem_of_forall₂ hboth hf
      rw [hv] at haccepts
      exact hs.exists_ok (Field.distinct_given hd v hv) haccepts
    · obtain ⟨s, -, hs, haccepts⟩ := exists_mem_of_forall₂ hboth hf
      rw [Option.isSome_iff_ne_none]
      intro hnone
      rw [hnone, hs.accepts_none, hrequired] at haccepts
      cases haccepts
  · rintro ⟨hn, hall, hrequired⟩
    refine ⟨hn, forall₂_imp_of_mem hslots fun f hf s _ hs ↦ ?_⟩
    cases hgiven : f.given members with
    | none =>
      rw [hs.accepts_none, Bool.eq_false_iff]
      intro hf'
      have hsome := hrequired f hf hf'
      rw [hgiven] at hsome
      cases hsome
    | some v =>
      obtain ⟨e, he⟩ := (decodable_iff hu hn).1 hall f hf v hgiven
      exact (hs.of_ok (Field.distinct_given hd v hgiven) he).1

end

variable (r : Record ε) (key : ε → String) (toJson? : ε → Option Json)

/-- Every member that must be there is. -/
def Sufficient (es : List ε) : Prop :=
  ∀ f ∈ r.fields, f.required → (shown key toJson? es f.name).isSome

/-- A result is made of the members as soon as they suffice, and what is written for it is what is
written for the members. -/
structure Makes (es : List ε) (frame : List (Option Json) → Json) (toJson : α → Json)
    (x : Except Fault α) : Prop where
  exists_ok : r.Sufficient key toJson? es → ∃ a, x = .ok a
  sufficient : ∀ {a}, x = .ok a → r.Sufficient key toJson? es
  written : ∀ {a}, x = .ok a → toJson a = frame (r.names.map (shown key toJson? es))

variable {r key toJson?}

theorem map_shown_of_forall₂ {es : List ε} {names : List String} {values : List (Option Json)}
    (h : List.Forall₂ (fun name o ↦ o = shown key toJson? es name) names values) :
    values = names.map (shown key toJson? es) := by
  have he := map_eq_map_of_forall₂ (g := id) h fun _ _ _ he ↦ he
  rwa [List.map_id] at he

theorem Makes.of_optional {es : List ε} {frame : List (Option Json) → Json} {toJson : α → Json}
    {a : α} (values : α → List (Option Json)) (hopt : ∀ f ∈ r.fields, f.required = false)
    (hwritten : toJson a = frame (values a))
    (hvalues : List.Forall₂ (fun name o ↦ o = shown key toJson? es name) r.names (values a)) :
    r.Makes key toJson? es frame toJson (.ok a) where
  exists_ok _ := ⟨a, rfl⟩
  sufficient _ f hf hrequired := by
    rw [hopt f hf] at hrequired
    cases hrequired
  written he := by
    cases he
    rw [hwritten, map_shown_of_forall₂ hvalues]

/-- Where one member must be there, the result is made of it and of what else there is. -/
theorem Makes.of_required {es : List ε} {frame : List (Option Json) → Json} {toJson : α → Json}
    {name : String} {o : Option β} {build : β → α} (values : α → List (Option Json))
    (toJson' : β → Json) (hmem : ∃ f ∈ r.fields, f.required ∧ f.name = name)
    (honly : ∀ f ∈ r.fields, f.required → f.name = name)
    (ho : o.map toJson' = shown key toJson? es name)
    (hwritten : ∀ b, toJson (build b) = frame (values (build b)))
    (hvalues : ∀ b, some (toJson' b) = shown key toJson? es name →
      List.Forall₂ (fun name o ↦ o = shown key toJson? es name) r.names (values (build b))) :
    r.Makes key toJson? es frame toJson (Json.required name o >>= fun b ↦ .ok (build b)) where
  exists_ok h := by
    obtain ⟨f, hf, hrequired, rfl⟩ := hmem
    have hsome := h f hf hrequired
    rw [← ho, Option.isSome_map] at hsome
    obtain ⟨b, rfl⟩ := Option.isSome_iff_exists.1 hsome
    exact ⟨build b, rfl⟩
  sufficient he f hf hrequired := by
    rw [honly f hf hrequired, ← ho, Option.isSome_map]
    cases o with
    | none => cases he
    | some b => rfl
  written he := by
    cases o with
    | none => cases he
    | some b =>
      cases he
      rw [hwritten, map_shown_of_forall₂ (hvalues b ho)]

variable {others : Others}

def sorted (r : Record ε) : Others → Reader (Members.Sorted ε)
  | .kept => r.readKeeping
  | .skipped => fun s ↦ (r.read s).map fun es ↦ ⟨es, []⟩

theorem exists_given?_of_sorted (hu : Unambiguous r.fields) {v : Json} {s : Members.Sorted ε}
    (h : decode (r.sorted others) v = .ok s) :
    ∃ members, r.given? others v = some members ∧ (spelledNames r.fields members).Nodup ∧
      Decodable r.fields members ∧ s = ⟨found r.fields members, r.beside members others⟩ := by
  cases others with
  | kept =>
    cases v with
    | object members =>
      obtain ⟨hn, hall, rfl⟩ := readKeeping_object_iff.1 h
      exact ⟨members, rfl, hn, hall, rfl⟩
    | _ => cases h
  | skipped =>
    obtain ⟨es, hes, rfl⟩ := Except.map_eq_ok_iff.1 h
    obtain ⟨members, hmembers, hn, hall, rfl⟩ := exists_members_of_read hu hes
    exact ⟨members, hmembers, hn, hall, rfl⟩

theorem sorted_of_given? (hu : Unambiguous r.fields) {v : Json} {members : List (String × Json)}
    (hv : r.given? others v = some members) (hn : (spelledNames r.fields members).Nodup)
    (hall : Decodable r.fields members)
    (hrequired : ∀ f ∈ r.fields, f.required → (f.given members).isSome) :
    decode (r.sorted others) v = .ok ⟨found r.fields members, r.beside members others⟩ := by
  cases others with
  | kept =>
    cases v with
    | object ms =>
      cases hv
      exact readKeeping_object_iff.2 ⟨hn, hall, rfl⟩
    | _ => cases hv
  | skipped =>
    exact Except.map_eq_ok_iff.2 ⟨_, read_of_members hu hv hn hall hrequired, rfl⟩

variable {slots : List Slot}
  (hslots : List.Forall₂ (fun f (s : Slot) ↦ s.Describes f key toJson?) r.fields slots)
  (hu : Unambiguous r.fields) {read : Reader α} {toJson : α → Json}

include hslots

/-- A record is described by the slots that describe its fields. -/
theorem describes (finish : Members.Sorted ε → Except Fault α)
    (hread : ∀ s, read s = r.sorted others s >>= finish)
    (hmakes : ∀ es members, (Json.object (r.beside members others)).Distinct →
      (∀ p ∈ r.beside members others, p.1 ∉ r.names) →
        r.Makes key toJson? es
          (fun values ↦ .object (written r.names values ++ r.beside members others)) toJson
          (finish ⟨es, r.beside members others⟩)) :
    (Format.record r others slots hu).Describes read toJson where
  exists_ok {v} hv h := by
    obtain ⟨members, hmembers, hfits⟩ := h
    have hd := distinct_of_given? hu.nodup_names hv hmembers
    obtain ⟨hn, hall, hrequired⟩ := (fits_iff hslots hu hd).1 hfits
    have hmade := hmakes (found r.fields members) members (distinct_beside hd) fun _ ↦
      notMem_of_mem_beside hu
    have hsufficient : r.Sufficient key toJson? (found r.fields members) := by
      intro f hf hf'
      obtain ⟨s, -, hs, haccepts⟩ := exists_mem_of_forall₂ (forall₂_and hslots hfits.slots) hf
      rw [shown_found hslots hu hd hn hall hf hs]
      refine Slot.isSome_normal (fun hnone ↦ ?_) haccepts
      rw [hs.accepts_none, hf'] at hnone
      cases hnone
    obtain ⟨a, ha⟩ := hmade.exists_ok hsufficient
    refine ⟨a, (hread _).trans (Except.bind_eq_ok_iff.2 ⟨_, ?_, ha⟩)⟩
    exact sorted_of_given? hu hmembers hn hall hrequired
  of_ok {v a} hv ha := by
    obtain ⟨s, hs, ha⟩ := Except.bind_eq_ok_iff.1 ((hread _).symm.trans ha)
    obtain ⟨members, hmembers, hn, hall, rfl⟩ := exists_given?_of_sorted hu hs
    have hd := distinct_of_given? hu.nodup_names hv hmembers
    have hmade := hmakes (found r.fields members) members (distinct_beside hd) fun _ ↦
      notMem_of_mem_beside hu
    refine ⟨⟨members, hmembers, (fits_iff hslots hu hd).2 ⟨hn, hall, fun f hf hf' ↦ ?_⟩⟩, ?_⟩
    · obtain ⟨s, -, hs⟩ := exists_mem_of_forall₂ hslots hf
      have hsome := hmade.sufficient ha f hf hf'
      rw [shown_found hslots hu hd hn hall hf hs] at hsome
      rw [Option.isSome_iff_ne_none]
      intro hnone
      rw [hnone, hs.normal_none] at hsome
      cases hsome
    · have hnormal : (Format.record r others slots hu).normal v =
          .object (r.rewritten others slots members) := by
        change (r.given? others v).elim v _ = _
        rw [hmembers]
        rfl
      rw [hmade.written ha, map_shown_found hslots hu hd hn hall, hnormal, rewritten]

/-- A record that keeps what it does not model. -/
theorem describes_kept {finish : Members.Sorted ε → Except Fault α}
    (hread : ∀ s, read s = r.readKeeping s >>= finish)
    (hmakes : ∀ es xs, (Json.object xs).Distinct → (∀ p ∈ xs, p.1 ∉ r.names) →
      r.Makes key toJson? es (fun values ↦ .object (written r.names values ++ xs)) toJson
        (finish ⟨es, xs⟩)) :
    (Format.record r .kept slots hu).Describes read toJson :=
  describes hslots hu finish hread fun es _ ↦ hmakes es _

theorem describes_skipped {finish : List ε → Except Fault α}
    (hread : ∀ s, read s = r.read s >>= finish)
    (hmakes : ∀ es, r.Makes key toJson? es (fun values ↦ .object (written r.names values)) toJson
      (finish es)) :
    (Format.record r .skipped slots hu).Describes read toJson := by
  refine describes hslots hu (fun t ↦ finish t.modelled) (fun s ↦ ?_) fun es members _ _ ↦ ?_
  · rw [hread, sorted, Except.map_bind]
  · simp only [beside, List.append_nil]
    exact hmakes es

end Record

end Json

end DesignDocs
