import DesignDocs.Json.Record
import DesignDocs.Proofs.Json.Source

namespace DesignDocs.Json

variable {α β ε : Type} {kinds : List ErrorKind}

def Fault.Plain (f : Fault) : Prop := f.kind = .malformedJson

mutual

def Source.Plain : Source → Prop
  | .array items surplus => items.Plain ∧ surplus.Plain
  | .object members => members.Plain
  | .fault f => f.Plain
  | _ => True

def Items.Plain : Items → Prop
  | .done => True
  | .fault f => f.Plain
  | .cons head tail => head.Plain ∧ tail.Plain

def Members.Plain : Members → Prop
  | .done => True
  | .fault f => f.Plain
  | .cons _ value skip rest => value.Plain ∧ (∀ f ∈ skip, f.Plain) ∧ rest.Plain

end

theorem Fault.plain_form (f : FormFault) : (form f).Plain := rfl

namespace Source

open Fault (plain_form)

theorem plain_ofScalar (value : Scalar) : (ofScalar value).Plain := by
  cases value <;> trivial

theorem plain_stopped (name : String) (f : FormFault) : (Members.stopped name f).Plain :=
  ⟨plain_form f, by rintro _ ⟨⟩; exact plain_form f, plain_form f⟩

theorem membersFrom_of_skip_error {depth : Nat} {o : Outcome String} {name : String}
    {ts : List Token} {f : FormFault} (ho : o.read = .ok name) (h : skipValue ts = .error f) :
    membersFrom depth (.string o :: .colon :: ts) =
      .cons name (ofTokens depth ts) (some (.form f)) (.fault (.form f)) := by
  rw [membersFrom, ho]
  dsimp only
  split
  · next h' =>
    rw [h] at h'
    cases h'
  · next h' =>
    rw [h] at h'
    cases h'
    rfl

theorem plain_itemsFrom {depth : Nat} {ts : List Token} (hvalue : (ofTokens depth ts).Plain)
    (hafter : ∀ rest, skipValue ts = .ok rest → (itemsAfter depth rest).Plain) :
    (itemsFrom depth ts).Plain := by
  rw [itemsFrom]
  refine ⟨hvalue, ?_⟩
  split
  · next rest h => exact hafter rest h
  · exact plain_form _

/-- By induction on the tokens, as the functions that read them call one another. -/
theorem plain_all :
    (∀ depth ts, (ofTokens depth ts).Plain) ∧ (∀ depth ts, (membersOpened depth ts).Plain) ∧
      (∀ depth ts, (membersFrom depth ts).Plain) ∧ (∀ depth ts, (membersAfter depth ts).Plain) ∧
      (∀ depth ts, (itemsOpened depth ts).Plain) ∧ (∀ depth ts, (itemsFrom depth ts).Plain) ∧
      ∀ depth ts, (itemsAfter depth ts).Plain := by
  apply ofTokens.mutual_induct
  case case6 =>
    intro depth rest hitems
    rw [ofTokens]
    refine ⟨?_, plain_form _⟩
    split
    · exact hitems
    · exact plain_form _
  case case7 =>
    intro depth rest hmembers
    rw [ofTokens, Source.Plain]
    split
    · exact hmembers
    · exact plain_form _
  case case12 =>
    intro depth o rest f ho
    rw [membersFrom, ho]
    exact plain_form f
  case case13 =>
    intro depth o name ho rest after hskip hvalue hafter
    rw [membersFrom_of_skip ho hskip]
    exact ⟨hvalue, by simp, hafter⟩
  case case14 =>
    intro depth o name ho rest f hskip hvalue
    rw [membersFrom_of_skip_error ho hskip]
    exact ⟨hvalue, by rintro _ ⟨⟩; exact plain_form f, plain_form f⟩
  case case15 =>
    intro depth o name ho
    rw [membersFrom, ho]
    exact plain_stopped name _
  case case16 =>
    intro depth o name ho t ts ht
    rw [membersFrom.eq_def]
    simp only [ho]
    exact plain_stopped name _
  case case17 =>
    intro depth ts hts
    rw [membersFrom]
    · exact plain_form _
    · exact hts
  case case27 =>
    intro depth ts hvalue hafter
    exact plain_itemsFrom hvalue hafter
  -- Elsewhere the source ends, or goes on as another function has it.
  all_goals
    intros
    simp_all [ofTokens, membersOpened, membersAfter, itemsOpened, itemsAfter, Source.Plain,
      Items.Plain, Members.Plain, plain_form, plain_ofScalar]

theorem plain_ofTokens (depth : Nat) (ts : List Token) : (ofTokens depth ts).Plain :=
  plain_all.1 depth ts

theorem plain_ofJson (v : Json) : (ofJson v).Plain := by
  induction v using induct with
  | null | bool | number | string => trivial
  | array items ih =>
    have hitems : (ofItems items).Plain := by
      induction items with
      | nil => trivial
      | cons v vs ihs =>
        obtain ⟨hv, hvs⟩ := List.forall_mem_cons.1 ih
        exact ⟨hv, ihs hvs⟩
    exact ⟨hitems, rfl⟩
  | object members ih =>
    change (ofMembers members).Plain
    induction members with
    | nil => trivial
    | cons p ms ihs =>
      obtain ⟨hp, hms⟩ := List.forall_mem_cons.1 ih
      exact ⟨hp, nofun, ihs hms⟩

end Source

/-- Every fault is about malformed JSON or of one of the kinds. -/
def RaisesOnly (kinds : List ErrorKind) (x : Except Fault α) : Prop :=
  ∀ f, x = .error f → f.kind ∈ .malformedJson :: kinds

namespace RaisesOnly

theorem ok (a : α) : RaisesOnly kinds (.ok a) := nofun

theorem error {f : Fault} (h : f.kind ∈ .malformedJson :: kinds) :
    RaisesOnly kinds (.error f : Except Fault α) := by
  rintro _ ⟨⟩
  exact h

theorem plain {f : Fault} (h : f.Plain) : RaisesOnly kinds (.error f : Except Fault α) :=
  error (by rw [h]; exact List.mem_cons_self)

theorem bind {x : Except Fault α} {next : α → Except Fault β} (hx : RaisesOnly kinds x)
    (hn : ∀ a, RaisesOnly kinds (next a)) : RaisesOnly kinds (x >>= next) := by
  cases x with
  | error f => exact error (hx f rfl)
  | ok a => exact hn a

theorem map {x : Except Fault α} (hx : RaisesOnly kinds x) (f : α → β) :
    RaisesOnly kinds (x.map f) := by
  cases x with
  | error f => exact error (hx f rfl)
  | ok a => exact ok _

theorem required (name : String) (o : Option α) : RaisesOnly kinds (required name o) := by
  cases o with
  | none => exact plain rfl
  | some a => exact ok a

end RaisesOnly

/-- On a source with plain faults the reader raises only faults of the kinds. -/
def Confined (kinds : List ErrorKind) (read : Reader α) : Prop :=
  ∀ s : Source, s.Plain → RaisesOnly kinds (read s)

theorem Source.plain_mismatch {s : Source} (h : s.Plain) (expected : String) :
    (s.mismatch expected).Plain := by
  cases s with
  | fault f => exact h
  | _ => rfl

namespace RaisesOnly

mutual

theorem tree : ∀ s : Source, s.Plain → RaisesOnly kinds s.tree
  | .null, _ | .bool _, _ | .number _, _ | .string _, _ => .ok _
  | .array items _, hs => (trees items hs.1).map _
  | .object members, hs => (treesOfMembers members hs).map _
  | .fault _, hf => .plain hf

theorem trees : ∀ items : Items, items.Plain → RaisesOnly kinds items.trees
  | .done, _ => .ok _
  | .fault _, hf => .plain hf
  | .cons head tail, h => (tree head h.1).bind fun _ ↦ (trees tail h.2).bind fun _ ↦ .ok _

theorem treesOfMembers : ∀ members : Members, members.Plain → RaisesOnly kinds members.trees
  | .done, _ => .ok _
  | .fault _, hf => .plain hf
  | .cons _ value _ rest, h =>
    (tree value h.1).bind fun _ ↦ (treesOfMembers rest h.2.2).bind fun _ ↦ .ok _

end

theorem nameRepeated (hk : .duplicateName ∈ kinds) (name : String) :
    RaisesOnly kinds (.error (.nameRepeated name) : Except Fault α) :=
  .error (List.mem_cons_of_mem _ hk)

theorem keyRepeated (hk : .duplicateName ∈ kinds) (key : String) :
    RaisesOnly kinds (.error (.keyRepeated key) : Except Fault α) :=
  .error (List.mem_cons_of_mem _ hk)

mutual

theorem distinctValue (hk : .duplicateName ∈ kinds) :
    ∀ s : Source, s.Plain → RaisesOnly kinds s.distinctValue
  | .null, _ | .bool _, _ | .number _, _ | .string _, _ => .ok _
  | .array items _, hs => (distinctValues hk items hs.1).map _
  | .object members, hs => (distinctMembers hk members .empty hs).map _
  | .fault _, hf => .plain hf

theorem distinctValues (hk : .duplicateName ∈ kinds) :
    ∀ items : Items, items.Plain → RaisesOnly kinds items.distinctValues
  | .done, _ => .ok _
  | .fault _, hf => .plain hf
  | .cons head tail, h =>
    (distinctValue hk head h.1).bind fun _ ↦ (distinctValues hk tail h.2).bind fun _ ↦ .ok _

theorem distinctMembers (hk : .duplicateName ∈ kinds) :
    ∀ (members : Members) (before : Object), members.Plain →
      RaisesOnly kinds (members.distinctMembers before)
  | .done, _, _ => .ok _
  | .fault _, _, hf => .plain hf
  | .cons name value _ rest, before, h => by
    rw [Members.distinctMembers]
    refine (distinctValue hk value h.1).bind fun v ↦ ?_
    split
    · exact keyRepeated hk name
    · exact distinctMembers hk rest _ h.2.2

end

theorem readNamed (hk : .duplicateName ∈ kinds) {read : Reader α} (h : Confined kinds read) :
    ∀ (members : Members) (before : NamedMap α), members.Plain →
      RaisesOnly kinds (members.readNamed read before)
  | .done, _, _ => .ok _
  | .fault _, _, hf => .plain hf
  | .cons name value _ rest, before, hs => by
    rw [Members.readNamed]
    refine (h value hs.1).bind fun a ↦ ?_
    split
    · exact nameRepeated hk name
    · exact readNamed hk h rest _ hs.2.2

theorem readAll {read : Reader α} (h : Confined kinds read) :
    ∀ items : Items, items.Plain → RaisesOnly kinds (items.readAll read)
  | .done, _ => .ok _
  | .fault _, hf => .plain hf
  | .cons head tail, hs => (h head hs.1).bind fun _ ↦ (readAll h tail hs.2).bind fun _ ↦ .ok _

theorem sort {fields : List (Field ε)} {others : Others}
    (h : ∀ f ∈ fields, Confined kinds f.read) :
    ∀ (members : Members) (seen : List String), members.Plain →
      RaisesOnly kinds (members.sort fields others seen)
  | .done, _, _ => .ok _
  | .fault _, _, hf => .plain hf
  | .cons key value skip rest, seen, hs => by
    obtain ⟨hvalue, hskip, hrest⟩ := hs
    rw [Members.sort.eq_def]
    dsimp only
    cases hf : field? fields key with
    | some f =>
      dsimp only
      split
      · exact .plain rfl
      · have hread := h f (List.mem_of_find?_eq_some hf) value hvalue
        exact hread.bind fun e ↦ (sort h rest _ hrest).bind fun s ↦ .ok _
    | none =>
      cases others with
      | kept => exact (tree value hvalue).bind fun v ↦ (sort h rest seen hrest).bind fun s ↦ .ok _
      | skipped =>
        cases skip with
        | some f => exact .plain (hskip f rfl)
        | none => exact sort h rest seen hrest

theorem unwanted {items : Items} {surplus f : Fault} (hs : surplus.Plain)
    (h : items.unwanted surplus = some f) : f.Plain := by
  rw [Items.unwanted.eq_def] at h
  split at h <;> cases h
  · rfl
  · rfl
  · exact hs

theorem readItems {r : Record ε} {surplus : Fault} (hs : surplus.Plain) :
    ∀ (fields : List (Field ε)) (index : Nat) (items : Items),
      (∀ f ∈ fields, Confined kinds f.read) → items.Plain →
      RaisesOnly kinds (r.readItems surplus index fields items)
  | [], _, items, _, _ => by
    rw [Record.readItems]
    split
    · next f hf => exact .plain (unwanted hs hf)
    · exact .ok _
  | _ :: _, _, .fault _, _, hf => .plain hf
  | f :: fs, index, .done, h, _ => by
    rw [Record.readItems]
    split
    · exact .plain rfl
    · exact readItems hs fs _ .done (fun g hg ↦ h g (List.mem_cons_of_mem f hg)) trivial
  | f :: fs, index, .cons head tail, h, hi => by
    obtain ⟨hf, hfs⟩ := List.forall_mem_cons.1 h
    rw [Record.readItems]
    exact (hf head hi.1).bind fun e ↦ (readItems hs fs _ tail hfs hi.2).bind fun es ↦ .ok _

end RaisesOnly

namespace Confined

theorem mismatch (expected : String) :
    Confined (α := α) kinds fun s ↦ .error (s.mismatch expected) :=
  fun _ hs ↦ .plain (Source.plain_mismatch hs expected)

theorem map {read : Reader α} (h : Confined kinds read) (f : α → β) :
    Confined kinds fun s ↦ (read s).map f := fun s hs ↦ (h s hs).map f

theorem optional {read : Reader α} (h : Confined kinds read) :
    Confined kinds (Reader.optional read) := fun s hs ↦ by
  cases s with
  | null => exact .ok none
  | _ => exact (h _ hs).map some

theorem text : Confined kinds Reader.text := fun s hs ↦ by
  cases s with
  | string s => exact .ok s
  | _ => exact mismatch "a string" _ hs

theorem bool : Confined kinds Reader.bool := fun s hs ↦ by
  cases s with
  | bool b => exact .ok b
  | _ => exact mismatch "a boolean" _ hs

theorem count : Confined kinds Reader.count := fun s hs ↦ by
  cases s with
  | number n =>
    cases n with
    | integer i h =>
      rw [Reader.count]
      split
      · exact .ok _
      · exact .plain rfl
    | float x h => exact mismatch "u64" _ hs
  | _ => exact mismatch "u64" _ hs

theorem tree : Confined kinds Source.tree := RaisesOnly.tree

theorem object : Confined kinds Reader.object := fun s hs ↦ by
  cases s with
  | object members => exact (RaisesOnly.treesOfMembers members hs).map _
  | _ => exact mismatch "a map" _ hs

theorem list {read : Reader α} (h : Confined kinds read) : Confined kinds (Reader.list read) :=
  fun s hs ↦ by
    cases s with
    | array items surplus => exact RaisesOnly.readAll h items hs.1
    | _ => exact mismatch "a sequence" _ hs

theorem named {read : Reader α} (h : Confined kinds read) (hk : .duplicateName ∈ kinds) :
    Confined kinds (Reader.named read) := fun s hs ↦ by
  cases s with
  | object members => exact RaisesOnly.readNamed hk h members .empty hs
  | _ => exact mismatch "a map with unique names" _ hs

theorem distinctValue (hk : .duplicateName ∈ kinds) : Confined kinds Source.distinctValue :=
  RaisesOnly.distinctValue hk

end Confined

namespace Record

variable {r : Record ε}

theorem confined_read (h : ∀ f ∈ r.fields, Confined kinds f.read) : Confined kinds r.read :=
  fun s hs ↦ by
    cases s with
    | array items surplus => exact RaisesOnly.readItems hs.2 r.fields 0 items h hs.1
    | object members => exact (RaisesOnly.sort h members [] hs).map _
    | _ => exact Confined.mismatch r.expected _ hs

theorem confined_readKeeping (h : ∀ f ∈ r.fields, Confined kinds f.read) :
    Confined kinds r.readKeeping := fun s hs ↦ by
  cases s with
  | object members => exact RaisesOnly.sort h members [] hs
  | _ => exact Confined.mismatch r.expected _ hs

end Record

theorem Reader.raisesOnly_symbols {read : Reader α} (h : Confined kinds read)
    (cs : List Text.Symbol) : RaisesOnly kinds (read.symbols cs) := by
  have hread := h _ (Source.plain_ofTokens 0 (Token.scan cs))
  rw [symbols]
  cases hr : read (.ofTokens 0 (Token.scan cs)) with
  | error f => exact .error (hread f hr)
  | ok a =>
    dsimp only
    split
    · exact .ok a
    · exact .plain rfl
    · exact .plain rfl

end DesignDocs.Json
