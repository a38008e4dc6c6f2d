import DesignDocs.Json.Record
import DesignDocs.Proofs.Json.Source

namespace DesignDocs.Json

open Source (ofTree ofTreeItems ofTreeMembers)

variable {α β ε : Type}

/-- What waits behind an array does not count, unless it is where the reader stops. -/
def Settled (x : (Nat → Fault) → Except Fault α) : Prop :=
  (∀ surplus surplus', x surplus = x surplus') ∨ ∃ n, ∀ surplus, x surplus = .error (surplus n)

namespace Settled

variable {x : (Nat → Fault) → Except Fault α}

theorem const (r : Except Fault α) : Settled fun _ ↦ r := .inl fun _ _ ↦ rfl

theorem bind {f : α → (Nat → Fault) → Except Fault β} (hx : Settled x) (hf : ∀ a, Settled (f a)) :
    Settled fun surplus ↦ x surplus >>= fun a ↦ f a surplus := by
  obtain hx | ⟨n, hn⟩ := hx
  · have he : ∀ surplus, x surplus = x Source.trailing := fun surplus ↦ hx _ _
    simp only [he]
    cases x Source.trailing with
    | error e => exact .const (.error e)
    | ok a => exact hf a
  · simp only [hn, Except.error_bind]
    exact .inr ⟨n, fun _ ↦ rfl⟩

theorem map (hx : Settled x) (f : α → β) : Settled fun surplus ↦ (x surplus).map f := by
  obtain hx | ⟨n, hn⟩ := hx
  · exact .inl fun surplus surplus' ↦ congrArg _ (hx surplus surplus')
  · simp only [hn, Except.map_error]
    exact .inr ⟨n, fun _ ↦ rfl⟩

end Settled

/-- The reader settles on each tree. -/
def Steady (read : Reader α) : Prop := ∀ v : Json, Settled fun surplus ↦ read (ofTree surplus v)

namespace Steady

theorem mismatch (expected : String) : Steady (α := α) fun s ↦ .error (s.mismatch expected) := by
  intro v
  cases v <;> exact .inl fun _ _ ↦ rfl

theorem map {read : Reader α} (h : Steady read) (f : α → β) :
    Steady fun s ↦ (read s).map f := fun v ↦ (h v).map f

theorem optional {read : Reader α} (h : Steady read) : Steady (Reader.optional read) := fun v ↦ by
  cases v with
  | null => exact .inl fun _ _ ↦ rfl
  | _ => exact (h _).map some

theorem text : Steady Reader.text := fun v ↦ by
  cases v with
  | string s => exact .inl fun _ _ ↦ rfl
  | _ => exact mismatch "a string" _

theorem bool : Steady Reader.bool := fun v ↦ by
  cases v with
  | bool b => exact .inl fun _ _ ↦ rfl
  | _ => exact mismatch "a boolean" _

theorem count : Steady Reader.count := fun v ↦ by
  cases v with
  | number n =>
    cases n with
    | integer i h => exact .inl fun _ _ ↦ rfl
    | float x h => exact mismatch "u64" (.number (.float x h))
  | _ => exact mismatch "u64" _

theorem tree : Steady Source.tree := fun v ↦ by
  simp only [Source.tree_ofTree]
  exact .const _

theorem object : Steady Reader.object := fun v ↦ by
  cases v with
  | object members =>
    have h : ∀ surplus, (ofTreeMembers surplus members).trees = .ok members := fun surplus ↦
      Source.trees_ofTreeMembers fun p _ ↦ Source.tree_ofTree p.2
    simp only [ofTree, Reader.object, h]
    exact .const _
  | _ => exact mismatch "a map" _

theorem list {read : Reader α} (h : Steady read) : Steady (Reader.list read) := fun v ↦ by
  cases v with
  | array items =>
    have hall : Settled fun surplus ↦ (ofTreeItems surplus items).readAll read := by
      induction items with
      | nil => exact .inl fun _ _ ↦ rfl
      | cons v vs ih =>
        simp only [ofTreeItems, Items.readAll]
        exact (h v).bind fun a ↦ ih.bind fun as ↦ .const _
    simpa only [ofTree, Reader.list] using hall
  | _ => exact mismatch "a sequence" _

theorem named {read : Reader α} (h : Steady read) : Steady (Reader.named read) := fun v ↦ by
  cases v with
  | object members =>
    have hall : ∀ before, Settled fun surplus ↦
        (ofTreeMembers surplus members).readNamed read before := by
      induction members with
      | nil => exact fun _ ↦ .inl fun _ _ ↦ rfl
      | cons p ms ih =>
        obtain ⟨name, v⟩ := p
        intro before
        simp only [ofTreeMembers, Members.readNamed]
        refine (h v).bind fun a ↦ ?_
        split
        · exact .const _
        · exact ih _
    simpa only [ofTree, Reader.named] using hall .empty
  | _ => exact mismatch "a map with unique names" _

theorem distinctValue : Steady Source.distinctValue := fun v ↦ by
  induction v using induct with
  | null | bool | number | string => exact .inl fun _ _ ↦ rfl
  | array items ih =>
    have hall : Settled fun surplus ↦ (ofTreeItems surplus items).distinctValues := by
      induction items with
      | nil => exact .inl fun _ _ ↦ rfl
      | cons v vs ihs =>
        simp only [ofTreeItems, Items.distinctValues]
        exact (ih v List.mem_cons_self).bind fun a ↦
          (ihs fun w hw ↦ ih w (List.mem_cons_of_mem v hw)).bind fun as ↦ .const _
    simpa only [ofTree, Source.distinctValue] using hall.map Value.array
  | object members ih =>
    have hall : ∀ before, Settled fun surplus ↦
        (ofTreeMembers surplus members).distinctMembers before := by
      induction members with
      | nil => exact fun _ ↦ .inl fun _ _ ↦ rfl
      | cons p ms ihs =>
        obtain ⟨name, v⟩ := p
        intro before
        simp only [ofTreeMembers, Members.distinctMembers]
        refine (ih (name, v) List.mem_cons_self).bind fun a ↦ ?_
        split
        · exact .const _
        · exact ihs (fun q hq ↦ ih q (List.mem_cons_of_mem _ hq)) _
    simpa only [ofTree, Source.distinctValue] using (hall .empty).map Value.object

end Steady

namespace Record

theorem settled_sort {fields : List (Field ε)} (others : Others)
    (h : ∀ f ∈ fields, Steady f.read) (members : List (String × Json)) (seen : List String) :
    Settled fun surplus ↦ (ofTreeMembers surplus members).sort fields others seen := by
  induction members generalizing seen with
  | nil => exact .inl fun _ _ ↦ rfl
  | cons p ms ih =>
    obtain ⟨key, v⟩ := p
    simp only [ofTreeMembers, Members.sort]
    cases hf : field? fields key with
    | some f =>
      dsimp only
      split
      · exact .const _
      · exact (h f (List.mem_of_find?_eq_some hf) v).bind fun e ↦ (ih _).bind fun s ↦ .const _
    | none =>
      cases others with
      | kept => exact (Steady.tree v).bind fun w ↦ (ih seen).bind fun s ↦ .const _
      | skipped => exact ih seen

theorem settled_readItems {r : Record ε} {fields : List (Field ε)}
    (h : ∀ f ∈ fields, Steady f.read) (count index : Nat) (items : List Json) :
    Settled fun surplus ↦
      r.readItems (surplus count) index fields (ofTreeItems surplus items) := by
  induction fields generalizing index items with
  | nil =>
    cases items with
    | nil => exact .inl fun _ _ ↦ rfl
    | cons v vs => exact .inr ⟨count, fun _ ↦ rfl⟩
  | cons f fs ih =>
    obtain ⟨hf, hfs⟩ := List.forall_mem_cons.1 h
    cases items with
    | nil =>
      simp only [ofTreeItems, readItems]
      split
      · exact .const _
      · exact ih hfs (index + 1) []
    | cons v vs =>
      simp only [ofTreeItems, readItems]
      exact (hf v).bind fun e ↦ (ih hfs (index + 1) vs).bind fun es ↦ .const _

variable {r : Record ε}

theorem steady_read (h : ∀ f ∈ r.fields, Steady f.read) : Steady r.read := fun v ↦ by
  cases v with
  | array items =>
    simp only [ofTree, read]
    exact settled_readItems h items.length 0 items
  | object members =>
    simp only [ofTree, read]
    exact (settled_sort .skipped h members []).map _
  | _ => exact Steady.mismatch r.expected _

theorem steady_readKeeping (h : ∀ f ∈ r.fields, Steady f.read) : Steady r.readKeeping :=
  fun v ↦ by
    cases v with
    | object members =>
      simp only [ofTree, readKeeping]
      exact settled_sort .kept h members []
    | _ => exact Steady.mismatch r.expected _

end Record

end DesignDocs.Json
