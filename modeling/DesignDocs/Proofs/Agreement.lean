import DesignDocs.Proofs.Document.Basic
import DesignDocs.Proofs.Index.Basic
import DesignDocs.Proofs.Json.Parse
import DesignDocs.Proofs.Wire

namespace DesignDocs

open Json (Reader Source Spells Steady Settled)
open Text (Symbol)

/-- Both results are there and equal, or both are errors of one kind. -/
def Agree {α : Type} : Except DesignError α → Except DesignError α → Prop
  | .ok a, .ok b => a = b
  | .error e, .error f => e.kind = f.kind
  | _, _ => False

theorem Agree.refl {α : Type} (x : Except DesignError α) : Agree x x := by
  cases x with
  | ok a => exact (rfl : a = a)
  | error e => exact (rfl : e.kind = e.kind)

theorem agree_of_settled {α : Type} {x : (Nat → Json.Fault) → Except Json.Fault α}
    (h : Settled x) :
    Agree ((x Source.trailing).mapError .ofFault) ((x .surplusItems).mapError .ofFault) := by
  obtain h | ⟨n, hn⟩ := h
  · rw [h Source.trailing .surplusItems]
    exact Agree.refl _
  · -- A text ends with trailing characters where a value has items too many.
    rw [hn, hn]
    exact (DesignError.kind_ofFault (Source.trailing n)).trans
      (DesignError.kind_ofFault (.surplusItems n)).symm

theorem Wire.agree_of_steady {α : Type} [Wire α] (h : Steady (read : Reader α)) {t : String}
    {v : Value} (hs : Spells (Symbol.ofString t) v.json) :
    Agree (ofText t : Except DesignError α) (ofValue v) := by
  rw [ofText, ofSymbols_of_spells hs, ofValue_eq]
  exact agree_of_settled (h v.json)

namespace Json

/-- No object that the text spells has a key twice. -/
def RepeatsNoKey (s : String) : Prop :=
  ∀ tree, Reader.symbols Source.tree (Symbol.ofString s) = .ok tree → tree.Distinct

theorem spells_of_parse {s : String} {v : Value} (h : parse s = .ok v) (hd : RepeatsNoKey s) :
    Spells (Symbol.ofString s) v.json := by
  obtain ⟨tree, hs, rfl⟩ := parse_eq_ok_iff.1 h
  rwa [Value.ofJson_of_distinct (hd tree (symbols_tree_eq_ok_iff.2 hs))]

theorem repeatsNoKey_of_spells {s : String} {v : Json} (h : Spells (Symbol.ofString s) v)
    (hd : v.Distinct) : RepeatsNoKey s := by
  intro tree htree
  rw [symbols_tree_eq_ok_iff.2 h] at htree
  cases htree
  exact hd

end Json

/-- The descriptors that a text gives are those that its value gives. -/
theorem ofText_agree_ofValue {t : String} {v : Value} (hv : Json.parse t = .ok v)
    (hd : Json.RepeatsNoKey t) :
    Agree (Wire.ofText t : Except DesignError DesignDocument) (Wire.ofValue v) ∧
      Agree (Wire.ofText t : Except DesignError QueryIndex) (Wire.ofValue v) ∧
      Agree (Wire.ofText t : Except DesignError IndexListing) (Wire.ofValue v) ∧
      Agree (Wire.ofText t : Except DesignError Selector) (Wire.ofValue v) := by
  have hs := Json.spells_of_parse hv hd
  exact ⟨Wire.agree_of_steady DesignDocument.steady_read hs,
    Wire.agree_of_steady QueryIndex.steady_read hs,
    Wire.agree_of_steady IndexListing.steady_read hs, Wire.agree_of_steady Selector.steady_read hs⟩

/-- An index as the array of its members, which has an item too many. -/
def overfull : Value :=
  .array [.null, .null, .string "json", .object (.singleton "fields" (.array [])), .bool true]

theorem ofText_agree_ofValue_overfull :
    Json.parse overfull.json.render = .ok overfull ∧ Json.RepeatsNoKey overfull.json.render ∧
      Agree (Wire.ofText overfull.json.render : Except DesignError QueryIndex)
        (Wire.ofValue overfull) := by
  have hs : Spells (Symbol.ofString overfull.json.render) overfull.json :=
    Json.spells_render (by decide) (by decide)
  have hv := Json.parse_of_spells hs overfull.distinct
  have hd := Json.repeatsNoKey_of_spells hs overfull.distinct
  exact ⟨hv, hd, (ofText_agree_ofValue hv hd).2.1⟩

end DesignDocs
