import DesignDocs.Proofs.Selector.Keyed

namespace DesignDocs.Selector

open Json (Spells)
open Text (Symbol Trimmed isBlankText)

/-- A text of the object, whatever its layout, with no blank at its ends. -/
structure LaysOut (text : String) (x : Object) : Prop where
  spells : Spells (Symbol.ofString text) x.toJson
  trimmed : Trimmed text.toList

/-- The object that holds the selector under the key, and nothing else. -/
def wrapped (key : String) (s : Selector) : Object := .singleton key s.toValue

variable {key text before after : String} {x : Object} {s : Selector}

theorem Writes.laysOut (h : Writes text x) : LaysOut text x := ⟨h.spells, h.trimmed⟩

theorem LaysOut.parseKeyed_eq (h : LaysOut text x) (hbefore : isBlankText before)
    (hafter : isBlankText after) (key : String) :
    parseKeyed key (before ++ text ++ after) = .ok ⟨unwrap key x⟩ := by
  refine parseKeyed_of_parse ?_ key
  rw [Text.trim_append h.trimmed hbefore hafter]
  exact Json.parse_of_spells h.spells _

theorem integral_wrapped (key : String) (h : s.toJson.Integral) :
    (wrapped key s).toJson.Integral := ⟨h, trivial⟩

theorem depth_wrapped (key : String) (s : Selector) :
    (wrapped key s).toJson.depth = s.toJson.depth + 1 := depth_singleton key s.members

/-- The texts that are printed are among those that are parsed. -/
theorem laysOut_printed (key : String) (hi : s.toJson.Integral) (hd : s.toJson.depth ≤ 126) :
    LaysOut (wrapped key s).toJson.render (wrapped key s) ∧
      LaysOut (wrapped key s).toJson.renderPretty (wrapped key s) ∧
      LaysOut s.text s.members ∧ LaysOut s.toJson.renderPretty s.members := by
  have hlimit : s.toJson.depth ≤ Json.depthLimit := Nat.le_succ_of_le hd
  have hdepth : (wrapped key s).toJson.depth ≤ Json.depthLimit :=
    (depth_wrapped key s).trans_le (Nat.succ_le_succ hd)
  have hintegral := integral_wrapped key hi
  exact ⟨(writes_render hintegral hdepth).laysOut, (writes_renderPretty hintegral hdepth).laysOut,
    (writes_render hi hlimit).laysOut, (writes_renderPretty hi hlimit).laysOut⟩

theorem not_wraps_of_size (h : 1 < x.size) : ¬ Wraps key x := by
  rintro ⟨inner, rfl⟩
  exact Nat.lt_irrefl 1 h

/-- One wrapper is taken off, and only a real one. The selector is read from the object that holds
it under the key, and from its own text unless this object is a wrapper itself, of which the inner
object is read. An object with other members beside the key is kept whole. -/
theorem parseKeyed_padded (key : String) {s : Selector} (hi : s.toJson.Integral)
    (hd : s.toJson.depth ≤ 126) {before after : String} (hbefore : isBlankText before)
    (hafter : isBlankText after) :
    (LaysOut (wrapped key s).toJson.render (wrapped key s) ∧
      LaysOut (wrapped key s).toJson.renderPretty (wrapped key s) ∧
      LaysOut s.text s.members ∧ LaysOut s.toJson.renderPretty s.members) ∧
    (∀ text, LaysOut text (wrapped key s) → parseKeyed key (before ++ text ++ after) = .ok s) ∧
    ∀ text, LaysOut text s.members →
      (¬ Wraps key s.members → parseKeyed key (before ++ text ++ after) = .ok s) ∧
      (∀ inner, s.members = .singleton key (.object inner) →
        parseKeyed key (before ++ text ++ after) = .ok ⟨inner⟩) ∧
      (1 < s.members.size → parseKeyed key (before ++ text ++ after) = .ok s) := by
  refine ⟨laysOut_printed key hi hd, fun text htext ↦ ?_, fun text htext ↦ ?_⟩ <;>
    rw [htext.parseKeyed_eq hbefore hafter]
  · rw [wrapped, toValue, unwrap_singleton]
  · refine ⟨fun hwraps ↦ ?_, fun inner hinner ↦ ?_, fun hsize ↦ ?_⟩
    · rw [unwrap_of_not_wraps hwraps]
    · rw [hinner, unwrap_singleton]
    · rw [unwrap_of_not_wraps (not_wraps_of_size hsize)]

theorem parseKeyed_padded_recent :
    parseKeyed "the \"year\"" ("\u2003" ++ (wrapped "the \"year\"" ⟨recent⟩).toJson.render ++
        "\u3000\n") = .ok ⟨recent⟩ ∧
      parseKeyed "year" ("\u2003" ++ (wrapped "year" ⟨recent⟩).toJson.renderPretty ++
        "\u3000\n") = .ok ⟨recent⟩ ∧
      parseKeyed "year" ("\u2003" ++ (⟨recent⟩ : Selector).text ++ "\u3000\n") =
        .ok ⟨.singleton "$gt" (.number (.ofUInt64 2010))⟩ ∧
      parseKeyed "$gt" ("\u2003" ++ (⟨recent⟩ : Selector).text ++ "\u3000\n") =
        .ok ⟨recent⟩ := by
  have hi : (⟨recent⟩ : Selector).toJson.Integral := by decide
  have hd : (⟨recent⟩ : Selector).toJson.depth ≤ 126 := by decide
  have hbefore : isBlankText "\u2003" := by decide
  have hafter : isBlankText "\u3000\n" := by decide
  have hwraps : ¬ Wraps "$gt" recent := fun ⟨_, he⟩ ↦
    absurd (congrArg NamedMap.names he) (by decide : ["year"] ≠ ["$gt"])
  obtain ⟨⟨hescaped, -⟩, hescapedOk, -⟩ :=
    parseKeyed_padded "the \"year\"" hi hd hbefore hafter
  obtain ⟨⟨-, hpretty, hown, -⟩, hwrappedOk, hownOk⟩ :=
    parseKeyed_padded "year" hi hd hbefore hafter
  obtain ⟨-, -, hplainOk⟩ := parseKeyed_padded "$gt" hi hd hbefore hafter
  exact ⟨hescapedOk _ hescaped, hwrappedOk _ hpretty, (hownOk _ hown).2.1 _ rfl,
    (hplainOk _ hown).1 hwraps⟩

end DesignDocs.Selector
