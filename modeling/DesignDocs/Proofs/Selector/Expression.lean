import DesignDocs.Proofs.Except
import DesignDocs.Proofs.Selector.Keyed
import DesignDocs.Selector.Expression

namespace DesignDocs

namespace Selector

variable {key name : String} {v : Value}

theorem wraps_singleton_iff : Wraps key (.singleton name v) ↔ name = key ∧ ∃ o, v = .object o := by
  constructor
  · rintro ⟨inner, h⟩
    have hentries := congrArg NamedMap.entries h
    simp only [NamedMap.singleton, List.cons.injEq, Prod.mk.injEq, and_true] at hentries
    exact ⟨hentries.1, inner, hentries.2⟩
  · rintro ⟨rfl, inner, rfl⟩
    exact ⟨inner, rfl⟩

theorem array_ne_object (items : List Value) (o : Object) : Value.array items ≠ .object o :=
  fun h ↦ nomatch congrArg Value.json h

theorem condition_eq_ok_iff {c : Condition} {s : Selector} :
    condition name c = .ok s ↔ ∃ operator argument,
      c.entry = .ok (operator, argument) ∧ onField name operator argument = s := by
  rw [condition]
  split
  · next operator argument h => simp [h]
  · next f h => simp [h]

/-- The text of a selector is parsed as the selector, less a wrapper. -/
theorem parse_text {s : Selector} (hi : s.toJson.Integral) (hd : s.toJson.depth ≤ Json.depthLimit) :
    parse s.text = .ok ⟨unwrap defaultKey s.members⟩ :=
  (writes_render hi hd).parseKeyed_eq defaultKey

end Selector

namespace SelectorExpression

open Selector (Wraps defaultKey onField unwrap)

variable {key : String} {e : SelectorExpression} {s : Selector}

theorem build_cases (hs : e.build = .ok s) :
    (∃ field c operator argument, e = .condition field c ∧ c.entry = .ok (operator, argument) ∧
      s = onField field operator argument) ∨
    (∃ c operands ss, e = .combine c operands ∧ buildAll operands = .ok ss ∧
      s = Selector.combine c ss) ∨
    (∃ operand t, e = .negate operand ∧ operand.build = .ok t ∧ s = t.negate) ∨
    e = .given s := by
  cases e with
  | condition field c =>
    obtain ⟨operator, argument, hc, rfl⟩ := Selector.condition_eq_ok_iff.1 hs
    exact .inl ⟨field, c, operator, argument, rfl, hc, rfl⟩
  | combine c operands =>
    obtain ⟨ss, hss, rfl⟩ := Except.map_eq_ok_iff.1 hs
    exact .inr (.inl ⟨c, operands, ss, rfl, hss, rfl⟩)
  | negate operand =>
    obtain ⟨t, ht, rfl⟩ := Except.map_eq_ok_iff.1 hs
    exact .inr (.inr (.inl ⟨operand, t, rfl, ht, rfl⟩))
  | given t =>
    cases hs
    exact .inr (.inr (.inr rfl))

theorem wraps_build_iff (hs : e.build = .ok s) (hgiven : ∀ t, e ≠ .given t) :
    Wraps key s.members ↔
      (∃ c, e = .condition key c) ∨ key = "$not" ∧ ∃ operand, e = .negate operand := by
  obtain ⟨field, c, operator, argument, rfl, -, rfl⟩ | ⟨c, operands, ss, rfl, -, rfl⟩ |
    ⟨operand, t, rfl, -, rfl⟩ | rfl := build_cases hs
  · simp [onField, Selector.wraps_singleton_iff]
  · simp [Selector.combine, Selector.wraps_singleton_iff, Selector.array_ne_object]
  · simp [Selector.negate, Selector.toValue, Selector.wraps_singleton_iff, eq_comm]
  · exact absurd rfl (hgiven s)

theorem wraps_default_iff (hs : e.build = .ok s) (hgiven : ∀ t, e ≠ .given t) :
    Wraps defaultKey s.members ↔ ∃ c, e = .condition defaultKey c := by
  simp [wraps_build_iff hs hgiven, defaultKey]

/-- A selector is read back from its text, unless it is a condition on the field `selector`, of
which the bare condition is read. -/
theorem parse_text_of_build (hs : e.build = .ok s) (hgiven : ∀ t, e ≠ .given t)
    (hi : s.toJson.Integral) (hd : s.toJson.depth ≤ 127) :
    ((∀ c, e ≠ .condition defaultKey c) → Selector.parse s.text = .ok s) ∧
      ∀ c, e = .condition defaultKey c → ∃ operator argument,
        c.entry = .ok (operator, argument) ∧
          Selector.parse s.text = .ok ⟨.singleton operator argument⟩ := by
  have hparse := Selector.parse_text hi hd
  constructor
  · intro hfield
    have hwraps : ¬ Wraps defaultKey s.members := by
      rw [wraps_default_iff hs hgiven]
      rintro ⟨c, hc⟩
      exact hfield c hc
    rw [hparse, Selector.unwrap_of_not_wraps hwraps]
  · rintro c rfl
    obtain ⟨operator, argument, hc, rfl⟩ := Selector.condition_eq_ok_iff.1 hs
    exact ⟨operator, argument, hc, by rw [hparse, onField, Selector.unwrap_singleton]⟩

def lasting : SelectorExpression :=
  .combine .and
    [.condition "year" (.compare .gt (.number (.ofUInt64 2010))),
      .negate (.combine .or
        [.condition "minutes" (.compare .lt (.number (.ofUInt64 40))),
          .condition "selector" (.present false)])]

theorem parse_text_lasting :
    ∃ s, lasting.build = .ok s ∧ s.toJson.Integral ∧ s.toJson.depth ≤ 127 ∧
      Selector.parse s.text = .ok s := by
  refine ⟨_, rfl, by decide, by decide, ?_⟩
  exact (parse_text_of_build (e := lasting) rfl nofun (by decide) (by decide)).1 nofun

/-- The field is taken for the wrapper. -/
theorem parse_text_selector_field :
    ∃ s, build (.condition "selector" (.compare .eq (.number (.ofUInt64 1)))) = .ok s ∧
      s.toJson.Integral ∧ s.toJson.depth ≤ 127 ∧ Selector.parse s.text ≠ .ok s := by
  refine ⟨onField "selector" "$eq" (.number (.ofUInt64 1)), rfl, by decide, by decide, ?_⟩
  rw [Selector.parse_text (by decide) (by decide)]
  intro h
  have hself : unwrap defaultKey (onField "selector" "$eq" (.number (.ofUInt64 1))).members = _ :=
    congrArg Selector.members (Except.ok.inj h)
  exact Selector.unwrap_eq_self_iff.1 hself ⟨_, rfl⟩

end SelectorExpression

end DesignDocs
