import DesignDocs.Proofs.Json.Parse
import DesignDocs.Selector.Parse
import Mathlib.Data.List.TakeWhile

namespace DesignDocs

open Json (Parses)

namespace Value

theorem object?_object (o : Object) : (object o).object? = some o := by
  obtain ⟨entries, h⟩ := o
  simp only [object, object?, List.pmap_map, Option.some.injEq, NamedMap.mk.injEq]
  exact (List.pmap_eq_map (f := id) _).trans (List.map_id entries)

theorem object?_eq_some_iff {v : Value} {o : Object} : v.object? = some o ↔ v = object o := by
  refine ⟨fun h ↦ ?_, fun h ↦ h ▸ object?_object o⟩
  obtain ⟨v, hd⟩ := v
  cases v with
  | object members =>
    cases h
    exact ext_json (by simp [object, List.map_pmap])
  | _ => cases h

end Value

theorem Json.not_parses_empty : ¬ Parses "" := by
  intro h
  obtain ⟨v, hv⟩ := h.exists_tokens
  obtain ⟨t, ts, ht, -⟩ := v.exists_tokens_eq_cons
  simp [ht, Token.scan] at hv

namespace Selector

open Text (trim trimStart)

variable {key text t : String} {o : Object}

/-- The key, bare or between quotation marks. -/
def IsWord (key word : String) : Prop := word = key ∨ word = "\"" ++ key ++ "\""

def Keyed (key t : String) : Prop := ∃ word, IsWord key word ∧ word.toList <+: t.toList

theorem startsWith_iff {start : String} : startsWith t start ↔ start.toList <+: t.toList :=
  List.isPrefixOf_iff_prefix

theorem parseFragment_eq_ok_iff : parseFragment key t = .ok o ↔
    Keyed key t ∧ Json.parse (afterColon t) = .ok (.object o) := by
  have hkeyed : (startsWith t key || startsWith t ("\"" ++ key ++ "\"")) ↔ Keyed key t := by
    rw [Bool.or_eq_true, startsWith_iff, startsWith_iff]
    simp [Keyed, IsWord]
  rw [parseFragment]
  split
  · next h =>
    rw [and_iff_right (hkeyed.1 h)]
    split
    · next f hf => simp [hf]
    · next v hv =>
      rw [hv, Except.ok.injEq, ← Value.object?_eq_some_iff]
      split
      · next o' ho => simp [ho]
      · next ho => simp [ho]
  · next h => simp [mt hkeyed.2 h]

theorem parseObject_eq_ok_iff : parseObject key t = .ok o ↔
    Json.parse t = .ok (.object o) ∨
      ¬ Parses t ∧ Keyed key t ∧ Json.parse (afterColon t) = .ok (.object o) := by
  rw [parseObject]
  split
  · next h =>
    have hempty : t = "" := by simpa using h
    subst hempty
    have hparses := Json.not_parses_empty
    have hafter : afterColon "" = "" := by decide
    rw [hafter]
    constructor
    · exact fun h ↦ nomatch h
    · rintro (h | ⟨-, -, h⟩) <;> exact absurd ⟨_, h⟩ hparses
  · split
    · next v hv =>
      have hparses : Parses t := ⟨v, hv⟩
      rw [hv, Except.ok.injEq, ← Value.object?_eq_some_iff]
      split
      · next o' ho => simp [ho, hparses]
      · next ho => simp [ho, hparses]
    · next f hf =>
      have hparses : ¬ Parses t := fun ⟨v, hv⟩ ↦ by simp [hf] at hv
      simp [hf, hparses, parseFragment_eq_ok_iff]

theorem parseKeyed_eq_ok_iff {s : Selector} : parseKeyed key text = .ok s ↔
    ∃ o, parseObject key (trim text) = .ok o ∧ unwrap key o = s.members := by
  obtain ⟨members⟩ := s
  rw [parseKeyed]
  split
  · next o ho => simp [ho]
  · next f hf => simp [hf]

theorem parseKeyed_ne_ok (hparses : ¬ Parses (trim text))
    (hafter : Keyed key (trim text) → ¬ Parses (afterColon (trim text))) (s : Selector) :
    parseKeyed key text ≠ .ok s := by
  intro hs
  obtain ⟨o, ho, -⟩ := parseKeyed_eq_ok_iff.1 hs
  obtain ho | ⟨-, hkeyed, ho⟩ := parseObject_eq_ok_iff.1 ho
  · exact hparses ⟨_, ho⟩
  · exact hafter hkeyed ⟨_, ho⟩

/-- A text that is read as an object is never taken for a fragment. -/
theorem parseKeyed_of_parse (ho : Json.parse (trim text) = .ok (.object o)) (key : String) :
    parseKeyed key text = .ok ⟨unwrap key o⟩ :=
  parseKeyed_eq_ok_iff.2 ⟨o, parseObject_eq_ok_iff.2 (.inl ho), rfl⟩

theorem parseKeyed_of_fragment (hparses : ¬ Parses (trim text)) (hkeyed : Keyed key (trim text))
    (ho : Json.parse (afterColon (trim text)) = .ok (.object o)) :
    parseKeyed key text = .ok ⟨unwrap key o⟩ :=
  parseKeyed_eq_ok_iff.2 ⟨o, parseObject_eq_ok_iff.2 (.inr ⟨hparses, hkeyed, ho⟩), rfl⟩

section

variable {before after : List Char} (ht : t.toList = before ++ ':' :: after)
  (hcolon : ':' ∉ before)

include ht hcolon

theorem afterColon_eq : afterColon t = trim (String.ofList after) := by
  have hall : ∀ c ∈ before, (c != ':') = true := by
    intro c hc
    simpa using ne_of_mem_of_not_mem hc hcolon
  rw [afterColon, ht, List.dropWhile_append_of_pos hall]
  simp

/-- No blank ends a trimmed text, so that blanks are taken away in front only. -/
theorem afterColon_eq_of_trimmed (h : Text.Trimmed t.toList) :
    afterColon t = String.ofList (trimStart after) := by
  obtain ⟨blanks, -, hblanks⟩ := Text.exists_append_trimStart after
  have hlast := h.last
  rw [ht, ← hblanks, ← List.cons_append, ← List.append_assoc] at hlast
  rw [afterColon_eq ht hcolon, trim, String.toList_ofList,
    Text.trimEnd_eq_self (Text.last_of_append hlast)]

end

theorem colon_mem_of_parses (h : Parses (afterColon t)) : ':' ∈ t.toList := by
  by_contra hcolon
  have hall : ∀ c ∈ t.toList, (c != ':') = true := by
    intro c hc
    simpa using ne_of_mem_of_not_mem hc hcolon
  have hempty : afterColon t = "" := by
    rw [afterColon, List.dropWhile_eq_nil_iff.2 hall]
    rfl
  exact Json.not_parses_empty (hempty ▸ h)

/-- The object holds an object under the key and nothing else. -/
def Wraps (key : String) (o : Object) : Prop := ∃ inner, o = .singleton key (.object inner)

theorem unwrap_singleton (key : String) (inner : Object) :
    unwrap key (.singleton key (.object inner)) = inner := by
  simp [unwrap, NamedMap.singleton, Value.object?_object]

theorem unwrap_of_not_wraps (h : ¬ Wraps key o) : unwrap key o = o := by
  obtain ⟨entries, hd⟩ := o
  unfold unwrap
  split
  · next name v he =>
    dsimp only at he
    subst he
    split
    · next hname =>
      subst hname
      cases hv : v.object? with
      | none => rfl
      | some inner =>
        rw [Value.object?_eq_some_iff] at hv
        subst hv
        exact absurd ⟨inner, rfl⟩ h
    · rfl
  · rfl

theorem depth_singleton (key : String) (inner : Object) :
    (NamedMap.singleton key (Value.object inner)).toJson.depth = inner.toJson.depth + 1 := by
  simp [NamedMap.toJson, NamedMap.singleton, Value.object, Json.depth, Json.depthMembers]

theorem unwrap_eq_self_iff : unwrap key o = o ↔ ¬ Wraps key o := by
  refine ⟨?_, unwrap_of_not_wraps⟩
  rintro h ⟨inner, rfl⟩
  rw [unwrap_singleton] at h
  have hdepth := depth_singleton key inner
  rw [← h] at hdepth
  omega

end Selector

end DesignDocs
