import DesignDocs.Proofs.Kinds
import DesignDocs.Proofs.Selector.Keyed

namespace DesignDocs.Selector

open Json (Parses Spells)
open Text (Symbol isBlankText trim trimStart Trimmed)

/-- The text of an object. -/
def IsObject (t : String) : Prop := ∃ members, Spells (Symbol.ofString t) (.object members)

/-- The text is the word, the gap, a colon, blanks and the text of an object. -/
def Joins (word gap t : String) : Prop :=
  ∃ space object : String, isBlankText space ∧ IsObject object ∧
    t = word ++ gap ++ ":" ++ space ++ object

/-- The key stands bare or between quotation marks, with a gap of the given kind before the
colon. -/
def Fragment (key : String) (kind : String → Prop) (t : String) : Prop :=
  ∃ word gap, IsWord key word ∧ kind gap ∧ Joins word gap t

def Documented (t : String) : Prop := IsObject t ∨ Fragment defaultKey (isBlankText ·) t

/-- Something other than blanks, though no colon, keeps the key from the colon. -/
def Stretched (t : String) : Prop :=
  Fragment defaultKey (fun gap ↦ ':' ∉ gap.toList ∧ ¬ isBlankText gap) t

theorem isObject_iff {t : String} : IsObject t ↔ ∃ o, Json.parse t = .ok (.object o) := by
  constructor
  · rintro ⟨members, h⟩
    obtain ⟨o, ho⟩ : ∃ o, (Value.ofJson (.object members)).object? = some o := ⟨_, rfl⟩
    exact ⟨o, Json.parse_eq_ok_iff.2 ⟨_, h, Value.object?_eq_some_iff.1 ho⟩⟩
  · rintro ⟨o, ho⟩
    obtain ⟨tree, hspells, htree⟩ := Json.parse_eq_ok_iff.1 ho
    cases tree with
    | object members => exact ⟨members, hspells⟩
    | _ => cases htree

section

variable {word gap t : String}

theorem Joins.exists_toList (h : Joins word gap t) : ∃ space object : String,
    isBlankText space ∧ IsObject object ∧
      t.toList = word.toList ++ gap.toList ++ ':' :: (space.toList ++ object.toList) := by
  obtain ⟨space, object, hspace, ho, rfl⟩ := h
  exact ⟨space, object, hspace, ho, by simp⟩

theorem isObject_afterColon (h : Joins word gap t) (htrim : Trimmed t.toList)
    (hcolon : ':' ∉ word.toList ++ gap.toList) : IsObject (afterColon t) := by
  obtain ⟨space, object, hspace, hobject, ht⟩ := h.exists_toList
  obtain ⟨o, ho⟩ := isObject_iff.1 hobject
  refine isObject_iff.2 ⟨o, ?_⟩
  rw [afterColon_eq_of_trimmed ht hcolon htrim, Text.trimStart_append hspace,
    Json.parse_trimStart ⟨_, ho⟩, ho]

theorem exists_joins (hword : word.toList <+: t.toList) (hcolon : ':' ∉ word.toList)
    (htrim : Trimmed t.toList) (ho : IsObject (afterColon t)) :
    ∃ gap, ':' ∉ gap.toList ∧ Joins word gap t := by
  have hcolon' : ':' ∈ t.toList := by
    obtain ⟨o, ho⟩ := isObject_iff.1 ho
    exact colon_mem_of_parses ⟨_, ho⟩
  obtain ⟨before, after, ht, hbefore⟩ := List.eq_append_cons_of_mem hcolon'
  rw [afterColon_eq_of_trimmed ht hbefore htrim] at ho
  obtain ⟨gap, rfl⟩ : ∃ gap, before = word.toList ++ gap := by
    obtain ⟨tail, htail⟩ := hword
    rw [ht] at htail
    obtain ⟨gap, hgap, -⟩ | ⟨rest, hrest, htail⟩ := List.append_eq_append_iff.1 htail
    · exact ⟨gap, hgap⟩
    · cases rest with
      | nil => exact ⟨[], by simpa using hrest.symm⟩
      | cons c rest =>
        cases htail
        exact absurd (by simp [hrest]) hcolon
  obtain ⟨blanks, hblanks, hafter⟩ := Text.exists_append_trimStart after
  refine ⟨String.ofList gap, by simpa using fun h ↦ hbefore (by simp [h]),
    String.ofList blanks, String.ofList (trimStart after), by simpa [isBlankText] using hblanks,
    ho, String.toList_inj.1 ?_⟩
  rw [ht, ← hafter]
  simp [hafter]

end

section

variable {word word' gap gap' t : String} (hword : IsWord defaultKey word)

include hword

theorem colon_notMem_word : ':' ∉ word.toList := by
  obtain rfl | rfl := hword <;> decide

theorem not_parses_of_joins (h : Joins word gap t) : ¬ Parses t := by
  obtain ⟨space, object, -, -, ht⟩ := h.exists_toList
  obtain rfl | rfl := hword
  · intro hparses
    have hkey : defaultKey.toList = 's' :: ['e', 'l', 'e', 'c', 't', 'o', 'r'] := by decide
    have hlegible := hparses.not_illegible
    rw [ht, hkey] at hlegible
    exact hlegible (Json.illegible_of_start (by decide) (by decide) (by decide) (by decide)
      (by decide) _)
  · have ht' : t.toList = Json.quotedChars defaultKey ++
        (gap.toList ++ ':' :: (space.toList ++ object.toList)) := by
      rw [ht, quotedChars_of_unescaped (by decide)]
      simp
    exact Json.not_parses_of_string ht' (by simp) (by decide : Json.Token.isSpace ':' = false)

theorem keyed_of_joins (h : Joins word gap t) : Keyed defaultKey t := by
  obtain ⟨space, object, -, -, ht⟩ := h.exists_toList
  refine ⟨word, hword, ?_⟩
  rw [ht, List.append_assoc]
  exact List.prefix_append _ _

theorem takeWhile_of_joins (h : Joins word gap t) (hgap : ':' ∉ gap.toList) :
    t.toList.takeWhile (· != ':') = word.toList ++ gap.toList := by
  obtain ⟨space, object, -, -, ht⟩ := h.exists_toList
  have hall : ∀ c ∈ word.toList ++ gap.toList, (c != ':') = true := by
    intro c hc
    have hcolon : ':' ∉ word.toList ++ gap.toList := by simp [colon_notMem_word hword, hgap]
    simpa using ne_of_mem_of_not_mem hc hcolon
  rw [ht, List.takeWhile_append_of_pos hall, List.takeWhile_cons_of_neg (by decide),
    List.append_nil]

/-- A text has one gap only: a bare key begins with a letter, a quoted one does not. -/
theorem gap_unique (hword' : IsWord defaultKey word') (h : Joins word gap t)
    (h' : Joins word' gap' t) (hgap : ':' ∉ gap.toList) (hgap' : ':' ∉ gap'.toList) :
    gap = gap' := by
  have he := takeWhile_of_joins hword h hgap
  rw [takeWhile_of_joins hword' h' hgap'] at he
  have hsame : word' = word := by
    obtain rfl | rfl := hword <;> obtain rfl | rfl := hword'
    · rfl
    · simp [defaultKey] at he
    · simp [defaultKey] at he
    · rfl
  subst hsame
  exact String.toList_inj.1 (List.append_cancel_left he).symm

end

theorem colon_notMem_of_isBlankText {gap : String} (h : isBlankText gap) : ':' ∉ gap.toList :=
  fun hmem ↦ absurd (List.all_eq_true.1 h _ hmem) (by decide)

theorem fragment_iff {t : String} : Fragment defaultKey (fun gap ↦ ':' ∉ gap.toList) t ↔
    Fragment defaultKey (isBlankText ·) t ∨ Stretched t := by
  constructor
  · rintro ⟨word, gap, hword, hcolon, hjoins⟩
    by_cases hblank : isBlankText gap
    · exact .inl ⟨word, gap, hword, hblank, hjoins⟩
    · exact .inr ⟨word, gap, hword, ⟨hcolon, hblank⟩, hjoins⟩
  · rintro (⟨word, gap, hword, hblank, hjoins⟩ | ⟨word, gap, hword, ⟨hcolon, -⟩, hjoins⟩)
    · exact ⟨word, gap, hword, colon_notMem_of_isBlankText hblank, hjoins⟩
    · exact ⟨word, gap, hword, hcolon, hjoins⟩

theorem not_documented_of_stretched {t : String} (h : Stretched t) : ¬ Documented t := by
  obtain ⟨word, gap, hword, ⟨hcolon, hblank⟩, hjoins⟩ := h
  rintro (ho | ⟨word', gap', hword', hblank', hjoins'⟩)
  · obtain ⟨o, ho⟩ := isObject_iff.1 ho
    exact not_parses_of_joins hword hjoins ⟨_, ho⟩
  · have hcolon' := colon_notMem_of_isBlankText hblank'
    exact hblank (gap_unique hword hword' hjoins hjoins' hcolon hcolon' ▸ hblank')

theorem exists_parse_iff_fragment (text : String) : (∃ s, parse text = .ok s) ↔
    IsObject (trim text) ∨ Fragment defaultKey (fun gap ↦ ':' ∉ gap.toList) (trim text) := by
  have htrim := Text.trimmed_trim text
  have hparsed : (∃ s, parse text = .ok s) ↔
      ∃ o, parseObject defaultKey (trim text) = .ok o := by
    simp only [parse, parseKeyed_eq_ok_iff]
    exact ⟨fun ⟨_, o, ho, _⟩ ↦ ⟨o, ho⟩, fun ⟨o, ho⟩ ↦ ⟨⟨_⟩, o, ho, rfl⟩⟩
  rw [hparsed]
  constructor
  · rintro ⟨o, ho⟩
    obtain ho | ⟨-, ⟨word, hword, hprefix⟩, ho⟩ := parseObject_eq_ok_iff.1 ho
    · exact .inl (isObject_iff.2 ⟨o, ho⟩)
    · obtain ⟨gap, hgap, hjoins⟩ :=
        exists_joins hprefix (colon_notMem_word hword) htrim (isObject_iff.2 ⟨o, ho⟩)
      exact .inr ⟨word, gap, hword, hgap, hjoins⟩
  · rintro (ho | ⟨word, gap, hword, hgap, hjoins⟩)
    · obtain ⟨o, ho⟩ := isObject_iff.1 ho
      exact ⟨o, parseObject_eq_ok_iff.2 (.inl ho)⟩
    · have hcolon : ':' ∉ word.toList ++ gap.toList := by
        simp [colon_notMem_word hword, hgap]
      obtain ⟨o, ho⟩ := isObject_iff.1 (isObject_afterColon hjoins htrim hcolon)
      exact ⟨o, parseObject_eq_ok_iff.2
        (.inr ⟨not_parses_of_joins hword hjoins, keyed_of_joins hword hjoins, ho⟩)⟩

/-- What is parsed has a documented form or is stretched, never both; all else is refused as an
invalid selector. -/
theorem exists_parse_iff (text : String) :
    ((∃ s, parse text = .ok s) ↔ Documented (trim text) ∨ Stretched (trim text)) ∧
      (Stretched (trim text) → ¬ Documented (trim text)) ∧
      ∀ e, parse text = .error e → e.kind = .invalidSelector := by
  refine ⟨?_, not_documented_of_stretched, fun e ↦ kind_eq_of_parseKeyed⟩
  rw [exists_parse_iff_fragment, fragment_iff, ← or_assoc]
  rfl

/-- A longer word is taken for the key. -/
theorem stretched_parsed :
    (∃ s, parse (bare "selectors" recent.toJson.render) = .ok s) ∧
      ¬ Documented (trim (bare "selectors" recent.toJson.render)) := by
  have h : Writes recent.toJson.render recent := writes_render (by decide) (by decide)
  have htrim : trim (bare "selectors" recent.toJson.render) =
      bare "selectors" recent.toJson.render := by
    refine String.toList_inj.1 ?_
    rw [toList_trim_bare h, Text.trimStart_eq_self (by simp [Text.isBlank]),
      toList_bare]
  have hstretched : Stretched (trim (bare "selectors" recent.toJson.render)) := by
    rw [htrim]
    refine ⟨defaultKey, "s", .inl rfl, by decide, " ", recent.toJson.render, by decide,
      isObject_iff.2 ⟨recent, h.parse_eq⟩, String.toList_inj.1 ?_⟩
    simp [bare, defaultKey]
  exact ⟨(exists_parse_iff_fragment _).2 (.inr (fragment_iff.2 (.inr hstretched))),
    not_documented_of_stretched hstretched⟩

end DesignDocs.Selector
