import DesignDocs.Proofs.Selector.Parse

namespace DesignDocs

open Json (Lexes LexesValue Parses Spells symbols)
open Text (Symbol isBlank trim trimStart Trimmed)

namespace Json

theorem exists_charsMembers_eq (ms : List (String × Json)) :
    ∃ inner, charsMembers ms = inner ++ ['}'] := by
  induction ms with
  | nil => exact ⟨[], rfl⟩
  | cons p ms ih =>
    obtain ⟨k, v⟩ := p
    obtain ⟨inner, hinner⟩ := ih
    exact ⟨',' :: quotedChars k ++ ':' :: v.chars ++ inner, by simp [charsMembers, hinner]⟩

theorem exists_prettyMembers_eq (level : Nat) (ms : List (String × Json)) :
    ∃ inner, prettyMembers level ms = inner ++ ['}'] := by
  induction ms with
  | nil => exact ⟨newline level, rfl⟩
  | cons p ms ih =>
    obtain ⟨k, v⟩ := p
    obtain ⟨inner, hinner⟩ := ih
    refine ⟨',' :: newline (level + 1) ++ quotedChars k ++ ':' :: ' ' ::
      v.prettyChars (level + 1) ++ inner, by simp [prettyMembers, hinner]⟩

theorem exists_chars_object_eq (ms : List (String × Json)) :
    ∃ inner, (object ms).chars = '{' :: inner ++ ['}'] := by
  cases ms with
  | nil => exact ⟨[], rfl⟩
  | cons p ms =>
    obtain ⟨k, v⟩ := p
    obtain ⟨inner, hinner⟩ := exists_charsMembers_eq ms
    exact ⟨quotedChars k ++ ':' :: v.chars ++ inner, by simp [chars, hinner]⟩

theorem exists_prettyChars_object_eq (level : Nat) (ms : List (String × Json)) :
    ∃ inner, (object ms).prettyChars level = '{' :: inner ++ ['}'] := by
  cases ms with
  | nil => exact ⟨[], rfl⟩
  | cons p ms =>
    obtain ⟨k, v⟩ := p
    obtain ⟨inner, hinner⟩ := exists_prettyMembers_eq level ms
    exact ⟨newline (level + 1) ++ quotedChars k ++ ':' :: ' ' :: v.prettyChars (level + 1) ++ inner,
      by simp [prettyChars, hinner]⟩

end Json

namespace Selector

/-- A text from brace to brace that is read as the object, wherever it stands as a value. -/
structure Writes (text : String) (x : Object) : Prop where
  lexes : LexesValue text.toList x.toJson.tokens
  depth : x.toJson.depth ≤ Json.depthLimit
  braces : ∃ inner, text.toList = '{' :: inner ++ ['}']

section

variable {x : Object} (hi : x.toJson.Integral) (hd : x.toJson.depth ≤ Json.depthLimit)

include hi hd

theorem writes_render : Writes x.toJson.render x where
  lexes := by
    rw [Json.render, String.toList_ofList]
    exact Json.lexesValue_chars hi
  depth := hd
  braces := by
    rw [Json.render, String.toList_ofList]
    exact Json.exists_chars_object_eq _

theorem writes_renderPretty : Writes x.toJson.renderPretty x where
  lexes := by
    rw [Json.renderPretty, String.toList_ofList]
    exact Json.lexesValue_prettyChars hi 0
  depth := hd
  braces := by
    rw [Json.renderPretty, String.toList_ofList]
    exact Json.exists_prettyChars_object_eq 0 _

end

/-- No character of the key is escaped between quotation marks. -/
def Unescaped (key : String) : Prop := ∀ c ∈ key.toList, Json.escaped c = [c]

instance (key : String) : Decidable (Unescaped key) := List.decidableBAll _ key.toList

theorem quotedChars_of_unescaped {key : String} (h : Unescaped key) :
    Json.quotedChars key = '"' :: key.toList ++ ['"'] := by
  have hflat : key.toList.flatMap Json.escaped = key.toList :=
    (List.flatMap_congr h).trans (List.flatMap_singleton' _)
  rw [Json.quotedChars, hflat]

theorem quote_notMem_of_unescaped {key : String} (h : Unescaped key) : '"' ∉ key.toList :=
  fun hmem ↦ absurd (h '"' hmem) (by decide)

theorem quote_notMem_trimStart {key : String} {before after : List Char} {c : Char}
    (h : Unescaped key) (hkey : key.toList = before ++ c :: after) : '"' ∉ trimStart after := by
  have hmem := quote_notMem_of_unescaped h
  rw [hkey] at hmem
  exact fun hm ↦ hmem (by simp [Text.trimStart_subset _ hm])

namespace Writes

variable {key text : String} {x : Object} (h : Writes text x)

include h

theorem spells : Spells (Symbol.ofString text) x.toJson := by
  have hspells := Json.spells_of_lexes h.lexes h.depth
  rwa [String.ofList_toList] at hspells

theorem parse_eq : Json.parse text = .ok (.object x) := Json.parse_of_spells h.spells _

theorem trimStart_space : trimStart (' ' :: text.toList) = text.toList := by
  obtain ⟨inner, hinner⟩ := h.braces
  rw [hinner]
  rfl

theorem last_of_append (before : List Char) :
    ∀ c ∈ (before ++ text.toList).getLast?, isBlank c = false := by
  obtain ⟨inner, hinner⟩ := h.braces
  intro c hc
  rw [hinner, ← List.append_assoc, List.getLast?_concat] at hc
  cases hc
  decide

theorem trimmed : Trimmed text.toList where
  head := by
    obtain ⟨inner, hinner⟩ := h.braces
    simp [hinner, isBlank]
  last := h.last_of_append []

theorem parseKeyed_eq (key : String) : parseKeyed key text = .ok ⟨unwrap key x⟩ := by
  refine parseKeyed_of_parse ?_ key
  rw [Text.trim_eq_self h.trimmed, h.parse_eq]

theorem not_illegible_value : ¬ Json.Illegible (symbols (':' :: ' ' :: text.toList)) := by
  have hcolon : Lexes [':', ' '] [.colon] :=
    (Json.lexes_mark (by decide) rfl : Lexes [':'] [.colon]).append (Json.lexes_space (by decide))
  have hscan := hcolon.appendValue h.lexes [] trivial
  rw [List.append_nil] at hscan
  change ¬ Json.Unreadable (Json.Token.scan (symbols ([':', ' '] ++ text.toList)))
  rw [hscan, Json.Token.scan, List.append_nil]
  rintro ⟨t, ht, hread⟩
  obtain rfl | ht := List.mem_cons.1 ht
  · exact hread trivial
  · exact hread (Json.readable_tokens _ t ht)

end Writes

def nested (key text : String) : String := "\x7b\"" ++ key ++ "\": " ++ text ++ "\x7d"

def quoted (key text : String) : String := "\"" ++ key ++ "\": " ++ text

def bare (key text : String) : String := key ++ ": " ++ text

section

variable {key text : String} {x : Object}

theorem toList_nested (h : Unescaped key) : (nested key text).toList =
    ['{'] ++ (Json.quotedChars key ++ ':' :: ' ' :: text.toList ++ Json.charsMembers []) := by
  simp [nested, quotedChars_of_unescaped h, Json.charsMembers]

theorem toList_quoted (h : Unescaped key) (text : String) :
    (quoted key text).toList = Json.quotedChars key ++ ':' :: ' ' :: text.toList := by
  simp [quoted, quotedChars_of_unescaped h]

theorem toList_bare : (bare key text).toList = key.toList ++ ':' :: ' ' :: text.toList := by
  simp [bare]

theorem trimmed_nested : Trimmed (nested key text).toList where
  head := by simp [nested, isBlank]
  last := by
    intro c hc
    rw [nested, String.toList_append, List.getLast?_append] at hc
    cases hc
    decide

theorem trimmed_quoted (h : Writes text x) (key : String) : Trimmed (quoted key text).toList where
  head := by simp [quoted, isBlank]
  last := by
    rw [quoted, String.toList_append]
    exact h.last_of_append _

theorem keyed_quoted : Keyed key (quoted key text) :=
  ⟨_, .inr rfl, ':' :: ' ' :: text.toList, by simp [quoted]⟩

theorem not_parses_quoted (h : Unescaped key) : ¬ Parses (quoted key text) :=
  Json.not_parses_of_string (toList_quoted h text) List.mem_cons_self (by decide)

theorem toList_trim_bare (h : Writes text x) (key : String) :
    (trim (bare key text)).toList = trimStart key.toList ++ ':' :: ' ' :: text.toList := by
  rw [Text.toList_trim, toList_bare, Text.trimStart_append_cons (by decide)]
  refine Text.trimEnd_eq_self ?_
  have hlast := h.last_of_append (trimStart key.toList ++ [':', ' '])
  simpa using hlast

end

section

variable {key text : String} {x : Object} (hkey : Unescaped key) (h : Writes text x)

include hkey h

theorem parse_nested (hd : x.toJson.depth < Json.depthLimit) :
    Json.parse (nested key text) = .ok (.object (.singleton key (.object x))) := by
  have hopen : Lexes ['{'] [.openBrace] := Json.lexes_mark (by decide) rfl
  have hclose : Lexes ['}'] [.closeBrace] := Json.lexes_mark (by decide) rfl
  have hvalue : LexesValue (' ' :: text.toList) x.toJson.tokens :=
    (Json.lexes_space (by decide)).appendValue h.lexes
  have hmember := Json.lexes_member (k := key) hvalue (Json.continues_charsMembers []) hclose
  have hlexes := (hopen.append hmember).value
  rw [← toList_nested hkey] at hlexes
  have hdepth := depth_singleton key x
  have hspells := Json.spells_of_lexes (v := (NamedMap.singleton key (.object x)).toJson) hlexes
    (by omega)
  rw [String.ofList_toList] at hspells
  exact Json.parse_of_spells hspells _

theorem parseKeyed_nested (hd : x.toJson.depth < Json.depthLimit) :
    parseKeyed key (nested key text) = .ok ⟨x⟩ := by
  have hparse := parse_nested hkey h hd
  rw [← Text.trim_eq_self trimmed_nested] at hparse
  rw [parseKeyed_of_parse hparse, unwrap_singleton]

theorem parseKeyed_quoted (hcolon : ':' ∉ key.toList) :
    parseKeyed key (quoted key text) = .ok ⟨unwrap key x⟩ := by
  have htrim := trimmed_quoted h key
  have htext := toList_quoted hkey text
  rw [quotedChars_of_unescaped hkey] at htext
  have hafter : afterColon (quoted key text) = text := by
    rw [afterColon_eq_of_trimmed htext (by simp [hcolon]) htrim, h.trimStart_space,
      String.ofList_toList]
  refine parseKeyed_of_fragment ?_ ?_ ?_ <;> rw [Text.trim_eq_self htrim]
  · exact not_parses_quoted hkey
  · exact keyed_quoted
  · rw [hafter]
    exact h.parse_eq

/-- A colon inside the key is taken for the one behind it. -/
theorem parseKeyed_quoted_ne_ok (hcolon : ':' ∈ key.toList) (s : Selector) :
    parseKeyed key (quoted key text) ≠ .ok s := by
  have htrim := trimmed_quoted h key
  obtain ⟨before, after, hsplit, hbefore⟩ := List.eq_append_cons_of_mem hcolon
  have htext : (quoted key text).toList =
      '"' :: before ++ ':' :: (after ++ '"' :: ':' :: ' ' :: text.toList) := by
    simp [toList_quoted hkey text, quotedChars_of_unescaped hkey, hsplit]
  have hquote : '"' ∉ trimStart after := quote_notMem_trimStart hkey hsplit
  refine parseKeyed_ne_ok ?_ (fun _ ↦ ?_) s <;> rw [Text.trim_eq_self htrim]
  · exact not_parses_quoted hkey
  · rw [afterColon_eq_of_trimmed htext (by simp [hbefore]) htrim,
      Text.trimStart_append_cons (by decide)]
    exact Json.not_parses_of_quote String.toList_ofList hquote h.not_illegible_value

theorem parseKeyed_quoted_iff :
    parseKeyed key (quoted key text) = .ok ⟨x⟩ ↔ ':' ∉ key.toList ∧ ¬ Wraps key x := by
  by_cases hcolon : ':' ∈ key.toList
  · simp [hcolon, parseKeyed_quoted_ne_ok hkey h hcolon]
  · simp [hcolon, parseKeyed_quoted hkey h hcolon, unwrap_eq_self_iff]

theorem not_parses_bare : ¬ Parses (trim (bare key text)) := by
  refine Json.not_parses_of_colon (toList_trim_bare h key) fun hm ↦ ?_
  exact quote_notMem_of_unescaped hkey (Text.trimStart_subset _ hm)

theorem keyed_bare_iff :
    Keyed key (trim (bare key text)) ↔ ∀ c ∈ key.toList.head?, isBlank c = false := by
  constructor
  · rintro ⟨word, hword | hword, tail, htail⟩
    · have hhead := (Text.trimmed_trim (bare key text)).head
      rw [← htail, hword, List.head?_append] at hhead
      exact fun c hc ↦ hhead c (by simp [Option.mem_def.1 hc])
    · -- No quotation mark can begin the text, since the key has none.
      rw [hword, toList_trim_bare h key] at htail
      cases hkey' : trimStart key.toList with
      | nil => simp [hkey'] at htail
      | cons c cs =>
        have hmem : c ∈ key.toList := Text.trimStart_subset _ (by simp [hkey'])
        have hc : '"' = c := by simpa [hkey'] using congrArg List.head? htail
        exact absurd (hc ▸ hmem) (quote_notMem_of_unescaped hkey)
  · intro hhead
    refine ⟨key, .inl rfl, ?_⟩
    rw [toList_trim_bare h key, Text.trimStart_eq_self hhead]
    exact List.prefix_append _ _

theorem parseKeyed_bare (hcolon : ':' ∉ key.toList)
    (hhead : ∀ c ∈ key.toList.head?, isBlank c = false) :
    parseKeyed key (bare key text) = .ok ⟨unwrap key x⟩ := by
  have htext := toList_trim_bare h key
  rw [Text.trimStart_eq_self hhead] at htext
  refine parseKeyed_of_fragment (not_parses_bare hkey h) ((keyed_bare_iff hkey h).2 hhead) ?_
  rw [afterColon_eq_of_trimmed htext hcolon (Text.trimmed_trim _), h.trimStart_space,
    String.ofList_toList]
  exact h.parse_eq

theorem parseKeyed_bare_ne_ok (hcolon : ':' ∈ key.toList) (s : Selector) :
    parseKeyed key (bare key text) ≠ .ok s := by
  obtain ⟨before, after, hsplit, hbefore⟩ := List.eq_append_cons_of_mem hcolon
  refine parseKeyed_ne_ok (not_parses_bare hkey h) (fun _ ↦ ?_) s
  have htext : (trim (bare key text)).toList =
      trimStart before ++ ':' :: (after ++ ':' :: ' ' :: text.toList) := by
    rw [toList_trim_bare h key, hsplit, Text.trimStart_append_cons (by decide)]
    simp
  have hbefore' : ':' ∉ trimStart before := fun hm ↦ hbefore (Text.trimStart_subset _ hm)
  rw [afterColon_eq_of_trimmed htext hbefore' (Text.trimmed_trim _),
    Text.trimStart_append_cons (by decide)]
  exact Json.not_parses_of_colon String.toList_ofList (quote_notMem_trimStart hkey hsplit)

theorem parseKeyed_bare_iff : parseKeyed key (bare key text) = .ok ⟨x⟩ ↔
    ':' ∉ key.toList ∧ ¬ Wraps key x ∧ ∀ c ∈ key.toList.head?, isBlank c = false := by
  constructor
  · intro hs
    have hcolon : ':' ∉ key.toList := fun hc ↦ parseKeyed_bare_ne_ok hkey h hc _ hs
    have hhead : ∀ c ∈ key.toList.head?, isBlank c = false := by
      rw [← keyed_bare_iff hkey h]
      by_contra hkeyed
      exact parseKeyed_ne_ok (not_parses_bare hkey h) (fun hk ↦ absurd hk hkeyed) _ hs
    rw [parseKeyed_bare hkey h hcolon hhead] at hs
    exact ⟨hcolon, unwrap_eq_self_iff.1 (by simpa using hs), hhead⟩
  · rintro ⟨hcolon, hwraps, hhead⟩
    rw [parseKeyed_bare hkey h hcolon hhead, unwrap_of_not_wraps hwraps]

end

/-- The nested object is always read as the selector, a fragment just when its key has no colon,
a bare key begins with no blank, and the selector wraps no other. -/
theorem parseKeyed_forms {key : String} (hkey : Unescaped key) {x : Object}
    (hi : x.toJson.Integral) (hd : x.toJson.depth ≤ 126) {text : String}
    (htext : text = x.toJson.render ∨ text = x.toJson.renderPretty) :
    parseKeyed key (nested key text) = .ok ⟨x⟩ ∧
      (parseKeyed key (quoted key text) = .ok ⟨x⟩ ↔ ':' ∉ key.toList ∧ ¬ Wraps key x) ∧
      (parseKeyed key (bare key text) = .ok ⟨x⟩ ↔
        ':' ∉ key.toList ∧ ¬ Wraps key x ∧ ∀ c ∈ key.toList.head?, isBlank c = false) := by
  have hlimit : x.toJson.depth < Json.depthLimit := Nat.lt_succ_of_le hd
  have h : Writes text x := by
    obtain rfl | rfl := htext
    · exact writes_render hi hlimit.le
    · exact writes_renderPretty hi hlimit.le
  exact ⟨parseKeyed_nested hkey h hlimit, parseKeyed_quoted_iff hkey h,
    parseKeyed_bare_iff hkey h⟩

def recent : Object := .singleton "year" (.object (.singleton "$gt" (.number (.ofUInt64 2010))))

theorem parseKeyed_forms_recent :
    parseKeyed "selector" (nested "selector" recent.toJson.render) = .ok ⟨recent⟩ ∧
      parseKeyed "selector" (quoted "selector" recent.toJson.render) = .ok ⟨recent⟩ ∧
      parseKeyed "selector" (bare "selector" recent.toJson.render) = .ok ⟨recent⟩ := by
  have hkey : Unescaped "selector" := by decide
  have hwraps : ¬ Wraps "selector" recent := fun ⟨_, he⟩ ↦
    absurd (congrArg NamedMap.names he) (by decide : ["year"] ≠ ["selector"])
  obtain ⟨hnested, hquoted, hbare⟩ :=
    parseKeyed_forms hkey (by decide : recent.toJson.Integral) (by decide) (.inl rfl)
  exact ⟨hnested, hquoted.2 ⟨by decide, hwraps⟩, hbare.2 ⟨by decide, hwraps, by simp [isBlank]⟩⟩

/-- A key with a colon, and a selector that looks like a wrapper. -/
theorem fragment_not_read :
    (∀ s, parseKeyed "a:b" (quoted "a:b" recent.toJson.render) ≠ .ok s) ∧
      parseKeyed "year" (quoted "year" recent.toJson.render) ≠ .ok ⟨recent⟩ := by
  have h : Writes recent.toJson.render recent := writes_render (by decide) (by decide)
  have hwraps : Wraps "year" recent := ⟨_, rfl⟩
  exact ⟨parseKeyed_quoted_ne_ok (by decide) h (by decide),
    fun he ↦ ((parseKeyed_quoted_iff (by decide) h).1 he).2 hwraps⟩

end Selector

end DesignDocs
