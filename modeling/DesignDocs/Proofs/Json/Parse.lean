import DesignDocs.Proofs.Json.Illegible
import DesignDocs.Proofs.Json.Spelling
import DesignDocs.Proofs.Text.Trim

namespace DesignDocs.Json

open Text (Symbol)

theorem Reader.symbols_map {α β : Type} (read : Reader α) (f : α → β) (cs : List Symbol) :
    Reader.symbols (fun s ↦ (read s).map f) cs = (read.symbols cs).map f := by
  rw [symbols, symbols]
  cases read (.ofTokens 0 (Token.scan cs)) with
  | error e => rfl
  | ok a =>
    dsimp only [Except.map_ok]
    cases skipValue (Token.scan cs) with
    | error e => rfl
    | ok ts => cases ts <;> rfl

/-- What is read is the tree that the text spells, repeats merged. -/
theorem parse_eq_ok_iff {s : String} {v : Value} :
    parse s = .ok v ↔ ∃ tree, Spells (Symbol.ofString s) tree ∧ Value.ofJson tree = v := by
  have hparse : parse s = (Reader.symbols Source.tree (Symbol.ofString s)).map Value.ofJson := by
    rw [← Reader.symbols_map]
    rfl
  rw [hparse, Except.map_eq_ok_iff]
  exact exists_congr fun tree ↦ and_congr_left' symbols_tree_eq_ok_iff

theorem parse_of_spells {s : String} {v : Json} (h : Spells (Symbol.ofString s) v)
    (hd : v.Distinct) : parse s = .ok ⟨v, hd⟩ :=
  parse_eq_ok_iff.2 ⟨v, h, Value.ofJson_of_distinct hd⟩

def Parses (s : String) : Prop := ∃ v, parse s = .ok v

section

variable {s : String} {before after : List Char}

theorem Parses.exists_tokens (h : Parses s) :
    ∃ v : Json, Token.scan (symbols s.toList) = v.tokens := by
  obtain ⟨v, hv⟩ := h
  obtain ⟨tree, ⟨htokens, -⟩, -⟩ := parse_eq_ok_iff.1 hv
  exact ⟨tree, htokens⟩

theorem Parses.not_illegible (h : Parses s) : ¬ Illegible (symbols s.toList) := by
  obtain ⟨v, hv⟩ := h.exists_tokens
  rw [Illegible, hv]
  rintro ⟨t, ht, hread⟩
  exact hread (readable_tokens v t ht)

theorem symbols_append_cons (before : List Char) (c : Char) (after : List Char) :
    symbols (before ++ c :: after) = symbols before ++ .char c :: symbols after := by
  simp [symbols]

theorem not_mem_symbols {cs : List Char} {c : Char} (h : c ∉ cs) : .char c ∉ symbols cs := by
  simpa [symbols] using h

theorem not_parses_of_colon (hs : s.toList = before ++ ':' :: after) (hquote : '"' ∉ before) :
    ¬ Parses s := by
  intro h
  obtain ⟨v, hv⟩ := h.exists_tokens
  rw [hs, symbols_append_cons] at hv
  exact scan_ne_tokens_of_colon (not_mem_symbols hquote) v hv

theorem not_parses_of_quote (hs : s.toList = before ++ '"' :: after) (hquote : '"' ∉ before)
    (hafter : ¬ Illegible (symbols after)) : ¬ Parses s := by
  intro h
  refine h.not_illegible ?_
  rw [hs, symbols_append_cons]
  exact (Token.splits_scan_append (not_mem_symbols hquote) (by decide) _).unreadable
    (illegible_quote hafter)

theorem Token.scan_ne_nil {cs : List Symbol} {c : Char} (hmem : .char c ∈ cs)
    (hc : isSpace c = false) : scan cs ≠ [] := by
  fun_induction scan cs with
  | case1 => cases hmem
  | case3 d rest hd ih =>
    obtain he | hmem := List.mem_cons.1 hmem
    · cases he
      exact absurd hd (by simp [hc])
    · exact ih hmem
  | _ => exact List.cons_ne_nil _ _

theorem eq_nil_of_string_cons {o : Outcome String} {ts : List Token} {v : Json}
    (h : .string o :: ts = v.tokens) : ts = [] := by
  unfold tokens at h
  split at h <;> cases h
  rfl

/-- A string is a whole text; only space may follow it. -/
theorem not_parses_of_string {name : String} {c : Char}
    (hs : s.toList = quotedChars name ++ after) (hmem : c ∈ after)
    (hc : Token.isSpace c = false) : ¬ Parses s := by
  intro h
  obtain ⟨v, hv⟩ := h.exists_tokens
  rw [hs, symbols, List.map_append, ← symbols, ← symbols, lexes_string] at hv
  exact Token.scan_ne_nil (List.mem_map_of_mem hmem) hc (eq_nil_of_string_cons hv)

end

theorem illegible_of_start {c : Char} (hspace : Token.isSpace c = false)
    (hmark : Token.mark? c = none) (hquote : c ≠ '"') (hword : Token.word? c = none)
    (hstart : ¬ (c = '-' ∨ c.isDigit)) (cs : List Symbol) : Illegible (.char c :: cs) := by
  have hscan : Token.scan (.char c :: cs) = [.scalar (.broken .noValue)] := by
    rw [Token.scan, if_neg (by simp [hspace]), hmark]
    dsimp only
    rw [if_neg hquote, hword]
    dsimp only
    rw [if_neg (by simpa using hstart)]
  rw [Illegible, hscan]
  exact .broken _

theorem illegible_blank {c : Char} (hblank : Text.isBlank c) (hc : Token.isSpace c = false)
    (cs : List Symbol) : Illegible (.char c :: cs) := by
  refine illegible_of_start hc ?_ ?_ ?_ ?_ cs
  · unfold Token.mark?
    split <;> first | rfl | exact absurd hblank (by decide)
  · rintro rfl
    exact absurd hblank (by decide)
  · unfold Token.word?
    split <;> first | rfl | exact absurd hblank (by decide)
  · rintro (rfl | hdigit)
    · exact absurd hblank (by decide)
    · have hnat : 48 ≤ c.toNat ∧ c.toNat ≤ 57 := by
        simpa [Char.isDigit, UInt32.le_iff_toNat_le] using hdigit
      simp only [Text.isBlank, Bool.or_eq_true, Bool.and_eq_true, decide_eq_true_eq,
        beq_iff_eq] at hblank
      omega

theorem Token.scan_trimStart {cs : List Char} (h : ¬ Illegible (symbols cs)) :
    scan (symbols (Text.trimStart cs)) = scan (symbols cs) := by
  induction cs with
  | nil => rfl
  | cons c cs ih =>
    by_cases hblank : Text.isBlank c
    · by_cases hc : isSpace c
      · have hspace : scan (symbols (c :: cs)) = scan (symbols cs) := lexes_space hc (symbols cs)
        rw [Illegible, hspace] at h
        rw [hspace, ← ih h, Text.trimStart, List.dropWhile_cons_of_pos hblank]
        rfl
      · exact absurd (illegible_blank hblank (by simpa using hc) _) h
    · rw [Text.trimStart, List.dropWhile_cons_of_neg hblank]

theorem parse_trimStart {s : String} (h : Parses s) :
    parse (String.ofList (Text.trimStart s.toList)) = parse s := by
  have hscan := Token.scan_trimStart h.not_illegible
  simp only [parse, Reader.symbols, Symbol.ofString, String.toList_ofList, hscan]

end DesignDocs.Json
