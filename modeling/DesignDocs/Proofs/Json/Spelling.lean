import DesignDocs.Proofs.Json.Reread
import DesignDocs.Proofs.Json.Source

namespace DesignDocs.Json

open Text (Symbol)

/-- The characters have the tokens, whatever follows them. -/
def Lexes (cs : List Char) (ts : List Token) : Prop :=
  ∀ rest, Token.scan (symbols cs ++ rest) = ts ++ Token.scan rest

/-- The characters have the tokens before what may follow a written value. -/
def LexesValue (cs : List Char) (ts : List Token) : Prop :=
  ∀ rest, Follows rest → Token.scan (symbols cs ++ rest) = ts ++ Token.scan rest

/-- The characters may follow a written value. -/
def Continues (cs : List Char) : Prop := ∀ rest, Follows (symbols cs ++ rest)

section

variable {cs cs' : List Char} {ts ts' : List Token}

theorem Lexes.append (h : Lexes cs ts) (h' : Lexes cs' ts') : Lexes (cs ++ cs') (ts ++ ts') := by
  intro rest
  have hrest := h (symbols cs' ++ rest)
  rw [h' rest] at hrest
  simpa [symbols] using hrest

theorem Lexes.appendValue (h : Lexes cs ts) (h' : LexesValue cs' ts') :
    LexesValue (cs ++ cs') (ts ++ ts') := by
  intro rest hf
  have hrest := h (symbols cs' ++ rest)
  rw [h' rest hf] at hrest
  simpa [symbols] using hrest

theorem LexesValue.append (h : LexesValue cs ts) (hc : Continues cs') (h' : Lexes cs' ts') :
    Lexes (cs ++ cs') (ts ++ ts') := by
  intro rest
  have hrest := h (symbols cs' ++ rest) (hc rest)
  rw [h' rest] at hrest
  simpa [symbols] using hrest

theorem Lexes.value (h : Lexes cs ts) : LexesValue cs ts := fun rest _ ↦ h rest

end

theorem lexes_mark {c : Char} {t : Token} (hs : Token.isSpace c = false)
    (h : Token.mark? c = some t) : Lexes [c] [t] := by
  intro rest
  change Token.scan (.char c :: rest) = _
  rw [Token.scan, if_neg (by simp [hs]), h]
  rfl

theorem lexes_space {c : Char} (h : Token.isSpace c) : Lexes [c] [] := by
  intro rest
  change Token.scan (.char c :: rest) = _
  rw [Token.scan, if_pos h]
  rfl

theorem lexes_newline (level : Nat) : Lexes (newline level) [] := by
  have hspaces : ∀ n, Lexes (List.replicate n ' ') [] := by
    intro n
    induction n with
    | zero => exact fun rest ↦ rfl
    | succ n ih => exact (lexes_space (by decide)).append ih
  exact (lexes_space (by decide)).append (hspaces _)

theorem lexes_null : Lexes ['n', 'u', 'l', 'l'] [.scalar (.sound .null)] := by
  intro rest
  change Token.scan (.char 'n' :: .char 'u' :: .char 'l' :: .char 'l' :: rest) = _
  rw [Token.scan]
  simp [Token.isSpace, Token.mark?, Token.word?, Token.afterWord]

theorem lexes_bool (b : Bool) : Lexes (boolChars b) [.scalar (.sound (.bool b))] := by
  intro rest
  cases b with
  | true =>
    change Token.scan (.char 't' :: .char 'r' :: .char 'u' :: .char 'e' :: rest) = _
    rw [Token.scan]
    simp [Token.isSpace, Token.mark?, Token.word?, Token.afterWord]
  | false =>
    change Token.scan (.char 'f' :: .char 'a' :: .char 'l' :: .char 's' :: .char 'e' :: rest) = _
    rw [Token.scan]
    simp [Token.isSpace, Token.mark?, Token.word?, Token.afterWord]

theorem lexes_string (s : String) : Lexes (quotedChars s) [.string (.sound s)] := by
  intro rest
  have hscan := Quoted.scan_quoted s.toList rest
  change Token.scan (.char '"' :: (symbols (s.toList.flatMap escaped ++ ['"']) ++ rest)) = _
  rw [Token.scan, if_neg (by decide)]
  simp only [Token.mark?, ↓reduceIte]
  rw [hscan, Token.ofQuoted, Quoted.read_pieceOf]
  rfl

theorem scan_numeral {c : Char} {cs rest : List Symbol} {n : Numeral} (hc : c = '-' ∨ c.isDigit)
    (h : Numeral.scan (.char c :: cs) = .ok (n, rest)) :
    Token.scan (.char c :: cs) = Token.ofNumeral n :: Token.scan rest := by
  have hspace : Token.isSpace c = false := by
    obtain rfl | hd := hc
    · rfl
    · refine Bool.eq_false_iff.2 fun hs ↦ ?_
      simp only [Token.isSpace, Bool.or_eq_true, beq_iff_eq] at hs
      obtain ((rfl | rfl) | rfl) | rfl := hs <;> exact absurd hd (by decide)
  have hmark : Token.mark? c = none := by
    obtain rfl | hd := hc
    · rfl
    · unfold Token.mark?
      split <;> first | rfl | exact absurd hd (by decide)
  have hword : Token.word? c = none := by
    obtain rfl | hd := hc
    · rfl
    · unfold Token.word?
      split <;> first | rfl | exact absurd hd (by decide)
  have hquote : c ≠ '"' := by
    rintro rfl
    obtain he | hd := hc
    · exact absurd he (by decide)
    · exact absurd hd (by decide)
  have hstart : (decide (c = '-') || c.isDigit) = true := by simpa using hc
  rw [Token.scan, if_neg (by simp [hspace]), hmark]
  dsimp only
  rw [if_neg hquote]
  split
  · next he =>
    rw [hword] at he
    cases he
  · rw [if_pos hstart]
    split
    · next he =>
      rw [h] at he
      cases he
      rfl
    · next he =>
      rw [h] at he
      cases he

theorem lexesValue_number (n : Number) :
    LexesValue n.text.toList [.scalar (.sound (.number n.reread))] := by
  intro rest hf
  obtain ⟨t, ht, hchars, m, hm⟩ := n.exists_text
  obtain ⟨c, cs, hcs, hc⟩ := NumberText.exists_chars_eq_cons ht
  have hscan := NumberText.scan_chars ht hf
  have htoken : Token.ofNumeral t.numeral = .scalar (.sound (.number n.reread)) := by
    rw [Token.ofNumeral, Number.reread_eq ht hchars hm, hm]
  rw [← hchars]
  rw [hcs, symbols, List.map_cons, List.cons_append] at hscan ⊢
  rw [scan_numeral hc hscan, htoken]
  rfl

theorem continues_mark {c : Char} (cs : List Char) (h : Follows [.char c]) :
    Continues (c :: cs) := fun _ ↦ h

theorem continues_charsItems (vs : List Json) : Continues (charsItems vs) := by
  cases vs <;> exact continues_mark _ (by simp [Follows])

theorem continues_charsMembers (ms : List (String × Json)) : Continues (charsMembers ms) := by
  cases ms with
  | nil => exact continues_mark _ (by simp [Follows])
  | cons p ms => exact continues_mark _ (by simp [Follows])

theorem lexes_charsItems {vs : List Json} (h : ∀ v ∈ vs, LexesValue v.chars v.reread.tokens) :
    Lexes (charsItems vs) (tokensItems (rereadItems vs)) := by
  induction vs with
  | nil => exact lexes_mark (by decide) rfl
  | cons v vs ih =>
    obtain ⟨hv, hvs⟩ := List.forall_mem_cons.1 h
    exact (lexes_mark (by decide) rfl : Lexes [','] [.comma]).append
      (hv.append (continues_charsItems vs) (ih hvs))

theorem lexes_member {k : String} {value cs : List Char} {vs ts : List Token}
    (hv : LexesValue value vs) (hc : Continues cs) (h : Lexes cs ts) :
    Lexes (quotedChars k ++ ':' :: value ++ cs)
      (.string (.sound k) :: .colon :: (vs ++ ts)) := by
  have hcolon : Lexes [':'] [.colon] := lexes_mark (by decide) rfl
  simpa using (lexes_string k).append (hcolon.append (hv.append hc h))

theorem lexes_charsMembers {ms : List (String × Json)}
    (h : ∀ p ∈ ms, LexesValue p.2.chars p.2.reread.tokens) :
    Lexes (charsMembers ms) (tokensMembers (rereadMembers ms)) := by
  induction ms with
  | nil => exact lexes_mark (by decide) rfl
  | cons p ms ih =>
    obtain ⟨k, v⟩ := p
    obtain ⟨hv, hms⟩ := List.forall_mem_cons.1 h
    have hcomma : Lexes [','] [.comma] := lexes_mark (by decide) rfl
    simpa [charsMembers, rereadMembers, tokensMembers] using
      hcomma.append (lexes_member (k := k) hv (continues_charsMembers ms) (ih hms))

theorem lexesValue_chars_reread (v : Json) : LexesValue v.chars v.reread.tokens := by
  induction v using induct with
  | null => exact lexes_null.value
  | bool b => exact (lexes_bool b).value
  | number n => exact lexesValue_number n
  | string s => exact (lexes_string s).value
  | array items ih =>
    have hopen : Lexes ['['] [.openBracket] := lexes_mark (by decide) rfl
    cases items with
    | nil => exact (hopen.append (lexes_mark (by decide) rfl : Lexes [']'] [.closeBracket])).value
    | cons v vs =>
      obtain ⟨hv, hvs⟩ := List.forall_mem_cons.1 ih
      simpa [chars, reread, rereadItems, tokens] using
        (hopen.append (hv.append (continues_charsItems vs) (lexes_charsItems hvs))).value
  | object members ih =>
    have hopen : Lexes ['{'] [.openBrace] := lexes_mark (by decide) rfl
    cases members with
    | nil => exact (hopen.append (lexes_mark (by decide) rfl : Lexes ['}'] [.closeBrace])).value
    | cons p ms =>
      obtain ⟨k, v⟩ := p
      obtain ⟨hv, hms⟩ := List.forall_mem_cons.1 ih
      have hmembers := lexes_member (k := k) hv (continues_charsMembers ms) (lexes_charsMembers hms)
      simpa [chars, reread, rereadMembers, tokens] using (hopen.append hmembers).value

theorem lexesValue_chars {v : Json} (hi : v.Integral) : LexesValue v.chars v.tokens := by
  have h := lexesValue_chars_reread v
  rwa [reread_of_integral hi] at h

theorem continues_prettyItems (level : Nat) (vs : List Json) :
    Continues (prettyItems level vs) := by
  cases vs <;> exact continues_mark _ (by simp [Follows])

theorem continues_prettyMembers (level : Nat) (ms : List (String × Json)) :
    Continues (prettyMembers level ms) := by
  cases ms with
  | nil => exact continues_mark _ (by simp [Follows])
  | cons p ms => exact continues_mark _ (by simp [Follows])

theorem lexes_prettyItems (level : Nat) {vs : List Json}
    (h : ∀ v ∈ vs, ∀ level, LexesValue (v.prettyChars level) v.reread.tokens) :
    Lexes (prettyItems level vs) (tokensItems (rereadItems vs)) := by
  induction vs with
  | nil => exact (lexes_newline level).append (lexes_mark (by decide) rfl)
  | cons v vs ih =>
    obtain ⟨hv, hvs⟩ := List.forall_mem_cons.1 h
    have hcomma : Lexes [','] [.comma] := lexes_mark (by decide) rfl
    have hitem := (hv (level + 1)).append (continues_prettyItems level vs) (ih hvs)
    simpa [prettyItems, rereadItems, tokensItems] using
      hcomma.append ((lexes_newline (level + 1)).append hitem)

theorem lexes_prettyMembers (level : Nat) {ms : List (String × Json)}
    (h : ∀ p ∈ ms, ∀ level, LexesValue (p.2.prettyChars level) p.2.reread.tokens) :
    Lexes (prettyMembers level ms) (tokensMembers (rereadMembers ms)) := by
  induction ms with
  | nil => exact (lexes_newline level).append (lexes_mark (by decide) rfl)
  | cons p ms ih =>
    obtain ⟨k, v⟩ := p
    obtain ⟨hv, hms⟩ := List.forall_mem_cons.1 h
    have hcomma : Lexes [','] [.comma] := lexes_mark (by decide) rfl
    have hvalue : LexesValue (' ' :: v.prettyChars (level + 1)) v.reread.tokens :=
      (lexes_space (by decide)).appendValue (hv (level + 1))
    have hmember := lexes_member (k := k) hvalue (continues_prettyMembers level ms) (ih hms)
    simpa [prettyMembers, rereadMembers, tokensMembers] using
      hcomma.append ((lexes_newline (level + 1)).append hmember)

theorem lexesValue_prettyChars_reread (v : Json) (level : Nat) :
    LexesValue (v.prettyChars level) v.reread.tokens := by
  induction v using induct generalizing level with
  | null => exact lexes_null.value
  | bool b => exact (lexes_bool b).value
  | number n => exact lexesValue_number n
  | string s => exact (lexes_string s).value
  | array items ih =>
    have hopen : Lexes ['['] [.openBracket] := lexes_mark (by decide) rfl
    cases items with
    | nil => exact (hopen.append (lexes_mark (by decide) rfl : Lexes [']'] [.closeBracket])).value
    | cons v vs =>
      obtain ⟨hv, hvs⟩ := List.forall_mem_cons.1 ih
      have hitems := (hv (level + 1)).append (continues_prettyItems level vs)
        (lexes_prettyItems level hvs)
      simpa [prettyChars, reread, rereadItems, tokens] using
        (hopen.append ((lexes_newline (level + 1)).append hitems)).value
  | object members ih =>
    have hopen : Lexes ['{'] [.openBrace] := lexes_mark (by decide) rfl
    cases members with
    | nil => exact (hopen.append (lexes_mark (by decide) rfl : Lexes ['}'] [.closeBrace])).value
    | cons p ms =>
      obtain ⟨k, v⟩ := p
      obtain ⟨hv, hms⟩ := List.forall_mem_cons.1 ih
      have hvalue : LexesValue (' ' :: v.prettyChars (level + 1)) v.reread.tokens :=
        (lexes_space (by decide)).appendValue (hv (level + 1))
      have hmembers := lexes_member (k := k) hvalue (continues_prettyMembers level ms)
        (lexes_prettyMembers level hms)
      simpa [prettyChars, reread, rereadMembers, tokens] using
        (hopen.append ((lexes_newline (level + 1)).append hmembers)).value

theorem lexesValue_prettyChars {v : Json} (hi : v.Integral) (level : Nat) :
    LexesValue (v.prettyChars level) v.tokens := by
  have h := lexesValue_prettyChars_reread v level
  rwa [reread_of_integral hi] at h

theorem spells_of_lexes {cs : List Char} {v : Json} (h : LexesValue cs v.tokens)
    (hd : v.depth ≤ depthLimit) : Spells (Symbol.ofString (String.ofList cs)) v := by
  refine ⟨?_, hd⟩
  have hscan := h [] trivial
  simpa [Symbol.ofString, Token.scan] using hscan

/-- What a text is read as, floats included. -/
theorem spells_render_reread {v : Json} (hd : v.depth ≤ depthLimit) :
    Spells (Symbol.ofString v.render) v.reread :=
  spells_of_lexes (lexesValue_chars_reread v) (by rwa [depth_reread])

theorem spells_renderPretty_reread {v : Json} (hd : v.depth ≤ depthLimit) :
    Spells (Symbol.ofString v.renderPretty) v.reread :=
  spells_of_lexes (lexesValue_prettyChars_reread v 0) (by rwa [depth_reread])

theorem spells_render {v : Json} (hi : v.Integral) (hd : v.depth ≤ depthLimit) :
    Spells (Symbol.ofString v.render) v := spells_of_lexes (lexesValue_chars hi) hd

theorem spells_renderPretty {v : Json} (hi : v.Integral) (hd : v.depth ≤ depthLimit) :
    Spells (Symbol.ofString v.renderPretty) v := spells_of_lexes (lexesValue_prettyChars hi 0) hd

end DesignDocs.Json
