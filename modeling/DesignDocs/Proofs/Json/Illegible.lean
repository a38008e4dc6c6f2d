import DesignDocs.Proofs.Json.Lexeme
import DesignDocs.Proofs.Json.Source

namespace DesignDocs.Json

open Text (Symbol)

namespace Token

def Readable : Token → Prop
  | scalar o => ∃ a, o.read = .ok a
  | string o => ∃ s, o.read = .ok s
  | _ => True

def isString : Token → Bool
  | string _ => true
  | _ => false

theorem not_readable_broken (f : FormFault) : ¬ (scalar (.broken f)).Readable :=
  fun ⟨_, h⟩ ↦ nomatch h

end Token

mutual

theorem readable_tokens : ∀ v : Json, ∀ t ∈ v.tokens, t.Readable
  | .null | .bool _ | .number _ | .string _ => List.forall_mem_singleton.2 ⟨_, rfl⟩
  | .array [] | .object [] =>
    List.forall_mem_cons.2 ⟨trivial, List.forall_mem_singleton.2 trivial⟩
  | .array (v :: vs) => List.forall_mem_cons.2
    ⟨trivial, List.forall_mem_append.2 ⟨readable_tokens v, readable_tokensItems vs⟩⟩
  | .object ((_, v) :: ms) => List.forall_mem_cons.2 ⟨trivial, List.forall_mem_cons.2 ⟨⟨_, rfl⟩,
    List.forall_mem_cons.2
      ⟨trivial, List.forall_mem_append.2 ⟨readable_tokens v, readable_tokensMembers ms⟩⟩⟩⟩

theorem readable_tokensItems : ∀ vs : List Json, ∀ t ∈ tokensItems vs, t.Readable
  | [] => List.forall_mem_singleton.2 trivial
  | v :: vs => List.forall_mem_cons.2
    ⟨trivial, List.forall_mem_append.2 ⟨readable_tokens v, readable_tokensItems vs⟩⟩

theorem readable_tokensMembers : ∀ ms : List (String × Json), ∀ t ∈ tokensMembers ms, t.Readable
  | [] => List.forall_mem_singleton.2 trivial
  | (_, v) :: ms => List.forall_mem_cons.2 ⟨trivial, List.forall_mem_cons.2 ⟨⟨_, rfl⟩,
    List.forall_mem_cons.2
      ⟨trivial, List.forall_mem_append.2 ⟨readable_tokens v, readable_tokensMembers ms⟩⟩⟩⟩

end

def beforeString (ts : List Token) : List Token := ts.takeWhile (!·.isString)

theorem colon_notMem_beforeString_append {ts ts' : List Token} (h : .colon ∉ beforeString ts)
    (h' : .colon ∉ beforeString ts') : .colon ∉ beforeString (ts ++ ts') := by
  rw [beforeString, List.takeWhile_append]
  split
  · next hall =>
    have hts : ts.takeWhile (!·.isString) = ts :=
      (List.takeWhile_prefix _).eq_of_length hall
    rw [beforeString, hts] at h
    rw [List.mem_append, not_or]
    exact ⟨h, h'⟩
  · exact h

mutual

theorem colon_notMem_tokens : ∀ v : Json, .colon ∉ beforeString v.tokens
  | .null | .bool _ | .number _ | .string _ | .array [] | .object [] | .object (_ :: _) => by
    simp [tokens, beforeString, Token.isString]
  | .array (v :: vs) => by
    have h := colon_notMem_beforeString_append (colon_notMem_tokens v) (colon_notMem_tokensItems vs)
    simpa [tokens, beforeString, Token.isString] using h

theorem colon_notMem_tokensItems : ∀ vs : List Json, .colon ∉ beforeString (tokensItems vs)
  | [] => by simp [tokensItems, beforeString, Token.isString]
  | v :: vs => by
    have h := colon_notMem_beforeString_append (colon_notMem_tokens v) (colon_notMem_tokensItems vs)
    simpa [tokensItems, beforeString, Token.isString] using h

end

/-- A colon in the tokens of a tree comes after a string. -/
theorem exists_string_of_tokens {v : Json} {ts rest : List Token}
    (h : v.tokens = ts ++ .colon :: rest) : ∃ t ∈ ts, t.isString := by
  by_contra hnone
  have hall : ∀ t ∈ ts, (!t.isString) = true := by simpa using hnone
  have hcolon := colon_notMem_tokens v
  rw [h, beforeString, List.takeWhile_append_of_pos hall] at hcolon
  exact hcolon (by simp [Token.isString])

/-- Characters of which words and numerals are made. -/
def inScalar (c : Char) : Bool := c.isAlphanum || c == '-' || c == '+' || c == '.'

/-- What was taken off the head are characters of words and numerals. -/
def Takes (cs rest : List Symbol) : Prop :=
  ∃ ds : List Char, cs = symbols ds ++ rest ∧ ∀ c ∈ ds, inScalar c

namespace Takes

variable {cs cs' cs'' : List Symbol} {c : Char} {ds : List Nat}

theorem refl (cs : List Symbol) : Takes cs cs := ⟨[], rfl, nofun⟩

theorem cons (hc : inScalar c) (h : Takes cs cs') : Takes (.char c :: cs) cs' := by
  obtain ⟨ds, rfl, hds⟩ := h
  exact ⟨c :: ds, rfl, List.forall_mem_cons.2 ⟨hc, hds⟩⟩

theorem trans (h : Takes cs cs') (h' : Takes cs' cs'') : Takes cs cs'' := by
  obtain ⟨ds, rfl, hds⟩ := h
  obtain ⟨es, rfl, hes⟩ := h'
  exact ⟨ds ++ es, by simp [symbols], List.forall_mem_append.2 ⟨hds, hes⟩⟩

theorem afterWord {ws : List Char} (hws : ∀ w ∈ ws, inScalar w)
    (h : Token.afterWord ws cs = .ok cs') : Takes cs cs' := by
  induction ws generalizing cs with
  | nil =>
    cases h
    exact refl _
  | cons w ws ih =>
    obtain ⟨hw, hws⟩ := List.forall_mem_cons.1 hws
    cases cs with
    | nil => cases h
    | cons s cs =>
      rw [Token.afterWord] at h
      split at h
      · next hs => exact hs ▸ cons hw (ih hws h)
      · cases h

theorem of_digit? {s : Symbol} {d : Nat} (hs : digit? s = some d) (h : Takes cs cs') :
    Takes (s :: cs) cs' := by
  cases s with
  | stray b => cases hs
  | char c =>
    rw [digit?] at hs
    split at hs
    · next hd => exact cons (by simp [inScalar, Char.isAlphanum, hd]) h
    · cases hs

theorem takeDigits (cs : List Symbol) : Takes cs (takeDigits cs).2 := by
  induction cs with
  | nil => exact refl []
  | cons s cs ih =>
    rw [Json.takeDigits]
    split
    · next hd => exact of_digit? hd ih
    · exact refl _

theorem takeSign (cs : List Symbol) : Takes cs (Numeral.takeSign cs).2 := by
  unfold Numeral.takeSign
  split
  · exact cons (by decide) (refl _)
  · exact refl _

theorem scanWhole (h : Numeral.scanWhole cs = .ok (ds, cs')) : Takes cs cs' := by
  unfold Numeral.scanWhole at h
  split at h
  · cases h
  · split at h
    · cases h
    · next hd =>
      split at h
      · cases h
        exact of_digit? hd (refl _)
      · split at h <;> cases h
        exact of_digit? hd (refl _)
    · next hd =>
      cases h
      exact of_digit? hd (takeDigits _)

theorem scanDigits (h : Numeral.scanDigits cs = .ok (ds, cs')) : Takes cs cs' := by
  have htake := takeDigits cs
  unfold Numeral.scanDigits at h
  split at h
  · cases h
  · next he =>
    cases h
    rwa [he] at htake

theorem scanFraction {ds : Option (List Nat)} (h : Numeral.scanFraction cs = .ok (ds, cs')) :
    Takes cs cs' := by
  unfold Numeral.scanFraction at h
  split at h
  · obtain ⟨⟨ds, rest⟩, hdigits, h⟩ := Except.bind_eq_ok_iff.1 h
    cases h
    exact cons (by decide) (scanDigits hdigits)
  · cases h
    exact refl _

theorem takeExponentSign (cs : List Symbol) : Takes cs (Numeral.takeExponentSign cs).2 := by
  unfold Numeral.takeExponentSign
  split
  · exact cons (by decide) (refl _)
  · exact cons (by decide) (refl _)
  · exact refl _

theorem scanExponent {e : Option Exponent} (h : Numeral.scanExponent cs = .ok (e, cs')) :
    Takes cs cs' := by
  unfold Numeral.scanExponent at h
  split at h
  · cases h
    exact refl _
  · next s cs =>
    split at h
    · next hs =>
      obtain ⟨⟨ds, rest⟩, hdigits, h⟩ := Except.bind_eq_ok_iff.1 h
      cases h
      have htake := (takeExponentSign cs).trans (scanDigits hdigits)
      obtain rfl | rfl := hs <;> exact cons (by decide) htake
    · cases h
      exact refl _

theorem numeral {n : Numeral} (h : Numeral.scan cs = .ok (n, cs')) : Takes cs cs' := by
  obtain ⟨⟨whole, afterWhole⟩, hwhole, h⟩ := Except.bind_eq_ok_iff.1 h
  obtain ⟨⟨fraction, afterFraction⟩, hfraction, h⟩ := Except.bind_eq_ok_iff.1 h
  obtain ⟨⟨exponent, afterExponent⟩, hexponent, h⟩ := Except.bind_eq_ok_iff.1 h
  cases h
  exact (takeSign cs).trans
    ((scanWhole hwhole).trans ((scanFraction hfraction).trans (scanExponent hexponent)))

theorem subset (h : Takes cs cs') : cs' ⊆ cs := by
  obtain ⟨ds, rfl, -⟩ := h
  exact List.subset_append_right _ _

theorem of_append {tail rest : List Symbol} (hc : inScalar c = false)
    (h : Takes (cs ++ .char c :: tail) rest) :
    ∃ cs', Takes cs cs' ∧ rest = cs' ++ .char c :: tail := by
  obtain ⟨ds, he, hds⟩ := h
  obtain ⟨mid, hmid, hrest⟩ | ⟨mid, hmid, hrest⟩ := List.append_eq_append_iff.1 he
  · cases mid with
    | nil => exact ⟨[], ⟨ds, by simpa using hmid.symm, hds⟩, hrest.symm⟩
    | cons s mid =>
      rw [List.cons_append, List.cons.injEq] at hrest
      obtain ⟨rfl, -⟩ := hrest
      have hmem : .char c ∈ symbols ds := by simp [hmid]
      obtain ⟨d, hd, hdc⟩ := List.mem_map.1 hmem
      cases hdc
      exact absurd (hds c hd) (by simp [hc])
  · exact ⟨mid, ⟨ds, hmid, hds⟩, hrest⟩

theorem word {tail : List Char} {value : Scalar} (hw : Token.word? c = some (tail, value))
    (h : Token.afterWord tail cs = .ok cs') : Takes (.char c :: cs) cs' := by
  have hletters : inScalar c ∧ tail.all inScalar := by
    unfold Token.word? at hw
    split at hw <;> cases hw <;> decide
  exact cons hletters.1 (afterWord (List.all_eq_true.1 hletters.2) h)

end Takes

/-- Some token cannot be read. -/
def Unreadable (ts : List Token) : Prop := ∃ t ∈ ts, ¬ t.Readable

abbrev Illegible (cs : List Symbol) : Prop := Unreadable (Token.scan cs)

theorem Unreadable.cons {ts : List Token} (h : Unreadable ts) (t : Token) :
    Unreadable (t :: ts) := by
  obtain ⟨u, hu, hread⟩ := h
  exact ⟨u, List.mem_cons_of_mem t hu, hread⟩

theorem Unreadable.append {ts : List Token} (h : Unreadable ts) (before : List Token) :
    Unreadable (before ++ ts) := by
  obtain ⟨u, hu, hread⟩ := h
  exact ⟨u, List.mem_append_right before hu, hread⟩

theorem Unreadable.broken (f : FormFault) : Unreadable [.scalar (.broken f)] :=
  ⟨_, List.mem_cons_self, Token.not_readable_broken f⟩

theorem Unreadable.brokenNumeral (rest : List Symbol) :
    Unreadable [Token.ofBrokenNumeral rest] :=
  ⟨_, List.mem_cons_self, fun ⟨_, h⟩ ↦ nomatch h⟩

/-- The tokens begin with others, none of them a string, before the rest, or are unreadable. -/
def Splits (ts rest : List Token) : Prop :=
  (∃ before, (∀ t ∈ before, ¬ t.isString) ∧ ts = before ++ rest) ∨ Unreadable ts

namespace Splits

theorem refl (ts : List Token) : Splits ts ts := .inl ⟨[], by simp, rfl⟩

theorem cons {ts rest : List Token} (h : Splits ts rest) {t : Token} (ht : ¬ t.isString) :
    Splits (t :: ts) rest := by
  obtain ⟨before, hbefore, rfl⟩ | h := h
  · exact .inl ⟨t :: before, List.forall_mem_cons.2 ⟨ht, hbefore⟩, rfl⟩
  · exact .inr (h.cons t)

theorem unreadable {ts rest : List Token} (h : Splits ts rest) (hrest : Unreadable rest) :
    Unreadable ts := by
  obtain ⟨before, -, rfl⟩ | h := h
  · exact hrest.append before
  · exact h

theorem of_ne_nil {cs rest : List Symbol}
    (h : cs ≠ [] → Splits (Token.scan (cs ++ rest)) (Token.scan rest)) :
    Splits (Token.scan (cs ++ rest)) (Token.scan rest) := by
  cases cs with
  | nil => exact refl _
  | cons s cs => exact h (List.cons_ne_nil s cs)

end Splits

theorem Token.not_isString_of_mark {c : Char} {t : Token} (h : mark? c = some t) :
    ¬ t.isString := by
  unfold mark? at h
  split at h <;> cases h <;> decide

theorem Token.not_isString_ofNumeral (n : Numeral) : ¬ (ofNumeral n).isString := by
  rw [ofNumeral]
  split <;> exact Bool.false_ne_true

/-- A part without quotation marks is split into tokens apart from what follows it. -/
theorem Token.splits_scan_append {cs : List Symbol} {c : Char} (hquote : .char '"' ∉ cs)
    (hc : inScalar c = false) (rest : List Symbol) :
    Splits (scan (cs ++ .char c :: rest)) (scan (.char c :: rest)) := by
  refine Splits.of_ne_nil fun hne ↦ ?_
  generalize hinput : cs ++ .char c :: rest = input
  fun_induction Token.scan input generalizing cs with
  | case1 => cases cs <;> cases hinput
  | case2 | case7 | case10 => exact .inr (.broken _)
  | case3 d tail hd ih =>
    obtain ⟨s, cs, rfl⟩ := List.exists_cons_of_ne_nil hne
    cases hinput
    exact .of_ne_nil fun hne ↦ ih (fun h ↦ hquote (List.mem_cons_of_mem _ h)) hne rfl
  | case4 d tail hd t ht ih =>
    obtain ⟨s, cs, rfl⟩ := List.exists_cons_of_ne_nil hne
    cases hinput
    have hrest : Splits (scan (cs ++ .char c :: rest)) (scan (.char c :: rest)) :=
      .of_ne_nil fun hne ↦ ih (fun h ↦ hquote (List.mem_cons_of_mem _ h)) hne rfl
    exact hrest.cons (not_isString_of_mark ht)
  | case5 tail =>
    obtain ⟨s, cs, rfl⟩ := List.exists_cons_of_ne_nil hne
    cases hinput
    exact absurd List.mem_cons_self hquote
  | case6 d tail hd ht hq word value hw after hafter ih =>
    obtain ⟨cs', htakes, rfl⟩ := Takes.of_append hc (hinput ▸ Takes.word hw hafter)
    have hrest : Splits (scan (cs' ++ .char c :: rest)) (scan (.char c :: rest)) :=
      .of_ne_nil fun hne ↦ ih (fun h ↦ hquote (htakes.subset h)) hne rfl
    exact hrest.cons Bool.false_ne_true
  | case8 d tail hd ht hq hw hn n after hscan ih =>
    obtain ⟨cs', htakes, rfl⟩ := Takes.of_append hc (hinput ▸ Takes.numeral hscan)
    have hrest : Splits (scan (cs' ++ .char c :: rest)) (scan (.char c :: rest)) :=
      .of_ne_nil fun hne ↦ ih (fun h ↦ hquote (htakes.subset h)) hne rfl
    exact hrest.cons (not_isString_ofNumeral n)
  | case9 => exact .inr (.brokenNumeral _)

/-- A text that has a colon before its first quotation mark spells no tree. -/
theorem scan_ne_tokens_of_colon {cs rest : List Symbol} (hquote : .char '"' ∉ cs) (v : Json) :
    Token.scan (cs ++ .char ':' :: rest) ≠ v.tokens := by
  intro h
  have hsplits := Token.splits_scan_append hquote (c := ':') (by decide) rest
  rw [h] at hsplits
  obtain ⟨before, hbefore, he⟩ | ⟨t, ht, hread⟩ := hsplits
  · have hcolon : Token.scan (.char ':' :: rest) = .colon :: Token.scan rest := by
      rw [Token.scan]
      rfl
    rw [hcolon] at he
    obtain ⟨t, ht, hstring⟩ := exists_string_of_tokens he
    exact hbefore t ht hstring
  · exact hread (readable_tokens v t ht)

namespace Quoted

theorem scan_cons {s : Symbol} (hquote : s ≠ .char '"') (hbackslash : s ≠ .char '\\')
    (cs : List Symbol) : scan (s :: cs) =
      if isControl s then ⟨[], .control, []⟩ else (scan cs).cons (.plain s) := by
  rw [scan.eq_def]
  split <;> simp_all

/-- Up to the end of a string, or to its first escape, stands no quotation mark. -/
theorem exists_of_closing {cs : List Symbol} (h : (scan cs).closing = .quote) :
    ∃ before, .char '"' ∉ before ∧ (cs = before ++ .char '"' :: (scan cs).rest ∨
      ∃ after, cs = before ++ .char '\\' :: after) := by
  induction cs with
  | nil => cases h
  | cons s cs ih =>
    by_cases hquote : s = .char '"'
    · subst hquote
      exact ⟨[], List.not_mem_nil, .inl rfl⟩
    by_cases hbackslash : s = .char '\\'
    · exact ⟨[], List.not_mem_nil, .inr ⟨cs, by rw [hbackslash]; rfl⟩⟩
    rw [scan_cons hquote hbackslash] at h ⊢
    split at h
    · cases h
    · next hcontrol =>
      rw [if_neg hcontrol]
      obtain ⟨before, hbefore, he⟩ := ih h
      refine ⟨s :: before, by simp [hbefore, Ne.symm hquote], ?_⟩
      obtain he | ⟨after, he⟩ := he
      · exact .inl (congrArg (s :: ·) he)
      · exact .inr ⟨after, congrArg (s :: ·) he⟩

theorem closing_of_readable {scanned : Scan} (h : (Token.ofQuoted scanned).Readable) :
    scanned.closing = .quote := by
  obtain ⟨text, htext⟩ := h
  change scanned.read = .ok text at htext
  rw [Scan.read] at htext
  split at htext
  · cases htext
  · next symbols hsymbols =>
    have hfault := closing_of_assemble hsymbols
    cases hclosing : scanned.closing with
    | quote => rfl
    | _ =>
      rw [hclosing] at hfault
      cases hfault

theorem readable_of_cons {scanned : Scan} {s : Symbol}
    (h : (Token.ofQuoted (scanned.cons (.plain s))).Readable) :
    (Token.ofQuoted scanned).Readable := by
  obtain ⟨text, htext⟩ := h
  change (scanned.cons (.plain s)).read = .ok text at htext
  rw [Scan.read, Scan.cons, assemble] at htext
  cases hsymbols : assemble scanned.closing scanned.pieces with
  | error f =>
    rw [hsymbols] at htext
    cases htext
  | ok symbols =>
    rw [hsymbols] at htext
    dsimp only [Except.map_ok] at htext
    cases s with
    | stray b => cases htext
    | char c =>
      rw [characters?] at htext
      cases hcharacters : characters? symbols with
      | none =>
        rw [hcharacters] at htext
        cases htext
      | some cs =>
        refine ⟨String.ofList cs, ?_⟩
        change scanned.read = _
        rw [Scan.read, hsymbols]
        dsimp only
        rw [hcharacters]

end Quoted

theorem Token.scan_quote (cs : List Symbol) : scan (.char '"' :: cs) =
    ofQuoted (Quoted.scan cs) :: scan (Quoted.scan cs).rest := by
  rw [scan]
  rfl

theorem illegible_quote_cons {s : Symbol} {cs : List Symbol} (hquote : s ≠ .char '"')
    (hbackslash : s ≠ .char '\\') (h : Illegible (.char '"' :: cs)) :
    Illegible (.char '"' :: s :: cs) := by
  rw [Illegible, Token.scan_quote, Quoted.scan_cons hquote hbackslash]
  split
  · exact ⟨_, List.mem_cons_self, fun h ↦ by cases Quoted.closing_of_readable h⟩
  · rw [Illegible, Token.scan_quote] at h
    obtain ⟨t, ht, hread⟩ := h
    obtain rfl | ht := List.mem_cons.1 ht
    · exact ⟨_, List.mem_cons_self, fun h ↦ hread (Quoted.readable_of_cons h)⟩
    · exact ⟨t, List.mem_cons_of_mem _ ht, hread⟩

theorem illegible_quote_takes {cs cs' : List Symbol} (htakes : Takes cs cs')
    (h : Illegible (.char '"' :: cs')) : Illegible (.char '"' :: cs) := by
  obtain ⟨ds, rfl, hds⟩ := htakes
  induction ds with
  | nil => exact h
  | cons d ds ih =>
    obtain ⟨hd, hds⟩ := List.forall_mem_cons.1 hds
    refine illegible_quote_cons ?_ ?_ (ih hds)
    all_goals
      rintro ⟨⟩
      exact absurd hd (by decide)

/-- A string that is opened before a legible text is closed where its first string opens, and so
forth, so that the last one stays open. -/
theorem illegible_quote {cs : List Symbol} : ¬ Illegible cs → Illegible (.char '"' :: cs) := by
  change ¬ Unreadable (Token.scan cs) → _
  fun_induction Token.scan cs with
  | case1 =>
    intro _
    rw [Illegible, Token.scan_quote]
    exact ⟨_, List.mem_cons_self, fun h ↦ by cases Quoted.closing_of_readable h⟩
  | case2 | case7 | case10 => exact fun h ↦ absurd (.broken _) h
  | case9 => exact fun h ↦ absurd (.brokenNumeral _) h
  | case3 c tail hc ih =>
    intro h
    refine illegible_quote_cons ?_ ?_ (ih h)
    all_goals
      rintro ⟨⟩
      exact absurd hc (by decide)
  | case4 c tail hc t ht ih =>
    intro h
    refine illegible_quote_cons ?_ ?_ (ih fun hu ↦ h (hu.cons t))
    all_goals
      rintro ⟨⟩
      cases ht
  | case5 tail quoted hc ht ih =>
    intro h
    have hread : (Token.ofQuoted quoted).Readable := by
      by_contra hn
      exact h ⟨_, List.mem_cons_self, hn⟩
    have hrest := ih fun hu ↦ h (hu.cons _)
    -- The first string of the text closes the one opened before it, so what it held is bare now.
    rw [Illegible, Token.scan_quote]
    refine Unreadable.cons ?_ _
    change Unreadable (Token.scan tail)
    obtain ⟨before, hbefore, he | ⟨after, he⟩⟩ :=
      Quoted.exists_of_closing (Quoted.closing_of_readable hread)
    · rw [he]
      exact (Token.splits_scan_append hbefore (by decide) _).unreadable hrest
    · rw [he]
      refine (Token.splits_scan_append hbefore (by decide) _).unreadable ?_
      rw [Token.scan]
      exact .broken .noValue
  | case6 c tail hc ht hq word value hw after hafter ih =>
    exact fun h ↦ illegible_quote_takes (.word hw hafter) (ih fun hu ↦ h (hu.cons _))
  | case8 c tail hc ht hq hw hn n after hscan ih =>
    exact fun h ↦ illegible_quote_takes (.numeral hscan) (ih fun hu ↦ h (hu.cons _))

end DesignDocs.Json
