import DesignDocs.Proofs.Json.Illegible
import DesignDocs.Proofs.Json.Spelling

namespace DesignDocs.Json

open Text (Symbol)

namespace Quoted

theorem scan_escape {e c : Char} (he : e ≠ 'u') (hc : escape? e = some c) (cs : List Symbol) :
    scan (.char '\\' :: .char e :: cs) = (scan cs).cons (.escaped c) := by
  rw [scan, hc]
  · exact fun _ _ _ _ _ _ hu ↦ he hu
  · exact he

theorem scan_append {cs : List Symbol} (h : (scan cs).closing = .quote) (rest : List Symbol) :
    scan (cs ++ rest) = ⟨(scan cs).pieces, .quote, (scan cs).rest ++ rest⟩ := by
  fun_induction scan cs with
  | case1 | case3 | case5 | case8 | case9 | case10 => cases h
  | case2 => rfl
  | case4 a b c d cs code hcode ih =>
    simp only [List.cons_append, scan, hcode, ih h, Scan.cons]
  | case6 cs hcs =>
    rw [hexFault] at h
    split at h <;> cases h
  | case7 e cs _ hu c hc ih =>
    rw [List.cons_append, List.cons_append, scan_escape hu hc, ih h]
    rfl
  | case11 s cs hquote hend _ _ hescape hstray hs ih =>
    have hbackslash : s ≠ .char '\\' := by
      rintro rfl
      cases cs with
      | nil => exact hend rfl rfl
      | cons t ts =>
        cases t with
        | char e => exact hescape e ts rfl rfl
        | stray b => exact hstray b ts rfl rfl
    rw [List.cons_append, scan_cons hquote hbackslash, if_neg hs, ih h]
    rfl

end Quoted

theorem Token.afterWord_append {ws : List Char} {cs after : List Symbol}
    (h : afterWord ws cs = .ok after) (rest : List Symbol) :
    afterWord ws (cs ++ rest) = .ok (after ++ rest) := by
  induction ws generalizing cs with
  | nil =>
    cases h
    rfl
  | cons w ws ih =>
    cases cs with
    | nil => cases h
    | cons s cs =>
      rw [afterWord] at h
      rw [List.cons_append, afterWord]
      split at h
      · next hs => rw [if_pos hs, ih h]
      · cases h

namespace Numeral

variable {cs after : List Symbol} {ds : List Nat}

theorem takeDigits_append_of_ne_nil (h : (takeDigits cs).2 ≠ []) (rest : List Symbol) :
    takeDigits (cs ++ rest) = ((takeDigits cs).1, (takeDigits cs).2 ++ rest) := by
  induction cs with
  | nil => exact absurd rfl h
  | cons s cs ih =>
    rw [takeDigits] at h
    rw [List.cons_append, takeDigits, takeDigits]
    cases hd : digit? s with
    | none => rfl
    | some d =>
      rw [hd] at h
      dsimp only
      rw [ih h]

theorem takeSign_append (h : cs ≠ []) (rest : List Symbol) :
    takeSign (cs ++ rest) = ((takeSign cs).1, (takeSign cs).2 ++ rest) := by
  obtain ⟨s, cs, rfl⟩ := List.exists_cons_of_ne_nil h
  rw [List.cons_append]
  unfold takeSign
  split <;> split <;> simp_all

theorem takeExponentSign_append (h : cs ≠ []) (rest : List Symbol) :
    takeExponentSign (cs ++ rest) =
      ((takeExponentSign cs).1, (takeExponentSign cs).2 ++ rest) := by
  obtain ⟨s, cs, rfl⟩ := List.exists_cons_of_ne_nil h
  rw [List.cons_append]
  unfold takeExponentSign
  split <;> split <;> simp_all

section

variable (hne : after ≠ []) (rest : List Symbol)

include hne

theorem scanDigits_append (h : scanDigits cs = .ok (ds, after)) :
    scanDigits (cs ++ rest) = .ok (ds, after ++ rest) := by
  unfold scanDigits at h ⊢
  split at h
  · cases h
  · next ds' after' hds he =>
    cases h
    have htake : (takeDigits cs).2 ≠ [] := by rwa [he]
    rw [takeDigits_append_of_ne_nil htake, he]
    split
    · next h' =>
      cases h'
      exact (hds rfl).elim
    · next h' =>
      cases h'
      rfl

theorem scanWhole_append (h : scanWhole cs = .ok (ds, after)) :
    scanWhole (cs ++ rest) = .ok (ds, after ++ rest) := by
  cases cs with
  | nil => cases h
  | cons s cs =>
    rw [List.cons_append]
    match hd : digit? s with
    | none =>
      simp only [scanWhole, hd] at h
      cases h
    | some 0 =>
      cases cs with
      | nil =>
        simp only [scanWhole, hd] at h
        cases h
        exact absurd rfl hne
      | cons s' cs =>
        simp only [scanWhole, hd] at h
        rw [List.cons_append]
        simp only [scanWhole, hd]
        split at h
        · cases h
        · next hs' =>
          cases h
          exact if_neg hs'
    | some (n + 1) =>
      simp only [scanWhole, hd] at h ⊢
      cases h
      rw [takeDigits_append_of_ne_nil hne]

theorem scanFraction_append {fraction : Option (List Nat)}
    (h : scanFraction cs = .ok (fraction, after)) :
    scanFraction (cs ++ rest) = .ok (fraction, after ++ rest) := by
  unfold scanFraction at h
  split at h
  · obtain ⟨⟨ds, after'⟩, hdigits, h⟩ := Except.bind_eq_ok_iff.1 h
    cases h
    rw [List.cons_append, scanFraction, scanDigits_append hne rest hdigits]
    rfl
  · next hdot =>
    cases h
    obtain ⟨s, cs, rfl⟩ := List.exists_cons_of_ne_nil hne
    rw [List.cons_append, scanFraction]
    rintro cs ⟨⟩
    exact hdot _ rfl

theorem scanExponent_append {exponent : Option Exponent}
    (h : scanExponent cs = .ok (exponent, after)) :
    scanExponent (cs ++ rest) = .ok (exponent, after ++ rest) := by
  cases cs with
  | nil =>
    cases h
    exact absurd rfl hne
  | cons s cs =>
    rw [scanExponent] at h
    rw [List.cons_append, scanExponent]
    split at h
    · next hs =>
      obtain ⟨⟨ds, after'⟩, hdigits, h⟩ := Except.bind_eq_ok_iff.1 h
      cases h
      replace hdigits : scanDigits (takeExponentSign cs).2 = .ok (ds, after) := hdigits
      have hcs : cs ≠ [] := by
        rintro rfl
        cases hdigits
      rw [if_pos hs, takeExponentSign_append hcs]
      dsimp only
      rw [scanDigits_append hne rest hdigits]
      rfl
    · next hs =>
      cases h
      rw [if_neg hs]
      rfl

/-- Where text is left after a numeral, more text changes nothing about the numeral. -/
theorem scan_append {n : Numeral} (h : scan cs = .ok (n, after)) :
    scan (cs ++ rest) = .ok (n, after ++ rest) := by
  obtain ⟨⟨whole, afterWhole⟩, hwhole, h⟩ := Except.bind_eq_ok_iff.1 h
  obtain ⟨⟨fraction, afterFraction⟩, hfraction, h⟩ := Except.bind_eq_ok_iff.1 h
  obtain ⟨⟨exponent, afterExponent⟩, hexponent, h⟩ := Except.bind_eq_ok_iff.1 h
  cases h
  replace hwhole : scanWhole (takeSign cs).2 = .ok (whole, afterWhole) := hwhole
  have hafterFraction : afterFraction ≠ [] := fun he ↦
    hne (List.subset_nil.1 (he ▸ (Takes.scanExponent hexponent).subset))
  have hafterWhole : afterWhole ≠ [] := fun he ↦
    hafterFraction (List.subset_nil.1 (he ▸ (Takes.scanFraction hfraction).subset))
  have hcs : cs ≠ [] := by
    rintro rfl
    cases hwhole
  rw [scan, takeSign_append hcs]
  dsimp only
  rw [scanWhole_append hafterWhole rest hwhole, Except.ok_bind]
  dsimp only
  rw [scanFraction_append hafterFraction rest hfraction, Except.ok_bind]
  dsimp only
  rw [scanExponent_append hne rest hexponent]
  rfl

end

end Numeral

namespace Token

def skip? : Token → Option FormFault
  | scalar o => o.skip
  | string o => o.skip
  | _ => none

def isScalar : Token → Bool
  | scalar _ => true
  | _ => false

theorem closing_of_skip? {scanned : Quoted.Scan} (h : (ofQuoted scanned).skip? = none) :
    scanned.closing = .quote := by
  change scanned.closing.fault? = none at h
  cases hclosing : scanned.closing with
  | quote => rfl
  | _ =>
    rw [hclosing] at h
    cases h

theorem isScalar_ofNumeral (n : Numeral) : (ofNumeral n).isScalar := by
  rw [ofNumeral]
  split <;> rfl

theorem scan_word {c : Char} {ws : List Char} {value : Scalar} {cs after : List Symbol}
    (hw : word? c = some (ws, value)) (h : afterWord ws cs = .ok after) :
    scan (.char c :: cs) = scalar (.sound value) :: scan after := by
  have hletter : isSpace c = false ∧ mark? c = none ∧ c ≠ '"' := by
    unfold word? at hw
    split at hw <;> cases hw <;> decide
  obtain ⟨hspace, hmark, hquote⟩ := hletter
  rw [scan, if_neg (by simp [hspace]), hmark]
  dsimp only
  rw [if_neg hquote]
  split
  · next hw' =>
    rw [hw] at hw'
    cases hw'
    split
    · next h' =>
      rw [h] at h'
      cases h'
      rfl
    · next h' =>
      rw [h] at h'
      cases h'
  · next hw' =>
    rw [hw] at hw'
    cases hw'

/-- Where all tokens can be skipped and the last is no scalar, more text brings more tokens. -/
theorem scan_append {cs : List Symbol} (hskip : ∀ t ∈ scan cs, t.skip? = none)
    (hlast : ∀ t ∈ (scan cs).getLast?, ¬ t.isScalar) (rest : List Symbol) :
    scan (cs ++ rest) = scan cs ++ scan rest := by
  have htail : ∀ {t : Token} {ts : List Token}, (∀ u ∈ (t :: ts).getLast?, ¬ u.isScalar) →
      ∀ u ∈ ts.getLast?, ¬ u.isScalar := by
    intro t ts h u hu
    refine h u ?_
    rw [List.getLast?_cons, Option.mem_def.1 hu]
    rfl
  fun_induction scan cs with
  | case1 => rfl
  | case2 | case7 | case9 | case10 => cases hskip _ List.mem_cons_self
  | case3 c cs hc ih =>
    rw [List.cons_append, scan, if_pos hc]
    exact ih hskip hlast
  | case4 c cs hc t ht ih =>
    obtain ⟨-, hskip⟩ := List.forall_mem_cons.1 hskip
    rw [List.cons_append, scan, if_neg hc, ht]
    dsimp only
    rw [ih hskip (htail hlast), List.cons_append]
  | case5 cs quoted hc ht ih =>
    obtain ⟨hquoted, hskip⟩ := List.forall_mem_cons.1 hskip
    rw [List.cons_append, scan_quote, Quoted.scan_append (closing_of_skip? hquoted)]
    dsimp only
    rw [ih hskip (htail hlast), ← closing_of_skip? hquoted]
    rfl
  | case6 c cs hc ht hq word value hw after hafter ih =>
    obtain ⟨-, hskip⟩ := List.forall_mem_cons.1 hskip
    rw [List.cons_append, scan_word hw (afterWord_append hafter rest), ih hskip (htail hlast)]
    rfl
  | case8 c cs hc ht hq hw hn n after hscan ih =>
    obtain ⟨-, hskip⟩ := List.forall_mem_cons.1 hskip
    have hafter : after ≠ [] := by
      rintro rfl
      exact hlast (ofNumeral n) (by simp [scan]) (isScalar_ofNumeral n)
    have hdigit : c = '-' ∨ c.isDigit := by simpa using hn
    have hmore : Numeral.scan (.char c :: (cs ++ rest)) = .ok (n, after ++ rest) :=
      Numeral.scan_append hafter rest hscan
    rw [List.cons_append, scan_numeral hdigit hmore, ih hskip (htail hlast)]
    rfl

end Token

namespace Skip

variable {place place' : Place} {inside inside' : List Bracket} {t : Token} {ts : List Token}

theorem step_value (inside : List Bracket) (t : Token) :
    step .value inside t = onValue inside t := by
  cases inside <;> rfl

theorem onValue_append (h : onValue inside t = .ok (place', inside')) (outer : List Bracket) :
    onValue (inside ++ outer) t = .ok (place', inside' ++ outer) := by
  cases t with
  | scalar o | string o =>
    rw [onValue] at h ⊢
    split at h <;> cases h
    rfl
  | openBracket | openBrace =>
    cases h
    rfl
  | _ => cases h

theorem onName_append (h : onName inside t = .ok (place', inside')) (outer : List Bracket) :
    onName (inside ++ outer) t = .ok (place', inside' ++ outer) := by
  cases t with
  | string o =>
    rw [onName] at h ⊢
    split at h <;> cases h
    rfl
  | _ => cases h

/-- Brackets that stand around a value change no step inside it. -/
theorem step_append (hplace : place = .value ∨ inside ≠ [])
    (h : step place inside t = .ok (place', inside')) (outer : List Bracket) :
    step place (inside ++ outer) t = .ok (place', inside' ++ outer) := by
  by_cases hvalue : place = .value
  · subst hvalue
    rw [step_value] at h ⊢
    exact onValue_append h outer
  obtain ⟨b, inner, rfl⟩ := List.exists_cons_of_ne_nil (hplace.resolve_left hvalue)
  rw [List.cons_append]
  cases place with
  | value => exact absurd rfl hvalue
  | opened =>
    simp only [step] at h ⊢
    split at h
    · next hclose =>
      cases h
      rw [if_pos hclose]
    · next hclose =>
      rw [if_neg hclose]
      cases b with
      | square => exact onValue_append h outer
      | curly => exact onName_append h outer
  | closed =>
    simp only [step] at h ⊢
    split at h
    · next hclose =>
      cases h
      rw [if_pos hclose]
    · next hclose =>
      rw [if_neg hclose]
      split at h <;> cases h <;> rfl
  | name => exact onName_append h outer
  | colon =>
    simp only [step] at h ⊢
    split at h <;> cases h
    rfl

theorem of_onValue (h : onValue inside t = .ok (place', inside')) :
    t.skip? = none ∧ (place' = .closed ∧ inside' = inside ∨ inside' ≠ []) := by
  cases t with
  | scalar o | string o =>
    rw [onValue] at h
    split at h
    · cases h
      exact ⟨by assumption, .inl ⟨rfl, rfl⟩⟩
    · cases h
  | openBracket | openBrace =>
    cases h
    exact ⟨rfl, .inr (List.cons_ne_nil _ _)⟩
  | _ => cases h

theorem of_onName (h : onName inside t = .ok (place', inside')) :
    t.skip? = none ∧ inside' = inside := by
  cases t with
  | string o =>
    rw [onName] at h
    split at h
    · cases h
      exact ⟨by assumption, rfl⟩
    · cases h
  | _ => cases h

theorem of_close {b : Bracket} (h : close b t) : t.skip? = none ∧ ¬ t.isScalar := by
  cases t <;> first | exact ⟨rfl, nofun⟩ | cases h

/-- A token that is passed over can be skipped, and the last bracket is closed by no scalar. -/
theorem of_step (hplace : place = .value ∨ inside ≠ [])
    (h : step place inside t = .ok (place', inside')) :
    t.skip? = none ∧ (place' = .closed ∨ inside' ≠ []) ∧
      (inside ≠ [] → inside' = [] → ¬ t.isScalar) := by
  by_cases hvalue : place = .value
  · subst hvalue
    rw [step_value] at h
    obtain ⟨hskip, ⟨rfl, rfl⟩ | hopen⟩ := of_onValue h
    · exact ⟨hskip, .inl rfl, fun hne he ↦ absurd he hne⟩
    · exact ⟨hskip, .inr hopen, fun _ he ↦ absurd he hopen⟩
  obtain ⟨b, inner, rfl⟩ := List.exists_cons_of_ne_nil (hplace.resolve_left hvalue)
  have hstays : t.skip? = none → inside' = b :: inner → t.skip? = none ∧
      (place' = .closed ∨ inside' ≠ []) ∧
        (b :: inner ≠ [] → inside' = [] → ¬ t.isScalar) := by
    rintro hskip rfl
    exact ⟨hskip, .inr (List.cons_ne_nil _ _), nofun⟩
  cases place with
  | value => exact absurd rfl hvalue
  | opened =>
    simp only [step] at h
    split at h
    · next hclose =>
      cases h
      obtain ⟨hskip, hscalar⟩ := of_close hclose
      exact ⟨hskip, .inl rfl, fun _ _ ↦ hscalar⟩
    · cases b with
      | square =>
        obtain ⟨hskip, ⟨rfl, rfl⟩ | hopen⟩ := of_onValue h
        · exact hstays hskip rfl
        · exact ⟨hskip, .inr hopen, fun _ he ↦ absurd he hopen⟩
      | curly =>
        obtain ⟨hskip, hsame⟩ := of_onName h
        exact hstays hskip hsame
  | closed =>
    simp only [step] at h
    split at h
    · next hclose =>
      cases h
      obtain ⟨hskip, hscalar⟩ := of_close hclose
      exact ⟨hskip, .inl rfl, fun _ _ ↦ hscalar⟩
    · split at h <;> cases h <;> exact hstays rfl rfl
  | name =>
    obtain ⟨hskip, hsame⟩ := of_onName h
    exact hstays hskip hsame
  | colon =>
    simp only [step] at h
    split at h <;> cases h
    exact hstays rfl rfl

/-- A value is passed at its last token, and until then a bracket is open. -/
theorem run_cons_cases (hplace : place = .value ∨ inside ≠ [])
    (h : run place inside (t :: ts) = .ok []) :
    ∃ place' inside', step place inside t = .ok (place', inside') ∧
      (place' = .closed ∧ inside' = [] ∧ ts = [] ∨
        inside' ≠ [] ∧ run place' inside' ts = .ok []) := by
  rw [run] at h
  split at h
  · cases h
  · next hstep =>
    cases h
    exact ⟨_, _, hstep, .inl ⟨rfl, rfl, rfl⟩⟩
  · next place' inside' hnot hstep =>
    obtain ⟨-, hclosed | hopen, -⟩ := of_step hplace hstep
    · exact ⟨place', inside', hstep, .inr ⟨hnot hclosed, h⟩⟩
    · exact ⟨place', inside', hstep, .inr ⟨hopen, h⟩⟩

theorem run_append (hplace : place = .value ∨ inside ≠ []) (h : run place inside ts = .ok [])
    (outer : List Bracket) (rest : List Token) :
    run place (inside ++ outer) (ts ++ rest) = resume outer rest := by
  induction ts generalizing place inside with
  | nil => cases h
  | cons t ts ih =>
    obtain ⟨place', inside', hstep, ⟨rfl, rfl, rfl⟩ | ⟨hopen, hrun⟩⟩ := run_cons_cases hplace h
    · exact run_cons_closed (step_append hplace hstep outer) rest
    · have hmore := ih (.inr hopen) hrun
      have hstep' := step_append hplace hstep outer
      rw [List.cons_append]
      by_cases hclosed : place' = .closed
      · subst hclosed
        obtain ⟨b, inner, rfl⟩ := List.exists_cons_of_ne_nil hopen
        rw [run_cons_closed hstep']
        exact hmore
      · rw [run_cons hstep' hclosed]
        exact hmore

theorem of_run (hplace : place = .value ∨ inside ≠ []) (h : run place inside ts = .ok []) :
    (∀ t ∈ ts, t.skip? = none) ∧
      (inside ≠ [] ∨ (∀ t ∈ ts.head?, ¬ t.isScalar) → ∀ t ∈ ts.getLast?, ¬ t.isScalar) := by
  induction ts generalizing place inside with
  | nil => cases h
  | cons t ts ih =>
    obtain ⟨place', inside', hstep, hnext⟩ := run_cons_cases hplace h
    obtain ⟨hskip, -, hlast⟩ := of_step hplace hstep
    obtain ⟨rfl, rfl, rfl⟩ | ⟨hopen, hrun⟩ := hnext
    · refine ⟨List.forall_mem_singleton.2 hskip, fun hscalar u hu ↦ ?_⟩
      obtain rfl := Option.some.inj hu
      obtain hne | hfirst := hscalar
      · exact hlast hne rfl
      · exact hfirst _ rfl
    · obtain ⟨hskips, hlasts⟩ := ih (.inr hopen) hrun
      refine ⟨List.forall_mem_cons.2 ⟨hskip, hskips⟩, fun _ u hu ↦ hlasts (.inl hopen) u ?_⟩
      cases ts with
      | nil => cases hrun
      | cons t' ts => exact hu

end Skip

/-- The text holds one value, which is passed over whole, and the value is no scalar. -/
structure Compound (cs : List Symbol) : Prop where
  passed : skipValue (Token.scan cs) = .ok []
  opens : ∀ t ∈ (Token.scan cs).head?, ¬ t.isScalar

namespace Compound

variable {cs : List Symbol}

/-- The tokens are passed over whatever stands around and behind them. -/
theorem run_append (h : Compound cs) (outer : List Bracket) (rest : List Token) :
    Skip.run .value outer (Token.scan cs ++ rest) = Skip.resume outer rest := by
  have hpassed : Skip.run .value [] (Token.scan cs) = .ok [] := h.passed
  exact Skip.run_append (.inl rfl) hpassed outer rest

theorem scan_append (h : Compound cs) (rest : List Symbol) :
    Token.scan (cs ++ rest) = Token.scan cs ++ Token.scan rest := by
  obtain ⟨hskip, hlast⟩ := Skip.of_run (.inl rfl) h.passed
  exact Token.scan_append hskip (hlast (.inr h.opens)) rest

end Compound

end DesignDocs.Json
