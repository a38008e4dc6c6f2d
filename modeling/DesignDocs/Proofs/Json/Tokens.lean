import DesignDocs.Json.Reader
import DesignDocs.Proofs.Except
import DesignDocs.Proofs.Json.Tree

namespace DesignDocs.Json

mutual

def tokens : Json → List Token
  | null => [.scalar (.sound .null)]
  | bool b => [.scalar (.sound (.bool b))]
  | number n => [.scalar (.sound (.number n))]
  | string s => [.string (.sound s)]
  | array [] => [.openBracket, .closeBracket]
  | array (v :: vs) => .openBracket :: (v.tokens ++ tokensItems vs)
  | object [] => [.openBrace, .closeBrace]
  | object ((k, v) :: ms) =>
    .openBrace :: .string (.sound k) :: .colon :: (v.tokens ++ tokensMembers ms)

def tokensItems : List Json → List Token
  | [] => [.closeBracket]
  | v :: vs => .comma :: (v.tokens ++ tokensItems vs)

def tokensMembers : List (String × Json) → List Token
  | [] => [.closeBrace]
  | (k, v) :: ms => .comma :: .string (.sound k) :: .colon :: (v.tokens ++ tokensMembers ms)

end

def Token.opensValue : Token → Bool
  | scalar _ | string _ | openBracket | openBrace => true
  | _ => false

theorem exists_tokens_eq_cons (v : Json) : ∃ t ts, v.tokens = t :: ts ∧ t.opensValue := by
  cases v with
  | array items => cases items <;> exact ⟨_, _, rfl, rfl⟩
  | object members => cases members <;> exact ⟨_, _, rfl, rfl⟩
  | _ => exact ⟨_, _, rfl, rfl⟩

namespace Skip

/-- What is left to do after a value that stands inside some brackets. -/
def resume (inside : List Bracket) (rest : List Token) : Except FormFault (List Token) :=
  match inside with
  | [] => .ok rest
  | _ :: _ => run .closed inside rest

theorem run_cons {place place' : Place} {inside inside' : List Bracket} {t : Token}
    (h : step place inside t = .ok (place', inside')) (hp : place' ≠ .closed) (ts : List Token) :
    run place inside (t :: ts) = run place' inside' ts := by
  rw [run, h]
  cases place' <;> first | rfl | exact absurd rfl hp

theorem run_cons_closed {place : Place} {inside inside' : List Bracket} {t : Token}
    (h : step place inside t = .ok (.closed, inside')) (ts : List Token) :
    run place inside (t :: ts) = resume inside' ts := by
  rw [run, h]
  cases inside' <;> rfl

theorem step_openBracket (inside : List Bracket) :
    step .value inside .openBracket = .ok (.opened, .square :: inside) := by
  cases inside <;> rfl

theorem step_openBrace (inside : List Bracket) :
    step .value inside .openBrace = .ok (.opened, .curly :: inside) := by
  cases inside <;> rfl

/-- Where an item may stand or the array end, a value is met as anywhere else. -/
theorem run_opened {t : Token} (h : t.opensValue) (inside : List Bracket) (ts : List Token) :
    run .opened (.square :: inside) (t :: ts) = run .value (.square :: inside) (t :: ts) := by
  have hs : step .opened (.square :: inside) t = step .value (.square :: inside) t := by
    cases t <;> first | rfl | exact absurd h (by decide)
  rw [run, run, hs]

theorem run_items {vs : List Json}
    (h : ∀ v ∈ vs, ∀ inside rest, run .value inside (v.tokens ++ rest) = resume inside rest)
    (inside : List Bracket) (rest : List Token) :
    run .closed (.square :: inside) (tokensItems vs ++ rest) = resume inside rest := by
  induction vs with
  | nil => exact run_cons_closed rfl rest
  | cons v vs ih =>
    rw [tokensItems, List.cons_append, List.append_assoc, run_cons rfl (by decide),
      h v List.mem_cons_self]
    exact ih fun w hw ↦ h w (List.mem_cons_of_mem v hw)

theorem run_members {ms : List (String × Json)}
    (h : ∀ p ∈ ms, ∀ inside rest, run .value inside (p.2.tokens ++ rest) = resume inside rest)
    (inside : List Bracket) (rest : List Token) :
    run .closed (.curly :: inside) (tokensMembers ms ++ rest) = resume inside rest := by
  induction ms with
  | nil => exact run_cons_closed rfl rest
  | cons p ms ih =>
    obtain ⟨k, v⟩ := p
    rw [tokensMembers, List.cons_append, List.cons_append, List.cons_append, List.append_assoc,
      run_cons rfl (by decide), run_cons rfl (by decide), run_cons rfl (by decide),
      h (k, v) List.mem_cons_self]
    exact ih fun q hq ↦ h q (List.mem_cons_of_mem _ hq)

theorem run_tokens (v : Json) (inside : List Bracket) (rest : List Token) :
    run .value inside (v.tokens ++ rest) = resume inside rest := by
  induction v using induct generalizing inside rest with
  | null | bool | number | string => cases inside <;> exact run_cons_closed rfl rest
  | array items ih =>
    cases items with
    | nil =>
      rw [tokens, List.cons_append, run_cons (step_openBracket inside) (by decide)]
      exact run_cons_closed rfl rest
    | cons v vs =>
      obtain ⟨t, ts, ht, hopens⟩ := v.exists_tokens_eq_cons
      have hv := ih v List.mem_cons_self (.square :: inside) (tokensItems vs ++ rest)
      rw [tokens, List.cons_append, run_cons (step_openBracket inside) (by decide),
        List.append_assoc]
      rw [ht, List.cons_append] at hv ⊢
      rw [run_opened hopens, hv]
      exact run_items (fun w hw ↦ ih w (List.mem_cons_of_mem v hw)) inside rest
  | object members ih =>
    cases members with
    | nil =>
      rw [tokens, List.cons_append, run_cons (step_openBrace inside) (by decide)]
      exact run_cons_closed rfl rest
    | cons p ms =>
      obtain ⟨k, v⟩ := p
      rw [tokens, List.cons_append, run_cons (step_openBrace inside) (by decide),
        List.cons_append, List.cons_append, run_cons rfl (by decide), run_cons rfl (by decide),
        List.append_assoc, ih (k, v) List.mem_cons_self]
      exact run_members (fun q hq ↦ ih q (List.mem_cons_of_mem _ hq)) inside rest

end Skip

theorem skipValue_tokens (v : Json) (rest : List Token) :
    skipValue (v.tokens ++ rest) = .ok rest := Skip.run_tokens v [] rest

/-- What follows the tokens of a tree tells where they end. -/
theorem tokens_append_cancel {v w : Json} {ts ts' : List Token}
    (h : v.tokens ++ ts = w.tokens ++ ts') : v.tokens = w.tokens ∧ ts = ts' := by
  have hskip := skipValue_tokens v ts
  rw [h, skipValue_tokens] at hskip
  cases hskip
  exact ⟨List.append_cancel_right h, rfl⟩

theorem tokens_ne_closeBracket (v : Json) (ts ts' : List Token) :
    v.tokens ++ ts ≠ .closeBracket :: ts' := by
  obtain ⟨t, us, ht, hopens⟩ := v.exists_tokens_eq_cons
  rw [ht]
  rintro ⟨⟩
  cases hopens

theorem tokensItems_injective {vs ws : List Json}
    (hv : ∀ v ∈ vs, ∀ w : Json, v.tokens = w.tokens → v = w)
    (h : tokensItems vs = tokensItems ws) : vs = ws := by
  induction vs generalizing ws with
  | nil =>
    cases ws with
    | nil => rfl
    | cons w ws => cases h
  | cons v vs ih =>
    cases ws with
    | nil => cases h
    | cons w ws =>
      obtain ⟨hhead, htail⟩ := List.forall_mem_cons.1 hv
      obtain ⟨htokens, hrest⟩ := tokens_append_cancel (List.cons.inj h).2
      rw [hhead w htokens, ih htail hrest]

theorem tokensMembers_injective {ms ns : List (String × Json)}
    (hm : ∀ p ∈ ms, ∀ w : Json, p.2.tokens = w.tokens → p.2 = w)
    (h : tokensMembers ms = tokensMembers ns) : ms = ns := by
  induction ms generalizing ns with
  | nil =>
    cases ns with
    | nil => rfl
    | cons q ns => cases h
  | cons p ms ih =>
    obtain ⟨k, v⟩ := p
    cases ns with
    | nil => cases h
    | cons q ns =>
      obtain ⟨k', w⟩ := q
      obtain ⟨hhead, htail⟩ := List.forall_mem_cons.1 hm
      simp only [tokensMembers, List.cons.injEq, Token.string.injEq, Outcome.sound,
        Outcome.mk.injEq, Except.ok.injEq, true_and, and_true] at h
      obtain ⟨rfl, h⟩ := h
      obtain ⟨htokens, hrest⟩ := tokens_append_cancel h
      obtain rfl : v = w := hhead w htokens
      rw [ih htail hrest]

theorem tokens_injective {v w : Json} (h : v.tokens = w.tokens) : v = w := by
  induction v using induct generalizing w with
  | null | bool | number | string =>
    cases w with
    | array items => cases items <;> cases h
    | object members => cases members <;> cases h
    | _ => cases h <;> rfl
  | array items ih =>
    cases w with
    | array items' =>
      cases items <;> cases items'
      · rfl
      · exact absurd (List.cons.inj h).2.symm (tokens_ne_closeBracket _ _ _)
      · exact absurd (List.cons.inj h).2 (tokens_ne_closeBracket _ _ _)
      · have hitems := congrArg (Token.comma :: ·) (List.cons.inj h).2
        exact congrArg array (tokensItems_injective ih hitems)
    | object members => cases items <;> cases members <;> cases h
    | _ => cases items <;> cases h
  | object members ih =>
    cases w with
    | array items => cases items <;> cases members <;> cases h
    | object members' =>
      cases members <;> cases members'
      · rfl
      · cases h
      · cases h
      · have hmembers := congrArg (Token.comma :: ·) (List.cons.inj h).2
        exact congrArg object (tokensMembers_injective ih hmembers)
    | _ => cases members <;> cases h

end DesignDocs.Json
