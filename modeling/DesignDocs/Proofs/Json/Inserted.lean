import DesignDocs.Proofs.Json.Appended
import DesignDocs.Proofs.Json.Members

namespace DesignDocs.Json

open Source (ofTree ofTreeItems ofTreeMembers ofTokens membersAfter trailing)
open Text (Symbol)

def textOfMembers : List (String × String) → String
  | [] => "\x7d"
  | (k, text) :: ms => "," ++ (string k).render ++ ":" ++ text ++ textOfMembers ms

/-- The text of an object with texts for its values. -/
def textOfObject : List (String × String) → String
  | [] => "\x7b\x7d"
  | (k, text) :: ms => "\x7b" ++ (string k).render ++ ":" ++ text ++ textOfMembers ms

abbrev tokensOf (text : String) : List Token := Token.scan (Symbol.ofString text)

def insertedTokens : List (String × String) → List Token
  | [] => [.closeBrace]
  | (k, text) :: ms =>
    .comma :: .string (.sound k) :: .colon :: (tokensOf text ++ insertedTokens ms)

def insertedObject : List (String × String) → List Token
  | [] => [.openBrace, .closeBrace]
  | (k, text) :: ms =>
    .openBrace :: .string (.sound k) :: .colon :: (tokensOf text ++ insertedTokens ms)

/-- The text is that of one value, and the value is no scalar. -/
abbrev CompoundText (text : String) : Prop := Compound (Symbol.ofString text)

theorem Token.scan_nil : scan [] = [] := by rw [scan]

theorem lexes_render_string (k : String) : Lexes (string k).render.toList [.string (.sound k)] := by
  rw [render, String.toList_ofList]
  exact lexes_string k

theorem tokensOf_of_lexes {text : String} {ts : List Token} (h : Lexes text.toList ts) :
    tokensOf text = ts := by
  have hscan := h []
  rw [List.append_nil, Token.scan_nil, List.append_nil] at hscan
  exact hscan

theorem lexes_of_compound {text : String} (h : CompoundText text) :
    Lexes text.toList (tokensOf text) := h.scan_append

theorem tokensOf_render {v : Json} (hi : v.Integral) : tokensOf v.render = v.tokens := by
  have hscan := lexesValue_chars hi [] trivial
  rw [List.append_nil, Token.scan_nil, List.append_nil] at hscan
  rw [tokensOf, Symbol.ofString, render, String.toList_ofList]
  exact hscan

theorem compoundText_of_tokens {text : String} {v : Json} (h : tokensOf text = v.tokens)
    (hv : ∀ t ∈ v.tokens.head?, ¬ t.isScalar) : CompoundText text := by
  refine ⟨?_, ?_⟩
  · rw [show Token.scan _ = _ from h, ← List.append_nil v.tokens]
    exact skipValue_tokens v []
  · rwa [show Token.scan _ = _ from h]

theorem compoundText_render {v : Json} (hi : v.Integral)
    (hv : ∀ t ∈ v.tokens.head?, ¬ t.isScalar) : CompoundText v.render :=
  compoundText_of_tokens (tokensOf_render hi) hv

theorem compoundText_string (k : String) : CompoundText (string k).render :=
  compoundText_render trivial (by rintro t ⟨⟩; exact nofun)

section

variable {ms : List (String × String)} (h : ∀ m ∈ ms, CompoundText m.2)

include h

theorem lexes_textOfMembers : Lexes (textOfMembers ms).toList (insertedTokens ms) := by
  induction ms with
  | nil => exact lexes_mark (by decide) rfl
  | cons m ms ih =>
    obtain ⟨k, text⟩ := m
    obtain ⟨hm, hms⟩ := List.forall_mem_cons.1 h
    have hcomma : Lexes [','] [.comma] := lexes_mark (by decide) rfl
    have hcolon : Lexes [':'] [.colon] := lexes_mark (by decide) rfl
    have hmember := hcomma.append ((lexes_render_string k).append
      (hcolon.append ((lexes_of_compound hm).append (ih hms))))
    simpa [textOfMembers, insertedTokens] using hmember

theorem lexes_textOfObject : Lexes (textOfObject ms).toList (insertedObject ms) := by
  have hopen : Lexes ['{'] [.openBrace] := lexes_mark (by decide) rfl
  cases ms with
  | nil => exact hopen.append (lexes_mark (by decide) rfl : Lexes ['}'] [.closeBrace])
  | cons m ms =>
    obtain ⟨k, text⟩ := m
    obtain ⟨hm, hms⟩ := List.forall_mem_cons.1 h
    have hcolon : Lexes [':'] [.colon] := lexes_mark (by decide) rfl
    have hmember := hopen.append ((lexes_render_string k).append
      (hcolon.append ((lexes_of_compound hm).append (lexes_textOfMembers hms))))
    simpa [textOfObject, insertedObject] using hmember

theorem run_insertedTokens :
    Skip.run .closed [.curly] (insertedTokens ms) = .ok [] := by
  induction ms with
  | nil => rfl
  | cons m ms ih =>
    obtain ⟨k, text⟩ := m
    obtain ⟨hm, hms⟩ := List.forall_mem_cons.1 h
    rw [insertedTokens, Skip.run_cons rfl (by decide), Skip.run_cons rfl (by decide),
      Skip.run_cons rfl (by decide), hm.run_append]
    exact ih hms

theorem compound_textOfObject : CompoundText (textOfObject ms) := by
  have htokens := tokensOf_of_lexes (lexes_textOfObject h)
  refine ⟨?_, ?_⟩
  · rw [show Token.scan _ = _ from htokens]
    cases ms with
    | nil => rfl
    | cons m ms =>
      obtain ⟨k, text⟩ := m
      obtain ⟨hm, hms⟩ := List.forall_mem_cons.1 h
      rw [insertedObject, skipValue, Skip.run_cons rfl (by decide),
        Skip.run_cons rfl (by decide), Skip.run_cons rfl (by decide), hm.run_append]
      exact run_insertedTokens hms
  · rw [show Token.scan _ = _ from htokens]
    cases ms <;> · rintro t ⟨⟩; exact nofun

end

/-- The source of the text where it stands inside `depth` objects and arrays of another text. -/
def Inserted (depth : Nat) (text : String) (s : Source) : Prop :=
  ∃ rest, (∀ t ∈ rest, t.Sound) ∧ s = ofTokens depth (tokensOf text ++ rest)

/-- Members none of which is faulty to skip. -/
def Members.ofSources : List (String × Source) → Members
  | [] => .done
  | (k, s) :: ms => .cons k s none (ofSources ms)

theorem Token.sound_of_sound {k : String} : (Token.string (.sound k)).Sound := fun _ _ ↦ rfl

theorem sound_insertedTokens (ms : List (String × String)) : ∀ t ∈ insertedTokens ms, t.Sound := by
  induction ms with
  | nil => exact List.forall_mem_singleton.2 trivial
  | cons m ms ih =>
    obtain ⟨k, text⟩ := m
    refine List.forall_mem_cons.2 ⟨trivial, List.forall_mem_cons.2 ⟨Token.sound_of_sound,
      List.forall_mem_cons.2 ⟨trivial, fun t ht ↦ ?_⟩⟩⟩
    obtain ht | ht := List.mem_append.1 ht
    · exact Token.sound_of_mem_scan _ t ht
    · exact ih t ht

section

variable {ms : List (String × String)} (h : ∀ m ∈ ms, CompoundText m.2)
  {rest : List Token} (hrest : ∀ t ∈ rest, t.Sound)

include h hrest

theorem exists_membersAfter (depth : Nat) :
    ∃ sources, membersAfter depth (insertedTokens ms ++ rest) = .ofSources sources ∧
      List.Forall₂ (fun m p ↦ m.1 = p.1 ∧ Inserted depth m.2 p.2) ms sources := by
  induction ms with
  | nil => exact ⟨[], by simp [insertedTokens, membersAfter, Members.ofSources], .nil⟩
  | cons m ms ih =>
    obtain ⟨k, text⟩ := m
    obtain ⟨hm, hms⟩ := List.forall_mem_cons.1 h
    obtain ⟨sources, hsources, hall⟩ := ih hms
    have hskip : skipValue (tokensOf text ++ (insertedTokens ms ++ rest)) =
        .ok (insertedTokens ms ++ rest) := hm.run_append [] _
    refine ⟨(k, _) :: sources, ?_, .cons ⟨rfl, insertedTokens ms ++ rest, ?_, rfl⟩ hall⟩
    · rw [insertedTokens, List.cons_append, List.cons_append, List.cons_append,
        List.append_assoc, membersAfter]
      · rw [Source.membersFrom_of_skip rfl hskip, hsources, Members.ofSources]
      · simp
      · simp
    · exact fun t ht ↦ (List.mem_append.1 ht).elim (sound_insertedTokens ms t) (hrest t)

theorem exists_ofTokens {depth : Nat} (hd : depth < depthLimit) :
    ∃ sources, ofTokens depth (insertedObject ms ++ rest) = .object (.ofSources sources) ∧
      List.Forall₂ (fun m p ↦ m.1 = p.1 ∧ Inserted (depth + 1) m.2 p.2) ms sources := by
  cases ms with
  | nil =>
    refine ⟨[], ?_, .nil⟩
    rw [insertedObject, List.cons_append, ofTokens, if_pos hd]
    simp [Source.membersOpened, Members.ofSources]
  | cons m ms =>
    obtain ⟨k, text⟩ := m
    obtain ⟨hm, hms⟩ := List.forall_mem_cons.1 h
    obtain ⟨sources, hsources, hall⟩ := exists_membersAfter hms hrest (depth + 1)
    have hskip : skipValue (tokensOf text ++ (insertedTokens ms ++ rest)) =
        .ok (insertedTokens ms ++ rest) := hm.run_append [] _
    refine ⟨(k, _) :: sources, ?_, .cons ⟨rfl, insertedTokens ms ++ rest, ?_, rfl⟩ hall⟩
    · rw [insertedObject, List.cons_append, ofTokens, if_pos hd, List.cons_append,
        List.cons_append, List.append_assoc, Source.membersOpened]
      · rw [Source.membersFrom_of_skip rfl hskip, hsources, Members.ofSources]
      · simp
      · simp
    · exact fun t ht ↦ (List.mem_append.1 ht).elim (sound_insertedTokens ms t) (hrest t)

end

namespace Inserted

variable {depth : Nat} {text : String} {s : Source}

theorem self (text : String) : Inserted 0 text (ofTokens 0 (tokensOf text)) :=
  ⟨[], List.forall_mem_nil _, by rw [List.append_nil]⟩

theorem eq_string {k : String} (h : Inserted depth (string k).render s) : s = .string k := by
  obtain ⟨rest, -, rfl⟩ := h
  rw [tokensOf_of_lexes (lexes_render_string k), List.singleton_append, ofTokens]
  rfl

/-- An object of inserted texts is met with each of them in its place. -/
theorem exists_of_object {ms : List (String × String)} (hms : ∀ m ∈ ms, CompoundText m.2)
    (hd : depth < depthLimit) (h : Inserted depth (textOfObject ms) s) :
    ∃ sources, s = .object (.ofSources sources) ∧
      List.Forall₂ (fun m p ↦ m.1 = p.1 ∧ Inserted (depth + 1) m.2 p.2) ms sources := by
  obtain ⟨rest, hrest, rfl⟩ := h
  rw [tokensOf_of_lexes (lexes_textOfObject hms)]
  exact exists_ofTokens hms hrest hd

theorem exists_of_singleton {k value : String} (hvalue : CompoundText value)
    (hd : depth < depthLimit) (h : Inserted depth (textOfObject [(k, value)]) s) :
    ∃ s', s = .object (.ofSources [(k, s')]) ∧ Inserted (depth + 1) value s' := by
  obtain ⟨sources, rfl, hall⟩ := h.exists_of_object (List.forall_mem_singleton.2 hvalue) hd
  obtain ⟨⟨_, s'⟩, _, ⟨rfl, hs'⟩, hnil, rfl⟩ := List.forall₂_cons_left_iff.1 hall
  obtain rfl := List.forall₂_nil_left_iff.1 hnil
  exact ⟨s', rfl, hs'⟩

theorem exists_of_pair {k k' value value' : String} (hvalue : CompoundText value)
    (hvalue' : CompoundText value') (hd : depth < depthLimit)
    (h : Inserted depth (textOfObject [(k, value), (k', value')]) s) :
    ∃ s₁ s₂, s = .object (.ofSources [(k, s₁), (k', s₂)]) ∧ Inserted (depth + 1) value s₁ ∧
      Inserted (depth + 1) value' s₂ := by
  have hvalues : ∀ m ∈ [(k, value), (k', value')], CompoundText m.2 :=
    List.forall_mem_cons.2 ⟨hvalue, List.forall_mem_singleton.2 hvalue'⟩
  obtain ⟨sources, rfl, hall⟩ := h.exists_of_object hvalues hd
  obtain ⟨⟨_, s₁⟩, _, ⟨rfl, hs₁⟩, htail, rfl⟩ := List.forall₂_cons_left_iff.1 hall
  obtain ⟨⟨_, s₂⟩, _, ⟨rfl, hs₂⟩, hnil, rfl⟩ := List.forall₂_cons_left_iff.1 htail
  obtain rfl := List.forall₂_nil_left_iff.1 hnil
  exact ⟨s₁, s₂, rfl, hs₁, hs₂⟩

theorem eq_ofTree {v : Json} (h : Inserted depth text s) (hv : tokensOf text = v.tokens)
    (hd : depth + v.depth ≤ depthLimit) : s = ofTree trailing v := by
  obtain ⟨rest, -, rfl⟩ := h
  rw [hv, Source.ofTokens_tokens v rest hd]

/-- The tree of a text is found where the text stands, if it is not too deep there. -/
theorem tree_eq_ok_iff (htext : CompoundText text) (hd : depth ≤ depthLimit)
    (h : Inserted depth text s) {v : Json} :
    s.tree = .ok v ↔ tokensOf text = v.tokens ∧ depth + v.depth ≤ depthLimit := by
  constructor
  · intro hv
    obtain ⟨rest, hrest, rfl⟩ := h
    have hsound : ∀ t ∈ tokensOf text ++ rest, t.Sound := fun t ht ↦
      (List.mem_append.1 ht).elim (Token.sound_of_mem_scan _ t) (hrest t)
    obtain ⟨rest', htokens, hdepth⟩ := Source.recovers hd _ hsound v hv
    have hskip : skipValue (tokensOf text ++ rest) = .ok rest := htext.run_append [] rest
    rw [htokens, skipValue_tokens] at hskip
    cases hskip
    exact ⟨List.append_cancel_right htokens, hdepth⟩
  · rintro ⟨hv, hdepth⟩
    rw [h.eq_ofTree hv hdepth, Source.tree_ofTree]

theorem ne_null (htext : CompoundText text) (h : Inserted depth text s) : s ≠ .null := by
  obtain ⟨rest, -, rfl⟩ := h
  have hopens := htext.opens
  have hpassed := htext.passed
  cases hts : Token.scan (Symbol.ofString text) with
  | nil =>
    rw [hts] at hpassed
    cases hpassed
  | cons t ts =>
    rw [hts] at hopens
    rw [tokensOf, hts, List.cons_append]
    cases t with
    | scalar o => exact absurd rfl (hopens _ rfl)
    | string o =>
      rw [ofTokens]
      split <;> rintro ⟨⟩
    | _ => simp [ofTokens]

end Inserted

theorem compoundText_singleton {k value : String} (h : CompoundText value) :
    CompoundText (textOfObject [(k, value)]) :=
  compound_textOfObject (List.forall_mem_singleton.2 h)

theorem compoundText_pair {k k' value value' : String} (h : CompoundText value)
    (h' : CompoundText value') : CompoundText (textOfObject [(k, value), (k', value')]) :=
  compound_textOfObject (List.forall_mem_cons.2 ⟨h, List.forall_mem_singleton.2 h'⟩)

theorem symbols_of_compound {α : Type} (read : Reader α) {text : String}
    (h : CompoundText text) :
    read.symbols (Symbol.ofString text) = read (ofTokens 0 (tokensOf text)) := by
  rw [Reader.symbols, h.passed]
  cases read (ofTokens 0 (tokensOf text)) <;> rfl

end DesignDocs.Json
