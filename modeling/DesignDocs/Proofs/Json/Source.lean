import DesignDocs.Proofs.Json.Tokens

namespace DesignDocs.Json

open Text (Symbol)

namespace Token

def Sound : Token → Prop
  | scalar o => ∀ a, o.read = .ok a → o.skip = none
  | string o => ∀ a, o.read = .ok a → o.skip = none
  | _ => True

end Token

theorem Outcome.eq_sound {α : Type} {o : Outcome α} {a : α} (h : o.read = .ok a)
    (hs : ∀ a, o.read = .ok a → o.skip = none) : o = .sound a := by
  have hskip := hs a h
  cases o
  cases h
  cases hskip
  rfl

namespace Source

mutual

/-- The source of a tree; the fault behind an array may depend on how long it is. -/
def ofTree (surplus : Nat → Fault) : Json → Source
  | .null => null
  | .bool b => bool b
  | .number n => number n
  | .string s => string s
  | .array items => array (ofTreeItems surplus items) (surplus items.length)
  | .object members => object (ofTreeMembers surplus members)

def ofTreeItems (surplus : Nat → Fault) : List Json → Items
  | [] => .done
  | v :: vs => .cons (ofTree surplus v) (ofTreeItems surplus vs)

def ofTreeMembers (surplus : Nat → Fault) : List (String × Json) → Members
  | [] => .done
  | (k, v) :: ms => .cons k (ofTree surplus v) none (ofTreeMembers surplus ms)

end

mutual

theorem ofJson_eq_ofTree : ∀ v : Json, ofJson v = ofTree .surplusItems v
  | .null | .bool _ | .number _ | .string _ => rfl
  | .array items => by rw [ofJson, ofTree, ofItems_eq_ofTreeItems items]
  | .object members => by rw [ofJson, ofTree, ofMembers_eq_ofTreeMembers members]

theorem ofItems_eq_ofTreeItems :
    ∀ items : List Json, ofItems items = ofTreeItems .surplusItems items
  | [] => rfl
  | v :: vs => by rw [ofItems, ofTreeItems, ofJson_eq_ofTree v, ofItems_eq_ofTreeItems vs]

theorem ofMembers_eq_ofTreeMembers :
    ∀ members : List (String × Json), ofMembers members = ofTreeMembers .surplusItems members
  | [] => rfl
  | (k, v) :: ms => by
    rw [ofMembers, ofTreeMembers, ofJson_eq_ofTree v, ofMembers_eq_ofTreeMembers ms]

end

/-- What stands behind the last item of an array in a text, if anything does, is too much. -/
def trailing (_ : Nat) : Fault := .form .trailingText

variable {surplus : Nat → Fault}

theorem trees_ofTreeItems {items : List Json}
    (h : ∀ v ∈ items, (ofTree surplus v).tree = .ok v) :
    (ofTreeItems surplus items).trees = .ok items := by
  induction items with
  | nil => rfl
  | cons v vs ih =>
    have hvs := ih fun w hw ↦ h w (List.mem_cons_of_mem v hw)
    rw [ofTreeItems, Items.trees, h v List.mem_cons_self, hvs]
    rfl

theorem trees_ofTreeMembers {members : List (String × Json)}
    (h : ∀ p ∈ members, (ofTree surplus p.2).tree = .ok p.2) :
    (ofTreeMembers surplus members).trees = .ok members := by
  induction members with
  | nil => rfl
  | cons p ms ih =>
    have hms := ih fun q hq ↦ h q (List.mem_cons_of_mem p hq)
    rw [ofTreeMembers, Members.trees, h p List.mem_cons_self, hms]
    rfl

@[simp] theorem tree_ofTree (v : Json) : (ofTree surplus v).tree = .ok v := by
  induction v using induct with
  | null | bool | number | string => rfl
  | array items ih => rw [ofTree, tree, trees_ofTreeItems ih, Except.map_ok]
  | object members ih => rw [ofTree, tree, trees_ofTreeMembers ih, Except.map_ok]

theorem itemsFrom_of_skip {depth : Nat} {ts rest : List Token} (h : skipValue ts = .ok rest) :
    itemsFrom depth ts = .cons (ofTokens depth ts) (itemsAfter depth rest) := by
  rw [itemsFrom]
  split
  · next h' =>
    rw [h] at h'
    cases h'
    rfl
  · next h' =>
    rw [h] at h'
    cases h'

theorem itemsOpened_of_opens {depth : Nat} {t : Token} {ts : List Token} (h : t.opensValue) :
    itemsOpened depth (t :: ts) = itemsFrom depth (t :: ts) := by
  have ht : t ≠ .closeBracket := by rintro rfl; exact absurd h (by decide)
  rw [itemsOpened]
  · simp
  · simp [ht]

theorem itemsAfter_of_opens {depth : Nat} {t : Token} {ts : List Token} (h : t.opensValue) :
    itemsAfter depth (.comma :: t :: ts) = itemsFrom depth (t :: ts) := by
  have ht : t ≠ .closeBracket := by rintro rfl; exact absurd h (by decide)
  rw [itemsAfter]
  · simp
  · simp [ht]

theorem membersFrom_of_skip {depth : Nat} {o : Outcome String} {name : String}
    {ts rest : List Token} (ho : o.read = .ok name) (h : skipValue ts = .ok rest) :
    membersFrom depth (.string o :: .colon :: ts) =
      .cons name (ofTokens depth ts) none (membersAfter depth rest) := by
  rw [membersFrom, ho]
  dsimp only
  split
  · next h' =>
    rw [h] at h'
    cases h'
    rfl
  · next h' =>
    rw [h] at h'
    cases h'

theorem itemsAfter_tokens {depth : Nat} {vs : List Json} (rest : List Token)
    (h : ∀ v ∈ vs, ∀ rest, ofTokens depth (v.tokens ++ rest) = ofTree trailing v) :
    itemsAfter depth (tokensItems vs ++ rest) = ofTreeItems trailing vs := by
  induction vs with
  | nil => simp [tokensItems, itemsAfter, ofTreeItems]
  | cons v vs ih =>
    obtain ⟨t, ts, ht, hopens⟩ := v.exists_tokens_eq_cons
    have hv := h v List.mem_cons_self (tokensItems vs ++ rest)
    have hskip := skipValue_tokens v (tokensItems vs ++ rest)
    have hvs := ih fun w hw ↦ h w (List.mem_cons_of_mem v hw)
    rw [tokensItems, List.cons_append, List.append_assoc]
    rw [ht, List.cons_append] at hv hskip ⊢
    rw [itemsAfter_of_opens hopens, itemsFrom_of_skip hskip, hv, hvs, ofTreeItems]

theorem membersFrom_tokens {depth : Nat} {k : String} {v : Json} {ms : List (String × Json)}
    (rest : List Token)
    (h : ∀ rest, ofTokens depth (v.tokens ++ rest) = ofTree trailing v)
    (hms : membersAfter depth (tokensMembers ms ++ rest) = ofTreeMembers trailing ms) :
    membersFrom depth (.string (.sound k) :: .colon :: (v.tokens ++ (tokensMembers ms ++ rest))) =
      ofTreeMembers trailing ((k, v) :: ms) := by
  rw [membersFrom_of_skip rfl (skipValue_tokens v _), h, hms, ofTreeMembers]

theorem membersAfter_tokens {depth : Nat} {ms : List (String × Json)} (rest : List Token)
    (h : ∀ p ∈ ms, ∀ rest, ofTokens depth (p.2.tokens ++ rest) = ofTree trailing p.2) :
    membersAfter depth (tokensMembers ms ++ rest) = ofTreeMembers trailing ms := by
  induction ms with
  | nil => simp [tokensMembers, membersAfter, ofTreeMembers]
  | cons p ms ih =>
    obtain ⟨k, v⟩ := p
    have hms := ih fun q hq ↦ h q (List.mem_cons_of_mem _ hq)
    rw [tokensMembers, List.cons_append, List.cons_append, List.cons_append, List.append_assoc,
      membersAfter]
    · exact membersFrom_tokens rest (h (k, v) List.mem_cons_self) hms
    · simp
    · simp

/-- A reader that meets the tokens of a tree meets the tree. -/
theorem ofTokens_tokens (v : Json) {depth : Nat} (rest : List Token)
    (hd : depth + v.depth ≤ depthLimit) :
    ofTokens depth (v.tokens ++ rest) = ofTree trailing v := by
  induction v using induct generalizing depth rest with
  | null | bool | number | string => rw [tokens, List.cons_append, ofTokens]; rfl
  | array items ih =>
    rw [Json.depth] at hd
    have hdepth : depth < depthLimit := by omega
    cases items with
    | nil =>
      rw [tokens, List.cons_append, ofTokens, if_pos hdepth]
      simp [itemsOpened, ofTree, ofTreeItems, trailing]
    | cons v vs =>
      obtain ⟨t, ts, ht, hopens⟩ := v.exists_tokens_eq_cons
      have hbound : ∀ w ∈ v :: vs, ∀ rest, ofTokens (depth + 1) (w.tokens ++ rest) =
          ofTree trailing w := fun w hw rest ↦
        ih w hw rest (by have := depthItems_le_iff.1 (Nat.le_refl _) w hw; omega)
      have hv := hbound v List.mem_cons_self (tokensItems vs ++ rest)
      have hskip := skipValue_tokens v (tokensItems vs ++ rest)
      have hvs := itemsAfter_tokens rest fun w hw ↦ hbound w (List.mem_cons_of_mem v hw)
      rw [tokens, List.cons_append, ofTokens, if_pos hdepth, List.append_assoc]
      rw [ht, List.cons_append] at hv hskip ⊢
      rw [itemsOpened_of_opens hopens, itemsFrom_of_skip hskip, hv, hvs]
      rfl
  | object members ih =>
    rw [Json.depth] at hd
    have hdepth : depth < depthLimit := by omega
    cases members with
    | nil =>
      rw [tokens, List.cons_append, ofTokens, if_pos hdepth]
      simp [membersOpened, ofTree, ofTreeMembers]
    | cons p ms =>
      obtain ⟨k, v⟩ := p
      have hbound : ∀ q ∈ (k, v) :: ms, ∀ rest, ofTokens (depth + 1) (q.2.tokens ++ rest) =
          ofTree trailing q.2 := fun q hq rest ↦
        ih q hq rest (by have := depthMembers_le_iff.1 (Nat.le_refl _) q hq; omega)
      have hms := membersAfter_tokens rest fun q hq ↦ hbound q (List.mem_cons_of_mem _ hq)
      rw [tokens, List.cons_append, ofTokens, if_pos hdepth, List.cons_append, List.cons_append,
        List.append_assoc, membersOpened]
      · rw [membersFrom_tokens rest (hbound (k, v) List.mem_cons_self) hms, ofTree]
      · simp
      · simp

/-- Whatever is found at the head of the tokens is a tree whose tokens stand there. -/
def Recovers (depth : Nat) (ts : List Token) : Prop :=
  ∀ v, (ofTokens depth ts).tree = .ok v →
    ∃ rest, ts = v.tokens ++ rest ∧ depth + v.depth ≤ depthLimit

theorem trees_itemsFrom {depth : Nat} {ts : List Token} {items : List Json}
    (hr : Recovers depth ts) (h : (itemsFrom depth ts).trees = .ok items) :
    ∃ v vs rest, items = v :: vs ∧ ts = v.tokens ++ rest ∧ depth + v.depth ≤ depthLimit ∧
      (itemsAfter depth rest).trees = .ok vs := by
  have hhead : ∃ v, (ofTokens depth ts).tree = .ok v := by
    rw [itemsFrom, Items.trees] at h
    obtain ⟨v, hv, -⟩ := Except.bind_eq_ok_iff.1 h
    exact ⟨v, hv⟩
  obtain ⟨v, hv⟩ := hhead
  obtain ⟨rest, rfl, hd⟩ := hr v hv
  rw [itemsFrom_of_skip (skipValue_tokens v rest), Items.trees, hv, Except.ok_bind] at h
  obtain ⟨vs, hvs, he⟩ := Except.bind_eq_ok_iff.1 h
  cases he
  exact ⟨v, vs, rest, rfl, rfl, hd, hvs⟩

/-- Members can only be read from a name, a colon and a value. -/
theorem head_of_trees_membersFrom {depth : Nat} {ts : List Token} {members : List (String × Json)}
    (h : (membersFrom depth ts).trees = .ok members) :
    ∃ o k ts' v, ts = .string o :: .colon :: ts' ∧ o.read = .ok k ∧
      (ofTokens depth ts').tree = .ok v := by
  rw [membersFrom.eq_def] at h
  split at h
  · next o ts' =>
    split at h
    · cases h
    · next k hk =>
      split at h
      · next ts' =>
        split at h <;>
        · rw [Members.trees] at h
          obtain ⟨v, hv, -⟩ := Except.bind_eq_ok_iff.1 h
          exact ⟨o, k, ts', v, rfl, hk, hv⟩
      · cases h
      · cases h
  · cases h

theorem trees_membersFrom {depth : Nat} {ts : List Token} {members : List (String × Json)}
    (hs : ∀ t ∈ ts, t.Sound) (hr : ∀ ts', ts'.length < ts.length → (∀ t ∈ ts', t.Sound) →
      Recovers depth ts')
    (h : (membersFrom depth ts).trees = .ok members) :
    ∃ k v ms rest, members = (k, v) :: ms ∧
      ts = .string (.sound k) :: .colon :: (v.tokens ++ rest) ∧ depth + v.depth ≤ depthLimit ∧
      (membersAfter depth rest).trees = .ok ms := by
  obtain ⟨o, k, ts', v, rfl, hk, hv⟩ := head_of_trees_membersFrom h
  have ho : o = .sound k := Outcome.eq_sound hk (hs (.string o) List.mem_cons_self)
  subst ho
  obtain ⟨rest, rfl, hd⟩ := hr ts' (by simp only [List.length_cons]; omega)
    (fun t ht ↦ hs t (by simp [ht])) v hv
  rw [membersFrom_of_skip rfl (skipValue_tokens v rest), Members.trees, hv, Except.ok_bind] at h
  obtain ⟨ms, hms, he⟩ := Except.bind_eq_ok_iff.1 h
  cases he
  exact ⟨k, v, ms, rest, rfl, rfl, hd, hms⟩

section

variable {depth n : Nat}
  (hr : ∀ ts, ts.length < n → (∀ t ∈ ts, t.Sound) → Recovers depth ts)

include hr

theorem trees_itemsAfter (hd : depth ≤ depthLimit) {vs : List Json} {ts : List Token}
    (hn : ts.length < n) (hs : ∀ t ∈ ts, t.Sound) (h : (itemsAfter depth ts).trees = .ok vs) :
    ∃ rest, ts = tokensItems vs ++ rest ∧ depth + depthItems vs ≤ depthLimit := by
  induction vs generalizing ts with
  | nil =>
    rw [itemsAfter.eq_def] at h
    split at h
    · cases h
    · exact ⟨_, rfl, hd⟩
    · cases h
    · cases h
    · obtain ⟨v, vs, rest, he, -⟩ := trees_itemsFrom (hr _ (by grind) (by grind)) h
      cases he
    · cases h
  | cons v vs ih =>
    rw [itemsAfter.eq_def] at h
    split at h
    · cases h
    · cases h
    · cases h
    · cases h
    · obtain ⟨w, ws, rest, he, rfl, hw, hws⟩ := trees_itemsFrom (hr _ (by grind) (by grind)) h
      cases he
      obtain ⟨rest', rfl, hvs⟩ := ih (by grind) (by grind) hws
      refine ⟨rest', by simp [tokensItems], ?_⟩
      rw [depthItems]
      omega
    · cases h

theorem trees_membersAfter (hd : depth ≤ depthLimit) {ms : List (String × Json)}
    {ts : List Token} (hn : ts.length < n) (hs : ∀ t ∈ ts, t.Sound)
    (h : (membersAfter depth ts).trees = .ok ms) :
    ∃ rest, ts = tokensMembers ms ++ rest ∧ depth + depthMembers ms ≤ depthLimit := by
  induction ms generalizing ts with
  | nil =>
    rw [membersAfter.eq_def] at h
    split at h
    · cases h
    · exact ⟨_, rfl, hd⟩
    · cases h
    · cases h
    · obtain ⟨k, v, ms, rest, he, -⟩ :=
        trees_membersFrom (by grind) (fun ts' hts' ↦ hr ts' (by grind)) h
      cases he
    · cases h
  | cons p ms ih =>
    rw [membersAfter.eq_def] at h
    split at h
    · cases h
    · cases h
    · cases h
    · cases h
    · obtain ⟨k, v, ms', rest, he, rfl, hv, hms⟩ :=
        trees_membersFrom (by grind) (fun ts' hts' ↦ hr ts' (by grind)) h
      cases he
      obtain ⟨rest', rfl, hms'⟩ := ih (by grind) (by grind) hms
      refine ⟨rest', by simp [tokensMembers], ?_⟩
      rw [depthMembers]
      omega
    · cases h

theorem trees_itemsOpened (hd : depth ≤ depthLimit) {vs : List Json} {ts : List Token}
    (hn : ts.length < n) (hs : ∀ t ∈ ts, t.Sound) (h : (itemsOpened depth ts).trees = .ok vs) :
    ∃ rest, .openBracket :: ts = (Json.array vs).tokens ++ rest ∧
      depth + depthItems vs ≤ depthLimit := by
  rw [itemsOpened.eq_def] at h
  split at h
  · cases h
  · cases h
    exact ⟨_, rfl, hd⟩
  · obtain ⟨v, vs, rest, rfl, rfl, hv, hvs⟩ := trees_itemsFrom (hr _ hn hs) h
    obtain ⟨rest', rfl, hvs'⟩ := trees_itemsAfter hr hd (by grind) (by grind) hvs
    refine ⟨rest', by simp [tokens], ?_⟩
    rw [depthItems]
    omega

theorem trees_membersOpened (hd : depth ≤ depthLimit) {ms : List (String × Json)}
    {ts : List Token} (hn : ts.length < n) (hs : ∀ t ∈ ts, t.Sound)
    (h : (membersOpened depth ts).trees = .ok ms) :
    ∃ rest, .openBrace :: ts = (Json.object ms).tokens ++ rest ∧
      depth + depthMembers ms ≤ depthLimit := by
  rw [membersOpened.eq_def] at h
  split at h
  · cases h
  · cases h
    exact ⟨_, rfl, hd⟩
  · obtain ⟨k, v, ms, rest, rfl, rfl, hv, hms⟩ :=
      trees_membersFrom hs (fun ts' hts' ↦ hr ts' (by omega)) h
    obtain ⟨rest', rfl, hms'⟩ := trees_membersAfter hr hd (by grind) (by grind) hms
    refine ⟨rest', by simp [tokens], ?_⟩
    rw [depthMembers]
    omega

end

theorem tokens_of_tree_ofScalar {value : Scalar} {v : Json}
    (h : (ofScalar value).tree = .ok v) :
    v.tokens = [.scalar (.sound value)] ∧ v.depth = 0 := by
  cases value <;> · cases h; exact ⟨rfl, rfl⟩

/-- What is read from sound tokens is spelled by the tokens at their head. -/
theorem recovers {depth : Nat} (hd : depth ≤ depthLimit) (ts : List Token)
    (hs : ∀ t ∈ ts, t.Sound) : Recovers depth ts := by
  have ih : ∀ depth ≤ depthLimit, ∀ ts', ts'.length < ts.length → (∀ t ∈ ts', t.Sound) →
      Recovers depth ts' := fun _ hd ts' _ hs' ↦ recovers hd ts' hs'
  intro v h
  rw [ofTokens.eq_def] at h
  split at h
  · cases h
  · next o rest =>
    split at h
    · next value hvalue =>
      have ho : o = .sound value := Outcome.eq_sound hvalue (hs (.scalar o) List.mem_cons_self)
      obtain ⟨hv, hv'⟩ := tokens_of_tree_ofScalar h
      exact ⟨rest, by rw [ho, hv]; rfl, by omega⟩
    · cases h
  · next o rest =>
    split at h
    · next s hs' =>
      have ho : o = .sound s := Outcome.eq_sound hs' (hs (.string o) List.mem_cons_self)
      cases h
      exact ⟨rest, by rw [ho]; rfl, hd⟩
    · cases h
  · next rest =>
    split at h
    · next hdepth =>
      obtain ⟨items, hitems, rfl⟩ := Except.map_eq_ok_iff.1 h
      obtain ⟨after, he, hd'⟩ := trees_itemsOpened (ih (depth + 1) hdepth) hdepth
        (by simp) (fun t ht ↦ hs t (List.mem_cons_of_mem _ ht)) hitems
      exact ⟨after, he, by rw [Json.depth]; omega⟩
    · cases h
  · next rest =>
    split at h
    · next hdepth =>
      obtain ⟨members, hmembers, rfl⟩ := Except.map_eq_ok_iff.1 h
      obtain ⟨after, he, hd'⟩ := trees_membersOpened (ih (depth + 1) hdepth) hdepth
        (by simp) (fun t ht ↦ hs t (List.mem_cons_of_mem _ ht)) hmembers
      exact ⟨after, he, by rw [Json.depth]; omega⟩
    · cases h
  · cases h
termination_by ts.length

end Source

theorem Quoted.closing_of_assemble {closing : Quoted.Closing} {pieces : List Quoted.Piece}
    {symbols : List Symbol} (h : Quoted.assemble closing pieces = .ok symbols) :
    closing.fault? = none := by
  fun_induction Quoted.assemble closing pieces generalizing symbols with
  | case1 | case5 | case6 | case8 | case9 => cases h
  | case2 => assumption
  | case3 _ _ ih | case4 _ _ ih | case7 _ _ _ _ _ _ ih | case10 _ _ _ _ ih =>
    obtain ⟨rest, hrest, -⟩ := Except.map_eq_ok_iff.1 h
    exact ih hrest

theorem Token.sound_ofQuoted (s : Quoted.Scan) : (Token.ofQuoted s).Sound := by
  intro a h
  simp only [Quoted.Scan.read] at h
  split at h
  · cases h
  · next symbols hsymbols => exact Quoted.closing_of_assemble hsymbols

theorem Token.sound_ofNumeral (n : Numeral) : (Token.ofNumeral n).Sound := by
  rw [Token.ofNumeral]
  split
  · exact fun _ _ ↦ rfl
  · exact fun _ h ↦ nomatch h

theorem Token.sound_of_mark {c : Char} {t : Token} (h : Token.mark? c = some t) : t.Sound := by
  unfold Token.mark? at h
  split at h <;> cases h <;> trivial

theorem Token.sound_broken (f : FormFault) : (Token.scalar (.broken f)).Sound :=
  fun _ h ↦ nomatch h

theorem Token.sound_of_mem_scan (cs : List Symbol) : ∀ t ∈ Token.scan cs, t.Sound := by
  fun_induction Token.scan cs with
  | case1 => exact fun _ h ↦ absurd h List.not_mem_nil
  | case2 | case7 | case10 => exact List.forall_mem_singleton.2 (sound_broken _)
  | case3 c rest hc ih => exact ih
  | case4 c rest hc t ht ih => exact List.forall_mem_cons.2 ⟨sound_of_mark ht, ih⟩
  | case5 rest quoted hc ht ih => exact List.forall_mem_cons.2 ⟨sound_ofQuoted quoted, ih⟩
  | case6 _ _ _ _ _ _ value _ _ _ ih => exact List.forall_mem_cons.2 ⟨fun _ _ ↦ rfl, ih⟩
  | case8 _ _ _ _ _ _ _ n _ _ ih => exact List.forall_mem_cons.2 ⟨sound_ofNumeral n, ih⟩
  | case9 => exact List.forall_mem_singleton.2 fun _ h ↦ nomatch h

/-- The symbols are the text of a tree that is not too deep to be read. -/
def Spells (cs : List Symbol) (v : Json) : Prop := Token.scan cs = v.tokens ∧ v.depth ≤ depthLimit

theorem symbols_of_spells {α : Type} (read : Reader α) {cs : List Symbol} {v : Json}
    (h : Spells cs v) : read.symbols cs = read (.ofTree Source.trailing v) := by
  obtain ⟨htokens, hd⟩ := h
  have hsource : Source.ofTokens 0 (v.tokens ++ []) = .ofTree Source.trailing v :=
    Source.ofTokens_tokens v [] (by omega)
  have hskip := skipValue_tokens v []
  rw [List.append_nil] at hsource hskip
  rw [Reader.symbols, htokens, hsource, hskip]
  cases read (.ofTree Source.trailing v) <;> rfl

/-- What a text is read as, all repeats included, is what it spells. -/
theorem symbols_tree_eq_ok_iff {cs : List Symbol} {v : Json} :
    Reader.symbols Source.tree cs = .ok v ↔ Spells cs v := by
  constructor
  · intro h
    rw [Reader.symbols] at h
    split at h
    · cases h
    · next w hw =>
      obtain ⟨rest, htokens, hd⟩ :=
        Source.recovers (Nat.zero_le _) _ (Token.sound_of_mem_scan cs) w hw
      rw [htokens, skipValue_tokens] at h
      split at h
      · next hrest =>
        cases hrest
        cases h
        exact ⟨by rw [htokens, List.append_nil], by omega⟩
      · cases h
      · cases h
  · intro h
    rw [symbols_of_spells Source.tree h, Source.tree_ofTree]

end DesignDocs.Json
