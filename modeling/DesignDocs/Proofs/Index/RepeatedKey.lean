import DesignDocs.Proofs.Index.Basic
import DesignDocs.Proofs.Json.Inserted
import DesignDocs.Proofs.Json.Parse
import DesignDocs.Proofs.Wire

namespace DesignDocs

open Json (CompoundText Fault Inserted Members Reader Source depthLimit field? textOfObject tokensOf)
open Text (Symbol)

namespace Json

theorem Fault.message_keyRepeated (key : String) :
    (keyRepeated key).message =
      labelled .duplicateName s!"key '{key}' is defined more than once" := by
  rw [message.eq_def]

variable {depth : Nat} {text : String} {s : Source} {v : Json}

theorem Repeats.compoundText {key : String} (h : v.Repeats key)
    (hv : tokensOf text = v.tokens) : CompoundText text := by
  refine compoundText_of_tokens hv ?_
  cases h with
  | @here members | @member members => cases members <;> (rintro t ⟨⟩; exact nofun)
  | @item items => cases items <;> (rintro t ⟨⟩; exact nofun)

/-- Where repeats are refused, a text gives its own tree or a key that the tree repeats. -/
theorem Inserted.distinctValue_cases (h : Inserted depth text s) (hv : tokensOf text = v.tokens)
    (hd : depth + v.depth ≤ depthLimit) :
    (∃ hdistinct, s.distinctValue = .ok ⟨v, hdistinct⟩) ∨
      ∃ key, v.Repeats key ∧ s.distinctValue = .error (.keyRepeated key) := by
  rw [h.eq_ofTree hv hd]
  by_cases hdistinct : v.Distinct
  · exact .inl ⟨hdistinct, Reads.distinctValue hdistinct _⟩
  · exact .inr (exists_keyRepeated hdistinct _)

end Json

namespace QueryIndex

/-- A definition of a type and a body: the body is read as a value, and then by the type. -/
theorem read_ofSources (type : IndexType) {key : String} (hkey : key = "def" ∨ key = "index")
    (s : Source) :
    read (.object (.ofSources [("type", .string type.name), (key, s)])) =
      s.distinctValue >>= fun v ↦ (readBody type v).map (new none none) := by
  have htype : (IndexType.read (.string type.name)).map Member.type = .ok (.type type) := by
    cases type <;> rfl
  have hbody : Json.field? record.fields key = some record.fields[3] := by
    obtain rfl | rfl := hkey <;> rfl
  rw [Members.ofSources, Members.ofSources, Members.ofSources, read, Json.Record.read,
    Json.Record.sort_cons_ok rfl rfl htype, Json.Record.sort_singleton hbody rfl]
  change (((((Source.distinctValue s).map Member.body).map _).map _).map _ >>= _) = _
  cases s.distinctValue with
  | error f => rfl
  | ok v => exact Except.bind_pure_eq_map _ _

def definitionText (type : IndexType) (key body : String) : String :=
  textOfObject [("type", type.toJson.render), (key, body)]

variable {key text : String}

/-- The definition is read by reading its body as a value, one level deep. -/
theorem exists_ofText_definitionText (type : IndexType) (hkey : key = "def" ∨ key = "index")
    (h : CompoundText text) :
    ∃ s, Inserted 1 text s ∧ Wire.ofText (definitionText type key text) =
      (s.distinctValue >>= fun v ↦ (readBody type v).map (new none none)).mapError
        DesignError.ofFault := by
  have htype : CompoundText type.toJson.render := Json.compoundText_string type.name
  have hdefinition : CompoundText (definitionText type key text) := Json.compoundText_pair htype h
  obtain ⟨s₁, s, hs, hs₁, hs'⟩ :=
    (Inserted.self (definitionText type key text)).exists_of_pair htype h (by decide)
  have hread : (read : Reader QueryIndex).symbols
      (Symbol.ofString (definitionText type key text)) =
        s.distinctValue >>= fun v ↦ (readBody type v).map (new none none) := by
    rw [Json.symbols_of_compound read hdefinition, hs, hs₁.eq_string, read_ofSources type hkey]
  exact ⟨s, hs', congrArg (·.mapError DesignError.ofFault) hread⟩

variable {v : Json}

theorem ofText_of_distinct (type : IndexType) (hkey : key = "def" ∨ key = "index")
    (h : CompoundText text) (hv : tokensOf text = v.tokens) (hd : v.depth < depthLimit)
    (hdistinct : v.Distinct) :
    (Wire.ofText (definitionText type key text) : Except DesignError QueryIndex) =
      ((readBody type ⟨v, hdistinct⟩).map (new none none)).mapError .ofFault := by
  obtain ⟨s, hs, htext⟩ := exists_ofText_definitionText type hkey h
  rw [htext, hs.eq_ofTree hv (by omega), Json.Reads.distinctValue hdistinct, Except.ok_bind]

theorem ofText_of_repeats (type : IndexType) (hkey : key = "def" ∨ key = "index")
    (hv : tokensOf text = v.tokens) (hd : v.depth < depthLimit) (h : ∃ k, v.Repeats k) :
    ∃ k, v.Repeats k ∧
      (Wire.ofText (definitionText type key text) : Except DesignError QueryIndex) =
        .error (.ofFault (.keyRepeated k)) := by
  obtain ⟨k, hrepeats⟩ := h
  obtain ⟨s, hs, htext⟩ := exists_ofText_definitionText type hkey (hrepeats.compoundText hv)
  obtain ⟨k', hrepeats', hk⟩ := Json.exists_keyRepeated hrepeats.not_distinct Source.trailing
  refine ⟨k', hrepeats', ?_⟩
  rw [htext, hs.eq_ofTree hv (by omega), hk]
  rfl

/-- The text of a tree as the body of an index. Both keys of the body are read alike, and the text
is accepted, wherever it stands, just when no object of the tree repeats a key. Then it is read as
the whole tree, as it is by itself; otherwise it is refused as a repeated name, with a key that the
tree repeats, and with it the definition whose body it is. -/
theorem body_of_text (hv : tokensOf text = v.tokens) :
    (∀ key, key = "def" ∨ key = "index" → ∃ f, field? record.fields key = some f ∧
      ∀ s, f.read s = s.distinctValue.map .body) ∧
    (∀ depth s, Inserted depth text s → depth + v.depth ≤ depthLimit →
      ((∃ w, s.distinctValue = .ok w) ↔ ∀ k, ¬ v.Repeats k) ∧
      (∀ w, s.distinctValue = .ok w →
        w.json = v ∧ Reader.value s = .ok w ∧ Json.parse text = .ok w) ∧
      ∀ f, s.distinctValue = .error f → f.kind = .duplicateName ∧ ∃ k, v.Repeats k ∧
        f.message = Fault.labelled .duplicateName s!"key '{k}' is defined more than once") ∧
    ∀ type key, key = "def" ∨ key = "index" → v.depth < depthLimit →
      (∀ hdistinct : v.Distinct, CompoundText text →
        Wire.ofText (definitionText type key text) =
          ((readBody type ⟨v, hdistinct⟩).map (new none none)).mapError .ofFault) ∧
      ((∃ k, v.Repeats k) → ∃ e : DesignError,
        (Wire.ofText (definitionText type key text) : Except DesignError QueryIndex) = .error e ∧
          e.kind = .duplicateName ∧ ∃ k, v.Repeats k ∧
            e.message = Fault.labelled .duplicateName s!"key '{k}' is defined more than once") := by
  refine ⟨?_, fun depth s hs hd ↦ ?_, fun type key hkey hd ↦ ⟨fun hdistinct h ↦ ?_, fun h ↦ ?_⟩⟩
  · rintro key (rfl | rfl) <;> exact ⟨record.fields[3], rfl, fun _ ↦ rfl⟩
  · obtain ⟨hdistinct, hread⟩ | ⟨k, hrepeats, hread⟩ := hs.distinctValue_cases hv hd
    · have hvalue : Reader.value s = .ok ⟨v, hdistinct⟩ := by
        rw [Reader.value, Json.tree_of_distinctValue hread, Except.map_ok,
          Value.ofJson_of_distinct hdistinct]
      have hparse := Json.parse_of_spells ⟨hv, by omega⟩ hdistinct
      rw [hread]
      refine ⟨iff_of_true ⟨_, rfl⟩ (Json.distinct_iff.1 hdistinct), ?_, nofun⟩
      rintro _ ⟨⟩
      exact ⟨rfl, hvalue, hparse⟩
    · rw [hread]
      refine ⟨iff_of_false nofun fun h ↦ h k hrepeats, nofun, ?_⟩
      rintro _ ⟨⟩
      exact ⟨rfl, k, hrepeats, Fault.message_keyRepeated k⟩
  · exact ofText_of_distinct type hkey h hv hd hdistinct
  · obtain ⟨k, hrepeats, he⟩ := ofText_of_repeats type hkey hv hd h
    refine ⟨_, he, DesignError.kind_ofFault _, k, hrepeats, ?_⟩
    rw [DesignError.message_ofFault, Fault.message_keyRepeated]

def fieldTwice : Json :=
  .object [("fields", .array [.object [("a", .string "asc"), ("a", .string "desc")]])]

theorem body_of_fieldTwice : fieldTwice.Repeats "a" ∧ ∃ e : DesignError,
    (Wire.ofText (definitionText .json "index" fieldTwice.render) :
      Except DesignError QueryIndex) = .error e ∧ e.kind = .duplicateName := by
  have hrepeats : fieldTwice.Repeats "a" :=
    .member (.head _) (.item (.head _) (.here (by decide)))
  have hv : tokensOf fieldTwice.render = fieldTwice.tokens := Json.tokensOf_render (by decide)
  obtain ⟨-, -, hdefinition⟩ := body_of_text hv
  obtain ⟨-, hrefused⟩ := hdefinition .json "index" (.inr rfl) (by decide)
  obtain ⟨e, he, hkind, -⟩ := hrefused ⟨"a", hrepeats⟩
  exact ⟨hrepeats, e, he, hkind⟩

end QueryIndex

end DesignDocs
