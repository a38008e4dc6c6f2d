import DesignDocs.Document.Basic
import DesignDocs.Proofs.Format.Analyzer
import DesignDocs.Proofs.Index.RepeatedKey

namespace DesignDocs

open Json (Reader Source Members CompoundText Inserted decode textOfObject tokensOf depthLimit)
open Text (Symbol)

theorem Json.Reader.optional_of_ne_null {α : Type} (read : Reader α) {s : Source}
    (h : s ≠ .null) : optional read s = (read s).map some := by
  cases s with
  | null => exact absurd rfl h
  | _ => rfl

theorem Json.eq_null_of_tree {s : Source} (h : s.tree = .ok .null) : s = .null := by
  cases s with
  | null => rfl
  | array items surplus => obtain ⟨_, -, ⟨⟩⟩ := Except.map_eq_ok_iff.1 h
  | object members => obtain ⟨_, -, ⟨⟩⟩ := Except.map_eq_ok_iff.1 h
  | _ => cases h

namespace Analyzer

theorem read_eq (s : Source) : read s = s.tree >>= decode read := by
  rw [read]
  cases hs : s.tree with
  | error f => rfl
  | ok v =>
    rw [Except.ok_bind, Except.ok_bind, decode, read, Source.tree_ofTree, Except.ok_bind]

theorem read_ofJson (v : Json) : read (.ofJson v) = decode read v := by
  rw [read_eq, Source.ofJson_eq_ofTree, Source.tree_ofTree, Except.ok_bind]

end Analyzer

theorem SearchIndex.read_ofSources (script : String) (s : Source) :
    read (.object (.ofSources [("index", .string script), ("analyzer", s)])) =
      (Reader.optional Analyzer.read s).map fun a ↦ ⟨⟨script⟩, a⟩ := by
  rw [Members.ofSources, Members.ofSources, Members.ofSources, read, Json.Record.read,
    Json.Record.sort_cons_ok rfl rfl rfl, Json.Record.sort_singleton rfl rfl]
  change ((((((Reader.optional Analyzer.read s).map Member.analyzer).map _).map _).map _) >>= _) =
    _
  obtain f | _ | a := Reader.optional Analyzer.read s <;> rfl

namespace DesignDocument

def textAround (id name script analyzer : String) : String :=
  textOfObject [("_id", (Json.string id).render),
    ("indexes", textOfObject [(name, textOfObject [("index", (Json.string script).render),
      ("analyzer", analyzer)])])]

def searching (id name script : String) (a : Analyzer) : DesignDocument :=
  { new id with indexes := some (.singleton name ((SearchIndex.new ⟨script⟩).withAnalyzer a)) }

theorem read_ofSources (id name : String) (s : Source) :
    read (.object (.ofSources [("_id", .string id),
      ("indexes", .object (.ofSources [(name, s)]))])) =
      (SearchIndex.read s).map fun i ↦ { new id with indexes := some (.singleton name i) } := by
  have hnamed : Reader.optional (.named SearchIndex.read) (.object (.ofSources [(name, s)])) =
      (SearchIndex.read s).map fun i ↦ some (.singleton name i) := by
    change ((do let i ← SearchIndex.read s; _) : Except Json.Fault _).map _ = _
    cases SearchIndex.read s <;> rfl
  rw [Members.ofSources, Members.ofSources, Members.ofSources, read, Json.Record.readKeeping,
    Json.Record.sort_cons_ok rfl rfl rfl, Json.Record.sort_singleton rfl rfl]
  change (((((Reader.optional (.named SearchIndex.read) _).map Member.indexes).map _).map _) >>=
    _) = _
  rw [hnamed]
  cases SearchIndex.read s <;> rfl

variable (id name script : String) {text : String}

/-- The document is read by reading its analyzer, three levels deep. -/
theorem exists_ofText_textAround (h : CompoundText text) :
    ∃ s, Inserted 3 text s ∧ Wire.ofText (textAround id name script text) =
      ((Analyzer.read s).map (searching id name script)).mapError DesignError.ofFault := by
  have hindex : CompoundText (textOfObject [("index", (Json.string script).render),
      ("analyzer", text)]) := Json.compoundText_pair (Json.compoundText_string script) h
  have hindexes := Json.compoundText_singleton (k := name) hindex
  have hdocument : CompoundText (textAround id name script text) :=
    Json.compoundText_pair (Json.compoundText_string id) hindexes
  obtain ⟨s₁, s₂, hs, hid, hs₂⟩ := (Inserted.self _).exists_of_pair
    (Json.compoundText_string id) hindexes (by decide)
  obtain ⟨s₃, rfl, hs₃⟩ := hs₂.exists_of_singleton hindex (by decide)
  obtain ⟨s₄, s, rfl, hscript, hs'⟩ :=
    hs₃.exists_of_pair (Json.compoundText_string script) h (by decide)
  refine ⟨s, hs', ?_⟩
  have hread : (read : Reader DesignDocument).symbols
      (Symbol.ofString (textAround id name script text)) =
        (Analyzer.read s).map (searching id name script) := by
    rw [Json.symbols_of_compound read hdocument, textAround, hs, hid.eq_string,
      hscript.eq_string, read_ofSources, SearchIndex.read_ofSources,
      Json.Reader.optional_of_ne_null _ (hs'.ne_null h)]
    cases Analyzer.read s <;> rfl
  exact congrArg (·.mapError DesignError.ofFault) hread

theorem ofText_textAround_iff (h : CompoundText text) {v : Json} (hv : tokensOf text = v.tokens)
    {d : DesignDocument} :
    Wire.ofText (textAround id name script text) = .ok d ↔
      v.depth ≤ 124 ∧ ∃ a, decode Analyzer.read v = .ok a ∧ d = searching id name script a := by
  obtain ⟨s, hs, htext⟩ := exists_ofText_textAround id name script h
  rw [htext, Except.mapError_eq_ok_iff, Except.map_eq_ok_iff]
  constructor
  · rintro ⟨a, ha, rfl⟩
    rw [Analyzer.read_eq] at ha
    obtain ⟨w, hw, ha⟩ := Except.bind_eq_ok_iff.1 ha
    obtain ⟨htokens, hd⟩ := (hs.tree_eq_ok_iff h (by decide)).1 hw
    obtain rfl := Json.tokens_injective (hv.symm.trans htokens)
    exact ⟨by rw [depthLimit] at hd; omega, a, ha, rfl⟩
  · rintro ⟨hd, a, ha, rfl⟩
    refine ⟨a, ?_, rfl⟩
    rw [hs.eq_ofTree hv (by rw [depthLimit]; omega)]
    exact ha

theorem ofText_textAround_ne_ok (h : CompoundText text) (hv : ∀ v : Json, tokensOf text ≠ v.tokens)
    (d : DesignDocument) : Wire.ofText (textAround id name script text) ≠ .ok d := by
  obtain ⟨s, hs, htext⟩ := exists_ofText_textAround id name script h
  rw [htext, Ne, Except.mapError_eq_ok_iff, Except.map_eq_ok_iff]
  rintro ⟨a, ha, -⟩
  rw [Analyzer.read_eq] at ha
  obtain ⟨w, hw, -⟩ := Except.bind_eq_ok_iff.1 ha
  exact hv w ((hs.tree_eq_ok_iff h (by decide)).1 hw).1

end DesignDocument

theorem TextBody.read_ofSources (s : Source) :
    read (.object (.ofSources [("default_analyzer", s)])) =
      (Reader.optional Analyzer.read s).map fun a ↦ { unset with defaultAnalyzer := a } := by
  rw [Members.ofSources, Members.ofSources, read, Json.Record.read,
    Json.Record.sort_singleton rfl rfl]
  change (((((Reader.optional Analyzer.read s).map Member.defaultAnalyzer).map _).map _) >>= _) = _
  obtain f | _ | a := Reader.optional Analyzer.read s <;> rfl

theorem Json.distinctValue_singleton (key : String) (s : Source) :
    (Source.object (.ofSources [(key, s)])).distinctValue =
      s.distinctValue.map fun v ↦ .object (.singleton key v) := by
  change ((do let v ← s.distinctValue; _) : Except Fault _).map _ = _
  cases s.distinctValue <;> rfl

namespace QueryIndex

def textAround (analyzer : String) : String :=
  textOfObject [("type", (Json.string "text").render),
    ("def", textOfObject [("default_analyzer", analyzer)])]

def analysing (a : Analyzer) : QueryIndex :=
  new none none (.text { TextBody.unset with defaultAnalyzer := some a })

theorem readBody_singleton {v : Value} (hv : v.json ≠ .null) :
    (readBody .text (.object (.singleton "default_analyzer" v))).map (new none none) =
      ((decode Analyzer.read v.json).map analysing).mapError .inDefinition := by
  have hnull : Source.ofJson v.json ≠ .null := by
    cases hjson : v.json with
    | null => exact absurd hjson hv
    | _ => exact nofun
  have hbody := TextBody.read_ofSources (.ofJson v.json)
  rw [Json.Reader.optional_of_ne_null _ hnull, Analyzer.read_ofJson] at hbody
  rw [readBody]
  dsimp only [Value.object, NamedMap.singleton]
  change (((TextBody.read (.object (.ofSources [("default_analyzer", .ofJson v.json)]))).map
    _).mapError _).map _ = _
  rw [hbody]
  cases decode Analyzer.read v.json <;> rfl

variable {text : String}

theorem exists_ofText_textAround (h : CompoundText text) :
    ∃ s, Inserted 2 text s ∧ Wire.ofText (textAround text) =
      (s.distinctValue >>= fun v ↦ ((decode Analyzer.read v.json).map analysing).mapError
        Json.Fault.inDefinition).mapError DesignError.ofFault := by
  obtain ⟨s₂, hs₂, htext⟩ := exists_ofText_definitionText .text (.inl rfl)
    (Json.compoundText_singleton (k := "default_analyzer") h)
  obtain ⟨s, rfl, hs⟩ := hs₂.exists_of_singleton h (by decide)
  have hread : ((Source.object (.ofSources [("default_analyzer", s)])).distinctValue >>= fun v ↦
      (readBody .text v).map (new none none)) =
        s.distinctValue >>= fun v ↦ ((decode Analyzer.read v.json).map analysing).mapError
          .inDefinition := by
    rw [Json.distinctValue_singleton]
    cases hvalue : s.distinctValue with
    | error f => rfl
    | ok v =>
      have hnull : v.json ≠ .null := fun hjson ↦
        hs.ne_null h (Json.eq_null_of_tree (hjson ▸ Json.tree_of_distinctValue hvalue))
      exact readBody_singleton hnull
  exact ⟨s, hs, htext.trans (congrArg (·.mapError DesignError.ofFault) hread)⟩

theorem ofText_textAround_iff (h : CompoundText text) {v : Json} (hv : tokensOf text = v.tokens)
    {i : QueryIndex} :
    Wire.ofText (textAround text) = .ok i ↔
      v.depth ≤ 125 ∧ v.Distinct ∧
        ∃ a, decode Analyzer.read v = .ok a ∧ i = analysing a := by
  obtain ⟨s, hs, htext⟩ := exists_ofText_textAround h
  rw [htext, Except.mapError_eq_ok_iff]
  constructor
  · intro hi
    obtain ⟨w, hw, hi⟩ := Except.bind_eq_ok_iff.1 hi
    rw [Except.mapError_eq_ok_iff, Except.map_eq_ok_iff] at hi
    obtain ⟨a, ha, rfl⟩ := hi
    obtain ⟨htokens, hd⟩ :=
      (hs.tree_eq_ok_iff h (by decide)).1 (Json.tree_of_distinctValue hw)
    obtain rfl := Json.tokens_injective (hv.symm.trans htokens)
    exact ⟨by rw [depthLimit] at hd; omega, w.distinct, a, ha, rfl⟩
  · rintro ⟨hd, hdistinct, a, ha, rfl⟩
    rw [hs.eq_ofTree hv (by rw [depthLimit]; omega), Json.Reads.distinctValue hdistinct,
      Except.ok_bind, ha]
    rfl

theorem ofText_textAround_ne_ok (h : CompoundText text) (hv : ∀ v : Json, tokensOf text ≠ v.tokens)
    (i : QueryIndex) : Wire.ofText (textAround text) ≠ .ok i := by
  obtain ⟨s, hs, htext⟩ := exists_ofText_textAround h
  rw [htext, Ne, Except.mapError_eq_ok_iff]
  intro hi
  obtain ⟨w, hw, -⟩ := Except.bind_eq_ok_iff.1 hi
  exact hv _ ((hs.tree_eq_ok_iff h (by decide)).1 (Json.tree_of_distinctValue hw)).1

theorem exists_duplicateName (h : CompoundText text) {v : Json} (hv : tokensOf text = v.tokens)
    (hd : v.depth ≤ 125) (hrepeat : ¬ v.Distinct) :
    ∃ e : DesignError, (Wire.ofText (textAround text) : Except DesignError QueryIndex) = .error e ∧
      e.kind = .duplicateName := by
  obtain ⟨s, hs, htext⟩ := exists_ofText_textAround h
  obtain ⟨key, -, hkey⟩ := Json.exists_keyRepeated hrepeat Source.trailing
  refine ⟨.ofFault (.keyRepeated key), ?_, DesignError.kind_ofFault _⟩
  rw [htext, hs.eq_ofTree hv (by rw [depthLimit]; omega), hkey]
  rfl

end QueryIndex

namespace AnalyzerConfig

open Json.Record (found)

def Member.fields? : Member → Option (NamedMap String)
  | .fields m => m
  | _ => none

theorem fields?_of_decode {f : Json.Field Member} (hf : f ∈ record.fields)
    (hname : f.name ≠ "fields") {v : Json} {e : Member} (h : decode f.read v = .ok e) :
    e.fields? = none := by
  simp only [record, List.mem_cons, List.not_mem_nil, or_false] at hf
  obtain rfl | rfl | rfl | rfl := hf
  case inr.inr.inl => exact absurd rfl hname
  all_goals
    obtain ⟨x, -, rfl⟩ := Except.map_eq_ok_iff.1 h
    rfl

variable {members fs : List (String × Json)} {c : AnalyzerConfig}

theorem exists_fields_eq (h : decode read (.object members) = .ok c)
    (hm : ("fields", .object fs) ∈ members) :
    ∃ l, Json.Decodes Reader.text fs l ∧ c.fields = some (.ofList l) := by
  obtain ⟨sorted, hsorted, h⟩ := Except.bind_eq_ok_iff.1 h
  obtain ⟨hnodup, hall, rfl⟩ := Json.Record.readKeeping_object_iff.1 hsorted
  obtain ⟨name, -, h⟩ := Except.bind_eq_ok_iff.1 h
  have hpick : c.fields = (found record.fields members).findSome? Member.fields? := by
    cases h
    rfl
  have hfield : Json.Field.optional "fields" (fun s ↦ (Reader.optional readFields s).map .fields) ∈
      record.fields := .tail _ (.tail _ (.head _))
  obtain ⟨e, he⟩ := hall _ hm _ rfl
  rw [Json.Record.findSome?_found_of_spelled unambiguous_fields hnodup hfield rfl hm he
    fun g hg hne v e ↦ fields?_of_decode hg hne] at hpick
  obtain ⟨m, hmap, rfl⟩ := Except.map_eq_ok_iff.1 he
  obtain ⟨_, hfs, rfl⟩ := Except.map_eq_ok_iff.1 hmap
  obtain ⟨l, hl, rfl⟩ := Except.map_eq_ok_iff.1 hfs
  exact ⟨l, go_iff.1 hl, hpick⟩

theorem eq_map_of_decodes {l : List (String × String)} (h : Json.Decodes Reader.text fs l) :
    fs = l.map fun p ↦ (p.1, .string p.2) := by
  induction h with
  | nil => rfl
  | @cons p q fs l hp _ ih =>
    obtain ⟨name, v⟩ := p
    obtain ⟨rfl, hv⟩ := hp
    cases v with
    | string s =>
      cases hv
      rw [ih]
      rfl
    | _ => cases hv

/-- A field that comes again in the mapping has its last analyzer. -/
theorem field?_eq_some_iff (h : decode read (.object members) = .ok c)
    (hm : ("fields", .object fs) ∈ members) {field analyzer : String} :
    c.field? field = some analyzer ↔ fs.reverse.lookup field = some (.string analyzer) := by
  obtain ⟨l, hl, hfields⟩ := exists_fields_eq h hm
  rw [field?, hfields, Option.bind_some, NamedMap.find?_ofList, eq_map_of_decodes hl,
    ← List.map_reverse, lookup_map_snd, Option.map_eq_some_iff]
  constructor
  · exact fun hs ↦ ⟨analyzer, hs, rfl⟩
  · rintro ⟨_, hs, ⟨⟩⟩
    exact hs

end AnalyzerConfig

namespace Analyzer

variable (id name script : String) {text : String}

theorem decode_config {members : List (String × Json)} {c : AnalyzerConfig}
    (h : decode read (.object members) = .ok (config c)) :
    decode AnalyzerConfig.read (.object members) = .ok c := by
  rw [decode_read_of_ne fun _ ↦ Json.noConfusion] at h
  split at h
  · next hc =>
    cases h
    exact config_ok_iff.1 hc
  · cases h

/-- One text of an analyzer, in a document and in the definition of an index. A text that spells
a tree is read by the tree in both places, and a text that spells none is refused in both. -/
theorem read_in_places (h : CompoundText text) :
    (∀ v : Json, tokensOf text = v.tokens →
      (∀ d : DesignDocument,
        Wire.ofText (DesignDocument.textAround id name script text) = .ok d ↔
          v.depth ≤ 124 ∧ ∃ a, decode read v = .ok a ∧
            d = DesignDocument.searching id name script a) ∧
      (∀ i : QueryIndex,
        Wire.ofText (QueryIndex.textAround text) = .ok i ↔
          v.depth ≤ 125 ∧ v.Distinct ∧ ∃ a, decode read v = .ok a ∧ i = QueryIndex.analysing a) ∧
      (v.depth ≤ 125 → ¬ v.Distinct → ∃ e : DesignError,
        (Wire.ofText (QueryIndex.textAround text) : Except DesignError QueryIndex) = .error e ∧
          e.kind = .duplicateName) ∧
      ∀ members fs c, v = .object members → ("fields", .object fs) ∈ members →
        decode read v = .ok (config c) → ∀ field analyzer,
          c.field? field = some analyzer ↔ fs.reverse.lookup field = some (.string analyzer)) ∧
    ((∀ v : Json, tokensOf text ≠ v.tokens) →
      (∀ d : DesignDocument,
        Wire.ofText (DesignDocument.textAround id name script text) ≠ .ok d) ∧
      ∀ i : QueryIndex, Wire.ofText (QueryIndex.textAround text) ≠ .ok i) := by
  refine ⟨fun v hv ↦ ⟨fun d ↦ ?_, fun i ↦ ?_, ?_, ?_⟩, fun hv ↦ ⟨?_, ?_⟩⟩
  · exact DesignDocument.ofText_textAround_iff id name script h hv
  · exact QueryIndex.ofText_textAround_iff h hv
  · exact QueryIndex.exists_duplicateName h hv
  · rintro members fs c rfl hm hc field analyzer
    exact AnalyzerConfig.field?_eq_some_iff (decode_config hc) hm
  · exact DesignDocument.ofText_textAround_ne_ok id name script h hv
  · exact QueryIndex.ofText_textAround_ne_ok h hv

def perField (fields : List (String × Json)) : Json :=
  .object [("name", .string "perfield"), ("fields", .object fields)]

theorem read_in_places_german :
    CompoundText (perField [("a", .string "german")]).render ∧ ∃ a,
      Wire.ofText (DesignDocument.textAround "_design/x" "n" "f"
        (perField [("a", .string "german")]).render) =
          .ok (DesignDocument.searching "_design/x" "n" "f" a) ∧
      Wire.ofText (QueryIndex.textAround (perField [("a", .string "german")]).render) =
        .ok (QueryIndex.analysing a) := by
  have hi : (perField [("a", .string "german")]).Integral := by decide
  have htext := Json.compoundText_render hi (by rintro t ⟨⟩; exact nofun)
  obtain ⟨hplaces, -⟩ := read_in_places "_design/x" "n" "f" htext
  obtain ⟨hdocument, hindex, -⟩ := hplaces _ (Json.tokensOf_render hi)
  obtain ⟨a, ha⟩ : ∃ a, decode read (perField [("a", .string "german")]) = .ok a := ⟨_, rfl⟩
  have hdistinct : (perField [("a", .string "german")]).Distinct :=
    ⟨by decide, trivial, ⟨by decide, trivial, trivial⟩, trivial⟩
  exact ⟨htext, a, (hdocument _).2 ⟨by decide, a, ha, rfl⟩,
    (hindex _).2 ⟨by decide, hdistinct, a, ha, rfl⟩⟩

theorem field_repeated_in_document :
    (∃ c, Wire.ofText (DesignDocument.textAround "_design/x" "n" "f"
        (perField [("a", .string "german"), ("a", .string "spanish")]).render) =
          .ok (DesignDocument.searching "_design/x" "n" "f" (config c)) ∧
      c.field? "a" = some "spanish") ∧
    ∃ e : DesignError, (Wire.ofText (QueryIndex.textAround
        (perField [("a", .string "german"), ("a", .string "spanish")]).render) :
          Except DesignError QueryIndex) = .error e ∧ e.kind = .duplicateName := by
  have hi : (perField [("a", .string "german"), ("a", .string "spanish")]).Integral := by decide
  have htext := Json.compoundText_render hi (by rintro t ⟨⟩; exact nofun)
  have htokens := Json.tokensOf_render hi
  have hrepeat : ¬ (perField [("a", .string "german"), ("a", .string "spanish")]).Distinct :=
    fun h ↦ absurd h.2.2.1.1 (by decide)
  obtain ⟨c, hc, hfield⟩ : ∃ c, decode read
      (perField [("a", .string "german"), ("a", .string "spanish")]) = .ok (config c) ∧
        c.field? "a" = some "spanish" := ⟨_, rfl, rfl⟩
  refine ⟨⟨c, ?_, hfield⟩, QueryIndex.exists_duplicateName htext htokens (by decide) hrepeat⟩
  exact (DesignDocument.ofText_textAround_iff _ _ _ htext htokens).2 ⟨by decide, _, hc, rfl⟩

end Analyzer

end DesignDocs
