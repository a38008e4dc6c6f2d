import DesignDocs.Proofs.Agreement
import DesignDocs.Proofs.Document.Draft
import DesignDocs.Proofs.Json.Members

namespace DesignDocs

open Json (Field Record Reader RepeatsNoKey Source depthLimit field?)

/-- Both texts and the value hold the tree that is written, with its members in one order and no key
twice in an object. -/
structure WrittenAlike {α : Type} [Wire α] (a : α) : Prop where
  value : (Wire.toValue a).json = Wire.toJson a
  text : RepeatsNoKey (Wire.toText a)
  prettyText : RepeatsNoKey (Wire.toPrettyText a)
  parse_text : Json.parse (Wire.toText a) = .ok (Wire.toValue a)
  parse_prettyText : Json.parse (Wire.toPrettyText a) = .ok (Wire.toValue a)

theorem writtenAlike_of_distinct {α : Type} [Wire α] {a : α} (h : (Wire.toJson a).Distinct)
    (hi : (Wire.toJson a).Integral) (hd : (Wire.toJson a).depth ≤ depthLimit) :
    WrittenAlike a := by
  have hvalue : Wire.toValue a = ⟨Wire.toJson a, h⟩ := Value.ofJson_of_distinct h
  have hcompact := Json.spells_render hi hd
  have hpretty := Json.spells_renderPretty hi hd
  refine ⟨Wire.toValue_json h, Json.repeatsNoKey_of_spells hcompact h,
    Json.repeatsNoKey_of_spells hpretty h, ?_, ?_⟩
  · rw [hvalue]
    exact Json.parse_of_spells hcompact h
  · rw [hvalue]
    exact Json.parse_of_spells hpretty h

/-- What a record leaves over is spelled by none of its fields. -/
theorem Json.Members.field?_of_mem_others {ε : Type} {fields : List (Field ε)} :
    ∀ {ms : Json.Members} {seen : List String} {s : Members.Sorted ε},
      ms.sort fields .kept seen = .ok s → ∀ p ∈ s.others, field? fields p.1 = none
  | .done, _, _, h => by
    cases h
    exact List.forall_mem_nil _
  | .fault _, _, _, h => by cases h
  | .cons key value skip rest, seen, s, h => by
    cases hf : field? fields key with
    | some f =>
      rw [Record.sort_cons_of_field hf] at h
      split at h
      · cases h
      · obtain ⟨e, -, h⟩ := Except.bind_eq_ok_iff.1 h
        obtain ⟨t, ht, h⟩ := Except.bind_eq_ok_iff.1 h
        cases h
        exact fun p hp ↦ field?_of_mem_others ht p hp
    | none =>
      rw [Record.sort_cons_kept hf] at h
      obtain ⟨v, -, h⟩ := Except.bind_eq_ok_iff.1 h
      obtain ⟨t, ht, h⟩ := Except.bind_eq_ok_iff.1 h
      cases h
      exact List.forall_mem_cons.2 ⟨hf, field?_of_mem_others ht⟩

structure Extras.HoldAll {modelled : List String} (x : Extras modelled)
    (others : List (String × Json)) : Prop where
  notMem : ∀ p ∈ others, p.1 ∉ modelled
  members : x.members = Json.objectOf others

/-- The extras are none, or just what a reader of the record left over, and have no modelled
name. -/
structure Extras.Apart {ε : Type} (r : Record ε) (x : Extras r.names) : Prop where
  origin : x = .none ∨ ∃ s ms, r.readKeeping s = .ok ms ∧ x.HoldAll ms.others
  notMem : ∀ name ∈ x.members.names, name ∉ r.names

theorem Extras.apart_none {ε : Type} (r : Record ε) : (none : Extras r.names).Apart r :=
  ⟨.inl rfl, nofun⟩

theorem Extras.apart_of_readKeeping {ε : Type} {r : Record ε}
    (hother : ∀ f ∈ r.fields, f.otherName? = Option.none) {s : Source} {ms : Json.Members.Sorted ε}
    (h : r.readKeeping s = .ok ms) : (ofMembers ms.others : Extras r.names).Apart r := by
  have hothers : ∀ p ∈ ms.others, p.1 ∉ r.names := by
    cases s with
    | object members =>
      intro p hp hm
      obtain ⟨f, hf⟩ := Option.isSome_iff_exists.1 ((Json.Record.mem_names_iff hother).1 hm)
      rw [Json.Members.field?_of_mem_others h p hp] at hf
      cases hf
    | _ => cases h
  have hmembers : (ofMembers ms.others : Extras r.names).members = Json.objectOf ms.others :=
    members_ofMembers hothers
  refine ⟨.inr ⟨s, ms, h, hothers, hmembers⟩, fun name hname ↦ ?_⟩
  rw [hmembers] at hname
  obtain ⟨p, hp, rfl⟩ := List.mem_map.1 (Json.mem_names_objectOf hname)
  exact hothers p hp

/-- Configurations that are made new or read, and changed. -/
inductive AnalyzerConfig.Made : AnalyzerConfig → Prop
  | new (name : String) : Made (new name)
  | read {s : Source} {c : AnalyzerConfig} : read s = .ok c → Made c
  | withDefault {c : AnalyzerConfig} (analyzer : String) : Made c → Made (c.withDefault analyzer)
  | withField {c : AnalyzerConfig} (field analyzer : String) :
      Made c → Made (c.withField field analyzer)
  | withStopwords {c : AnalyzerConfig} (words : List String) :
      Made c → Made (c.withStopwords words)

theorem AnalyzerConfig.Made.apart {c : AnalyzerConfig} (h : c.Made) : c.extras.Apart record := by
  induction h with
  | new name => exact Extras.apart_none record
  | @read _ c h =>
    obtain ⟨ms, hms, h⟩ := Except.bind_eq_ok_iff.1 h
    obtain ⟨name, -, h⟩ := Except.bind_eq_ok_iff.1 h
    cases h
    exact Extras.apart_of_readKeeping otherName?_of_mem hms
  | withDefault _ _ ih | withField _ _ _ ih | withStopwords _ _ ih => exact ih

inductive View.Made : View → Prop
  | new (map : MapFunction) : Made (new map)
  | read {s : Source} {v : View} : read s = .ok v → Made v
  | withReduce {v : View} (r : Reducer) : Made v → Made (v.withReduce r)
  | withDbcopy {v : View} (name : String) : Made v → Made (v.withDbcopy name)
  | withOptions {v : View} (o : Object) : Made v → Made (v.withOptions o)

theorem View.Made.apart {v : View} (h : v.Made) : v.extras.Apart record := by
  induction h with
  | new map => exact Extras.apart_none record
  | @read _ v h =>
    obtain ⟨ms, hms, h⟩ := Except.bind_eq_ok_iff.1 h
    obtain ⟨map, -, h⟩ := Except.bind_eq_ok_iff.1 h
    cases h
    exact Extras.apart_of_readKeeping otherName?_of_mem hms
  | withReduce _ _ ih | withDbcopy _ _ ih | withOptions _ _ ih => exact ih

namespace DocumentDraft

/-- No step touches the extras, whether it fails or not. -/
theorem extras_apply (d : DocumentDraft) (step : DocumentStep) :
    (d.apply step).document.extras = d.document.extras := by
  cases hstep : step.named? with
  | none => exact (DocumentStep.leads_of_unnamed hstep d).1.extras
  | some added =>
    obtain ⟨s, name, a⟩ := added
    rw [DocumentStep.apply_of_named hstep, add]
    split
    · rfl
    · split
      · exact s.extras_put _ _
      · rfl

theorem extras_foldl_apply (d : DocumentDraft) (steps : List DocumentStep) :
    (steps.foldl apply d).document.extras = d.document.extras := by
  induction steps generalizing d with
  | nil => rfl
  | cons step steps ih => rw [List.foldl_cons, ih, extras_apply]

end DocumentDraft

/-- Documents that are made new, read or built, and changed. -/
inductive DesignDocument.Made : DesignDocument → Prop
  | new (id : String) : Made (new id)
  | read {s : Source} {d : DesignDocument} : read s = .ok d → Made d
  | build {id : String} {steps : List DocumentStep} {d : DesignDocument} :
      build id steps = .ok d → Made d
  | withRev {d : DesignDocument} (rev : String) : Made d → Made (d.withRev rev)
  | withoutRev {d : DesignDocument} : Made d → Made d.withoutRev
  | withId {d : DesignDocument} (id : String) : Made d → Made (d.withId id)

theorem DesignDocument.Made.apart {d : DesignDocument} (h : d.Made) : d.extras.Apart record := by
  induction h with
  | new id => exact Extras.apart_none record
  | @read _ d h =>
    obtain ⟨ms, hms, h⟩ := Except.bind_eq_ok_iff.1 h
    obtain ⟨id, -, h⟩ := Except.bind_eq_ok_iff.1 h
    cases h
    exact Extras.apart_of_readKeeping otherName?_of_mem hms
  | @build id steps d h =>
    have hextras := DocumentDraft.extras_foldl_apply (.start id) steps
    rw [DesignDocument.build, DocumentDraft.finish] at h
    split at h
    · cases h
    · obtain ⟨-, -, rfl⟩ := Except.map_eq_ok_iff.1 h
      rw [hextras]
      exact Extras.apart_none record
  | withRev _ _ ih | withoutRev _ ih | withId _ _ ih => exact ih

/-- Whatever descriptor is written, its texts and its value hold one tree without repeated keys, if
it has no floats and is not too deep; and documents, views and analyzer configurations keep just
what readers leave over, which has no modelled name. -/
theorem writtenAlike_and_apart :
    (∀ d : DesignDocument, d.toJson.Integral → d.toJson.depth ≤ depthLimit → WrittenAlike d) ∧
    (∀ i : QueryIndex, i.toJson.Integral → i.toJson.depth ≤ depthLimit → WrittenAlike i) ∧
    (∀ l : IndexListing, l.toJson.Integral → l.toJson.depth ≤ depthLimit → WrittenAlike l) ∧
    (∀ s : Selector, s.toJson.Integral → s.toJson.depth ≤ depthLimit → WrittenAlike s) ∧
    (∀ d : DesignDocument, d.Made → d.extras.Apart DesignDocument.record) ∧
    (∀ v : View, v.Made → v.extras.Apart View.record) ∧
    (∀ c : AnalyzerConfig, c.Made → c.extras.Apart AnalyzerConfig.record) ∧
    ∀ (d : DocumentDraft) (step : DocumentStep),
      (d.apply step).document.extras = d.document.extras := by
  refine ⟨fun d ↦ ?_, fun i ↦ ?_, fun l ↦ ?_, fun s ↦ ?_, fun _ ↦ DesignDocument.Made.apart,
    fun _ ↦ View.Made.apart, fun _ ↦ AnalyzerConfig.Made.apart,
    DocumentDraft.extras_apply⟩
  · exact writtenAlike_of_distinct (a := d) d.distinct_toJson
  · exact writtenAlike_of_distinct (a := i) i.distinct_toJson
  · exact writtenAlike_of_distinct (a := l) l.distinct_toJson
  · exact writtenAlike_of_distinct (a := s) s.distinct_toJson

def catalog : DesignDocument :=
  { DesignDocument.new "_design/catalog" with
    views := some (.singleton "recent"
      { View.new (.script ⟨"f"⟩) with extras := .ofMembers [("partitioned", .bool false)] })
    indexes := some (.singleton "titles" ((SearchIndex.new ⟨"g"⟩).withAnalyzer (.config
      { AnalyzerConfig.new "standard" with extras := .ofMembers [("tokens", .array [.null])] })))
    extras := .ofMembers [("version", .number (.integer 2 (by decide)))] }

theorem writtenAlike_catalog : catalog.toJson.Integral ∧ catalog.toJson.depth ≤ depthLimit ∧
    WrittenAlike catalog ∧ catalog.Made ∧ catalog.extras.Apart DesignDocument.record := by
  have hi : catalog.toJson.Integral := by decide
  have hd : catalog.toJson.depth ≤ depthLimit := by decide
  have hmade : catalog.Made := .read (catalog.reads_toJson Source.trailing)
  obtain ⟨hwritten, -, -, -, hapart, -⟩ := writtenAlike_and_apart
  exact ⟨hi, hd, hwritten catalog hi hd, hmade, hapart catalog hmade⟩

end DesignDocs
