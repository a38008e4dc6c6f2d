import DesignDocs.Proofs.Format.Index
import DesignDocs.Proofs.Index.Draft
import Mathlib.Data.List.TakeDrop
import Mathlib.Data.List.TakeWhile

namespace DesignDocs

section

variable {s name word : String}

theorem splitAtLastColon_append (name : String) (h : ':' ∉ word.toList) :
    splitAtLastColon (name ++ ":" ++ word) = some (name, word) := by
  have hword : ∀ c ∈ word.toList.reverse, (c != ':') = true := by
    intro c hc
    simpa using ne_of_mem_of_not_mem (List.mem_reverse.1 hc) h
  have hsplit : (name ++ ":" ++ word).toList.reverse =
      word.toList.reverse ++ ':' :: name.toList.reverse := by simp
  rw [splitAtLastColon, hsplit, List.span_eq_takeWhile_dropWhile,
    List.takeWhile_append_of_pos hword, List.dropWhile_append_of_pos hword]
  simp

theorem splitAtLastColon_of_notMem (h : ':' ∉ s.toList) : splitAtLastColon s = none := by
  have hall : ∀ c ∈ s.toList.reverse, (c != ':') = true := by
    intro c hc
    simpa using ne_of_mem_of_not_mem (List.mem_reverse.1 hc) h
  rw [splitAtLastColon, List.span_eq_takeWhile_dropWhile, List.dropWhile_eq_nil_iff.2 hall]

theorem exists_eq_append_last_colon (h : ':' ∈ s.toList) :
    ∃ name word : String, ':' ∉ word.toList ∧ s = name ++ ":" ++ word := by
  obtain ⟨after, before, hs, hafter⟩ := List.eq_append_cons_of_mem (List.mem_reverse.2 h)
  refine ⟨.ofList before.reverse, .ofList after.reverse, by simpa using hafter,
    String.toList_inj.1 ?_⟩
  simpa using congrArg List.reverse hs

theorem splitAtLastColon_eq_some_iff :
    splitAtLastColon s = some (name, word) ↔ s = name ++ ":" ++ word ∧ ':' ∉ word.toList := by
  constructor
  · intro h
    have hcolon : ':' ∈ s.toList := by
      by_contra hcolon
      rw [splitAtLastColon_of_notMem hcolon] at h
      cases h
    obtain ⟨name', word', hword, rfl⟩ := exists_eq_append_last_colon hcolon
    rw [splitAtLastColon_append name' hword] at h
    cases h
    exact ⟨rfl, hword⟩
  · rintro ⟨rfl, hword⟩
    exact splitAtLastColon_append name hword

theorem splitAtLastColon_eq_none_iff : splitAtLastColon s = none ↔ ':' ∉ s.toList := by
  refine ⟨fun h hcolon ↦ ?_, splitAtLastColon_of_notMem⟩
  obtain ⟨name, word, hword, rfl⟩ := exists_eq_append_last_colon hcolon
  rw [splitAtLastColon_append name hword] at h
  cases h

end

namespace SortOrder

theorem parse_text (order : SortOrder) : parse order.text = .ok order := by cases order <;> rfl

theorem text_of_parse {s : String} {order : SortOrder} (h : parse s = .ok order) :
    order.text = s := by
  rw [parse] at h
  split at h
  · next order' horder =>
    cases h
    exact text_of_ofText? horder
  · cases h

theorem colon_notMem_text (order : SortOrder) : ':' ∉ order.text.toList := by
  cases order <;> decide

end SortOrder

namespace TextFieldType

theorem parse_text (type : TextFieldType) : parse type.text = .ok type := by cases type <;> rfl

theorem text_of_parse {s : String} {type : TextFieldType} (h : parse s = .ok type) :
    type.text = s := by
  rw [parse] at h
  split at h
  · next type' htype =>
    cases h
    exact text_of_ofText? htype
  · cases h

theorem colon_notMem_text (type : TextFieldType) : ':' ∉ type.text.toList := by
  cases type <;> decide

end TextFieldType

namespace TextField

theorem parse_spec (f : TextField) : parse f.spec = .ok f := by
  rw [spec, parse, splitAtLastColon_append f.name f.type.colon_notMem_text]
  simp [TextFieldType.parse_text]

theorem spec_of_parse {s : String} {f : TextField} (h : parse s = .ok f) : f.spec = s := by
  rw [parse] at h
  split at h
  · next name word hsplit =>
    obtain ⟨rfl, -⟩ := splitAtLastColon_eq_some_iff.1 hsplit
    obtain ⟨type, htype, rfl⟩ := Except.map_eq_ok_iff.1 h
    rw [spec, TextFieldType.text_of_parse htype]
  · cases h

end TextField

namespace JsonField

variable {f : JsonField} {s : String} {e : DesignError}

/-- A field without direction has no colon in its name. -/
def Recoverable (f : JsonField) : Prop := f.order = none → ':' ∉ f.name.toList

/-- What stands behind the last colon is taken for a direction, which it is not. -/
def Misdirected (s : String) : Prop :=
  ∃ name word : String,
    s = name ++ ":" ++ word ∧ ':' ∉ word.toList ∧ SortOrder.ofText? word = none

theorem parse_spec_of_order {order : SortOrder} (h : f.order = some order) :
    parse f.spec = .ok f := by
  obtain ⟨name, order'⟩ := f
  cases h
  rw [spec, parse, splitAtLastColon_append name order.colon_notMem_text]
  simp [SortOrder.parse_text]

theorem parse_eq_unordered_iff : parse s = .ok (unordered s) ↔ ':' ∉ s.toList := by
  rw [← splitAtLastColon_eq_none_iff, parse]
  cases splitAtLastColon s with
  | none => simp
  | some p => cases hp : SortOrder.parse p.2 <;> simp [hp, unordered]

theorem parse_spec_iff : parse f.spec = .ok f ↔ f.Recoverable := by
  cases h : f.order with
  | none =>
    obtain ⟨name, order⟩ := f
    cases h
    have hparse : parse name = .ok (unordered name) ↔ ':' ∉ name.toList := parse_eq_unordered_iff
    simpa [Recoverable, spec, unordered] using hparse
  | some order => simp [parse_spec_of_order h, Recoverable, h]

theorem spec_of_parse (h : parse s = .ok f) : f.spec = s := by
  rw [parse] at h
  split at h
  · cases h
    rfl
  · next name word hsplit =>
    obtain ⟨rfl, -⟩ := splitAtLastColon_eq_some_iff.1 hsplit
    obtain ⟨order, horder, rfl⟩ := Except.map_eq_ok_iff.1 h
    exact congrArg (name ++ ":" ++ ·) (SortOrder.text_of_parse horder)

theorem exists_parse_error_iff : (∃ e, parse s = .error e) ↔ Misdirected s := by
  simp only [Misdirected, ← and_assoc, ← splitAtLastColon_eq_some_iff]
  rw [parse]
  cases splitAtLastColon s with
  | none => simp
  | some p =>
    obtain ⟨name, word⟩ := p
    cases h : SortOrder.ofText? word <;> simp [SortOrder.parse, h]

theorem kind_of_parse (h : parse s = .error e) : e.kind = .invalidFieldShape := by
  rw [parse] at h
  split at h
  · cases h
  · next name word _ =>
    rw [SortOrder.parse] at h
    split at h <;> cases h
    rfl

theorem mapM_parse_spec_iff {l : List JsonField} :
    (l.map spec).mapM parse = .ok l ↔ ∀ f ∈ l, f.Recoverable := by
  simp only [Except.mapM_eq_ok_iff, List.forall₂_map_left_iff, List.forall₂_same, parse_spec_iff]

end JsonField

theorem TextField.mapM_parse_spec (l : List TextField) : (l.map spec).mapM parse = .ok l := by
  simp only [Except.mapM_eq_ok_iff, List.forall₂_map_left_iff, List.forall₂_same, parse_spec,
    implies_true]

/-- No two specs give one field, and only a field with a colon in its name and no direction is
printed as a spec that gives another. -/
theorem parse_eq_ok_iff_spec (s : String) :
    (∀ f : TextField, TextField.parse s = .ok f ↔ f.spec = s) ∧
      ∀ f : JsonField, JsonField.parse s = .ok f ↔ f.spec = s ∧ f.Recoverable := by
  refine ⟨fun f ↦ ⟨TextField.spec_of_parse, ?_⟩, fun f ↦ ⟨fun h ↦ ?_, ?_⟩⟩
  · rintro rfl
    exact f.parse_spec
  · obtain rfl := JsonField.spec_of_parse h
    exact ⟨rfl, JsonField.parse_spec_iff.1 h⟩
  · rintro ⟨rfl, hname⟩
    exact JsonField.parse_spec_iff.2 hname

namespace JsonIndexStep

variable {specs : List String} {l : List JsonField}

theorem findSome?_fault?_fieldSpec : (specs.map fieldSpec).findSome? fault? =
    Except.failure? (specs.mapM JsonField.parse) := by
  rw [Except.failure?_mapM, List.findSome?_map]
  rfl

theorem candidate_fieldSpec (h : specs.mapM JsonField.parse = .ok l) :
    candidate (specs.map fieldSpec) = .new none none (.json (.new l)) := by
  have hfields : (specs.map fieldSpec).flatMap fields = l := by
    rw [List.flatMap_map]
    exact Except.flatMap_toOption_of_mapM h
  simp [candidate, body, hfields, QueryIndex.new, JsonBody.new, lastOf, List.filterMap_map,
    Function.comp_def, filter?, name?, designDocument?]

end JsonIndexStep

namespace TextIndexStep

variable {specs : List String} {l : List TextField}

theorem findSome?_fault?_fieldSpec : (specs.map fieldSpec).findSome? fault? =
    Except.failure? (specs.mapM TextField.parse) := by
  rw [Except.failure?_mapM, List.findSome?_map]
  rfl

theorem fields_body_fieldSpec (h : specs.mapM TextField.parse = .ok l) :
    (body (specs.map fieldSpec)).fields.getD [] = l := by
  have hfields : (specs.map fieldSpec).filterMap fields? =
      specs.map fun s ↦ (TextField.parse s).toOption.toList := by
    simp [List.filterMap_map, Function.comp_def, fields?]
  have hall := getD_allOf fields? (specs.map fieldSpec)
  rw [← Except.flatMap_toOption_of_mapM h, List.flatMap_def, ← hfields, ← hall, body]
  cases allOf fields? (specs.map fieldSpec) <;> rfl

theorem candidate_fieldSpec (specs : List String) : candidate (specs.map fieldSpec) =
    .new none none (.text (body (specs.map fieldSpec))) := by
  simp [candidate, QueryIndex.new, lastOf, List.filterMap_map, Function.comp_def, name?,
    designDocument?]

end TextIndexStep

namespace QueryIndex

theorem validate_eq_ok_iff {i : QueryIndex} : i.validate = .ok () ↔ i.defect? = none := by
  rw [validate]
  split
  · next d hd => simp [hd]
  · next hd => simp [hd]

theorem bodyDefect?_of_validate {i : QueryIndex} (h : i.validate = .ok ()) :
    bodyDefect? i.body = none := by
  rw [validate_eq_ok_iff, defect?] at h
  split at h
  · cases h
  · exact h

theorem buildJson_fieldSpec (specs : List String) : buildJson (specs.map .fieldSpec) =
    specs.mapM JsonField.parse >>= fun l ↦
      (new none none (.json (.new l))).validate.map fun _ ↦ new none none (.json (.new l)) := by
  have hbuild := JsonIndexStep.stepwise.finish_foldl .json (specs.map .fieldSpec)
  rw [JsonIndexStep.findSome?_fault?_fieldSpec] at hbuild
  refine hbuild.trans ?_
  cases h : specs.mapM JsonField.parse with
  | error e => rfl
  | ok l =>
    rw [Except.ok_bind, ← JsonIndexStep.candidate_fieldSpec h]
    rfl

theorem buildText_fieldSpec {specs : List String} {l : List TextField}
    (h : specs.mapM TextField.parse = .ok l) : ∃ b : TextBody, b.fields.getD [] = l ∧
      buildText (specs.map .fieldSpec) =
        (new none none (.text b)).validate.map fun _ ↦ new none none (.text b) := by
  refine ⟨_, TextIndexStep.fields_body_fieldSpec h, ?_⟩
  have hbuild := TextIndexStep.stepwise.finish_foldl .text (specs.map .fieldSpec)
  rw [TextIndexStep.findSome?_fault?_fieldSpec, h] at hbuild
  rw [← TextIndexStep.candidate_fieldSpec]
  exact hbuild

theorem exists_buildJson_error_iff {specs : List String} :
    (∃ e, buildJson (specs.map .fieldSpec) = .error e ∧ e.kind = .invalidFieldShape) ↔
      ∃ s ∈ specs, JsonField.Misdirected s := by
  simp only [buildJson_fieldSpec, ← JsonField.exists_parse_error_iff]
  cases h : specs.mapM JsonField.parse with
  | error e =>
    obtain ⟨before, s, after, rfl, -, he⟩ := Except.mapM_eq_error_iff.1 h
    exact iff_of_true ⟨e, rfl, JsonField.kind_of_parse he⟩
      ⟨s, List.mem_append_right before List.mem_cons_self, e, he⟩
  | ok l =>
    refine iff_of_false ?_ ?_
    · rintro ⟨e, he, hkind⟩
      rw [Except.ok_bind, Except.map_eq_error_iff] at he
      rw [kind_of_validate he] at hkind
      cases hkind
    · rintro ⟨s, hs, e, he⟩
      obtain ⟨f, -, hf⟩ := exists_mem_of_forall₂ (Except.mapM_eq_ok_iff.1 h) hs
      cases he.symm.trans hf

section

variable {i : QueryIndex} (hv : i.validate = .ok ())

include hv

theorem exists_buildText_fieldSpecs {b : TextBody} (hb : i.body = .text b) :
    ∃ j c, buildText (i.body.fieldSpecs.map .fieldSpec) = .ok j ∧ j.body = .text c ∧
      c.fields.getD [] = b.fields.getD [] := by
  have hdefect := bodyDefect?_of_validate hv
  rw [hb] at hdefect ⊢
  obtain ⟨c, hfields, hbuild⟩ := buildText_fieldSpec (TextField.mapM_parse_spec (b.fields.getD []))
  have hvalid : (new none none (.text c)).validate = .ok () := by
    rw [validate_eq_ok_iff]
    change bodyDefect? (.text c) = none
    rw [bodyDefect?, hfields]
    exact hdefect
  refine ⟨new none none (.text c), c, ?_, rfl, hfields⟩
  rw [IndexBody.fieldSpecs, hbuild, hvalid, Except.map_ok]

theorem exists_buildJson_fieldSpecs_iff {b : JsonBody} (hb : i.body = .json b) :
    (∃ j c, buildJson (i.body.fieldSpecs.map .fieldSpec) = .ok j ∧ j.body = .json c ∧
      c.fields = b.fields) ↔ ∀ f ∈ b.fields, f.Recoverable := by
  have hdefect := bodyDefect?_of_validate hv
  rw [hb] at hdefect ⊢
  have hvalid : (new none none (.json (.new b.fields))).validate = .ok () :=
    validate_eq_ok_iff.2 hdefect
  rw [IndexBody.fieldSpecs, buildJson_fieldSpec, ← JsonField.mapM_parse_spec_iff]
  constructor
  · rintro ⟨j, c, hj, hc, hfields⟩
    obtain ⟨l, hl, hj⟩ := Except.bind_eq_ok_iff.1 hj
    obtain ⟨u, -, rfl⟩ := Except.map_eq_ok_iff.1 hj
    cases hc
    rw [hl, ← hfields, JsonBody.new]
  · intro hl
    refine ⟨new none none (.json (.new b.fields)), .new b.fields, ?_, rfl, rfl⟩
    rw [hl, Except.ok_bind, hvalid, Except.map_ok]

/-- The specs of a text index give its fields again. Those of a json index do unless a field
without direction has a colon in its name, and are refused where no direction stands behind it. -/
theorem build_fieldSpecs :
    (∀ b, i.body = .text b → ∃ j c, buildText (i.body.fieldSpecs.map .fieldSpec) = .ok j ∧
      j.body = .text c ∧ c.fields.getD [] = b.fields.getD []) ∧
    ∀ b, i.body = .json b →
      ((∃ j c, buildJson (i.body.fieldSpecs.map .fieldSpec) = .ok j ∧ j.body = .json c ∧
        c.fields = b.fields) ↔ ∀ f ∈ b.fields, f.Recoverable) ∧
      ((∃ e, buildJson (i.body.fieldSpecs.map .fieldSpec) = .error e ∧
        e.kind = .invalidFieldShape) ↔ ∃ s ∈ i.body.fieldSpecs, JsonField.Misdirected s) :=
  ⟨fun _ ↦ exists_buildText_fieldSpecs hv,
    fun _ hb ↦ ⟨exists_buildJson_fieldSpecs_iff hv hb, exists_buildJson_error_iff⟩⟩

end

def byRank : QueryIndex := .new none none (.json (.new [.descending "rank:asc", .unordered "year"]))

theorem build_fieldSpecs_byRank : byRank.validate = .ok () ∧
    ∃ j c, buildJson (["rank:asc:desc", "year"].map .fieldSpec) = .ok j ∧ j.body = .json c ∧
      c.fields = [.descending "rank:asc", .unordered "year"] := by
  refine ⟨rfl, ((build_fieldSpecs (i := byRank) rfl).2 _ rfl).1.2 ?_⟩
  simp [JsonField.Recoverable, JsonField.descending, JsonField.unordered, JsonBody.new]

/-- One name is refused for its colon, the other is read as a name and a direction. -/
theorem fieldSpec_of_colon :
    (∃ i : QueryIndex, i.validate = .ok () ∧ i.body = .json (.new [.unordered "a:b"]) ∧
      ∃ e, buildJson (i.body.fieldSpecs.map .fieldSpec) = .error e ∧
        e.kind = .invalidFieldShape) ∧
    ∃ i : QueryIndex, i.validate = .ok () ∧ i.body = .json (.new [.unordered "a:asc"]) ∧
      ∃ j, buildJson (i.body.fieldSpecs.map .fieldSpec) = .ok j ∧
        j.body = .json (.new [.ascending "a"]) :=
  ⟨⟨.new none none _, rfl, rfl, _, rfl, rfl⟩, ⟨.new none none _, rfl, rfl, _, rfl, rfl⟩⟩

end QueryIndex

end DesignDocs
