import DesignDocs.Index.Draft
import DesignDocs.Proofs.Except
import DesignDocs.Proofs.History
import DesignDocs.Proofs.Selector.Keyed

namespace DesignDocs

namespace IndexDraft

variable {β σ : Type}

theorem error_tryParsed {α : Type} {d : IndexDraft β} {e : DesignError} (h : d.error = some e)
    (parsed : Except DesignError α) (f : α → β → β) : (d.tryParsed parsed f).error = some e := by
  rw [tryParsed.eq_def, h]
  exact h

theorem tryParsed_of_error_none {α : Type} {d : IndexDraft β} (h : d.error = none)
    (parsed : Except DesignError α) (f : α → β → β) :
    (d.tryParsed parsed f).error = Except.failure? parsed ∧
      ∀ a, parsed = .ok a → d.tryParsed parsed f = d.change (f a) := by
  rw [tryParsed.eq_def, h]
  cases parsed with
  | error e => exact ⟨rfl, nofun⟩
  | ok a =>
    refine ⟨h, ?_⟩
    rintro _ ⟨⟩
    rfl

variable {d : IndexDraft β} {toBody : β → IndexBody}

theorem finish_of_error {e : DesignError} (h : d.error = some e) : d.finish toBody = .error e := by
  rw [finish, h]

theorem finish_of_error_none (h : d.error = none) :
    d.finish toBody =
      (QueryIndex.new d.designDocument d.name (toBody d.body)).validate.map fun _ ↦
        .new d.designDocument d.name (toBody d.body) := by
  rw [finish, h]
  exact Except.bind_pure_eq_map _ _

theorem of_finish_eq_ok {i : QueryIndex} (h : d.finish toBody = .ok i) :
    i.validate = .ok () ∧ ∃ b, i.body = toBody b := by
  rw [finish] at h
  split at h
  · cases h
  · obtain ⟨u, hu, hi⟩ := Except.bind_eq_ok_iff.1 h
    cases hi
    exact ⟨hu, _, rfl⟩

def described (designDocument? name? : σ → Option String) (body : List σ → β) (steps : List σ) :
    IndexDraft β :=
  ⟨none, lastOf designDocument? steps, lastOf name? steps, body steps⟩

/-- A step changes nothing after an error, has an error of its own, or sets names and extends the
body. -/
structure Stepwise (apply : IndexDraft β → σ → IndexDraft β) (fault? : σ → Option DesignError)
    (designDocument? name? : σ → Option String) (extend : σ → β → β) (body : List σ → β) :
    Prop where
  stays : ∀ {d e}, d.error = some e → ∀ step, (apply d step).error = some e
  error : ∀ {d}, d.error = none → ∀ step, (apply d step).error = fault? step
  leads : ∀ {d}, d.error = none → ∀ step, fault? step = none → apply d step =
    ⟨none, (designDocument? step).or d.designDocument, (name? step).or d.name, extend step d.body⟩
  body_concat : ∀ steps step, body (steps ++ [step]) = extend step (body steps)

namespace Stepwise

variable {apply : IndexDraft β → σ → IndexDraft β} {fault? : σ → Option DesignError}
  {designDocument? name? : σ → Option String} {extend : σ → β → β} {body : List σ → β}
  (h : Stepwise apply fault? designDocument? name? extend body)

include h

theorem stopsAtFault : StopsAtFault IndexDraft.error apply (fun _ ↦ fault?) id
    fun steps d ↦ d = described designDocument? name? body steps where
  stays he step := h.stays he step
  goes := by
    rintro steps d he rfl step
    refine ⟨?_, fun hf ↦ ?_⟩
    · rw [h.error he, Option.map_id_fun, id_eq]
    · rw [h.leads he step hf]
      simp only [described, lastOf_concat, h.body_concat]

theorem finish_foldl (toBody : β → IndexBody) (steps : List σ) :
    (steps.foldl apply (.start (body []))).finish toBody =
      match steps.findSome? fault? with
      | some e => .error e
      | none =>
        (QueryIndex.new (lastOf designDocument? steps) (lastOf name? steps)
          (toBody (body steps))).validate.map fun _ ↦
            .new (lastOf designDocument? steps) (lastOf name? steps) (toBody (body steps)) := by
  have hstart : IndexDraft.start (body []) = described designDocument? name? body [] := rfl
  obtain ⟨herror, hdraft⟩ := h.stopsAtFault.foldl [] rfl hstart steps
  rw [firstFault?_const] at herror hdraft
  cases hf : steps.findSome? fault? with
  | some e =>
    rw [hf] at herror
    exact finish_of_error herror
  | none =>
    rw [hdraft hf]
    exact finish_of_error_none rfl

end Stepwise

end IndexDraft

namespace JsonIndexStep

def fault? : JsonIndexStep → Option DesignError
  | filterText s => Except.failure? (Selector.parseKeyed "partial_filter_selector" s)
  | fieldSpec s => Except.failure? (JsonField.parse s)
  | _ => none

def name? : JsonIndexStep → Option String
  | name s => some s
  | _ => none

def designDocument? : JsonIndexStep → Option String
  | designDocument s => some s
  | _ => none

def filter? : JsonIndexStep → Option Selector
  | filter s => some s
  | filterText s => (Selector.parseKeyed "partial_filter_selector" s).toOption
  | _ => none

def fields : JsonIndexStep → List JsonField
  | ascending names => names.map (⟨·, some .ascending⟩)
  | descending names => names.map (⟨·, some .descending⟩)
  | field f => [f]
  | fieldSpec s => (JsonField.parse s).toOption.toList
  | _ => []

def body (steps : List JsonIndexStep) : JsonBody where
  partialFilter := lastOf filter? steps
  selector := none
  fields := steps.flatMap fields

/-- The index that the steps describe. -/
def candidate (steps : List JsonIndexStep) : QueryIndex where
  designDocument := (lastOf designDocument? steps).map some
  name := (lastOf name? steps).map some
  body := .json (body steps)

def extend (step : JsonIndexStep) (b : JsonBody) : JsonBody where
  partialFilter := step.filter?.or b.partialFilter
  selector := b.selector
  fields := b.fields ++ step.fields

theorem body_concat (steps : List JsonIndexStep) (step : JsonIndexStep) :
    body (steps ++ [step]) = step.extend (body steps) := by
  rw [body, lastOf_concat, List.flatMap_append, List.flatMap_singleton]
  rfl

variable {d : IndexDraft JsonBody}

theorem error_apply {e : DesignError} (h : d.error = some e) (step : JsonIndexStep) :
    (apply d step).error = some e := by
  cases step with
  | filterText s => exact IndexDraft.error_tryParsed h _ _
  | fieldSpec s => exact IndexDraft.error_tryParsed h _ _
  | _ => exact h

theorem error_apply_of_none (h : d.error = none) (step : JsonIndexStep) :
    (apply d step).error = step.fault? := by
  cases step with
  | filterText s => exact (IndexDraft.tryParsed_of_error_none h _ _).1
  | fieldSpec s => exact (IndexDraft.tryParsed_of_error_none h _ _).1
  | _ => exact h

theorem apply_eq (h : d.error = none) {step : JsonIndexStep} (hf : step.fault? = none) :
    apply d step = ⟨none, step.designDocument?.or d.designDocument, step.name?.or d.name,
      step.extend d.body⟩ := by
  cases step with
  | filterText s =>
    obtain ⟨a, ha⟩ := Except.exists_of_failure?_eq_none hf
    rw [apply, Selector.filterKey, (IndexDraft.tryParsed_of_error_none h _ _).2 a ha]
    simp [IndexDraft.change, setFilter, extend, filter?, fields, designDocument?, name?, h, ha,
      Except.toOption]
  | fieldSpec s =>
    obtain ⟨a, ha⟩ := Except.exists_of_failure?_eq_none hf
    rw [apply, (IndexDraft.tryParsed_of_error_none h _ _).2 a ha]
    simp [IndexDraft.change, addFields, extend, filter?, fields, designDocument?, name?, h, ha,
      Except.toOption]
  | _ =>
    simp [apply, IndexDraft.change, setFilter, addFields, extend, filter?, fields,
      JsonField.ascending, JsonField.descending, designDocument?, name?, h]

theorem stepwise :
    IndexDraft.Stepwise apply fault? designDocument? name? extend body where
  stays := error_apply
  error := error_apply_of_none
  leads h _ := apply_eq h
  body_concat := body_concat

end JsonIndexStep

namespace TextIndexStep

/-- The error of a text that does not parse. -/
def fault? : TextIndexStep → Option DesignError
  | filterText s => Except.failure? (Selector.parseKeyed "partial_filter_selector" s)
  | fieldSpec s => Except.failure? (TextField.parse s)
  | _ => none

def name? : TextIndexStep → Option String
  | name s => some s
  | _ => none

def designDocument? : TextIndexStep → Option String
  | designDocument s => some s
  | _ => none

def filter? : TextIndexStep → Option Selector
  | filter s => some s
  | filterText s => (Selector.parseKeyed "partial_filter_selector" s).toOption
  | _ => none

def fields? : TextIndexStep → Option (List TextField)
  | typed type names => some (names.map (⟨·, type⟩))
  | field f => some [f]
  | fieldSpec s => some (TextField.parse s).toOption.toList
  | _ => none

def analyzer? : TextIndexStep → Option Analyzer
  | analyzer a => some a
  | _ => none

def defaultField? : TextIndexStep → Option DefaultField
  | defaultField f => some f
  | _ => none

def indexArrayLengths? : TextIndexStep → Option Bool
  | indexArrayLengths b => some b
  | _ => none

def body (steps : List TextIndexStep) : TextBody where
  defaultAnalyzer := lastOf analyzer? steps
  defaultField := lastOf defaultField? steps
  partialFilter := lastOf filter? steps
  selector := none
  fields := (allOf fields? steps).map List.flatten
  indexArrayLengths := lastOf indexArrayLengths? steps

def candidate (steps : List TextIndexStep) : QueryIndex where
  designDocument := (lastOf designDocument? steps).map some
  name := (lastOf name? steps).map some
  body := .text (body steps)

def extend (step : TextIndexStep) (b : TextBody) : TextBody where
  defaultAnalyzer := step.analyzer?.or b.defaultAnalyzer
  defaultField := step.defaultField?.or b.defaultField
  partialFilter := step.filter?.or b.partialFilter
  selector := b.selector
  fields := appended b.fields step.fields?
  indexArrayLengths := step.indexArrayLengths?.or b.indexArrayLengths

theorem body_concat (steps : List TextIndexStep) (step : TextIndexStep) :
    body (steps ++ [step]) = step.extend (body steps) := by
  simp only [body, lastOf_concat, flatten_allOf_concat]
  rfl

variable {d : IndexDraft TextBody}

theorem error_apply {e : DesignError} (h : d.error = some e) (step : TextIndexStep) :
    (apply d step).error = some e := by
  cases step with
  | filterText s => exact IndexDraft.error_tryParsed h _ _
  | fieldSpec s => exact IndexDraft.error_tryParsed h _ _
  | _ => exact h

theorem error_apply_of_none (h : d.error = none) (step : TextIndexStep) :
    (apply d step).error = step.fault? := by
  cases step with
  | filterText s => exact (IndexDraft.tryParsed_of_error_none h _ _).1
  | fieldSpec s => exact (IndexDraft.tryParsed_of_error_none h _ _).1
  | _ => exact h

theorem apply_eq (h : d.error = none) {step : TextIndexStep} (hf : step.fault? = none) :
    apply d step = ⟨none, step.designDocument?.or d.designDocument, step.name?.or d.name,
      step.extend d.body⟩ := by
  cases step with
  | filterText s =>
    obtain ⟨a, ha⟩ := Except.exists_of_failure?_eq_none hf
    rw [apply, Selector.filterKey, (IndexDraft.tryParsed_of_error_none h _ _).2 a ha]
    simp [IndexDraft.change, setFilter, extend, filter?, fields?, analyzer?, defaultField?,
      indexArrayLengths?, designDocument?, name?, h, ha, Except.toOption, appended]
  | fieldSpec s =>
    obtain ⟨a, ha⟩ := Except.exists_of_failure?_eq_none hf
    rw [apply, (IndexDraft.tryParsed_of_error_none h _ _).2 a ha]
    simp [IndexDraft.change, addFields, extend, filter?, fields?, analyzer?, defaultField?,
      indexArrayLengths?, designDocument?, name?, h, ha, Except.toOption, appended]
  | _ =>
    simp [apply, IndexDraft.change, setFilter, addFields, extend, filter?, fields?, analyzer?,
      defaultField?, indexArrayLengths?, designDocument?, name?, h, appended]

theorem stepwise :
    IndexDraft.Stepwise apply fault? designDocument? name? extend body where
  stays := error_apply
  error := error_apply_of_none
  leads h _ := apply_eq h
  body_concat := body_concat

theorem fields_body_eq_none_iff {steps : List TextIndexStep} :
    (body steps).fields = none ↔ ∀ step ∈ steps, step.fields? = none := by
  have hfields : (body steps).fields = none ↔ steps.filterMap fields? = [] := by
    simp [body, allOf]
  rw [hfields, List.filterMap_eq_nil_iff]

end TextIndexStep

namespace QueryIndex

theorem kind_of_validate {i : QueryIndex} {e : DesignError} (h : i.validate = .error e) :
    e.kind = .validation := by
  rw [validate] at h
  split at h
  · next d _ =>
    cases h
    cases d <;> rfl
  · cases h

theorem exists_creationPayload {i : QueryIndex} (ht : i.type ≠ .special)
    (h : i.validate = .ok ()) : ∃ v, i.creationPayload = .ok v := by
  rw [creationPayload, if_neg ht, h]
  exact ⟨_, rfl⟩

/-- What is built is the error of the earliest step whose text does not parse; where all texts
parse, it is the index that the steps describe, if that index is valid. What is built can also be
created. -/
theorem build_eq_candidate (js : List JsonIndexStep) (ts : List TextIndexStep) :
    (buildJson js =
      match js.findSome? JsonIndexStep.fault? with
      | some e => .error e
      | none => (JsonIndexStep.candidate js).validate.map fun _ ↦ JsonIndexStep.candidate js) ∧
    (buildText ts =
      match ts.findSome? TextIndexStep.fault? with
      | some e => .error e
      | none => (TextIndexStep.candidate ts).validate.map fun _ ↦ TextIndexStep.candidate ts) ∧
    ((TextIndexStep.body ts).fields = none ↔ ∀ step ∈ ts, step.fields? = none) ∧
    (∀ (i : QueryIndex) (e : DesignError), i.validate = .error e → e.kind = .validation) ∧
    ∀ i, buildJson js = .ok i ∨ buildText ts = .ok i → ∃ v, i.creationPayload = .ok v := by
  have hjson := JsonIndexStep.stepwise.finish_foldl .json js
  have htext := TextIndexStep.stepwise.finish_foldl .text ts
  refine ⟨hjson, htext, TextIndexStep.fields_body_eq_none_iff, fun i e ↦ kind_of_validate, ?_⟩
  rintro i (hi | hi)
  · obtain ⟨hv, b, hb⟩ := IndexDraft.of_finish_eq_ok hi
    have htype : i.type = .json := congrArg IndexBody.type hb
    exact exists_creationPayload (by rw [htype]; decide) hv
  · obtain ⟨hv, b, hb⟩ := IndexDraft.of_finish_eq_ok hi
    have htype : i.type = .text := congrArg IndexBody.type hb
    exact exists_creationPayload (by rw [htype]; decide) hv

def recentFilms : Selector := ⟨Selector.recent⟩

/-- The names and the filter are set twice. -/
def byTitle : List JsonIndexStep :=
  [.ascending ["title"], .name "titles", .designDocument "_design/films", .filter .empty,
    .fieldSpec "year:desc", .filterText recentFilms.text, .designDocument "_design/library",
    .name "by-title"]

def byPhrase : List TextIndexStep :=
  [.typed .string ["title"], .filterText recentFilms.text, .analyzer (.named "standard"),
    .designDocument "_design/library", .fieldSpec "year:number", .indexArrayLengths false,
    .analyzer (.named "english"), .defaultField ⟨some true, none⟩]

theorem parseKeyed_recentFilms :
    Selector.parseKeyed "partial_filter_selector" recentFilms.text = .ok recentFilms :=
  (Selector.writes_render (by decide) (by decide)).parseKeyed_eq _

def filmTitles : QueryIndex where
  designDocument := some (some "_design/library")
  name := some (some "by-title")
  body := .json ⟨some recentFilms, none, [⟨"title", some .ascending⟩, ⟨"year", some .descending⟩]⟩

def filmPhrases : QueryIndex where
  designDocument := some (some "_design/library")
  name := none
  body := .text ⟨some (.named "english"), some ⟨some true, none⟩, some recentFilms, none,
    some [⟨"title", .string⟩, ⟨"year", .number⟩], some false⟩

theorem candidate_byTitle : JsonIndexStep.candidate byTitle = filmTitles := by
  have hfilter : lastOf JsonIndexStep.filter? byTitle = some recentFilms := by
    simp [lastOf, byTitle, List.findSome?_cons, JsonIndexStep.filter?, parseKeyed_recentFilms,
      Except.toOption]
  rw [JsonIndexStep.candidate, JsonIndexStep.body, hfilter]
  rfl

theorem candidate_byPhrase : TextIndexStep.candidate byPhrase = filmPhrases := by
  have hfilter : lastOf TextIndexStep.filter? byPhrase = some recentFilms := by
    simp [lastOf, byPhrase, List.findSome?_cons, TextIndexStep.filter?, parseKeyed_recentFilms,
      Except.toOption]
  rw [TextIndexStep.candidate, TextIndexStep.body, hfilter]
  rfl

theorem build_eq_candidate_library :
    buildJson byTitle = .ok filmTitles ∧ (∃ v, filmTitles.creationPayload = .ok v) ∧
      buildText byPhrase = .ok filmPhrases ∧ (∃ v, filmPhrases.creationPayload = .ok v) ∧
      ∃ e, (JsonIndexStep.candidate []).validate = .error e ∧ e.kind = .validation := by
  have hfault : Except.failure? (Selector.parseKeyed "partial_filter_selector" recentFilms.text) =
      none := congrArg Except.failure? parseKeyed_recentFilms
  obtain ⟨hjson, htext, -, hkind, hpayload⟩ := build_eq_candidate byTitle byPhrase
  have hjsonFault : byTitle.findSome? JsonIndexStep.fault? = none := by
    rw [List.findSome?_eq_none_iff]
    simp only [byTitle, List.forall_mem_cons]
    exact ⟨rfl, rfl, rfl, rfl, rfl, hfault, rfl, rfl, List.forall_mem_nil _⟩
  have htextFault : byPhrase.findSome? TextIndexStep.fault? = none := by
    rw [List.findSome?_eq_none_iff]
    simp only [byPhrase, List.forall_mem_cons]
    exact ⟨rfl, hfault, rfl, rfl, rfl, rfl, rfl, rfl, List.forall_mem_nil _⟩
  rw [hjsonFault, candidate_byTitle] at hjson
  rw [htextFault, candidate_byPhrase] at htext
  have hinvalid : (JsonIndexStep.candidate []).validate = .error (Defect.noField .json).error := rfl
  exact ⟨hjson, hpayload _ (.inl hjson), htext, hpayload _ (.inr htext), _, hinvalid,
    hkind _ _ hinvalid⟩

end QueryIndex

end DesignDocs
