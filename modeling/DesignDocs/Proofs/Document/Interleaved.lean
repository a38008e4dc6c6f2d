import DesignDocs.Proofs.Document.Draft

namespace DesignDocs

namespace DocumentStep

/-- The parts of a document that steps are about. -/
inductive Part
  | rev
  | language
  | validateDocUpdate
  | rewrites
  | entries (s : NamedSection)
  deriving DecidableEq

def part : DocumentStep → Part
  | rev _ => .rev
  | language _ => .language
  | view .. => .entries .views
  | searchIndex .. => .entries .indexes
  | script .filters .. => .entries .filters
  | script .shows .. => .entries .shows
  | script .lists .. => .entries .lists
  | script .updates .. => .entries .updates
  | validateDocUpdate _ => .validateDocUpdate
  | rewrite _ => .rewrites
  | fulltext .. => .entries .fulltext

/-- The sequences have the same steps about each part, in the same order. -/
def SameParts (steps steps' : List DocumentStep) : Prop :=
  ∀ p : Part, steps.filter (·.part = p) = steps'.filter (·.part = p)

theorem part_of_named {step : DocumentStep} {s : NamedSection} {entry : String × s.Entry}
    (h : step.named? = some ⟨s, entry⟩) : step.part = .entries s := by
  cases step with
  | script place _ _ => cases place <;> (cases h; rfl)
  | view | searchIndex | fulltext => cases h; rfl
  | rev | language | validateDocUpdate | rewrite => cases h

theorem added_of_part_ne {step : DocumentStep} {s : NamedSection} (h : step.part ≠ .entries s) :
    step.added s = none := by
  cases hn : step.named? with
  | none =>
    rw [added, hn]
    rfl
  | some entry =>
    obtain ⟨t, name, a⟩ := entry
    refine added_of_named_of_ne hn ?_
    rintro rfl
    exact h (part_of_named hn)

theorem rev?_of_part_ne {step : DocumentStep} (h : step.part ≠ .rev) : step.rev? = none := by
  cases step <;> first | rfl | exact absurd rfl h

theorem language?_of_part_ne {step : DocumentStep} (h : step.part ≠ .language) :
    step.language? = none := by
  cases step <;> first | rfl | exact absurd rfl h

theorem validateDocUpdate?_of_part_ne {step : DocumentStep}
    (h : step.part ≠ .validateDocUpdate) : step.validateDocUpdate? = none := by
  cases step <;> first | rfl | exact absurd rfl h

theorem rewrite?_of_part_ne {step : DocumentStep} (h : step.part ≠ .rewrites) :
    step.rewrite? = none := by
  cases step <;> first | rfl | exact absurd rfl h

section

variable {α : Type} {steps steps' : List DocumentStep}

/-- What only steps about one part give is found among these. -/
theorem filterMap_filter_part {f : DocumentStep → Option α} {p : Part}
    (hf : ∀ step, step.part ≠ p → f step = none) (steps : List DocumentStep) :
    (steps.filter (·.part = p)).filterMap f = steps.filterMap f := by
  rw [List.filterMap_filter]
  refine List.filterMap_congr fun step _ ↦ ?_
  by_cases h : step.part = p
  · simp [h]
  · simp [h, hf step h]

namespace SameParts

variable (h : SameParts steps steps')

include h

theorem filterMap_eq {f : DocumentStep → Option α} {p : Part}
    (hf : ∀ step, step.part ≠ p → f step = none) : steps.filterMap f = steps'.filterMap f := by
  rw [← filterMap_filter_part hf steps, ← filterMap_filter_part hf steps', h p]

theorem lastOf_eq {f : DocumentStep → Option α} {p : Part}
    (hf : ∀ step, step.part ≠ p → f step = none) : lastOf f steps = lastOf f steps' := by
  rw [lastOf, lastOf, h.filterMap_eq hf]

theorem allOf_eq {f : DocumentStep → Option α} {p : Part}
    (hf : ∀ step, step.part ≠ p → f step = none) : allOf f steps = allOf f steps' := by
  rw [allOf, allOf, h.filterMap_eq hf]

theorem names_eq (s : NamedSection) : names s steps = names s steps' := by
  rw [names, names, h.filterMap_eq fun _ ↦ added_of_part_ne]

theorem firstFault?_eq_none_iff : firstFault? fault? [] steps = none ↔
    firstFault? fault? [] steps' = none := by
  simp only [DocumentStep.firstFault?_eq_none_iff, h.names_eq]

theorem describes {id : String} {d : DesignDocument}
    (hd : DocumentDraft.Describes id steps d) : DocumentDraft.Describes id steps' d where
  id := hd.id
  rev := by rw [hd.rev, h.lastOf_eq fun _ ↦ rev?_of_part_ne]
  language := by rw [hd.language, h.lastOf_eq fun _ ↦ language?_of_part_ne]
  validateDocUpdate := by
    rw [hd.validateDocUpdate, h.lastOf_eq fun _ ↦ validateDocUpdate?_of_part_ne]
  sections s := by rw [hd.sections, h.allOf_eq fun _ ↦ added_of_part_ne]
  rewrites := by rw [hd.rewrites, h.allOf_eq fun _ ↦ rewrite?_of_part_ne]
  extras := hd.extras

end SameParts

end

end DocumentStep

namespace DesignDocument

open DocumentStep (SameParts)

variable {steps steps' : List DocumentStep}

theorem build_of_sameParts {id : String} {d : DesignDocument} (h : SameParts steps steps')
    (hd : build id steps = .ok d) : build id steps' = .ok d := by
  obtain ⟨hfault, hdescribes, hvalid⟩ := DocumentDraft.finish_foldl_eq_ok_iff.1 hd
  exact DocumentDraft.finish_foldl_eq_ok_iff.2
    ⟨h.firstFault?_eq_none_iff.1 hfault, h.describes hdescribes, hvalid⟩

/-- Steps about different parts may be taken in any order: both sequences build a document or
neither does, and it is the same document, written as the same text. -/
theorem build_interleaved (id : String) (h : SameParts steps steps') :
    ((∃ d, build id steps = .ok d) ↔ ∃ d, build id steps' = .ok d) ∧
      ∀ d e, build id steps = .ok d → build id steps' = .ok e →
        d = e ∧ Wire.toText d = Wire.toText e := by
  have h' : SameParts steps' steps := fun p ↦ (h p).symm
  refine ⟨⟨fun ⟨d, hd⟩ ↦ ⟨d, build_of_sameParts h hd⟩,
    fun ⟨d, hd⟩ ↦ ⟨d, build_of_sameParts h' hd⟩⟩, fun d e hd he ↦ ?_⟩
  obtain rfl := Except.ok.inj ((build_of_sameParts h hd).symm.trans he)
  exact ⟨rfl, rfl⟩

def viewsFirst : List DocumentStep :=
  [.view "by-date" (.new (.script ⟨"function(doc) { emit(doc.date) }"⟩)),
    .view "by-tag" (.new (.script ⟨"function(doc) { emit(doc.tag) }"⟩)), .language "javascript"]

def languageFirst : List DocumentStep :=
  [.language "javascript", .view "by-date" (.new (.script ⟨"function(doc) { emit(doc.date) }"⟩)),
    .view "by-tag" (.new (.script ⟨"function(doc) { emit(doc.tag) }"⟩))]

theorem build_viewsFirst : SameParts viewsFirst languageFirst ∧
    ∃ d, build "posts" viewsFirst = .ok d ∧ build "posts" languageFirst = .ok d := by
  have h : SameParts viewsFirst languageFirst := fun p ↦ by
    cases p with
    | entries s => cases s <;> rfl
    | _ => rfl
  obtain ⟨hiff, heq⟩ := build_interleaved "posts" h
  obtain ⟨d, hd⟩ : ∃ d, build "posts" viewsFirst = .ok d := ⟨_, rfl⟩
  obtain ⟨e, he⟩ := hiff.1 ⟨d, hd⟩
  obtain ⟨rfl, -⟩ := heq d e hd he
  exact ⟨h, d, hd, he⟩

/-- Of two faults in different parts the first is reported. -/
example (v : View) (s : Script) :
    build "posts" [.view "" v, .script .shows "" s] =
        .error (DocumentDraft.NameFault.blank "views").error ∧
      build "posts" [.script .shows "" s, .view "" v] =
        .error (DocumentDraft.NameFault.blank "shows").error := ⟨rfl, rfl⟩

end DesignDocument

end DesignDocs
