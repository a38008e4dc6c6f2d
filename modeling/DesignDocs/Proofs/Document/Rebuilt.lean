import DesignDocs.Proofs.Document.Interleaved
import DesignDocs.Proofs.Document.Validity

namespace DesignDocs

namespace DesignDocument

open DocumentDraft (Describes)
open DocumentStep (Part SameParts adding added fault? names)

/-- The steps that add back what the document has of a part. -/
def stepsOf (d : DesignDocument) : Part → List DocumentStep
  | .rev => (d.rev.map .rev).toList
  | .language => (d.language.map .language).toList
  | .validateDocUpdate => (d.validateDocUpdate.map .validateDocUpdate).toList
  | .rewrites => (d.rewrites.getD []).map .rewrite
  | .entries s => ((s.entries? d).getD .empty).entries.map fun p ↦ adding s p.1 p.2

def parts : List Part :=
  [.rev, .language, .validateDocUpdate, .entries .views, .entries .indexes, .entries .filters,
    .entries .shows, .entries .lists, .entries .updates, .entries .fulltext, .rewrites]

def steps (d : DesignDocument) : List DocumentStep := parts.flatMap d.stepsOf

/-- What documents that are built have in common. -/
structure Buildable (d : DesignDocument) : Prop where
  valid : d.validate = .ok ()
  extras : d.extras = .none
  sections : ∀ s : NamedSection, s.entries? d ≠ some .empty
  rewrites : d.rewrites ≠ some []

variable {d : DesignDocument} {steps' : List DocumentStep}

theorem part_of_mem_stepsOf {p : Part} {step : DocumentStep} (h : step ∈ d.stepsOf p) :
    step.part = p := by
  cases p with
  | rev | language | validateDocUpdate =>
    obtain ⟨_, -, rfl⟩ := Option.map_eq_some_iff.1 (Option.mem_toList.1 h)
    rfl
  | rewrites =>
    obtain ⟨_, -, rfl⟩ := List.mem_map.1 h
    rfl
  | entries s =>
    obtain ⟨_, -, rfl⟩ := List.mem_map.1 h
    exact DocumentStep.part_of_named (DocumentStep.named?_eq_some_iff.2 rfl)

theorem filter_stepsOf (d : DesignDocument) (p q : Part) :
    (d.stepsOf q).filter (·.part = p) = if q = p then d.stepsOf q else [] := by
  split
  · next h =>
    rw [List.filter_eq_self]
    exact fun step hstep ↦ decide_eq_true ((part_of_mem_stepsOf hstep).trans h)
  · next h =>
    rw [List.filter_eq_nil_iff]
    exact fun step hstep hp ↦ h ((part_of_mem_stepsOf hstep).symm.trans (of_decide_eq_true hp))

theorem filter_steps (d : DesignDocument) (p : Part) :
    d.steps.filter (·.part = p) = d.stepsOf p := by
  rw [steps, List.filter_flatMap]
  simp only [filter_stepsOf]
  cases p with
  | entries s => cases s <;> simp [parts]
  | rev | language | validateDocUpdate | rewrites => simp [parts]

/-- What only steps about one part give is what the document has of this part. -/
theorem filterMap_steps {α : Type} {f : DocumentStep → Option α} {p : Part}
    (hf : ∀ step, step.part ≠ p → f step = none) (d : DesignDocument) :
    d.steps.filterMap f = (d.stepsOf p).filterMap f := by
  rw [← DocumentStep.filterMap_filter_part hf, filter_steps]

theorem filterMap_added_steps (d : DesignDocument) (s : NamedSection) :
    d.steps.filterMap (added s) = ((s.entries? d).getD .empty).entries := by
  have hadded : added s ∘ (fun p : String × s.Entry ↦ adding s p.1 p.2) = some :=
    funext fun p ↦ DocumentStep.added_eq_some_iff.2 rfl
  rw [filterMap_steps (fun _ ↦ DocumentStep.added_of_part_ne), stepsOf, List.filterMap_map,
    hadded, List.filterMap_some]

theorem names_steps (d : DesignDocument) (s : NamedSection) :
    names s d.steps = ((s.entries? d).getD .empty).names := by
  rw [names, filterMap_added_steps, NamedMap.names]

/-- The names of a valid document can all be added again. -/
theorem firstFault?_steps (h : d.validate = .ok ()) : firstFault? fault? [] d.steps = none := by
  obtain ⟨-, hnames, -⟩ := defect?_eq_none_iff.1 (validate_eq_ok_iff.1 h)
  rw [DocumentStep.firstFault?_eq_none_iff]
  intro s
  rw [names_steps]
  exact ⟨((s.entries? d).getD .empty).distinct,
    fun name hname ↦ ⟨nameDefect?_eq_none_iff.1 (hnames s) name hname, nofun⟩⟩

theorem fullId_of_valid (h : d.validate = .ok ()) : fullId d.id = d.id := by
  obtain ⟨hid, -⟩ := defect?_eq_none_iff.1 (validate_eq_ok_iff.1 h)
  rw [idDefect?_eq_none_iff, namesDocument, Bool.and_eq_true] at hid
  exact if_pos hid.1

theorem describes_steps (h : Buildable d) : Describes d.id d.steps d where
  id := (fullId_of_valid h.valid).symm.trans (fullId_eq d.id)
  rev := by
    rw [lastOf, filterMap_steps (fun _ ↦ DocumentStep.rev?_of_part_ne), stepsOf]
    cases d.rev <;> rfl
  language := by
    rw [lastOf, filterMap_steps (fun _ ↦ DocumentStep.language?_of_part_ne), stepsOf]
    cases d.language <;> rfl
  validateDocUpdate := by
    rw [lastOf, filterMap_steps (fun _ ↦ DocumentStep.validateDocUpdate?_of_part_ne), stepsOf]
    cases d.validateDocUpdate <;> rfl
  sections s := by
    have hs := h.sections s
    rw [allOf, filterMap_added_steps]
    cases hm : s.entries? d with
    | none => rfl
    | some m =>
      have hne : m.entries ≠ [] := fun hnil ↦
        hs (hm.trans (congrArg some (NamedMap.ext_entries hnil)))
      simp [hne]
  rewrites := by
    have hrules : d.steps.filterMap DocumentStep.rewrite? = d.rewrites.getD [] := by
      rw [filterMap_steps (fun _ ↦ DocumentStep.rewrite?_of_part_ne), stepsOf, List.filterMap_map]
      exact List.filterMap_some
    have hne := h.rewrites
    rw [allOf, hrules]
    cases hr : d.rewrites with
    | none => rfl
    | some rules => simp_all
  extras := h.extras

theorem buildable_of_build {id : String} (h : build id steps' = .ok d) : Buildable d := by
  obtain ⟨-, hd, hvalid⟩ := DocumentDraft.finish_foldl_eq_ok_iff.1 h
  refine ⟨hvalid, hd.extras, fun s hs ↦ ?_, fun hr ↦ ?_⟩
  · have hsection := hd.sections s
    rw [hs] at hsection
    exact allOf_ne_nil _ _ hsection.symm
  · rw [hd.rewrites] at hr
    exact allOf_ne_nil _ _ hr

/-- Adding back all that a document has, the steps of each part in their order, builds the very
document again, written as the same text, if it is valid, has no other members and has no part that
is there and empty. Only such documents are ever built. -/
theorem build_steps (d : DesignDocument) :
    (Buildable d → ∀ steps', SameParts d.steps steps' →
      ∃ e, build d.id steps' = .ok e ∧ e = d ∧ Wire.toText e = Wire.toText d) ∧
    ∀ id steps', build id steps' = .ok d → Buildable d := by
  refine ⟨fun h steps' hsame ↦ ?_, fun id steps' ↦ buildable_of_build⟩
  have hbuild : build d.id d.steps = .ok d :=
    DocumentDraft.finish_foldl_eq_ok_iff.2 ⟨firstFault?_steps h.valid, describes_steps h, h.valid⟩
  exact ⟨d, build_of_sameParts hsame hbuild, rfl, rfl⟩

def blog : DesignDocument :=
  { new "_design/blog" with
    rev := some "1-967a00dff5e02add41819138abb3284d"
    language := some "javascript"
    views := some ⟨[("by-tag", .new (.script ⟨"function(doc) { emit(doc.tag) }"⟩)),
      ("by-date", .new (.script ⟨"function(doc) { emit(doc.date) }"⟩))], by decide⟩
    filters := some (.singleton "by-tag" ⟨"function(doc, req) { return doc.tag }"⟩)
    rewrites := some [.new "" "index.html"] }

theorem build_blog_backwards :
    Buildable blog ∧ SameParts blog.steps (parts.reverse.flatMap blog.stepsOf) ∧
      (∃ e, build "_design/blog" (parts.reverse.flatMap blog.stepsOf) = .ok e ∧ e = blog ∧
        Wire.toText e = Wire.toText blog) ∧
      build "blog" blog.steps = .ok blog := by
  have hsame : SameParts blog.steps (parts.reverse.flatMap blog.stepsOf) := fun p ↦ by
    cases p with
    | entries s => cases s <;> rfl
    | _ => rfl
  have hbuild : build "blog" blog.steps = .ok blog := rfl
  have h : Buildable blog := (build_steps blog).2 _ _ hbuild
  exact ⟨h, hsame, (build_steps blog).1 h _ hsame, hbuild⟩

end DesignDocument

end DesignDocs
