import DesignDocs.Document.Draft
import DesignDocs.Proofs.Document.Section
import DesignDocs.Proofs.Except
import DesignDocs.Proofs.History
import DesignDocs.Proofs.Json.Tree

namespace DesignDocs

open DocumentDraft (NameFault)

namespace DocumentStep

/-- The section of which a step names a new entry. -/
def named? : DocumentStep → Option (Σ s : NamedSection, String × s.Entry)
  | view name v => some ⟨.views, name, v⟩
  | searchIndex name i => some ⟨.indexes, name, i⟩
  | script .filters name s => some ⟨.filters, name, s⟩
  | script .shows name s => some ⟨.shows, name, s⟩
  | script .lists name s => some ⟨.lists, name, s⟩
  | script .updates name s => some ⟨.updates, name, s⟩
  | fulltext name i => some ⟨.fulltext, name, i⟩
  | rev _ | language _ | validateDocUpdate _ | rewrite _ => none

def adding : (s : NamedSection) → String → s.Entry → DocumentStep
  | .views, name, v => view name v
  | .indexes, name, i => searchIndex name i
  | .filters, name, s => script .filters name s
  | .shows, name, s => script .shows name s
  | .lists, name, s => script .lists name s
  | .updates, name, s => script .updates name s
  | .fulltext, name, i => fulltext name i

/-- The entry that a step adds to the section. -/
def added (s : NamedSection) (step : DocumentStep) : Option (String × s.Entry) :=
  step.named?.bind fun ⟨t, entry⟩ ↦ if h : t = s then some (h ▸ entry) else none

def rev? : DocumentStep → Option String
  | rev s => some s
  | _ => none

def language? : DocumentStep → Option String
  | language s => some s
  | _ => none

def validateDocUpdate? : DocumentStep → Option Script
  | validateDocUpdate s => some s
  | _ => none

def rewrite? : DocumentStep → Option RewriteRule
  | rewrite r => some r
  | _ => none

/-- What is wrong with the name of a step's entry, after the steps before it. -/
def fault? (before : List DocumentStep) (step : DocumentStep) : Option NameFault :=
  step.named?.bind fun ⟨s, name, _⟩ ↦
    if Text.isBlankText name then some (.blank s.key)
    else if name ∈ (before.filterMap (added s)).map Prod.fst then some (.taken s.key name)
    else none

section

variable {step : DocumentStep} {s : NamedSection} {name : String} {a : s.Entry}

theorem named?_eq_some_iff : step.named? = some ⟨s, name, a⟩ ↔ step = adding s name a := by
  constructor
  · intro h
    cases step with
    | script place _ _ => cases place <;> (cases h; rfl)
    | view | searchIndex | fulltext => cases h; rfl
    | rev | language | validateDocUpdate | rewrite => cases h
  · rintro rfl
    cases s <;> rfl

theorem fault?_of_named (h : step.named? = some ⟨s, name, a⟩) (before : List DocumentStep) :
    fault? before step =
      if Text.isBlankText name then some (.blank s.key)
      else if name ∈ (before.filterMap (added s)).map Prod.fst then some (.taken s.key name)
      else none := by
  rw [fault?, h]
  rfl

theorem fault?_of_unnamed (h : step.named? = none) (before : List DocumentStep) :
    fault? before step = none := by
  rw [fault?, h]
  rfl

theorem added_of_named (h : step.named? = some ⟨s, name, a⟩) :
    step.added s = some (name, a) := by
  rw [added, h]
  simp

theorem added_of_named_of_ne (h : step.named? = some ⟨s, name, a⟩) {t : NamedSection}
    (ht : t ≠ s) : step.added t = none := by
  rw [added, h]
  simp [Ne.symm ht]

theorem added_eq_some_iff : step.added s = some (name, a) ↔ step = adding s name a := by
  rw [← named?_eq_some_iff]
  refine ⟨fun h ↦ ?_, added_of_named⟩
  obtain ⟨⟨t, entry⟩, hn, h⟩ := Option.bind_eq_some_iff.1 h
  obtain ⟨rfl, he⟩ := Option.dite_none_right_eq_some.1 h
  cases he
  exact hn

theorem apply_of_named (h : step.named? = some ⟨s, name, a⟩) (d : DocumentDraft) :
    d.apply step = d.add s.key (s.entries? d.document) name a s.put := by
  cases step with
  | script place _ _ => cases place <;> (cases h; rfl)
  | view | searchIndex | fulltext => cases h; rfl
  | rev | language | validateDocUpdate | rewrite => cases h

end

def names (s : NamedSection) (steps : List DocumentStep) : List String :=
  (steps.filterMap (added s)).map Prod.fst

theorem names_append (s : NamedSection) (steps more : List DocumentStep) :
    names s (steps ++ more) = names s steps ++ names s more := by
  rw [names, List.filterMap_append, List.map_append]
  rfl

theorem names_cons (s : NamedSection) (step : DocumentStep) (steps : List DocumentStep) :
    names s (step :: steps) = names s [step] ++ names s steps := names_append s [step] steps

theorem names_singleton (s : NamedSection) (step : DocumentStep) :
    names s [step] = ((step.added s).map Prod.fst).toList := by
  rw [names, List.filterMap_cons]
  cases step.added s <;> rfl

theorem nodup_names_singleton (s : NamedSection) (step : DocumentStep) :
    (names s [step]).Nodup := by
  rw [names_singleton]
  cases step.added s <;> simp

theorem fault?_eq_none_iff {before : List DocumentStep} {step : DocumentStep} :
    fault? before step = none ↔
      ∀ s, ∀ name ∈ names s [step], ¬ Text.isBlankText name ∧ name ∉ names s before := by
  simp only [names_singleton, Option.mem_toList]
  cases hn : step.named? with
  | none =>
    have hadded : ∀ s, step.added s = none := fun s ↦ by
      rw [added, hn]
      rfl
    simp [fault?_of_unnamed hn, hadded]
  | some entry =>
    obtain ⟨t, name, a⟩ := entry
    have hfault : fault? before step = none ↔
        ¬ Text.isBlankText name ∧ name ∉ names t before := by
      rw [fault?_of_named hn, names]
      split
      · simp_all
      · split <;> simp_all
    rw [hfault]
    refine ⟨fun h s ↦ ?_, fun h ↦ h t name (by rw [added_of_named hn]; rfl)⟩
    by_cases hs : s = t
    · subst hs
      rw [added_of_named hn]
      rintro _ ⟨⟩
      exact h
    · rw [added_of_named_of_ne hn hs]
      exact nofun

/-- No step is at fault just when each section gets other names, none of them blank, than it has
already. -/
theorem firstFault?_eq_none_iff {before steps : List DocumentStep} :
    firstFault? fault? before steps = none ↔
      ∀ s, (names s steps).Nodup ∧
        ∀ name ∈ names s steps, ¬ Text.isBlankText name ∧ name ∉ names s before := by
  induction steps generalizing before with
  | nil => simp [firstFault?, names]
  | cons step steps ih =>
    rw [firstFault?, Option.or_eq_none_iff, ih, fault?_eq_none_iff, ← forall_and]
    refine forall_congr' fun s ↦ ?_
    have hstep := nodup_names_singleton s step
    rw [names_cons s step steps, names_append, List.nodup_append]
    grind

/-- What a step without fault makes of a document. -/
structure Leads (step : DocumentStep) (d e : DesignDocument) : Prop where
  id : e.id = d.id
  rev : e.rev = step.rev?.or d.rev
  language : e.language = step.language?.or d.language
  validateDocUpdate : e.validateDocUpdate = step.validateDocUpdate?.or d.validateDocUpdate
  sections : ∀ s : NamedSection, (s.entries? e).map NamedMap.entries =
    grown ((s.entries? d).map NamedMap.entries) (step.added s)
  rewrites : e.rewrites = grown d.rewrites step.rewrite?
  extras : e.extras = d.extras

theorem leads_of_unnamed {step : DocumentStep} (h : step.named? = none) (d : DocumentDraft) :
    step.Leads d.document (d.apply step).document ∧ (d.apply step).error = d.error := by
  cases step with
  | rev | language | validateDocUpdate | rewrite =>
    exact ⟨⟨rfl, rfl, rfl, rfl, fun s ↦ by cases s <;> rfl, rfl, rfl⟩, rfl⟩
  | script place _ _ => cases place <;> cases h
  | view | searchIndex | fulltext => cases h

theorem getD_map_entries {α : Type} (m : Option (NamedMap α)) :
    (m.map NamedMap.entries).getD [] = (m.getD .empty).entries := by
  cases m <;> rfl

theorem leads_put {step : DocumentStep} {s : NamedSection} {name : String} {a : s.Entry}
    (h : step.named? = some ⟨s, name, a⟩) (d : DesignDocument)
    (hn : name ∉ ((s.entries? d).getD .empty).names) :
    step.Leads d (s.put (((s.entries? d).getD .empty).push name a hn) d) := by
  have hset : step.rev? = none ∧ step.language? = none ∧ step.validateDocUpdate? = none ∧
      step.rewrite? = none := by
    cases step with
    | view | searchIndex | script | fulltext => exact ⟨rfl, rfl, rfl, rfl⟩
    | rev | language | validateDocUpdate | rewrite => cases h
  obtain ⟨hrev, hlanguage, hvalidate, hrewrite⟩ := hset
  refine ⟨by simp, by simp [hrev], by simp [hlanguage], by simp [hvalidate], ?_,
    by simp [hrewrite, grown], by simp⟩
  intro t
  by_cases ht : t = s
  · subst ht
    rw [NamedSection.entries?_put, added_of_named h, grown, getD_map_entries]
    rfl
  · rw [NamedSection.entries?_put_of_ne _ _ ht, added_of_named_of_ne h ht]
    rfl

end DocumentStep

theorem DesignDocument.fullId_eq (id : String) :
    fullId id = if "_design/".toList <+: id.toList then id else "_design/" ++ id :=
  if_congr List.isPrefixOf_iff_prefix rfl rfl

namespace DocumentDraft

open DocumentStep

/-- The document has what the steps gave, and nothing else. -/
structure Describes (id : String) (steps : List DocumentStep) (d : DesignDocument) : Prop where
  id : d.id = if "_design/".toList <+: id.toList then id else "_design/" ++ id
  rev : d.rev = lastOf rev? steps
  language : d.language = lastOf language? steps
  validateDocUpdate : d.validateDocUpdate = lastOf validateDocUpdate? steps
  sections : ∀ s : NamedSection, (s.entries? d).map NamedMap.entries = allOf (added s) steps
  rewrites : d.rewrites = allOf rewrite? steps
  extras : d.extras = .none

namespace Describes

variable {id : String} {steps : List DocumentStep} {step : DocumentStep} {d e : DesignDocument}

theorem nil (id : String) : Describes id [] (.new (DesignDocument.fullId id)) :=
  ⟨DesignDocument.fullId_eq id, rfl, rfl, rfl, fun s ↦ by cases s <;> rfl, rfl, rfl⟩

theorem id_eq_fullId (h : Describes id steps d) : d.id = DesignDocument.fullId id :=
  h.id.trans (DesignDocument.fullId_eq id).symm

theorem concat (h : Describes id steps d) (hl : step.Leads d e) :
    Describes id (steps ++ [step]) e where
  id := by rw [hl.id, h.id]
  rev := by rw [hl.rev, h.rev, lastOf_concat]
  language := by rw [hl.language, h.language, lastOf_concat]
  validateDocUpdate := by rw [hl.validateDocUpdate, h.validateDocUpdate, lastOf_concat]
  sections s := by rw [hl.sections, h.sections, allOf_concat]
  rewrites := by rw [hl.rewrites, h.rewrites, allOf_concat]
  extras := by rw [hl.extras, h.extras]

theorem names_getD (h : Describes id steps d) (s : NamedSection) :
    ((s.entries? d).getD .empty).names = (steps.filterMap (added s)).map Prod.fst := by
  rw [← getD_allOf, ← h.sections, getD_map_entries, NamedMap.names]

theorem section_eq (hd : Describes id steps d) (he : Describes id steps e) (s : NamedSection) :
    s.entries? d = s.entries? e := by
  have h : (s.entries? d).map NamedMap.entries = (s.entries? e).map NamedMap.entries := by
    rw [hd.sections, he.sections]
  exact Option.map_injective (fun _ _ ↦ NamedMap.ext_entries) h

theorem unique (hd : Describes id steps d) (he : Describes id steps e) : d = e := by
  have hid : d.id = e.id := by rw [hd.id, he.id]
  have hrev : d.rev = e.rev := by rw [hd.rev, he.rev]
  have hlanguage : d.language = e.language := by rw [hd.language, he.language]
  have hvalidate : d.validateDocUpdate = e.validateDocUpdate := by
    rw [hd.validateDocUpdate, he.validateDocUpdate]
  have hrewrites : d.rewrites = e.rewrites := by rw [hd.rewrites, he.rewrites]
  have hextras : d.extras = e.extras := by rw [hd.extras, he.extras]
  have hviews : d.views = e.views := section_eq hd he .views
  have hindexes : d.indexes = e.indexes := section_eq hd he .indexes
  have hfilters : d.filters = e.filters := section_eq hd he .filters
  have hshows : d.shows = e.shows := section_eq hd he .shows
  have hlists : d.lists = e.lists := section_eq hd he .lists
  have hupdates : d.updates = e.updates := section_eq hd he .updates
  have hfulltext : d.fulltext = e.fulltext := section_eq hd he .fulltext
  cases d
  cases e
  simp_all

end Describes

theorem error_apply {d : DocumentDraft} {e : DesignError} (h : d.error = some e)
    (step : DocumentStep) : (d.apply step).error = some e := by
  cases hn : step.named? with
  | none => rw [(leads_of_unnamed hn d).2, h]
  | some entry =>
    obtain ⟨s, name, a⟩ := entry
    rw [apply_of_named hn, add, h]
    exact h

/-- A step leads on from a document without fault, or is the first at fault. -/
theorem apply_of_error_none {steps : List DocumentStep} {id : String} {d : DocumentDraft}
    (he : d.error = none) (h : Describes id steps d.document) (step : DocumentStep) :
    (d.apply step).error = (fault? steps step).map NameFault.error ∧
      (fault? steps step = none → step.Leads d.document (d.apply step).document) := by
  cases hn : step.named? with
  | none =>
    obtain ⟨hleads, herror⟩ := leads_of_unnamed hn d
    rw [fault?_of_unnamed hn, herror, he]
    exact ⟨rfl, fun _ ↦ hleads⟩
  | some entry =>
    obtain ⟨s, name, a⟩ := entry
    rw [fault?_of_named hn, ← h.names_getD s, apply_of_named hn, add, he]
    by_cases hblank : Text.isBlankText name
    · rw [addNamed, if_pos hblank, if_pos hblank]
      exact ⟨rfl, nofun⟩
    · by_cases htaken : name ∈ ((s.entries? d.document).getD .empty).names
      · rw [addNamed, if_neg hblank, dif_pos htaken, if_neg hblank, if_pos htaken]
        exact ⟨rfl, nofun⟩
      · rw [addNamed, if_neg hblank, dif_neg htaken, if_neg hblank, if_neg htaken]
        exact ⟨rfl, fun _ ↦ leads_put hn d.document htaken⟩

theorem stopsAtFault (id : String) :
    StopsAtFault error apply fault? NameFault.error fun steps d ↦ Describes id steps d.document where
  stays h step := error_apply h step
  goes he h step := by
    obtain ⟨herror, hleads⟩ := apply_of_error_none he h step
    exact ⟨herror, fun hf ↦ h.concat (hleads hf)⟩

/-- What is built is described by steps none of which is at fault, and valid. -/
theorem finish_foldl_eq_ok_iff {id : String} {steps : List DocumentStep} {d : DesignDocument} :
    (steps.foldl apply (.start id)).finish = .ok d ↔
      firstFault? fault? [] steps = none ∧ Describes id steps d ∧ d.validate = .ok () := by
  obtain ⟨herror, hdocument⟩ := (stopsAtFault id).foldl [] (d := .start id) rfl (.nil id) steps
  rw [finish, herror]
  cases hf : firstFault? fault? [] steps with
  | some f => exact iff_of_false nofun fun h ↦ nomatch h.1
  | none =>
    have hd := hdocument hf
    refine Except.map_eq_ok_iff.trans ⟨?_, fun ⟨_, he, hv⟩ ↦ ?_⟩
    · rintro ⟨_, hv, rfl⟩
      exact ⟨rfl, hd, hv⟩
    · obtain rfl := he.unique hd
      exact ⟨(), hv, rfl⟩

end DocumentDraft

namespace DesignDocument

open DocumentDraft (Describes)
open DocumentStep (fault?)

/-- What is built is the error of the earliest step at fault; where no step is, it is the document
that the steps describe, if that document is valid. -/
theorem build_eq (id : String) (steps : List DocumentStep) :
    (∀ f, firstFault? fault? [] steps = some f → build id steps = .error f.error) ∧
      (firstFault? fault? [] steps = none → ∃ d, Describes id steps d ∧
        (∀ e, Describes id steps e → e = d) ∧ build id steps = d.validate.map fun _ ↦ d) ∧
      ∀ place name, (NameFault.blank place).error.kind = .validation ∧
        (NameFault.taken place name).error.kind = .duplicateName := by
  obtain ⟨herror, hdocument⟩ :=
    (DocumentDraft.stopsAtFault id).foldl [] (d := .start id) rfl (.nil id) steps
  refine ⟨?_, ?_, fun place name ↦ ⟨rfl, rfl⟩⟩
  · intro f hf
    rw [build, DocumentDraft.finish, herror, hf]
    rfl
  · intro hf
    have hd := hdocument hf
    refine ⟨_, hd, fun e he ↦ he.unique hd, ?_⟩
    rw [build, DocumentDraft.finish, herror, hf]
    rfl

/-- A view, a filter of the same name, and steps that take or lack a name. -/
def careless : List DocumentStep :=
  [.view "by-date" (.new (.script ⟨"function(doc) { emit(doc.date) }"⟩)),
    .script .filters "by-date" ⟨"function(doc) { return true }"⟩,
    .view "by-date" (.new (.script ⟨"function(doc) { emit(doc.day) }"⟩)), .language "javascript",
    .script .shows " " ⟨"function(doc) { return doc }"⟩]

theorem build_careless :
    build "posts" careless = .error (NameFault.taken "views" "by-date").error ∧
      ∃ d, Describes "posts" (careless.take 2) d ∧
        build "posts" (careless.take 2) = d.validate.map fun _ ↦ d := by
  refine ⟨(build_eq _ _).1 _ (by decide), ?_⟩
  obtain ⟨d, hd, -, hbuild⟩ := (build_eq "posts" (careless.take 2)).2.1 (by decide)
  exact ⟨d, hd, hbuild⟩

end DesignDocument

end DesignDocs
