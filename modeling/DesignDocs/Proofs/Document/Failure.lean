import DesignDocs.Proofs.Document.Draft
import DesignDocs.Proofs.Document.Validity

namespace DesignDocs.DesignDocument

open DocumentDraft (Describes NameFault)
open DocumentStep (adding fault? names rewrite?)

/-- What the id or a step brings into a document that makes it invalid. -/
inductive Flaw (id : String) (steps : List DocumentStep) : Defect → Prop
  | badId (h : id = "" ∨ id = idStart) : Flaw id steps (.badId (fullId id))
  | emptyMap {name : String} {v : View} (hv : .view name v ∈ steps) (h : v.map.isEmpty) :
    Flaw id steps (.emptyMap name)
  | emptyTarget {position : Nat} {r : RewriteRule}
    (hr : (steps.filterMap rewrite?)[position]? = some r) (h : r.target.isEmpty) :
    Flaw id steps (.emptyTarget position)

/-- The error that the steps leave behind, before the document is looked at. -/
def captured? (id : String) (steps : List DocumentStep) : Option DesignError :=
  (steps.foldl DocumentDraft.apply (.start id)).error

variable {id : String} {steps : List DocumentStep} {d : DesignDocument} {x : Defect}

theorem captured?_eq (id : String) (steps : List DocumentStep) :
    captured? id steps = (firstFault? fault? [] steps).map NameFault.error :=
  ((DocumentDraft.stopsAtFault id).foldl [] (d := .start id) rfl (.nil id) steps).1

theorem captured?_append {e : DesignError} (h : captured? id steps = some e)
    (more : List DocumentStep) : captured? id (steps ++ more) = some e := by
  rw [captured?, List.foldl_append]
  exact (DocumentDraft.stopsAtFault id).error_foldl h more

theorem build_of_captured {e : DesignError} (h : captured? id steps = some e) :
    build id steps = .error e := by
  rw [build, DocumentDraft.finish, ← captured?, h]

theorem firstFault?_of_not_captured (h : captured? id steps = none) :
    firstFault? fault? [] steps = none := by
  rw [captured?_eq] at h
  exact Option.map_eq_none_iff.1 h

/-- A flaw is not mended by later steps. -/
theorem Flaw.append (h : Flaw id steps x) (more : List DocumentStep) :
    Flaw id (steps ++ more) x := by
  cases h with
  | badId h => exact .badId h
  | emptyMap hv h => exact .emptyMap (List.mem_append_left more hv) h
  | emptyTarget hr h =>
    refine .emptyTarget ?_ h
    rw [List.filterMap_append, List.getElem?_append_left (List.getElem?_eq_some_iff.1 hr).1, hr]

section

variable (hd : Describes id steps d)

include hd

theorem mem_entries_iff {s : NamedSection} {name : String} {a : s.Entry} :
    (name, a) ∈ ((s.entries? d).getD .empty).entries ↔ adding s name a ∈ steps := by
  rw [← DocumentStep.getD_map_entries, hd.sections, getD_allOf, List.mem_filterMap]
  simp only [DocumentStep.added_eq_some_iff, exists_eq_right]

/-- Steps that are not at fault leave no name to complain of. -/
theorem nameDefect?_of_describes (hf : firstFault? fault? [] steps = none) (s : NamedSection) :
    nameDefect? s.key (s.entries? d) = none := by
  rw [nameDefect?_eq_none_iff, hd.names_getD]
  exact fun name hname ↦ ((DocumentStep.firstFault?_eq_none_iff.1 hf s).2 name hname).1

theorem flaw_of_defect? (hf : firstFault? fault? [] steps = none) (hx : d.defect? = some x) :
    Flaw id steps x := by
  rw [defect?_of_names (nameDefect?_of_describes hd hf), Option.or_eq_some_iff,
    Option.or_eq_some_iff] at hx
  obtain hx | ⟨-, hx | ⟨-, hx⟩⟩ := hx
  · rw [idDefect?, hd.id_eq_fullId] at hx
    split at hx
    · cases hx
    · next h =>
      cases hx
      exact .badId (not_not.1 (mt namesDocument_fullId_iff.2 h))
  · obtain ⟨m, hm, hx⟩ := Option.bind_eq_some_iff.1 hx
    obtain ⟨⟨name, v⟩, hfind, rfl⟩ := Option.map_eq_some_iff.1 hx
    have hempty : v.map.isEmpty := by simpa using List.find?_some hfind
    refine .emptyMap ((mem_entries_iff (s := .views) hd).1 ?_) hempty
    change (name, v) ∈ (d.views.getD .empty).entries
    rw [hm]
    exact List.mem_of_find?_eq_some hfind
  · obtain ⟨rules, hrules, hx⟩ := Option.bind_eq_some_iff.1 hx
    obtain ⟨position, hposition, rfl⟩ := Option.map_eq_some_iff.1 hx
    obtain ⟨hlt, htarget, -⟩ := List.findIdx?_eq_some_iff_getElem.1 hposition
    refine .emptyTarget ?_ htarget
    rw [← getD_allOf, ← hd.rewrites, hrules]
    exact List.getElem?_eq_getElem hlt

theorem defect?_ne_none_of_flaw (h : Flaw id steps x) : d.defect? ≠ none := by
  intro hnone
  obtain ⟨hid, -, hmap, htarget⟩ := defect?_eq_none_iff.1 hnone
  cases h with
  | badId h =>
    rw [idDefect?_eq_none_iff, hd.id_eq_fullId, namesDocument_fullId_iff] at hid
    exact hid h
  | @emptyMap name v hv h =>
    have hmem : (name, v) ∈ (d.views.getD .empty).entries := (mem_entries_iff (s := .views) hd).2 hv
    cases hviews : d.views with
    | none => simp [hviews, NamedMap.empty] at hmem
    | some m =>
      rw [hviews] at hmem
      exact mapDefect?_eq_none_iff.1 hmap m hviews _ hmem h
  | @emptyTarget position r hr h =>
    rw [← getD_allOf, ← hd.rewrites] at hr
    have hmem := List.mem_of_getElem? hr
    cases hrules : d.rewrites with
    | none => simp [hrules] at hmem
    | some rules =>
      rw [hrules] at hmem
      exact targetDefect?_eq_none_iff.1 htarget rules hrules r hmem h

end

theorem head?_toList_append {s : String} {c : Char} (h : s.toList.head? = some c) (t : String) :
    (s ++ t).toList.head? = some c := by
  rw [String.toList_append, List.head?_append, h]
  rfl

theorem head?_message (x : Defect) : x.message.toList.head? = some (match x with
    | .badId _ => 'D'
    | .blankName _ => 'E'
    | .emptyMap _ => 'V'
    | .emptyTarget _ => 'R') := by
  cases x with
  | badId id =>
    have hstart := head?_toList_append (s := toString "Design document id '") rfl (toString id)
    exact head?_toList_append (head?_toList_append (head?_toList_append hstart _) _) _
  | blankName | emptyMap | emptyTarget => exact head?_toList_append (head?_toList_append rfl _) _

theorem Flaw.error_ne_blank (h : Flaw id steps x) (place : String) :
    x.error ≠ (Defect.blankName place).error ∧ x.error ≠ (NameFault.blank place).error := by
  have hfirst : ∀ {e : DesignError}, x.error = e → e.message.toList.head? ∈ [some 'D', some 'V',
      some 'R'] := by
    rintro _ rfl
    change x.message.toList.head? ∈ _
    rw [head?_message]
    cases h <;> simp
  have hblank : (NameFault.blank place).error.message.toList.head? = some 'N' :=
    head?_toList_append (head?_toList_append rfl _) _
  constructor <;> intro he <;> have hmem := hfirst he
  · change (Defect.blankName place).message.toList.head? ∈ _ at hmem
    simp [head?_message] at hmem
  · simp [hblank] at hmem

theorem exists_describes_of_not_captured (h : captured? id steps = none) :
    ∃ d, Describes id steps d ∧ build id steps = d.validate.map fun _ ↦ d := by
  have hfoldl := (DocumentDraft.stopsAtFault id).foldl [] (d := .start id) rfl (.nil id) steps
  refine ⟨_, hfoldl.2 (firstFault?_of_not_captured h), ?_⟩
  rw [build, DocumentDraft.finish, ← captured?, h]

theorem exists_flaw_of_build {e : DesignError} (h : captured? id steps = none)
    (he : build id steps = .error e) : ∃ x, Flaw id steps x ∧ x.error = e := by
  obtain ⟨d, hd, hbuild⟩ := exists_describes_of_not_captured h
  rw [hbuild, Except.map_eq_error_iff, validate_eq_error_iff] at he
  obtain ⟨x, hx, rfl⟩ := he
  exact ⟨x, flaw_of_defect? hd (firstFault?_of_not_captured h) hx, rfl⟩

theorem exists_error_of_flaw (h : Flaw id steps x) : ∃ e, build id steps = .error e := by
  cases hcaptured : captured? id steps with
  | some e => exact ⟨e, build_of_captured hcaptured⟩
  | none =>
    obtain ⟨d, hd, hbuild⟩ := exists_describes_of_not_captured hcaptured
    obtain ⟨y, hy⟩ := Option.ne_none_iff_exists'.1 (defect?_ne_none_of_flaw hd h)
    exact ⟨y.error, hbuild.trans (Except.map_eq_error_iff.2 (validate_eq_error_iff.2 ⟨y, hy, rfl⟩))⟩

theorem exists_error_append {e : DesignError} (h : build id steps = .error e)
    (more : List DocumentStep) : ∃ e, build id (steps ++ more) = .error e := by
  cases hcaptured : captured? id steps with
  | some e' => exact ⟨e', build_of_captured (captured?_append hcaptured more)⟩
  | none =>
    obtain ⟨x, hx, -⟩ := exists_flaw_of_build hcaptured h
    exact exists_error_of_flaw (hx.append more)

theorem valid_of_build (h : build id steps = .ok d) : d.validate = .ok () :=
  (DocumentDraft.finish_foldl_eq_ok_iff.1 h).2.2

/-- Where building has failed it fails whatever steps follow, with the very error that a step was
at fault with. Where no step was, it fails just when the id is bad, a view has no map or a rule no
target, and says so; blank names are not heard of. What is built is valid. -/
theorem build_append_of_failed (id : String) (steps : List DocumentStep) :
    (∀ e, build id steps = .error e → ∀ more, ∃ e', build id (steps ++ more) = .error e') ∧
    (∀ e, captured? id steps = some e → ∀ more, build id (steps ++ more) = .error e) ∧
    (captured? id steps = none →
      ((∃ e, build id steps = .error e) ↔ ∃ x, Flaw id steps x) ∧
      ∀ e, build id steps = .error e → (∃ x, Flaw id steps x ∧ x.error = e) ∧
        ∀ place, e ≠ (Defect.blankName place).error ∧ e ≠ (NameFault.blank place).error) ∧
    ∀ d, build id steps = .ok d →
      d.validate = .ok () ∧ ∃ name, name ≠ "" ∧ d.id = idStart ++ name := by
  refine ⟨fun e ↦ exists_error_append, fun e h more ↦ build_of_captured (captured?_append h more),
    fun h ↦ ⟨⟨?_, ?_⟩, fun e he ↦ ?_⟩, fun d hd ↦ ⟨valid_of_build hd, ?_⟩⟩
  · rintro ⟨e, he⟩
    obtain ⟨x, hx, -⟩ := exists_flaw_of_build h he
    exact ⟨x, hx⟩
  · rintro ⟨x, hx⟩
    exact exists_error_of_flaw hx
  · obtain ⟨x, hx, rfl⟩ := exists_flaw_of_build h he
    exact ⟨⟨x, hx, rfl⟩, hx.error_ne_blank⟩
  · obtain ⟨hid, -⟩ := defect?_eq_none_iff.1 (validate_eq_ok_iff.1 (valid_of_build hd))
    exact namesDocument_iff.1 (idDefect?_eq_none_iff.1 hid)

def mapless : List DocumentStep := [.view "by-date" (.new (.script ⟨" "⟩))]

def givenTwice : List DocumentStep :=
  [.script .filters "own" ⟨"function(doc) {}"⟩, .script .filters "own" ⟨"function(doc) {}"⟩]

theorem build_append_of_mapless :
    (∃ e, build "posts" mapless = .error e ∧ (∃ x, Flaw "posts" mapless x ∧ x.error = e) ∧
      ∃ e', build "posts" (mapless ++ [.language "javascript"]) = .error e') ∧
    (∃ e, captured? "posts" givenTwice = some e ∧
      build "posts" (givenTwice ++ mapless) = .error e) ∧
    ∃ d, build "posts" [] = .ok d ∧ ∃ name, name ≠ "" ∧ d.id = idStart ++ name := by
  obtain ⟨hfailed, -, hflaw, -⟩ := build_append_of_failed "posts" mapless
  obtain ⟨-, hcaptured, -, -⟩ := build_append_of_failed "posts" givenTwice
  obtain ⟨-, -, -, hbuilt⟩ := build_append_of_failed "posts" []
  have hmapless : build "posts" mapless = .error (Defect.emptyMap "by-date").error := rfl
  exact ⟨⟨_, hmapless, ((hflaw rfl).2 _ hmapless).1, hfailed _ hmapless _⟩,
    ⟨_, rfl, hcaptured _ rfl _⟩, _, rfl, (hbuilt _ rfl).2⟩

end DesignDocs.DesignDocument
