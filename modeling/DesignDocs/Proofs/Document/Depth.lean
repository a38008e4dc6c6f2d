import DesignDocs.Proofs.Format.Document
import DesignDocs.Proofs.Json.Depth

namespace DesignDocs

open Json (Reader Shallow Record exists_mem_of_findSome? exists_mem_of_required)

/-- What was read within the limit of texts is written within it. -/
theorem Wire.depth_toJson_of_ofText {α : Type} [Wire α]
    (hs : Shallow (fun a : α ↦ some (toJson a)) read) {text : String} {a : α}
    (h : ofText text = .ok a) : (toJson a).depth ≤ Json.depthLimit := by
  rw [ofText, ofSymbols, Except.mapError_eq_ok_iff] at h
  exact hs.depth_le_of_symbols h _ rfl

theorem Script.shallow_read : Shallow (fun s ↦ some s.toJson) read :=
  .of_flat fun _ ↦ rfl

theorem Reducer.shallow_read : Shallow (fun r ↦ some r.toJson) read :=
  .of_flat fun _ ↦ rfl

theorem MapFunction.shallow_read : Shallow (fun f ↦ some f.toJson) read := by
  rintro n s f hs hf _ ⟨⟩
  obtain ⟨tree, htree, hf⟩ := Except.bind_eq_ok_iff.1 hf
  have hdepth := Json.Source.depth_le_of_tree hs htree
  split at hf <;> cases hf
  · exact Nat.zero_le n
  · exact (Json.depth_toJson_objectOf_le _).trans hdepth

namespace View

theorem shallow_fields : ∀ f ∈ record.fields, Shallow Member.toJson? f.read := by
  simp only [record, List.forall_mem_cons]
  exact ⟨MapFunction.shallow_read.map fun _ ↦ rfl, Reducer.shallow_read.optional.map fun _ ↦ rfl,
    Shallow.text.optional.map fun _ ↦ rfl, Shallow.object.optional.map fun _ ↦ rfl,
    List.forall_mem_nil _⟩

theorem shallow_read : Shallow (fun v ↦ some v.toJson) read := by
  rintro n s v hs hv _ ⟨⟩
  obtain ⟨ms, hms, hv⟩ := Except.bind_eq_ok_iff.1 hv
  obtain ⟨map, hmap, hv⟩ := Except.bind_eq_ok_iff.1 hv
  cases hv
  rw [toJson_eq]
  refine Record.depth_keeping_le shallow_fields hs hms ?_
  simp only [slots, List.forall_mem_cons]
  refine ⟨exists_mem_of_required hmap ?_, exists_mem_of_findSome? ?_, exists_mem_of_findSome? ?_,
    exists_mem_of_findSome? ?_, List.forall_mem_nil _⟩
  all_goals
    intro e a he
    cases e <;> cases he
    rfl

end View

namespace RewriteRule

theorem shallow_fields : ∀ f ∈ record.fields, Shallow Member.toJson? f.read := by
  simp only [record, List.forall_mem_cons]
  exact ⟨Shallow.text.optional.map fun _ ↦ rfl, Shallow.text.map fun _ ↦ rfl,
    Shallow.text.optional.map fun _ ↦ rfl, Shallow.object.optional.map fun _ ↦ rfl,
    List.forall_mem_nil _⟩

theorem shallow_read : Shallow (fun r ↦ some r.toJson) read := by
  rintro n s r hs hr _ ⟨⟩
  obtain ⟨ms, hms, hr⟩ := Except.bind_eq_ok_iff.1 hr
  obtain ⟨target, htarget, hr⟩ := Except.bind_eq_ok_iff.1 hr
  cases hr
  rw [toJson_eq]
  refine Record.depth_written_le shallow_fields hs hms ?_
  simp only [slots, List.forall_mem_cons]
  refine ⟨exists_mem_of_findSome? ?_, exists_mem_of_required htarget ?_,
    exists_mem_of_findSome? ?_, exists_mem_of_findSome? ?_, List.forall_mem_nil _⟩
  all_goals
    intro e a he
    cases e <;> cases he
    rfl

end RewriteRule

namespace AnalyzerConfig

theorem shallow_readFields : Shallow (fun m ↦ some (fieldsToJson m)) readFields := by
  rintro n s m hs hm _ ⟨⟩
  cases s with
  | object members =>
    have hn : 0 < n := by
      cases members with
      | done => exact hs
      | fault f => cases hm
      | cons name value skip rest => exact hs.1
    rw [fieldsToJson, Json.depth_object_le_iff hn, List.forall_mem_map]
    exact fun _ _ ↦ hn
  | _ => cases hm

theorem shallow_fields : ∀ f ∈ record.fields, Shallow Member.toJson? f.read := by
  simp only [record, List.forall_mem_cons]
  exact ⟨Shallow.text.map fun _ ↦ rfl, Shallow.text.optional.map fun _ ↦ rfl,
    shallow_readFields.optional.map fun _ ↦ rfl, Shallow.text.list.optional.map fun _ ↦ rfl,
    List.forall_mem_nil _⟩

theorem shallow_read : Shallow (fun c ↦ some c.toJson) read := by
  rintro n s c hs hc _ ⟨⟩
  obtain ⟨ms, hms, hc⟩ := Except.bind_eq_ok_iff.1 hc
  obtain ⟨name, hname, hc⟩ := Except.bind_eq_ok_iff.1 hc
  cases hc
  rw [toJson_eq]
  refine Record.depth_keeping_le shallow_fields hs hms ?_
  simp only [slots, List.forall_mem_cons]
  refine ⟨exists_mem_of_required hname ?_, exists_mem_of_findSome? ?_, exists_mem_of_findSome? ?_,
    exists_mem_of_findSome? ?_, List.forall_mem_nil _⟩
  all_goals
    intro e a he
    cases e <;> cases he
    rfl

end AnalyzerConfig

/-- A configuration is read from the tree, which is no deeper than its source. -/
theorem Analyzer.shallow_read : Shallow (fun a ↦ some a.toJson) read := by
  rintro n s a hs ha _ ⟨⟩
  obtain ⟨tree, htree, ha⟩ := Except.bind_eq_ok_iff.1 ha
  have hdepth := Json.Source.depth_le_of_tree hs htree
  split at ha
  · cases ha
    exact Nat.zero_le n
  · split at ha
    · next c hc =>
      cases ha
      exact AnalyzerConfig.shallow_read (Json.Source.within_ofJson hdepth) hc _ rfl
    · cases ha

namespace SearchIndex

theorem shallow_fields : ∀ f ∈ record.fields, Shallow Member.toJson? f.read := by
  simp only [record, List.forall_mem_cons]
  exact ⟨Script.shallow_read.map fun _ ↦ rfl, Analyzer.shallow_read.optional.map fun _ ↦ rfl,
    List.forall_mem_nil _⟩

theorem shallow_read : Shallow (fun i ↦ some i.toJson) read := by
  rintro n s i hs hi _ ⟨⟩
  obtain ⟨ms, hms, hi⟩ := Except.bind_eq_ok_iff.1 hi
  obtain ⟨index, hindex, hi⟩ := Except.bind_eq_ok_iff.1 hi
  cases hi
  rw [toJson_eq]
  refine Record.depth_written_le shallow_fields hs hms ?_
  simp only [slots, List.forall_mem_cons]
  refine ⟨exists_mem_of_required hindex ?_, exists_mem_of_findSome? ?_, List.forall_mem_nil _⟩
  all_goals
    intro e a he
    cases e <;> cases he
    rfl

end SearchIndex

namespace FulltextIndex

theorem shallow_fields : ∀ f ∈ record.fields, Shallow Member.toJson? f.read := by
  simp only [record, List.forall_mem_cons]
  exact ⟨Script.shallow_read.map fun _ ↦ rfl, Shallow.object.optional.map fun _ ↦ rfl,
    Shallow.text.optional.map fun _ ↦ rfl, List.forall_mem_nil _⟩

theorem shallow_read : Shallow (fun i ↦ some i.toJson) read := by
  rintro n s i hs hi _ ⟨⟩
  obtain ⟨ms, hms, hi⟩ := Except.bind_eq_ok_iff.1 hi
  obtain ⟨index, hindex, hi⟩ := Except.bind_eq_ok_iff.1 hi
  cases hi
  rw [toJson_eq]
  refine Record.depth_written_le shallow_fields hs hms ?_
  simp only [slots, List.forall_mem_cons]
  refine ⟨exists_mem_of_required hindex ?_, exists_mem_of_findSome? ?_,
    exists_mem_of_findSome? ?_, List.forall_mem_nil _⟩
  all_goals
    intro e a he
    cases e <;> cases he
    rfl

end FulltextIndex

namespace DesignDocument

theorem shallow_fields : ∀ f ∈ record.fields, Shallow Member.toJson? f.read := by
  have hscripts : Shallow (fun o ↦ o.map (sectionToJson Script.toJson)) scripts :=
    Script.shallow_read.named.optional
  simp only [record, List.forall_mem_cons]
  exact ⟨Shallow.text.map fun _ ↦ rfl, Shallow.text.optional.map fun _ ↦ rfl,
    Shallow.text.optional.map fun _ ↦ rfl, View.shallow_read.named.optional.map fun _ ↦ rfl,
    SearchIndex.shallow_read.named.optional.map fun _ ↦ rfl, hscripts.map fun _ ↦ rfl,
    hscripts.map fun _ ↦ rfl, hscripts.map fun _ ↦ rfl, hscripts.map fun _ ↦ rfl,
    Script.shallow_read.optional.map fun _ ↦ rfl,
    RewriteRule.shallow_read.list.optional.map fun _ ↦ rfl,
    FulltextIndex.shallow_read.named.optional.map fun _ ↦ rfl, List.forall_mem_nil _⟩

theorem shallow_read : Shallow (fun d ↦ some d.toJson) read := by
  rintro n s d hs hd _ ⟨⟩
  obtain ⟨ms, hms, hd⟩ := Except.bind_eq_ok_iff.1 hd
  obtain ⟨id, hid, hd⟩ := Except.bind_eq_ok_iff.1 hd
  cases hd
  rw [toJson_eq]
  refine Record.depth_keeping_le shallow_fields hs hms ?_
  simp only [slots, List.forall_mem_cons]
  refine ⟨exists_mem_of_required hid ?_, exists_mem_of_findSome? ?_, exists_mem_of_findSome? ?_,
    exists_mem_of_findSome? ?_, exists_mem_of_findSome? ?_, exists_mem_of_findSome? ?_,
    exists_mem_of_findSome? ?_, exists_mem_of_findSome? ?_, exists_mem_of_findSome? ?_,
    exists_mem_of_findSome? ?_, exists_mem_of_findSome? ?_, exists_mem_of_findSome? ?_,
    List.forall_mem_nil _⟩
  all_goals
    intro e a he
    cases e <;> cases he
    rfl

theorem depth_toJson_of_ofText {text : String} {d : DesignDocument}
    (h : Wire.ofText text = .ok d) : d.toJson.depth ≤ Json.depthLimit :=
  Wire.depth_toJson_of_ofText shallow_read h

end DesignDocument

end DesignDocs
