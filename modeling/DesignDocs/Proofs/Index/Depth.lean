import DesignDocs.Proofs.Document.Depth
import DesignDocs.Proofs.Format.Index

namespace DesignDocs

open Json (Reader Shallow Record exists_mem_of_findSome? exists_mem_of_required)

theorem Json.Shallow.distinctValue : Shallow (fun v ↦ some v.json) Source.distinctValue := by
  rintro n s v hs hv _ ⟨⟩
  exact Source.depth_le_of_tree hs (tree_of_distinctValue hv)

theorem Selector.shallow_read : Shallow (fun s ↦ some s.toJson) read :=
  Shallow.object.map fun _ ↦ rfl

theorem pos_of_readSingle {members : Json.Members} {n : Nat} {p : String × String}
    (hs : members.Within n) (h : readSingle members = .ok p) : 0 < n := by
  cases members with
  | cons => exact hs.1
  | _ => cases h

theorem JsonField.shallow_read : Shallow (fun f ↦ some f.toJson) read := by
  rintro n s f hs hf _ ⟨⟩
  cases s with
  | string name =>
    cases hf
    exact Nat.zero_le n
  | object members =>
    obtain ⟨p, hp, -⟩ := Except.bind_eq_ok_iff.1 hf
    have hn := pos_of_readSingle hs hp
    rw [toJson]
    split
    · exact hn
    · exact Nat.zero_le n
  | _ => cases hf

theorem TextField.shallow_read : Shallow (fun f ↦ some f.toJson) read := by
  rintro n s f hs hf _ ⟨⟩
  cases s with
  | object members =>
    obtain ⟨p, hp, -⟩ := Except.bind_eq_ok_iff.1 hf
    exact pos_of_readSingle hs hp
  | _ => cases hf

namespace DefaultField

theorem shallow_fields : ∀ f ∈ record.fields, Shallow Member.toJson? f.read := by
  have hbool : Shallow (fun b ↦ some (.bool b)) Reader.bool := .of_flat fun _ ↦ rfl
  simp only [record, List.forall_mem_cons]
  exact ⟨hbool.optional.map fun _ ↦ rfl, Analyzer.shallow_read.optional.map fun _ ↦ rfl,
    List.forall_mem_nil _⟩

theorem shallow_read : Shallow (fun d ↦ some d.toJson) read := by
  rintro n s d hs hd _ ⟨⟩
  obtain ⟨ms, hms, hd⟩ := Except.bind_eq_ok_iff.1 hd
  cases hd
  rw [toJson_eq]
  refine Record.depth_written_le shallow_fields hs hms ?_
  simp only [slots, List.forall_mem_cons]
  refine ⟨exists_mem_of_findSome? ?_, exists_mem_of_findSome? ?_, List.forall_mem_nil _⟩
  all_goals
    intro e a he
    cases e <;> cases he
    rfl

end DefaultField

namespace JsonBody

theorem shallow_fields : ∀ f ∈ record.fields, Shallow Member.toJson? f.read := by
  simp only [record, List.forall_mem_cons]
  exact ⟨Selector.shallow_read.optional.map fun _ ↦ rfl,
    Selector.shallow_read.optional.map fun _ ↦ rfl, JsonField.shallow_read.list.map fun _ ↦ rfl,
    List.forall_mem_nil _⟩

theorem shallow_read : Shallow (fun b ↦ some b.toJson) read := by
  rintro n s b hs hb _ ⟨⟩
  obtain ⟨ms, hms, hb⟩ := Except.bind_eq_ok_iff.1 hb
  obtain ⟨fields, hfields, hb⟩ := Except.bind_eq_ok_iff.1 hb
  cases hb
  rw [toJson_eq]
  refine Record.depth_written_le shallow_fields hs hms ?_
  simp only [slots, List.forall_mem_cons]
  refine ⟨exists_mem_of_findSome? ?_, exists_mem_of_findSome? ?_,
    @exists_mem_of_required _ _ _ _ (fun l ↦ .array (l.map JsonField.toJson)) _ _ _ hfields ?_,
    List.forall_mem_nil _⟩
  all_goals
    intro e a he
    cases e <;> cases he
    rfl

end JsonBody

namespace TextBody

theorem shallow_fields : ∀ f ∈ record.fields, Shallow Member.toJson? f.read := by
  have hbool : Shallow (fun b ↦ some (.bool b)) Reader.bool := .of_flat fun _ ↦ rfl
  simp only [record, List.forall_mem_cons]
  exact ⟨Analyzer.shallow_read.optional.map fun _ ↦ rfl,
    DefaultField.shallow_read.optional.map fun _ ↦ rfl,
    Selector.shallow_read.optional.map fun _ ↦ rfl,
    Selector.shallow_read.optional.map fun _ ↦ rfl,
    TextField.shallow_read.list.optional.map fun _ ↦ rfl, hbool.optional.map fun _ ↦ rfl,
    List.forall_mem_nil _⟩

theorem shallow_read : Shallow (fun b ↦ some b.toJson) read := by
  rintro n s b hs hb _ ⟨⟩
  obtain ⟨ms, hms, hb⟩ := Except.bind_eq_ok_iff.1 hb
  cases hb
  rw [toJson_eq]
  refine Record.depth_written_le shallow_fields hs hms ?_
  simp only [slots, List.forall_mem_cons]
  refine ⟨exists_mem_of_findSome? ?_, exists_mem_of_findSome? ?_, exists_mem_of_findSome? ?_,
    exists_mem_of_findSome? ?_, exists_mem_of_findSome? ?_, exists_mem_of_findSome? ?_,
    List.forall_mem_nil _⟩
  all_goals
    intro e a he
    cases e <;> cases he
    rfl

end TextBody

theorem IndexBody.shallow_read (type : IndexType) : Shallow (fun b ↦ some b.toJson) (read type) := by
  cases type with
  | json => exact JsonBody.shallow_read.map fun _ ↦ rfl
  | text => exact TextBody.shallow_read.map fun _ ↦ rfl
  | special => exact JsonBody.shallow_read.map fun _ ↦ rfl

namespace QueryIndex

theorem depth_nullable (o : Option String) : (nullable o).depth = 0 := by
  cases o <;> rfl

theorem shallow_fields : ∀ f ∈ record.fields, Shallow Member.toJson? f.read := by
  have hnullable : Shallow (fun o ↦ some (nullable o)) Reader.text.optional :=
    .of_flat depth_nullable
  have htype : Shallow (fun t ↦ some t.toJson) IndexType.read := .of_flat fun _ ↦ rfl
  simp only [record, List.forall_mem_cons]
  exact ⟨hnullable.map fun _ ↦ rfl, hnullable.map fun _ ↦ rfl, htype.map fun _ ↦ rfl,
    Shallow.distinctValue.map fun _ ↦ rfl, List.forall_mem_nil _⟩

theorem depth_le_of_readBody {type : IndexType} {v : Value} {b : IndexBody}
    (h : readBody type v = .ok b) : b.toJson.depth ≤ v.json.depth := by
  obtain ⟨-, hb⟩ := readBody_eq_ok_iff.1 h
  rw [← (IndexBody.steady_read type).ok_iff, ← Json.Source.ofJson_eq_ofTree] at hb
  exact IndexBody.shallow_read type (Json.Source.within_ofJson le_rfl) hb _ rfl

theorem shallow_read : Shallow (fun i ↦ some i.toJson) read := by
  rintro n s i hs hi _ ⟨⟩
  obtain ⟨ms, hms, hi⟩ := Except.bind_eq_ok_iff.1 hi
  obtain ⟨value, hvalue, hi⟩ := Except.bind_eq_ok_iff.1 hi
  obtain ⟨body, hbody, hi⟩ := Except.bind_eq_ok_iff.1 hi
  cases hi
  obtain ⟨hn, hmembers⟩ := Record.depth_lt_of_read shallow_fields hs hms
  have hbody : body.toJson.depth < n := by
    obtain ⟨e, he, hpick⟩ :=
      List.exists_of_findSome?_eq_some (Json.required_eq_ok_iff.1 hvalue)
    cases e <;> cases hpick
    exact (depth_le_of_readBody hbody).trans_lt (hmembers _ he _ rfl)
  -- The type is written even where it was not read.
  rw [toJson_eq, Json.depth_object_le_iff hn]
  intro p hp
  have hslot := (Record.mem_written hp).2
  simp only [slots, List.mem_cons, List.not_mem_nil, or_false] at hslot
  obtain h | h | h | h := hslot
  · obtain ⟨o, -, ho⟩ := Option.map_eq_some_iff.1 h.symm
    rw [← ho, depth_nullable]
    exact hn
  · obtain ⟨o, -, ho⟩ := Option.map_eq_some_iff.1 h.symm
    rw [← ho, depth_nullable]
    exact hn
  · rw [Option.some.inj h]
    exact hn
  · rw [Option.some.inj h]
    exact hbody

end QueryIndex

namespace IndexListing

theorem shallow_fields : ∀ f ∈ record.fields, Shallow Member.toJson? f.read := by
  have hcount : Shallow (fun n ↦ some (.number (.ofUInt64 n))) Reader.count := .of_flat fun _ ↦ rfl
  simp only [record, List.forall_mem_cons]
  exact ⟨hcount.optional.map fun _ ↦ rfl, QueryIndex.shallow_read.list.map fun _ ↦ rfl,
    List.forall_mem_nil _⟩

theorem shallow_read : Shallow (fun l ↦ some l.toJson) read := by
  rintro n s l hs hl _ ⟨⟩
  obtain ⟨ms, hms, hl⟩ := Except.bind_eq_ok_iff.1 hl
  obtain ⟨indexes, hindexes, hl⟩ := Except.bind_eq_ok_iff.1 hl
  cases hl
  rw [toJson_eq]
  refine Record.depth_written_le shallow_fields hs hms ?_
  simp only [slots, List.forall_mem_cons]
  refine ⟨exists_mem_of_findSome? ?_,
    @exists_mem_of_required _ _ _ _ (fun l ↦ .array (l.map QueryIndex.toJson)) _ _ _ hindexes ?_,
    List.forall_mem_nil _⟩
  all_goals
    intro e a he
    cases e <;> cases he
    rfl

end IndexListing

end DesignDocs
