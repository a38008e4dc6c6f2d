import DesignDocs.Index.Body
import DesignDocs.Proofs.Analyzer

namespace DesignDocs

open Json (Reader Reads Faithful Steady Settled Confined RaisesOnly Record)
open Json.Record (written ReadsFields Separate)
open Json.Source (ofTree ofTreeMembers)

variable {kinds : List ErrorKind}

namespace Selector

theorem reads_toJson (s : Selector) : Reads read s.toJson s := (Reads.object s.members).map mk

theorem toJson_ne_null (s : Selector) : s.toJson ≠ .null := nofun

theorem distinct_toJson (s : Selector) : s.toJson.Distinct := Value.distinct_toJson s.members

theorem faithful_toJson : Faithful toJson := fun s t ↦ Faithful.object s.members t.members

theorem steady_read : Steady read := Steady.object.map mk

theorem confined_read : Confined kinds read := Confined.object.map mk

end Selector

theorem readSingle_ofTreeMembers (surplus : Nat → Json.Fault) (name text : String) :
    readSingle (ofTreeMembers surplus [(name, .string text)]) = .ok (name, text) := rfl

theorem settled_readSingle (members : List (String × Json)) :
    Settled fun surplus ↦ readSingle (ofTreeMembers surplus members) := by
  match members with
  | [] => exact .inl fun _ _ ↦ rfl
  | [(name, v)] => exact (Steady.text v).bind fun text ↦ .const _
  | (name, v) :: (other, _) :: _ => exact (Steady.text v).bind fun text ↦ .const _

theorem raisesOnly_fieldShape {α : Type} (h : .invalidFieldShape ∈ kinds) (f : Json.FieldFault) :
    RaisesOnly kinds (.error (.fieldShape f) : Except Json.Fault α) :=
  .error (List.mem_cons_of_mem _ h)

theorem raisesOnly_readSingle (h : .invalidFieldShape ∈ kinds) {members : Json.Members}
    (hs : members.Plain) : RaisesOnly kinds (readSingle members) := by
  cases members with
  | done => exact raisesOnly_fieldShape h _
  | fault f => exact .plain hs
  | cons name value skip rest =>
    refine (Confined.text value hs.1).bind fun text ↦ ?_
    cases rest with
    | done => exact .ok _
    | fault f => exact .plain hs.2.2
    | cons other _ _ _ => exact raisesOnly_fieldShape h _

theorem SortOrder.ofText?_text (order : SortOrder) : ofText? order.text = some order := by
  cases order <;> rfl

theorem SortOrder.text_inj {o p : SortOrder} : o.text = p.text ↔ o = p := by
  refine ⟨fun h ↦ Option.some.inj ?_, fun h ↦ h ▸ rfl⟩
  rw [← o.ofText?_text, ← p.ofText?_text, h]

namespace JsonField

theorem reads_toJson (f : JsonField) : Reads read f.toJson f := fun surplus ↦ by
  obtain ⟨name, order⟩ := f
  cases order with
  | none => rfl
  | some order =>
    rw [toJson, ofTree, read, readSingle_ofTreeMembers, Except.ok_bind]
    dsimp only
    rw [SortOrder.ofText?_text]
    rfl

theorem distinct_toJson (f : JsonField) : f.toJson.Distinct := by
  obtain ⟨name, order⟩ := f
  cases order with
  | none => exact Json.distinct_string name
  | some order => simp [toJson, Json.Distinct, Json.DistinctMembers]

theorem faithful_toJson : Faithful toJson := fun f g ↦ by
  obtain ⟨name, order⟩ := f
  obtain ⟨name', order'⟩ := g
  rw [beq_iff_eq, JsonField.mk.injEq]
  cases order with
  | none =>
    cases order' with
    | none => rw [toJson, toJson, Json.same_string_iff, and_iff_left rfl]
    | some order' => exact iff_of_false nofun (by simp)
  | some order =>
    cases order' with
    | none => exact iff_of_false nofun (by simp)
    | some order' =>
      rw [toJson, toJson, Json.same_singleton_iff, Json.same_string_iff, SortOrder.text_inj,
        Option.some.injEq]

theorem steady_read : Steady read := fun v ↦ by
  cases v with
  | string name => exact .inl fun _ _ ↦ rfl
  | object members => exact (settled_readSingle members).bind fun p ↦ .const _
  | _ => exact Steady.mismatch _ _

theorem confined_read (h : .invalidFieldShape ∈ kinds) : Confined kinds read := fun s hs ↦ by
  cases s with
  | string name => exact .ok _
  | object members =>
    refine (raisesOnly_readSingle h hs).bind fun ⟨name, other⟩ ↦ ?_
    dsimp only
    split
    · exact .ok _
    · exact raisesOnly_fieldShape h _
  | _ => exact Confined.mismatch _ _ hs

end JsonField

theorem TextFieldType.ofText?_text (type : TextFieldType) : ofText? type.text = some type := by
  cases type <;> rfl

theorem TextFieldType.text_inj {s t : TextFieldType} : s.text = t.text ↔ s = t := by
  refine ⟨fun h ↦ Option.some.inj ?_, fun h ↦ h ▸ rfl⟩
  rw [← s.ofText?_text, ← t.ofText?_text, h]

namespace TextField

theorem reads_toJson (f : TextField) : Reads read f.toJson f := fun surplus ↦ by
  rw [toJson, ofTree, read, readSingle_ofTreeMembers, Except.ok_bind]
  dsimp only
  rw [TextFieldType.ofText?_text]
  rfl

theorem distinct_toJson (f : TextField) : f.toJson.Distinct := by
  simp [toJson, Json.Distinct, Json.DistinctMembers]

theorem faithful_toJson : Faithful toJson := fun f g ↦ by
  obtain ⟨name, type⟩ := f
  obtain ⟨name', type'⟩ := g
  rw [beq_iff_eq, TextField.mk.injEq, toJson, toJson, Json.same_singleton_iff,
    Json.same_string_iff, TextFieldType.text_inj]

theorem steady_read : Steady read := fun v ↦ by
  cases v with
  | string name => exact .inl fun _ _ ↦ rfl
  | object members => exact (settled_readSingle members).bind fun p ↦ .const _
  | _ => exact Steady.mismatch _ _

theorem confined_read (h : .invalidFieldShape ∈ kinds) : Confined kinds read := fun s hs ↦ by
  cases s with
  | string name => exact raisesOnly_fieldShape h _
  | object members =>
    refine (raisesOnly_readSingle h hs).bind fun ⟨name, other⟩ ↦ ?_
    dsimp only
    split
    · exact .ok _
    · exact raisesOnly_fieldShape h _
  | _ => exact Confined.mismatch _ _ hs

end TextField

namespace IndexType

theorem ofName?_name (type : IndexType) : ofName? type.name = some type := by
  cases type <;> rfl

theorem reads_toJson (type : IndexType) : Reads read type.toJson type := fun surplus ↦ by
  rw [toJson, read, Reads.text, Except.ok_bind, ofName?_name]
  rfl

theorem distinct_toJson (type : IndexType) : type.toJson.Distinct := trivial

theorem same_toJson_iff {s t : IndexType} : Json.Same s.toJson t.toJson ↔ s = t := by
  rw [toJson, toJson, Json.same_string_iff]
  refine ⟨fun h ↦ Option.some.inj ?_, fun h ↦ h ▸ rfl⟩
  rw [← s.ofName?_name, ← t.ofName?_name, h]

theorem toJson_injective : Function.Injective toJson :=
  fun s _ h ↦ same_toJson_iff.1 (h ▸ Json.Same.refl s.toJson)

theorem steady_read : Steady read := fun v ↦ (Steady.text v).bind fun _ ↦ .const _

theorem confined_read (h : .unknownIndexType ∈ kinds) : Confined kinds read := fun s hs ↦ by
  refine (Confined.text s hs).bind fun name ↦ ?_
  split
  · exact .ok _
  · exact .error (List.mem_cons_of_mem _ h)

end IndexType

theorem reads_selector (s : Selector) : Reads (Reader.optional Selector.read) s.toJson (some s) :=
  s.reads_toJson.optional s.toJson_ne_null

namespace JsonBody

theorem separate_fields : Separate record.fields := by
  simp [Separate, record, Json.Field.spelled, Json.Field.essential, Json.Field.optional]

def slots (b : JsonBody) : List (Option Json) :=
  [b.partialFilter.map Selector.toJson, b.selector.map Selector.toJson,
    some (.array (b.fields.map JsonField.toJson))]

def members (b : JsonBody) : List (Option Member) :=
  [b.partialFilter.map fun s ↦ .partialFilter (some s), b.selector.map fun s ↦ .selector (some s),
    some (.fields b.fields)]

theorem toJson_eq (b : JsonBody) : b.toJson = .object (written record.names b.slots) := by
  simp [toJson, Record.names, record, slots, Json.Field.essential, Json.Field.optional]

theorem readsFields (b : JsonBody) : ReadsFields record.fields b.slots b.members := by
  refine .option ?_ (.option ?_ (.present ?_ .nil))
  · exact fun s _ ↦ (reads_selector s).map _
  · exact fun s _ ↦ (reads_selector s).map _
  · exact (Reads.list JsonField.reads_toJson b.fields).map _

theorem reads_toJson (b : JsonBody) : Reads read b.toJson b := fun surplus ↦ by
  have h := Record.read_written separate_fields b.readsFields surplus
  rw [toJson_eq, read, h]
  simp [members, Json.required]

theorem distinct_toJson (b : JsonBody) : b.toJson.Distinct := by
  rw [toJson_eq]
  refine Record.distinct_written separate_fields ?_
  simp only [slots, List.forall_mem_cons]
  exact ⟨Json.distinct_map Selector.distinct_toJson _,
    Json.distinct_map Selector.distinct_toJson _,
    Json.distinct_some (Json.distinct_array_map JsonField.distinct_toJson b.fields),
    List.forall_mem_nil _⟩

theorem beq_iff {b c : JsonBody} :
    b == c ↔ b.partialFilter == c.partialFilter ∧ b.selector == c.selector ∧
      b.fields == c.fields := by
  change (_ && _ && _) = true ↔ _
  simp only [Bool.and_eq_true, and_assoc]

theorem faithful_toJson : Faithful toJson := fun b c ↦ by
  rw [toJson_eq, toJson_eq, Record.same_written_iff separate_fields rfl rfl, beq_iff]
  simp only [slots, List.forall₂_cons, List.Forall₂.nil, Option.rel_some_some,
    Selector.faithful_toJson.rel_map_iff, JsonField.faithful_toJson.list _ _, and_true]

theorem steady_read : Steady read := fun v ↦ by
  have hfields : ∀ f ∈ record.fields, Steady f.read := by
    simp only [record, List.forall_mem_cons]
    exact ⟨Selector.steady_read.optional.map _, Selector.steady_read.optional.map _,
      JsonField.steady_read.list.map _, List.forall_mem_nil _⟩
  exact (Record.steady_read hfields v).bind fun ms ↦ .const _

theorem confined_read (h : .invalidFieldShape ∈ kinds) : Confined kinds read := fun s hs ↦ by
  have hfields : ∀ f ∈ record.fields, Confined kinds f.read := by
    simp only [record, List.forall_mem_cons]
    exact ⟨Selector.confined_read.optional.map _, Selector.confined_read.optional.map _,
      (JsonField.confined_read h).list.map _, List.forall_mem_nil _⟩
  exact (Record.confined_read hfields s hs).bind fun ms ↦
    (RaisesOnly.required _ _).bind fun fields ↦ .ok _

end JsonBody

namespace TextBody

theorem separate_fields : Separate record.fields := by
  simp [Separate, record, Json.Field.spelled, Json.Field.alsoCalled, Json.Field.optional]

def slots (b : TextBody) : List (Option Json) :=
  [b.defaultAnalyzer.map Analyzer.toJson, b.defaultField.map DefaultField.toJson,
    b.partialFilter.map Selector.toJson, b.selector.map Selector.toJson,
    b.fields.map fun l ↦ .array (l.map TextField.toJson), b.indexArrayLengths.map .bool]

def members (b : TextBody) : List (Option Member) :=
  [b.defaultAnalyzer.map fun a ↦ .defaultAnalyzer (some a),
    b.defaultField.map fun d ↦ .defaultField (some d),
    b.partialFilter.map fun s ↦ .partialFilter (some s), b.selector.map fun s ↦ .selector (some s),
    b.fields.map fun l ↦ .fields (some l),
    b.indexArrayLengths.map fun v ↦ .indexArrayLengths (some v)]

theorem toJson_eq (b : TextBody) : b.toJson = .object (written record.names b.slots) := by
  simp [toJson, Record.names, record, slots, Json.Field.alsoCalled, Json.Field.optional]

theorem readsFields (b : TextBody) : ReadsFields record.fields b.slots b.members := by
  refine .option ?_ (.option ?_ (.option ?_ (.option ?_ (.option ?_ (.option ?_ .nil)))))
  · exact fun a _ ↦ (a.reads_toJson.optional a.toJson_ne_null).map _
  · exact fun d _ ↦ (d.reads_toJson.optional d.toJson_ne_null).map _
  · exact fun s _ ↦ (reads_selector s).map _
  · exact fun s _ ↦ (reads_selector s).map _
  · exact fun l _ ↦ ((Reads.list TextField.reads_toJson l).optional nofun).map _
  · exact fun v _ ↦ ((Reads.bool v).optional nofun).map _

theorem reads_toJson (b : TextBody) : Reads read b.toJson b := fun surplus ↦ by
  have h := Record.read_written separate_fields b.readsFields surplus
  rw [toJson_eq, read, h]
  simp [members]

theorem distinct_toJson (b : TextBody) : b.toJson.Distinct := by
  rw [toJson_eq]
  refine Record.distinct_written separate_fields ?_
  simp only [slots, List.forall_mem_cons]
  exact ⟨Json.distinct_map Analyzer.distinct_toJson _,
    Json.distinct_map DefaultField.distinct_toJson _,
    Json.distinct_map Selector.distinct_toJson _, Json.distinct_map Selector.distinct_toJson _,
    Json.distinct_map (Json.distinct_array_map TextField.distinct_toJson) _,
    Json.distinct_map Json.distinct_bool _, List.forall_mem_nil _⟩

theorem beq_iff {b c : TextBody} :
    b == c ↔ b.defaultAnalyzer == c.defaultAnalyzer ∧ b.defaultField == c.defaultField ∧
      b.partialFilter == c.partialFilter ∧ b.selector == c.selector ∧ b.fields == c.fields ∧
      b.indexArrayLengths == c.indexArrayLengths := by
  change (_ && _ && _ && _ && _ && _) = true ↔ _
  simp only [Bool.and_eq_true, and_assoc]

theorem faithful_toJson : Faithful toJson := fun b c ↦ by
  rw [toJson_eq, toJson_eq, Record.same_written_iff separate_fields rfl rfl, beq_iff]
  simp only [slots, List.forall₂_cons, List.Forall₂.nil, Analyzer.faithful_toJson.rel_map_iff,
    DefaultField.faithful_toJson.rel_map_iff, Selector.faithful_toJson.rel_map_iff,
    TextField.faithful_toJson.list.rel_map_iff, Faithful.bool.rel_map_iff, and_true]

theorem steady_read : Steady read := fun v ↦ by
  have hfields : ∀ f ∈ record.fields, Steady f.read := by
    simp only [record, List.forall_mem_cons]
    exact ⟨Analyzer.steady_read.optional.map _, DefaultField.steady_read.optional.map _,
      Selector.steady_read.optional.map _, Selector.steady_read.optional.map _,
      TextField.steady_read.list.optional.map _, Steady.bool.optional.map _,
      List.forall_mem_nil _⟩
  exact (Record.steady_read hfields v).bind fun ms ↦ .const _

theorem confined_read (h : .invalidFieldShape ∈ kinds) : Confined kinds read := fun s hs ↦ by
  have hfields : ∀ f ∈ record.fields, Confined kinds f.read := by
    simp only [record, List.forall_mem_cons]
    exact ⟨Analyzer.confined_read.optional.map _, DefaultField.confined_read.optional.map _,
      Selector.confined_read.optional.map _, Selector.confined_read.optional.map _,
      (TextField.confined_read h).list.optional.map _, Confined.bool.optional.map _,
      List.forall_mem_nil _⟩
  exact (Record.confined_read hfields s hs).bind fun ms ↦ .ok _

end TextBody

namespace IndexBody

theorem reads_toJson (b : IndexBody) : Reads (read b.type) b.toJson b := by
  cases b with
  | json b => exact b.reads_toJson.map json
  | text b => exact b.reads_toJson.map text
  | special b => exact b.reads_toJson.map special

theorem distinct_toJson (b : IndexBody) : b.toJson.Distinct := by
  cases b with
  | json b | special b => exact b.distinct_toJson
  | text b => exact b.distinct_toJson

/-- Bodies of one type are told apart by what is written for them. -/
theorem beq_iff {b c : IndexBody} : b == c ↔ b.type = c.type ∧ Json.Same b.toJson c.toJson := by
  change IndexBody.beq b c = true ↔ _
  cases b with
  | json b =>
    cases c with
    | json c => exact (JsonBody.faithful_toJson b c).symm.trans (and_iff_right rfl).symm
    | _ => exact iff_of_false Bool.false_ne_true fun h ↦ nomatch h.1
  | text b =>
    cases c with
    | text c => exact (TextBody.faithful_toJson b c).symm.trans (and_iff_right rfl).symm
    | _ => exact iff_of_false Bool.false_ne_true fun h ↦ nomatch h.1
  | special b =>
    cases c with
    | special c => exact (JsonBody.faithful_toJson b c).symm.trans (and_iff_right rfl).symm
    | _ => exact iff_of_false Bool.false_ne_true fun h ↦ nomatch h.1

theorem exists_toJson_eq_object (b : IndexBody) : ∃ members, b.toJson = .object members := by
  cases b with
  | json b | special b => exact ⟨_, b.toJson_eq⟩
  | text b => exact ⟨_, b.toJson_eq⟩

theorem confined_read (h : .invalidFieldShape ∈ kinds) (type : IndexType) :
    Confined kinds (read type) := by
  cases type with
  | json => exact (JsonBody.confined_read h).map _
  | text => exact (TextBody.confined_read h).map _
  | special => exact (JsonBody.confined_read h).map _

end IndexBody

end DesignDocs
