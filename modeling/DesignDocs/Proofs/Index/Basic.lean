import DesignDocs.Index.Listing
import DesignDocs.Proofs.Index.Body

namespace DesignDocs

open Json (Reader Reads Faithful Steady Settled Confined RaisesOnly Record)
open Json.Record (written ReadsFields Separate)

variable {kinds : List ErrorKind}

namespace QueryIndex

theorem reads_nullable (o : Option String) : Reads Reader.text.optional (nullable o) o := by
  cases o with
  | none => exact fun _ ↦ rfl
  | some s => exact Reads.optionalText s

theorem distinct_nullable (o : Option String) : (nullable o).Distinct := by
  cases o <;> trivial

theorem separate_fields : Separate record.fields := by
  simp [Separate, record, Json.Field.spelled, Json.Field.alsoCalled, Json.Field.essential,
    Json.Field.optional]

def slots (i : QueryIndex) : List (Option Json) :=
  [i.designDocument.map nullable, i.name.map nullable, some i.type.toJson, some i.body.toJson]

def members (i : QueryIndex) : List (Option Member) :=
  [i.designDocument.map .designDocument, i.name.map .name, some (.type i.type),
    some (.body ⟨i.body.toJson, i.body.distinct_toJson⟩)]

def heading (i : QueryIndex) : List (String × Json) :=
  written ["ddoc", "name", "type"]
    [i.designDocument.map nullable, i.name.map nullable, some i.type.toJson]

theorem toJsonUnder_eq (key : String) (i : QueryIndex) :
    i.toJsonUnder key = .object (i.heading ++ [(key, i.body.toJson)]) := by
  simp [toJsonUnder, heading]

theorem toJson_eq (i : QueryIndex) : i.toJson = .object (written record.names i.slots) := by
  simp [toJson, toJsonUnder, Record.names, record, slots, Json.Field.alsoCalled,
    Json.Field.essential, Json.Field.optional]

theorem readsFields (i : QueryIndex) : ReadsFields record.fields i.slots i.members := by
  refine .option ?_ (.option ?_ (.present ?_ (.present ?_ .nil)))
  · exact fun o _ ↦ (reads_nullable o).map _
  · exact fun o _ ↦ (reads_nullable o).map _
  · exact i.type.reads_toJson.map _
  · exact (Reads.distinctValue i.body.distinct_toJson).map _

theorem readBody_toJson (b : IndexBody) :
    readBody b.type ⟨b.toJson, b.distinct_toJson⟩ = .ok b := by
  obtain ⟨members, hm⟩ := b.exists_toJson_eq_object
  have h := b.reads_toJson .surplusItems
  rw [← Json.Source.ofJson_eq_ofTree] at h
  rw [readBody]
  dsimp only
  rw [h, hm]
  rfl

theorem reads_toJson (i : QueryIndex) : Reads read i.toJson i := fun surplus ↦ by
  have h := Record.read_written separate_fields i.readsFields surplus
  have hbody : readBody i.type ⟨i.body.toJson, i.body.distinct_toJson⟩ = .ok i.body :=
    readBody_toJson i.body
  rw [toJson_eq, read, h]
  simp [members, Json.required, hbody]

theorem distinct_toJsonUnder {key : String} (h : key ∉ ["ddoc", "name", "type"])
    (i : QueryIndex) : (i.toJsonUnder key).Distinct := by
  have hvalues : ∀ o ∈ [i.designDocument.map nullable, i.name.map nullable, some i.type.toJson],
      ∀ v ∈ o, v.Distinct := by
    simp only [List.forall_mem_cons]
    exact ⟨Json.distinct_map distinct_nullable _, Json.distinct_map distinct_nullable _,
      Json.distinct_some i.type.distinct_toJson, List.forall_mem_nil _⟩
  have hbody : (Json.object [(key, i.body.toJson)]).Distinct :=
    ⟨List.nodup_cons.2 ⟨List.not_mem_nil, List.nodup_nil⟩, i.body.distinct_toJson, trivial⟩
  rw [toJsonUnder_eq]
  exact Json.Record.distinct_written_append (by decide) hvalues hbody
    (List.forall_mem_singleton.2 h)

theorem distinct_toJson (i : QueryIndex) : i.toJson.Distinct :=
  distinct_toJsonUnder (by decide) i

theorem beq_iff {i j : QueryIndex} :
    i == j ↔ i.designDocument == j.designDocument ∧ i.name == j.name ∧ i.body == j.body := by
  change (_ && _ && _) = true ↔ _
  simp only [Bool.and_eq_true, and_assoc]

theorem faithful_nullable : Faithful nullable := fun o p ↦ by
  rw [beq_iff_eq]
  cases o with
  | none =>
    cases p with
    | none => exact iff_of_true .null rfl
    | some t => exact iff_of_false nofun nofun
  | some s =>
    cases p with
    | none => exact iff_of_false nofun nofun
    | some t => rw [nullable, nullable, Json.same_string_iff, Option.some.injEq]

theorem faithful_toJson : Faithful toJson := fun i j ↦ by
  rw [toJson_eq, toJson_eq, Record.same_written_iff separate_fields rfl rfl, beq_iff,
    IndexBody.beq_iff]
  simp only [slots, List.forall₂_cons, List.Forall₂.nil, Option.rel_some_some,
    faithful_nullable.rel_map_iff, IndexType.same_toJson_iff, type, and_true]

theorem steady_read : Steady read := fun v ↦ by
  have hfields : ∀ f ∈ record.fields, Steady f.read := by
    simp only [record, List.forall_mem_cons]
    exact ⟨Steady.text.optional.map _, Steady.text.optional.map _, IndexType.steady_read.map _,
      Steady.distinctValue.map _, List.forall_mem_nil _⟩
  exact (Record.steady_read hfields v).bind fun ms ↦ .const _

theorem raisesOnly_readBody (h : .invalidFieldShape ∈ kinds) (type : IndexType) (body : Value) :
    RaisesOnly kinds (readBody type body) := by
  rw [readBody]
  split
  · have hbody := IndexBody.confined_read h type _ (Json.Source.plain_ofJson body.json)
    cases hr : IndexBody.read type (.ofJson body.json) with
    | error f => exact .error (hbody f hr)
    | ok b => exact .ok b
  · exact .plain rfl

theorem confined_read (hd : .duplicateName ∈ kinds) (ht : .unknownIndexType ∈ kinds)
    (hf : .invalidFieldShape ∈ kinds) : Confined kinds read := fun s hs ↦ by
  have hfields : ∀ f ∈ record.fields, Confined kinds f.read := by
    simp only [record, List.forall_mem_cons]
    exact ⟨Confined.text.optional.map _, Confined.text.optional.map _,
      (IndexType.confined_read ht).map _, (Confined.distinctValue hd).map _,
      List.forall_mem_nil _⟩
  exact (Record.confined_read hfields s hs).bind fun ms ↦
    (RaisesOnly.required _ _).bind fun value ↦
      (raisesOnly_readBody hf _ value).bind fun body ↦ .ok _

end QueryIndex

namespace IndexListing

theorem separate_fields : Separate record.fields := by
  simp [Separate, record, Json.Field.spelled, Json.Field.essential, Json.Field.optional]

def slots (l : IndexListing) : List (Option Json) :=
  [l.totalRows.map fun n ↦ .number (.ofUInt64 n), some (.array (l.indexes.map QueryIndex.toJson))]

def members (l : IndexListing) : List (Option Member) :=
  [l.totalRows.map fun n ↦ .totalRows (some n), some (.indexes l.indexes)]

theorem toJson_eq (l : IndexListing) : l.toJson = .object (written record.names l.slots) := by
  simp [toJson, Record.names, record, slots, Json.Field.essential, Json.Field.optional]

theorem readsFields (l : IndexListing) : ReadsFields record.fields l.slots l.members := by
  refine .option ?_ (.present ?_ .nil)
  · exact fun n _ ↦ ((Reads.count n).optional nofun).map _
  · exact (Reads.list QueryIndex.reads_toJson l.indexes).map _

theorem reads_toJson (l : IndexListing) : Reads read l.toJson l := fun surplus ↦ by
  have h := Record.read_written separate_fields l.readsFields surplus
  rw [toJson_eq, read, h]
  simp [members, Json.required]

theorem distinct_toJson (l : IndexListing) : l.toJson.Distinct := by
  have hcount : ∀ n : UInt64, (Json.number (.ofUInt64 n)).Distinct := fun _ ↦ trivial
  rw [toJson_eq]
  refine Record.distinct_written separate_fields ?_
  simp only [slots, List.forall_mem_cons]
  exact ⟨Json.distinct_map hcount _,
    Json.distinct_some (Json.distinct_array_map QueryIndex.distinct_toJson l.indexes),
    List.forall_mem_nil _⟩

theorem beq_iff {l m : IndexListing} :
    l == m ↔ l.totalRows == m.totalRows ∧ l.indexes == m.indexes := by
  change (_ && _) = true ↔ _
  rw [Bool.and_eq_true]

theorem faithful_count : Faithful fun n : UInt64 ↦ .number (.ofUInt64 n) := fun m n ↦ by
  rw [Json.same_number_iff]
  refine (Json.Number.integer_beq_integer _ _).trans ?_
  rw [beq_iff_eq, Int.ofNat_inj, UInt64.toNat_inj]

theorem faithful_toJson : Faithful toJson := fun l m ↦ by
  rw [toJson_eq, toJson_eq, Record.same_written_iff separate_fields rfl rfl, beq_iff]
  simp only [slots, List.forall₂_cons, List.Forall₂.nil, Option.rel_some_some,
    faithful_count.rel_map_iff, QueryIndex.faithful_toJson.list _ _, and_true]

theorem steady_read : Steady read := fun v ↦ by
  have hfields : ∀ f ∈ record.fields, Steady f.read := by
    simp only [record, List.forall_mem_cons]
    exact ⟨Steady.count.optional.map _, QueryIndex.steady_read.list.map _, List.forall_mem_nil _⟩
  exact (Record.steady_read hfields v).bind fun ms ↦ .const _

theorem confined_read (hd : .duplicateName ∈ kinds) (ht : .unknownIndexType ∈ kinds)
    (hf : .invalidFieldShape ∈ kinds) : Confined kinds read := fun s hs ↦ by
  have hfields : ∀ f ∈ record.fields, Confined kinds f.read := by
    simp only [record, List.forall_mem_cons]
    exact ⟨Confined.count.optional.map _, (QueryIndex.confined_read hd ht hf).list.map _,
      List.forall_mem_nil _⟩
  exact (Record.confined_read hfields s hs).bind fun ms ↦
    (RaisesOnly.required _ _).bind fun indexes ↦ .ok _

end IndexListing

end DesignDocs
