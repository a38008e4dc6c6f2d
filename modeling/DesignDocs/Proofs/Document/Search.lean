import DesignDocs.Document.Search
import DesignDocs.Proofs.Analyzer
import DesignDocs.Proofs.Document.View

namespace DesignDocs

open Json (Reader Reads Faithful Steady Confined Record)
open Json.Record (written ReadsFields Separate)

variable {kinds : List ErrorKind}

namespace SearchIndex

theorem separate_fields : Separate record.fields := by
  simp [Separate, record, Json.Field.spelled, Json.Field.essential, Json.Field.optional]

def slots (i : SearchIndex) : List (Option Json) :=
  [some i.index.toJson, i.analyzer.map Analyzer.toJson]

def members (i : SearchIndex) : List (Option Member) :=
  [some (.index i.index), i.analyzer.map fun a ↦ .analyzer (some a)]

theorem toJson_eq (i : SearchIndex) : i.toJson = .object (written record.names i.slots) := by
  simp [toJson, Record.names, record, slots, Json.Field.essential, Json.Field.optional]

theorem readsFields (i : SearchIndex) : ReadsFields record.fields i.slots i.members := by
  refine .present ?_ (.option ?_ .nil)
  · exact i.index.reads_toJson.map _
  · exact fun a _ ↦ (a.reads_toJson.optional a.toJson_ne_null).map _

theorem reads_toJson (i : SearchIndex) : Reads read i.toJson i := fun surplus ↦ by
  have h := Record.read_written separate_fields i.readsFields surplus
  rw [toJson_eq, read, h]
  simp [members, Json.required]

theorem distinct_toJson (i : SearchIndex) : i.toJson.Distinct := by
  rw [toJson_eq]
  refine Record.distinct_written separate_fields ?_
  simp only [slots, List.forall_mem_cons]
  exact ⟨Json.distinct_some i.index.distinct_toJson, Json.distinct_map Analyzer.distinct_toJson _,
    List.forall_mem_nil _⟩

theorem beq_iff {i j : SearchIndex} : i == j ↔ i.index == j.index ∧ i.analyzer == j.analyzer := by
  change (_ && _) = true ↔ _
  rw [Bool.and_eq_true]

theorem faithful_toJson : Faithful toJson := fun i j ↦ by
  rw [toJson_eq, toJson_eq, Record.same_written_iff separate_fields rfl rfl, beq_iff]
  simp only [slots, List.forall₂_cons, List.Forall₂.nil, Option.rel_some_some,
    Script.faithful_toJson _ _, Analyzer.faithful_toJson.rel_map_iff, and_true]

theorem steady_read : Steady read := fun v ↦ by
  have hfields : ∀ f ∈ record.fields, Steady f.read := by
    simp only [record, List.forall_mem_cons]
    exact ⟨Script.steady_read.map _, Analyzer.steady_read.optional.map _, List.forall_mem_nil _⟩
  exact (Record.steady_read hfields v).bind fun ms ↦ .const _

theorem confined_read : Confined kinds read := fun s hs ↦ by
  have hfields : ∀ f ∈ record.fields, Confined kinds f.read := by
    simp only [record, List.forall_mem_cons]
    exact ⟨Script.confined_read.map _, Analyzer.confined_read.optional.map _,
      List.forall_mem_nil _⟩
  exact (Record.confined_read hfields s hs).bind fun ms ↦
    (Json.RaisesOnly.required _ _).bind fun index ↦ .ok _

end SearchIndex

namespace FulltextIndex

theorem separate_fields : Separate record.fields := by
  simp [Separate, record, Json.Field.spelled, Json.Field.essential, Json.Field.optional]

def slots (i : FulltextIndex) : List (Option Json) :=
  [some i.index.toJson, i.defaults.map NamedMap.toJson, i.analyzer.map .string]

def members (i : FulltextIndex) : List (Option Member) :=
  [some (.index i.index), i.defaults.map fun o ↦ .defaults (some o),
    i.analyzer.map fun s ↦ .analyzer (some s)]

theorem toJson_eq (i : FulltextIndex) : i.toJson = .object (written record.names i.slots) := by
  simp [toJson, Record.names, record, slots, Json.Field.essential, Json.Field.optional]

theorem readsFields (i : FulltextIndex) : ReadsFields record.fields i.slots i.members := by
  refine .present ?_ (.option ?_ (.option ?_ .nil))
  · exact i.index.reads_toJson.map _
  · exact fun o _ ↦ ((Reads.object o).optional nofun).map _
  · exact fun s _ ↦ (Reads.optionalText s).map _

theorem reads_toJson (i : FulltextIndex) : Reads read i.toJson i := fun surplus ↦ by
  have h := Record.read_written separate_fields i.readsFields surplus
  rw [toJson_eq, read, h]
  simp [members, Json.required]

theorem distinct_toJson (i : FulltextIndex) : i.toJson.Distinct := by
  rw [toJson_eq]
  refine Record.distinct_written separate_fields ?_
  simp only [slots, List.forall_mem_cons]
  exact ⟨Json.distinct_some i.index.distinct_toJson, Json.distinct_map Value.distinct_toJson _,
    Json.distinct_map Json.distinct_string _, List.forall_mem_nil _⟩

theorem beq_iff {i j : FulltextIndex} :
    i == j ↔ i.index == j.index ∧ i.defaults == j.defaults ∧ i.analyzer == j.analyzer := by
  change (_ && _ && _) = true ↔ _
  simp only [Bool.and_eq_true, and_assoc]

theorem faithful_toJson : Faithful toJson := fun i j ↦ by
  rw [toJson_eq, toJson_eq, Record.same_written_iff separate_fields rfl rfl, beq_iff]
  simp only [slots, List.forall₂_cons, List.Forall₂.nil, Option.rel_some_some,
    Script.faithful_toJson _ _, Faithful.object.rel_map_iff, Faithful.string.rel_map_iff, and_true]

theorem steady_read : Steady read := fun v ↦ by
  have hfields : ∀ f ∈ record.fields, Steady f.read := by
    simp only [record, List.forall_mem_cons]
    exact ⟨Script.steady_read.map _, Steady.object.optional.map _, Steady.text.optional.map _,
      List.forall_mem_nil _⟩
  exact (Record.steady_read hfields v).bind fun ms ↦ .const _

theorem confined_read : Confined kinds read := fun s hs ↦ by
  have hfields : ∀ f ∈ record.fields, Confined kinds f.read := by
    simp only [record, List.forall_mem_cons]
    exact ⟨Script.confined_read.map _, Confined.object.optional.map _,
      Confined.text.optional.map _, List.forall_mem_nil _⟩
  exact (Record.confined_read hfields s hs).bind fun ms ↦
    (Json.RaisesOnly.required _ _).bind fun index ↦ .ok _

end FulltextIndex

end DesignDocs
