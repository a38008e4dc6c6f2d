import DesignDocs.Analyzer
import DesignDocs.Proofs.Json.Confined
import DesignDocs.Proofs.Json.Record
import DesignDocs.Proofs.Json.Steady

namespace DesignDocs

open Json (Reader Reads Same Faithful Steady Confined Record)
open Json.Record (written ReadsFields Separate)

namespace AnalyzerConfig

theorem reads_fieldsToJson (m : NamedMap String) : Reads readFields (fieldsToJson m) m :=
  fun surplus ↦ by
    have hgo : ∀ l : List (String × String),
        readFields.go (Json.Source.ofTreeMembers surplus (l.map fun p ↦ (p.1, .string p.2))) =
          .ok l := by
      intro l
      induction l with
      | nil => rfl
      | cons p l ih =>
        rw [List.map_cons, Json.Source.ofTreeMembers, readFields.go, Reads.text p.2 surplus,
          Except.ok_bind, ih]
        rfl
    rw [fieldsToJson, Json.Source.ofTree, readFields, hgo, Except.map_ok, NamedMap.ofList_entries]

theorem steady_readFields : Steady readFields := fun v ↦ by
  cases v with
  | object members =>
    have hgo : Json.Settled fun surplus ↦
        readFields.go (Json.Source.ofTreeMembers surplus members) := by
      induction members with
      | nil => exact .inl fun _ _ ↦ rfl
      | cons p ms ih =>
        obtain ⟨name, v⟩ := p
        simp only [Json.Source.ofTreeMembers, readFields.go]
        exact (Steady.text v).bind fun s ↦ ih.bind fun l ↦ .const _
    simpa only [Json.Source.ofTree, readFields] using hgo.map NamedMap.ofList
  | _ => exact Steady.mismatch "a map" _

theorem separate_fields : Separate record.fields := by
  simp [Separate, record, Json.Field.spelled, Json.Field.essential, Json.Field.optional]

theorem otherName?_of_mem : ∀ f ∈ record.fields, f.otherName? = none := by
  simp [record, Json.Field.essential, Json.Field.optional]

def slots (c : AnalyzerConfig) : List (Option Json) :=
  [some (.string c.name), c.default.map .string, c.fields.map fieldsToJson,
    c.stopwords.map fun l ↦ .array (l.map .string)]

def members (c : AnalyzerConfig) : List (Option Member) :=
  [some (.name c.name), c.default.map fun s ↦ .default (some s),
    c.fields.map fun m ↦ .fields (some m), c.stopwords.map fun l ↦ .stopwords (some l)]

theorem toJson_eq (c : AnalyzerConfig) :
    c.toJson = .object (written record.names c.slots ++ c.extras.toMembers) := by
  simp [toJson, Record.names, record, slots, Json.Field.essential, Json.Field.optional]

theorem readsFields (c : AnalyzerConfig) : ReadsFields record.fields c.slots c.members := by
  refine .present ?_ (.option ?_ (.option ?_ (.option ?_ .nil)))
  · exact (Reads.text c.name).map _
  · exact fun s _ ↦ (Reads.optionalText s).map _
  · exact fun m _ ↦ ((reads_fieldsToJson m).optional nofun).map _
  · exact fun l _ ↦ ((Reads.texts l).optional nofun).map _

theorem reads_toJson (c : AnalyzerConfig) : Reads read c.toJson c := fun surplus ↦ by
  have h := Record.readKeeping_written separate_fields otherName?_of_mem c.readsFields c.extras
    surplus
  rw [toJson_eq, read, h]
  simp [members, Extras.ofMembers_toMembers, Json.required]

theorem distinct_toJson (c : AnalyzerConfig) : c.toJson.Distinct := by
  rw [toJson_eq]
  refine Record.distinct_keeping separate_fields ?_ c.extras
  simp only [slots, List.forall_mem_cons]
  exact ⟨Json.distinct_some (Json.distinct_string c.name), Json.distinct_map Json.distinct_string _,
    Json.distinct_map (Json.distinct_object_map Json.distinct_string) _,
    Json.distinct_map (Json.distinct_array_map Json.distinct_string) _, List.forall_mem_nil _⟩

theorem beq_iff {c d : AnalyzerConfig} :
    c == d ↔ c.name == d.name ∧ c.default == d.default ∧ c.fields == d.fields ∧
      c.stopwords == d.stopwords ∧ c.extras == d.extras := by
  change (_ && _ && _ && _ && _) = true ↔ _
  simp only [Bool.and_eq_true, and_assoc]

theorem faithful_toJson : Faithful toJson := fun c d ↦ by
  have hfields : Faithful fieldsToJson := Faithful.string.named
  rw [toJson_eq, toJson_eq, Record.same_keeping_iff separate_fields rfl rfl, beq_iff]
  simp only [slots, List.forall₂_cons, List.Forall₂.nil, Option.rel_some_some,
    Faithful.string _ _, Faithful.string.rel_map_iff, hfields.rel_map_iff,
    Faithful.string.list.rel_map_iff, and_assoc, true_and]

theorem steady_read : Steady read := fun v ↦ by
  have hfields : ∀ f ∈ record.fields, Steady f.read := by
    simp only [record, List.forall_mem_cons]
    exact ⟨Steady.text.map _, Steady.text.optional.map _, steady_readFields.optional.map _,
      Steady.text.list.optional.map _, List.forall_mem_nil _⟩
  exact (Record.steady_readKeeping hfields v).bind fun ms ↦ .const _

end AnalyzerConfig

namespace Analyzer

theorem toJson_ne_null (a : Analyzer) : a.toJson ≠ .null := by
  cases a <;> exact nofun

theorem reads_toJson (a : Analyzer) : Reads read a.toJson a := fun surplus ↦ by
  cases a with
  | named name => rfl
  | config c =>
    have h := c.reads_toJson .surplusItems
    rw [← Json.Source.ofJson_eq_ofTree] at h
    change read (Json.Source.ofTree surplus c.toJson) = .ok (config c)
    rw [read, Json.Source.tree_ofTree, Except.ok_bind]
    rw [AnalyzerConfig.toJson] at h ⊢
    dsimp only
    rw [h]
    rfl

theorem distinct_toJson (a : Analyzer) : a.toJson.Distinct := by
  cases a with
  | named name => exact Json.distinct_string name
  | config c => exact c.distinct_toJson

theorem faithful_toJson : Faithful toJson := fun a b ↦ by
  cases a with
  | named m =>
    cases b with
    | named n => exact Faithful.string m n
    | config d => exact iff_of_false nofun nofun
  | config c =>
    cases b with
    | named n => exact iff_of_false nofun nofun
    | config d => exact AnalyzerConfig.faithful_toJson c d

theorem steady_read : Steady read := fun v ↦ (Steady.tree v).bind fun _ ↦ .const _

/-- A faulty configuration is no variant, whatever its fault. -/
theorem confined_read {kinds : List ErrorKind} : Confined kinds read := fun s hs ↦ by
  refine (Confined.tree s hs).bind fun tree ↦ ?_
  split
  · exact .ok _
  · split
    · exact .ok _
    · exact .plain rfl

end Analyzer

namespace DefaultField

theorem toJson_ne_null (d : DefaultField) : d.toJson ≠ .null := nofun

theorem separate_fields : Separate record.fields := by
  simp [Separate, record, Json.Field.spelled, Json.Field.optional]

def slots (d : DefaultField) : List (Option Json) :=
  [d.enabled.map .bool, d.analyzer.map Analyzer.toJson]

def members (d : DefaultField) : List (Option Member) :=
  [d.enabled.map fun b ↦ .enabled (some b), d.analyzer.map fun a ↦ .analyzer (some a)]

theorem toJson_eq (d : DefaultField) : d.toJson = .object (written record.names d.slots) := by
  simp [toJson, Record.names, record, slots, Json.Field.optional]

theorem readsFields (d : DefaultField) : ReadsFields record.fields d.slots d.members := by
  refine .option ?_ (.option ?_ .nil)
  · exact fun b _ ↦ ((Reads.bool b).optional nofun).map _
  · exact fun a _ ↦ (a.reads_toJson.optional a.toJson_ne_null).map _

theorem reads_toJson (d : DefaultField) : Reads read d.toJson d := fun surplus ↦ by
  have h := Record.read_written separate_fields d.readsFields surplus
  rw [toJson_eq, read, h]
  simp [members]

theorem distinct_toJson (d : DefaultField) : d.toJson.Distinct := by
  rw [toJson_eq]
  refine Record.distinct_written separate_fields ?_
  simp only [slots, List.forall_mem_cons]
  exact ⟨Json.distinct_map Json.distinct_bool _, Json.distinct_map Analyzer.distinct_toJson _,
    List.forall_mem_nil _⟩

theorem beq_iff {d e : DefaultField} :
    d == e ↔ d.enabled == e.enabled ∧ d.analyzer == e.analyzer := by
  change (_ && _) = true ↔ _
  rw [Bool.and_eq_true]

theorem faithful_toJson : Faithful toJson := fun d e ↦ by
  rw [toJson_eq, toJson_eq, Record.same_written_iff separate_fields rfl rfl, beq_iff]
  simp only [slots, List.forall₂_cons, List.Forall₂.nil, Faithful.bool.rel_map_iff,
    Analyzer.faithful_toJson.rel_map_iff, and_true]

theorem steady_read : Steady read := fun v ↦ by
  have hfields : ∀ f ∈ record.fields, Steady f.read := by
    simp only [record, List.forall_mem_cons]
    exact ⟨Steady.bool.optional.map _, Analyzer.steady_read.optional.map _, List.forall_mem_nil _⟩
  exact (Record.steady_read hfields v).bind fun ms ↦ .const _

theorem confined_read {kinds : List ErrorKind} : Confined kinds read := fun s hs ↦ by
  have hfields : ∀ f ∈ record.fields, Confined kinds f.read := by
    simp only [record, List.forall_mem_cons]
    exact ⟨Confined.bool.optional.map _, Analyzer.confined_read.optional.map _,
      List.forall_mem_nil _⟩
  exact (Record.confined_read hfields s hs).bind fun ms ↦ .ok _

end DefaultField

end DesignDocs
