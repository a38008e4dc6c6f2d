import DesignDocs.Document.Rewrite
import DesignDocs.Proofs.Json.Confined
import DesignDocs.Proofs.Json.Record
import DesignDocs.Proofs.Json.Steady

namespace DesignDocs.RewriteRule

open Json (Reader Reads Faithful Steady Confined Record)
open Json.Record (written ReadsFields Separate)

theorem separate_fields : Separate record.fields := by
  simp [Separate, record, Json.Field.spelled, Json.Field.essential, Json.Field.optional]

def slots (r : RewriteRule) : List (Option Json) :=
  [r.source.map .string, some (.string r.target), r.method.map .string,
    r.query.map NamedMap.toJson]

def members (r : RewriteRule) : List (Option Member) :=
  [r.source.map fun s ↦ .source (some s), some (.target r.target),
    r.method.map fun s ↦ .method (some s), r.query.map fun o ↦ .query (some o)]

theorem toJson_eq (r : RewriteRule) : r.toJson = .object (written record.names r.slots) := by
  simp [toJson, Record.names, record, slots, Json.Field.essential, Json.Field.optional]

theorem readsFields (r : RewriteRule) : ReadsFields record.fields r.slots r.members := by
  refine .option ?_ (.present ?_ (.option ?_ (.option ?_ .nil)))
  · exact fun s _ ↦ (Reads.optionalText s).map _
  · exact (Reads.text r.target).map _
  · exact fun s _ ↦ (Reads.optionalText s).map _
  · exact fun o _ ↦ ((Reads.object o).optional nofun).map _

theorem reads_toJson (r : RewriteRule) : Reads read r.toJson r := fun surplus ↦ by
  have h := Record.read_written separate_fields r.readsFields surplus
  rw [toJson_eq, read, h]
  simp [members, Json.required]

theorem distinct_toJson (r : RewriteRule) : r.toJson.Distinct := by
  rw [toJson_eq]
  refine Record.distinct_written separate_fields ?_
  simp only [slots, List.forall_mem_cons]
  exact ⟨Json.distinct_map Json.distinct_string _,
    Json.distinct_some (Json.distinct_string r.target), Json.distinct_map Json.distinct_string _,
    Json.distinct_map Value.distinct_toJson _, List.forall_mem_nil _⟩

theorem beq_iff {r s : RewriteRule} :
    r == s ↔ r.source == s.source ∧ r.target == s.target ∧ r.method == s.method ∧
      r.query == s.query := by
  change (_ && _ && _ && _) = true ↔ _
  simp only [Bool.and_eq_true, and_assoc]

theorem faithful_toJson : Faithful toJson := fun r s ↦ by
  rw [toJson_eq, toJson_eq, Record.same_written_iff separate_fields rfl rfl, beq_iff]
  simp only [slots, List.forall₂_cons, List.Forall₂.nil, Option.rel_some_some,
    Faithful.string _ _, Faithful.string.rel_map_iff, Faithful.object.rel_map_iff, and_true]

theorem steady_read : Steady read := fun v ↦ by
  have hfields : ∀ f ∈ record.fields, Steady f.read := by
    simp only [record, List.forall_mem_cons]
    exact ⟨Steady.text.optional.map _, Steady.text.map _, Steady.text.optional.map _,
      Steady.object.optional.map _, List.forall_mem_nil _⟩
  exact (Record.steady_read hfields v).bind fun ms ↦ .const _

theorem confined_read {kinds : List ErrorKind} : Confined kinds read := fun s hs ↦ by
  have hfields : ∀ f ∈ record.fields, Confined kinds f.read := by
    simp only [record, List.forall_mem_cons]
    exact ⟨Confined.text.optional.map _, Confined.text.map _, Confined.text.optional.map _,
      Confined.object.optional.map _, List.forall_mem_nil _⟩
  exact (Record.confined_read hfields s hs).bind fun ms ↦
    (Json.RaisesOnly.required _ _).bind fun target ↦ .ok _

end DesignDocs.RewriteRule
