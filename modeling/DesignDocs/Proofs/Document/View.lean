import DesignDocs.Document.View
import DesignDocs.Proofs.Json.Confined
import DesignDocs.Proofs.Json.Record
import DesignDocs.Proofs.Json.Steady

namespace DesignDocs

open Json (Reader Reads Faithful Steady Confined Record)
open Json.Record (written ReadsFields Separate)

variable {kinds : List ErrorKind}

namespace Script

theorem reads_toJson (s : Script) : Reads read s.toJson s := (Reads.text s.source).map mk

theorem toJson_ne_null (s : Script) : s.toJson ≠ .null := nofun

theorem distinct_toJson (s : Script) : s.toJson.Distinct := trivial

theorem faithful_toJson : Faithful toJson := fun s t ↦ by
  rw [toJson, toJson, Json.same_string_iff, beq_iff_eq]
  exact ⟨fun h ↦ congrArg mk h, fun h ↦ congrArg source h⟩

theorem steady_read : Steady read := Steady.text.map mk

theorem confined_read : Confined kinds read := Confined.text.map mk

end Script

namespace MapFunction

theorem reads_toJson (f : MapFunction) : Reads read f.toJson f := fun surplus ↦ by
  cases f with
  | script s => rfl
  | query o =>
    change read (Json.Source.ofTree surplus o.toJson) = .ok (query o)
    rw [read, Json.Source.tree_ofTree, Except.ok_bind]
    exact congrArg (Except.ok ∘ query) (Json.objectOf_entries o)

theorem distinct_toJson (f : MapFunction) : f.toJson.Distinct := by
  cases f with
  | script s => exact s.distinct_toJson
  | query o => exact Value.distinct_toJson o

theorem faithful_toJson : Faithful toJson := fun f g ↦ by
  cases f with
  | script s =>
    cases g with
    | script t => exact Script.faithful_toJson s t
    | query p => exact iff_of_false nofun nofun
  | query o =>
    cases g with
    | script t => exact iff_of_false nofun nofun
    | query p => exact Faithful.object o p

theorem steady_read : Steady read := fun v ↦ (Steady.tree v).bind fun _ ↦ .const _

theorem confined_read : Confined kinds read := fun s hs ↦ by
  refine (Confined.tree s hs).bind fun tree ↦ ?_
  split
  · exact .ok _
  · exact .ok _
  · exact .plain rfl

end MapFunction

namespace Reducer

theorem reads_toJson (r : Reducer) : Reads read r.toJson r := (Reads.text r.text).map mk

theorem toJson_ne_null (r : Reducer) : r.toJson ≠ .null := nofun

theorem distinct_toJson (r : Reducer) : r.toJson.Distinct := trivial

theorem faithful_toJson : Faithful toJson := fun r s ↦ by
  rw [toJson, toJson, Json.same_string_iff, beq_iff_eq]
  exact ⟨fun h ↦ congrArg mk h, fun h ↦ congrArg text h⟩

theorem steady_read : Steady read := Steady.text.map mk

theorem confined_read : Confined kinds read := Confined.text.map mk

end Reducer

namespace View

theorem separate_fields : Separate record.fields := by
  simp [Separate, record, Json.Field.spelled, Json.Field.essential, Json.Field.optional]

theorem otherName?_of_mem : ∀ f ∈ record.fields, f.otherName? = none := by
  simp [record, Json.Field.essential, Json.Field.optional]

def slots (v : View) : List (Option Json) :=
  [some v.map.toJson, v.reduce.map Reducer.toJson, v.dbcopy.map .string,
    v.options.map NamedMap.toJson]

def members (v : View) : List (Option Member) :=
  [some (.map v.map), v.reduce.map fun r ↦ .reduce (some r),
    v.dbcopy.map fun s ↦ .dbcopy (some s), v.options.map fun o ↦ .options (some o)]

theorem toJson_eq (v : View) :
    v.toJson = .object (written record.names v.slots ++ v.extras.toMembers) := by
  simp [toJson, Record.names, record, slots, Json.Field.essential, Json.Field.optional]

theorem readsFields (v : View) : ReadsFields record.fields v.slots v.members := by
  refine .present ?_ (.option ?_ (.option ?_ (.option ?_ .nil)))
  · exact v.map.reads_toJson.map _
  · exact fun r _ ↦ (r.reads_toJson.optional r.toJson_ne_null).map _
  · exact fun s _ ↦ (Reads.optionalText s).map _
  · exact fun o _ ↦ ((Reads.object o).optional nofun).map _

theorem reads_toJson (v : View) : Reads read v.toJson v := fun surplus ↦ by
  have h := Record.readKeeping_written separate_fields otherName?_of_mem v.readsFields v.extras
    surplus
  rw [toJson_eq, read, h]
  simp [members, Extras.ofMembers_toMembers, Json.required]

theorem distinct_toJson (v : View) : v.toJson.Distinct := by
  rw [toJson_eq]
  refine Record.distinct_keeping separate_fields ?_ v.extras
  simp only [slots, List.forall_mem_cons]
  exact ⟨Json.distinct_some v.map.distinct_toJson, Json.distinct_map Reducer.distinct_toJson _,
    Json.distinct_map Json.distinct_string _, Json.distinct_map Value.distinct_toJson _,
    List.forall_mem_nil _⟩

theorem beq_iff {v w : View} :
    v == w ↔ v.map == w.map ∧ v.reduce == w.reduce ∧ v.dbcopy == w.dbcopy ∧
      v.options == w.options ∧ v.extras == w.extras := by
  change (_ && _ && _ && _ && _) = true ↔ _
  simp only [Bool.and_eq_true, and_assoc]

theorem faithful_toJson : Faithful toJson := fun v w ↦ by
  rw [toJson_eq, toJson_eq, Record.same_keeping_iff separate_fields rfl rfl, beq_iff]
  simp only [slots, List.forall₂_cons, List.Forall₂.nil, Option.rel_some_some,
    MapFunction.faithful_toJson _ _, Reducer.faithful_toJson.rel_map_iff,
    Faithful.string.rel_map_iff, Faithful.object.rel_map_iff, and_assoc, true_and]

theorem steady_read : Steady read := fun v ↦ by
  have hfields : ∀ f ∈ record.fields, Steady f.read := by
    simp only [record, List.forall_mem_cons]
    exact ⟨MapFunction.steady_read.map _, Reducer.steady_read.optional.map _,
      Steady.text.optional.map _, Steady.object.optional.map _, List.forall_mem_nil _⟩
  exact (Record.steady_readKeeping hfields v).bind fun ms ↦ .const _

theorem confined_read : Confined kinds read := fun s hs ↦ by
  have hfields : ∀ f ∈ record.fields, Confined kinds f.read := by
    simp only [record, List.forall_mem_cons]
    exact ⟨MapFunction.confined_read.map _, Reducer.confined_read.optional.map _,
      Confined.text.optional.map _, Confined.object.optional.map _, List.forall_mem_nil _⟩
  exact (Record.confined_readKeeping hfields s hs).bind fun ms ↦
    (Json.RaisesOnly.required _ _).bind fun map ↦ .ok _

end View

end DesignDocs
