import DesignDocs.Document.Basic
import DesignDocs.Proofs.Document.Rewrite
import DesignDocs.Proofs.Document.Search

namespace DesignDocs.DesignDocument

open Json (Reader Reads Faithful Steady Confined Record)
open Json.Record (written ReadsFields Separate)

section

variable {α : Type} {f : α → Json}

theorem reads_section {read : Reader α} (h : ∀ a, Reads read (f a) a) (m : NamedMap α) :
    Reads (Reader.optional (.named read)) (sectionToJson f m) (some m) :=
  (Reads.named h m).optional nofun

theorem distinct_section (h : ∀ a, (f a).Distinct) (m : Option (NamedMap α)) :
    ∀ v ∈ m.map (sectionToJson f), v.Distinct :=
  Json.distinct_map (Json.distinct_object_map h) m

theorem faithful_section [BEq α] (h : Faithful f) : Faithful (sectionToJson f) := h.named

end

theorem separate_fields : Separate record.fields := by
  simp [Separate, record, Json.Field.spelled, Json.Field.essential, Json.Field.optional]

theorem otherName?_of_mem : ∀ f ∈ record.fields, f.otherName? = none := by
  simp [record, Json.Field.essential, Json.Field.optional]

def slots (d : DesignDocument) : List (Option Json) :=
  [some (.string d.id), d.rev.map .string, d.language.map .string,
    d.views.map (sectionToJson View.toJson), d.indexes.map (sectionToJson SearchIndex.toJson),
    d.filters.map (sectionToJson Script.toJson), d.shows.map (sectionToJson Script.toJson),
    d.lists.map (sectionToJson Script.toJson), d.updates.map (sectionToJson Script.toJson),
    d.validateDocUpdate.map Script.toJson,
    d.rewrites.map fun l ↦ .array (l.map RewriteRule.toJson),
    d.fulltext.map (sectionToJson FulltextIndex.toJson)]

def members (d : DesignDocument) : List (Option Member) :=
  [some (.id d.id), d.rev.map fun s ↦ .rev (some s), d.language.map fun s ↦ .language (some s),
    d.views.map fun m ↦ .views (some m), d.indexes.map fun m ↦ .indexes (some m),
    d.filters.map fun m ↦ .filters (some m), d.shows.map fun m ↦ .shows (some m),
    d.lists.map fun m ↦ .lists (some m), d.updates.map fun m ↦ .updates (some m),
    d.validateDocUpdate.map fun s ↦ .validateDocUpdate (some s),
    d.rewrites.map fun l ↦ .rewrites (some l), d.fulltext.map fun m ↦ .fulltext (some m)]

theorem toJson_eq (d : DesignDocument) :
    d.toJson = .object (written record.names d.slots ++ d.extras.toMembers) := by
  simp [toJson, Record.names, record, slots, Json.Field.essential, Json.Field.optional]

theorem readsFields (d : DesignDocument) : ReadsFields record.fields d.slots d.members := by
  refine .present ?_ (.option ?_ (.option ?_ (.option ?_ (.option ?_ (.option ?_ (.option ?_
    (.option ?_ (.option ?_ (.option ?_ (.option ?_ (.option ?_ .nil)))))))))))
  · exact (Reads.text d.id).map _
  · exact fun s _ ↦ (Reads.optionalText s).map _
  · exact fun s _ ↦ (Reads.optionalText s).map _
  · exact fun m _ ↦ (reads_section View.reads_toJson m).map _
  · exact fun m _ ↦ (reads_section SearchIndex.reads_toJson m).map _
  · exact fun m _ ↦ (reads_section Script.reads_toJson m).map _
  · exact fun m _ ↦ (reads_section Script.reads_toJson m).map _
  · exact fun m _ ↦ (reads_section Script.reads_toJson m).map _
  · exact fun m _ ↦ (reads_section Script.reads_toJson m).map _
  · exact fun s _ ↦ (s.reads_toJson.optional s.toJson_ne_null).map _
  · exact fun l _ ↦ ((Reads.list RewriteRule.reads_toJson l).optional nofun).map _
  · exact fun m _ ↦ (reads_section FulltextIndex.reads_toJson m).map _

theorem reads_toJson (d : DesignDocument) : Reads read d.toJson d := fun surplus ↦ by
  have h := Record.readKeeping_written separate_fields otherName?_of_mem d.readsFields d.extras
    surplus
  rw [toJson_eq, read, h]
  simp [members, Extras.ofMembers_toMembers, Json.required]

theorem distinct_toJson (d : DesignDocument) : d.toJson.Distinct := by
  rw [toJson_eq]
  refine Record.distinct_keeping separate_fields ?_ d.extras
  simp only [slots, List.forall_mem_cons]
  exact ⟨Json.distinct_some (Json.distinct_string d.id), Json.distinct_map Json.distinct_string _,
    Json.distinct_map Json.distinct_string _, distinct_section View.distinct_toJson _,
    distinct_section SearchIndex.distinct_toJson _, distinct_section Script.distinct_toJson _,
    distinct_section Script.distinct_toJson _, distinct_section Script.distinct_toJson _,
    distinct_section Script.distinct_toJson _, Json.distinct_map Script.distinct_toJson _,
    Json.distinct_map (Json.distinct_array_map RewriteRule.distinct_toJson) _,
    distinct_section FulltextIndex.distinct_toJson _, List.forall_mem_nil _⟩

theorem beq_iff {d e : DesignDocument} :
    d == e ↔ d.id == e.id ∧ d.rev == e.rev ∧ d.language == e.language ∧ d.views == e.views ∧
      d.indexes == e.indexes ∧ d.filters == e.filters ∧ d.shows == e.shows ∧
      d.lists == e.lists ∧ d.updates == e.updates ∧
      d.validateDocUpdate == e.validateDocUpdate ∧ d.rewrites == e.rewrites ∧
      d.fulltext == e.fulltext ∧ d.extras == e.extras := by
  change (_ && _ && _ && _ && _ && _ && _ && _ && _ && _ && _ && _ && _) = true ↔ _
  simp only [Bool.and_eq_true, and_assoc]

theorem faithful_toJson : Faithful toJson := fun d e ↦ by
  rw [toJson_eq, toJson_eq, Record.same_keeping_iff separate_fields rfl rfl, beq_iff]
  simp only [slots, List.forall₂_cons, List.Forall₂.nil, Option.rel_some_some,
    Faithful.string _ _, Faithful.string.rel_map_iff,
    (faithful_section View.faithful_toJson).rel_map_iff,
    (faithful_section SearchIndex.faithful_toJson).rel_map_iff,
    (faithful_section Script.faithful_toJson).rel_map_iff, Script.faithful_toJson.rel_map_iff,
    RewriteRule.faithful_toJson.list.rel_map_iff,
    (faithful_section FulltextIndex.faithful_toJson).rel_map_iff, and_assoc, true_and]

theorem steady_read : Steady read := fun v ↦ by
  have hscripts : Steady scripts := Script.steady_read.named.optional
  have hfields : ∀ f ∈ record.fields, Steady f.read := by
    simp only [record, List.forall_mem_cons]
    exact ⟨Steady.text.map _, Steady.text.optional.map _, Steady.text.optional.map _,
      View.steady_read.named.optional.map _, SearchIndex.steady_read.named.optional.map _,
      hscripts.map _, hscripts.map _, hscripts.map _, hscripts.map _,
      Script.steady_read.optional.map _, RewriteRule.steady_read.list.optional.map _,
      FulltextIndex.steady_read.named.optional.map _, List.forall_mem_nil _⟩
  exact (Record.steady_readKeeping hfields v).bind fun ms ↦ .const _

theorem confined_read {kinds : List ErrorKind} (hk : .duplicateName ∈ kinds) :
    Confined kinds read := fun s hs ↦ by
  have hscripts : Confined kinds scripts := (Script.confined_read.named hk).optional
  have hfields : ∀ f ∈ record.fields, Confined kinds f.read := by
    simp only [record, List.forall_mem_cons]
    exact ⟨Confined.text.map _, Confined.text.optional.map _, Confined.text.optional.map _,
      (View.confined_read.named hk).optional.map _,
      (SearchIndex.confined_read.named hk).optional.map _,
      hscripts.map _, hscripts.map _, hscripts.map _, hscripts.map _,
      Script.confined_read.optional.map _, RewriteRule.confined_read.list.optional.map _,
      (FulltextIndex.confined_read.named hk).optional.map _, List.forall_mem_nil _⟩
  exact (Record.confined_readKeeping hfields s hs).bind fun ms ↦
    (Json.RaisesOnly.required _ _).bind fun id ↦ .ok _

end DesignDocs.DesignDocument
