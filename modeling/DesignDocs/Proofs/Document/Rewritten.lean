import DesignDocs.Proofs.Document.Content
import DesignDocs.Proofs.Format.Document
import DesignDocs.Proofs.Format.Value
import DesignDocs.Proofs.Json.Parts

namespace DesignDocs

open Json (Format Permuted Slot)
open Json.Record (unmodelled names_or_beside)

namespace AnalyzerConfig

theorem whole {v : Json} (h : format.Accepts v) (hnull : record.NullFree v) : format.Whole v := by
  obtain ⟨members, rfl, -⟩ := Json.Record.exists_of_accepts_kept unambiguous_fields h
  simp only [Json.Record.NullFree, record, List.forall_mem_cons] at hnull
  obtain ⟨-, hdefault, hfields, hstopwords, -⟩ := hnull
  refine ⟨members, rfl, names_or_beside otherName?_of_mem,
    .cons (fun _ _ ↦ trivial) (.cons ?_ (.cons ?_ (.cons ?_ .nil)))⟩
  · exact Slot.whole_optional (hdefault rfl) fun _ _ ↦ trivial
  · exact Slot.whole_named (hfields rfl) fun _ _ ↦ trivial
  · exact Slot.whole_list (hstopwords rfl) fun _ _ ↦ trivial

end AnalyzerConfig

theorem Analyzer.whole {v : Json} (h : format.Accepts v)
    (hnull : AnalyzerConfig.record.NullFree v) : format.Whole v :=
  h.imp_right fun h ↦ AnalyzerConfig.whole h hnull

theorem View.whole {v : Json} (h : format.Accepts v) (hnull : record.NullFree v) :
    format.Whole v := by
  obtain ⟨members, rfl, -⟩ := Json.Record.exists_of_accepts_kept unambiguous_fields h
  simp only [Json.Record.NullFree, record, List.forall_mem_cons] at hnull
  obtain ⟨-, hreduce, hdbcopy, hoptions, -⟩ := hnull
  refine ⟨members, rfl, names_or_beside otherName?_of_mem,
    .cons (fun _ _ ↦ .inr trivial) (.cons ?_ (.cons ?_ (.cons ?_ .nil)))⟩
  · exact Slot.whole_optional (hreduce rfl) fun _ _ ↦ trivial
  · exact Slot.whole_optional (hdbcopy rfl) fun _ _ ↦ trivial
  · exact Slot.whole_optional (hoptions rfl) fun _ _ ↦ trivial

theorem RewriteRule.whole {v : Json} (hmodelled : record.Modelled v) (hnull : record.NullFree v) :
    format.Whole v := by
  obtain ⟨members, rfl, hnames⟩ := hmodelled
  simp only [Json.Record.NullFree, record, List.forall_mem_cons] at hnull
  obtain ⟨hsource, -, hmethod, hquery, -⟩ := hnull
  refine ⟨members, rfl, fun p hp ↦ .inl (hnames p hp),
    .cons ?_ (.cons (fun _ _ ↦ trivial) (.cons ?_ (.cons ?_ .nil)))⟩
  · exact Slot.whole_optional (hsource rfl) fun _ _ ↦ trivial
  · exact Slot.whole_optional (hmethod rfl) fun _ _ ↦ trivial
  · exact Slot.whole_optional (hquery rfl) fun _ _ ↦ trivial

theorem FulltextIndex.whole {v : Json} (hmodelled : record.Modelled v)
    (hnull : record.NullFree v) : format.Whole v := by
  obtain ⟨members, rfl, hnames⟩ := hmodelled
  simp only [Json.Record.NullFree, record, List.forall_mem_cons] at hnull
  obtain ⟨-, hdefaults, hanalyzer, -⟩ := hnull
  refine ⟨members, rfl, fun p hp ↦ .inl (hnames p hp),
    .cons (fun _ _ ↦ trivial) (.cons ?_ (.cons ?_ .nil))⟩
  · exact Slot.whole_optional (hdefaults rfl) fun _ _ ↦ trivial
  · exact Slot.whole_optional (hanalyzer rfl) fun _ _ ↦ trivial

theorem SearchIndex.whole {v : Json} (h : format.Accepts v) (hmodelled : record.Modelled v)
    (hnull : record.NullFree v) (hconfig : AnalyzerConfig.record.NullFree (v.under "analyzer")) :
    format.Whole v := by
  obtain ⟨members, rfl, hnames⟩ := hmodelled
  obtain ⟨_, ⟨⟩, hfits⟩ := h
  have hslots := hfits.slots
  simp only [record, slotFormats, List.forall₂_cons] at hslots
  obtain ⟨-, haccepts, -⟩ := hslots
  simp only [Json.Record.NullFree, record, List.forall_mem_cons] at hnull
  obtain ⟨-, hanalyzer, -⟩ := hnull
  refine ⟨members, rfl, fun p hp ↦ .inl (hnames p hp),
    .cons (fun _ _ ↦ trivial) (.cons ?_ .nil)⟩
  refine Slot.whole_optional (hanalyzer rfl) fun a ha ↦ ?_
  have hnot : a ≠ .null := fun he ↦ hanalyzer rfl (he ▸ ha)
  refine Analyzer.whole ((haccepts a ha).resolve_left hnot) ?_
  rw [Json.Field.given_optional] at ha
  rwa [Json.under, Json.members, ha] at hconfig

theorem AnalyzerConfig.unmodelled_normal (v : Json) :
    unmodelled record.fields (format.normal v).members = unmodelled record.fields v.members :=
  Json.Record.unmodelled_normal unambiguous_fields v

theorem Analyzer.unmodelled_normal (v : Json) :
    unmodelled AnalyzerConfig.record.fields (format.normal v).members =
      unmodelled AnalyzerConfig.record.fields v.members := by
  cases v with
  | object members => exact AnalyzerConfig.unmodelled_normal (.object members)
  | _ => rfl

theorem SearchIndex.unmodelled_analyzer_normal {v : Json} (h : record.Modelled v) :
    unmodelled AnalyzerConfig.record.fields ((format.normal v).under "analyzer").members =
      unmodelled AnalyzerConfig.record.fields (v.under "analyzer").members := by
  obtain ⟨members, rfl, -⟩ := h
  have hlookup : List.Forall₂ (fun f (s : Slot) ↦
      (record.rewritten .skipped slotFormats members).lookup f.name = s.normal (f.given members))
      record.fields slotFormats :=
    Json.Record.forall₂_lookup_rewritten unambiguous_fields rfl members
  obtain ⟨-, hrest⟩ := List.forall₂_cons.1 hlookup
  obtain ⟨hanalyzer, -⟩ := List.forall₂_cons.1 hrest
  rw [Json.Field.given_optional] at hanalyzer
  have hunder : (format.normal (.object members)).under "analyzer" =
      ((Slot.optional Analyzer.format).normal (members.lookup "analyzer")).getD .null :=
    congrArg (fun o ↦ Option.getD o Json.null) hanalyzer
  rw [hunder, Json.under, Json.members]
  cases members.lookup "analyzer" with
  | none => rfl
  | some a =>
    by_cases hnull : a = .null
    · subst hnull
      rfl
    · rw [Slot.normal_optional hnull]
      exact Analyzer.unmodelled_normal a

/-- The format of the entries of the section. -/
def NamedSection.format : NamedSection → Format
  | views => View.format
  | indexes => SearchIndex.format
  | filters | shows | lists | updates => .text
  | fulltext => FulltextIndex.format

namespace DesignDocument

/-- No modelled member is null, and rules and indexes have modelled members only. -/
structure Unabridged (v : Json) : Prop where
  document : record.NullFree v
  views : ∀ p ∈ (v.under "views").members, View.record.NullFree p.2
  rules : ∀ rule ∈ (v.under "rewrites").items,
    RewriteRule.record.Modelled rule ∧ RewriteRule.record.NullFree rule
  indexes : ∀ p ∈ (v.under "indexes").members,
    SearchIndex.record.Modelled p.2 ∧ SearchIndex.record.NullFree p.2
  analyzers : ∀ p ∈ (v.under "indexes").members,
    AnalyzerConfig.record.NullFree (p.2.under "analyzer")
  fulltext : ∀ p ∈ (v.under "fulltext").members,
    FulltextIndex.record.Modelled p.2 ∧ FulltextIndex.record.NullFree p.2

instance decidableUnabridged (v : Json) : Decidable (Unabridged v) :=
  decidable_of_iff (record.NullFree v ∧
      (∀ p ∈ (v.under "views").members, View.record.NullFree p.2) ∧
      (∀ rule ∈ (v.under "rewrites").items,
        RewriteRule.record.Modelled rule ∧ RewriteRule.record.NullFree rule) ∧
      (∀ p ∈ (v.under "indexes").members,
        SearchIndex.record.Modelled p.2 ∧ SearchIndex.record.NullFree p.2) ∧
      (∀ p ∈ (v.under "indexes").members,
        AnalyzerConfig.record.NullFree (p.2.under "analyzer")) ∧
      ∀ p ∈ (v.under "fulltext").members,
        FulltextIndex.record.Modelled p.2 ∧ FulltextIndex.record.NullFree p.2)
    ⟨fun ⟨h₁, h₂, h₃, h₄, h₅, h₆⟩ ↦ ⟨h₁, h₂, h₃, h₄, h₅, h₆⟩,
      fun ⟨h₁, h₂, h₃, h₄, h₅, h₆⟩ ↦ ⟨h₁, h₂, h₃, h₄, h₅, h₆⟩⟩

/-- Entries, rules and members that are not modelled stand in one order in both trees. -/
structure OneOrder (v w : Json) : Prop where
  sections : ∀ s : NamedSection,
    List.Forall₂ (fun p q ↦ p.1 = q.1 ∧ Permuted p.2 q.2) (v.under s.key).members
      (w.under s.key).members
  rules : List.Forall₂ Permuted (v.under "rewrites").items (w.under "rewrites").items
  others : unmodelled record.fields v.members = unmodelled record.fields w.members
  views : List.Forall₂ (fun p q ↦ unmodelled View.record.fields p.2.members =
    unmodelled View.record.fields q.2.members) (v.under "views").members (w.under "views").members
  analyzers : List.Forall₂ (fun p q ↦
    unmodelled AnalyzerConfig.record.fields (p.2.under "analyzer").members =
      unmodelled AnalyzerConfig.record.fields (q.2.under "analyzer").members)
    (v.under "indexes").members (w.under "indexes").members

variable {P : Json.Field Member → Slot → Prop}

theorem slot_of_section (h : List.Forall₂ P record.fields slotFormats) (s : NamedSection) :
    P s.field (.optional (.named s.format)) := by
  simp only [record, slotFormats, List.forall₂_cons] at h
  obtain ⟨-, -, -, hviews, hindexes, hfilters, hshows, hlists, hupdates, -, -, hfulltext, -⟩ := h
  cases s with
  | views => exact hviews
  | indexes => exact hindexes
  | filters => exact hfilters
  | shows => exact hshows
  | lists => exact hlists
  | updates => exact hupdates
  | fulltext => exact hfulltext

theorem slot_of_rules (h : List.Forall₂ P record.fields slotFormats) :
    P (.optional "rewrites" fun s ↦ (Json.Reader.optional (.list RewriteRule.read) s).map .rewrites)
      (.optional (.list RewriteRule.format)) := by
  simp only [record, slotFormats, List.forall₂_cons] at h
  obtain ⟨-, -, -, -, -, -, -, -, -, -, hrules, -⟩ := h
  exact hrules

section

variable {v : Json} (haccepts : format.Accepts v)

include haccepts

theorem lookup_normal : List.Forall₂ (fun f (s : Slot) ↦
    (format.normal v).members.lookup f.name = s.normal (f.given v.members)) record.fields
      slotFormats := by
  obtain ⟨members, rfl, -⟩ := Json.Record.exists_of_accepts_kept unambiguous_fields haccepts
  exact Json.Record.forall₂_lookup_rewritten unambiguous_fields rfl members

theorem members_under_normal (s : NamedSection) : ((format.normal v).under s.key).members =
    (v.under s.key).members.map fun p ↦ (p.1, s.format.normal p.2) := by
  have hlookup := slot_of_section (lookup_normal haccepts) s
  rw [NamedSection.field, Json.Field.given_optional] at hlookup
  have hunder : (format.normal v).under s.key =
      ((Slot.optional (.named s.format)).normal (v.members.lookup s.key)).getD .null :=
    congrArg (fun o ↦ Option.getD o Json.null) hlookup
  rw [hunder, Slot.members_normal_named, Json.under]

theorem items_under_normal : ((format.normal v).under "rewrites").items =
    (v.under "rewrites").items.map RewriteRule.format.normal := by
  have hlookup := slot_of_rules (lookup_normal haccepts)
  rw [Json.Field.given_optional] at hlookup
  have hunder : (format.normal v).under "rewrites" = ((Slot.optional
      (.list RewriteRule.format)).normal (v.members.lookup "rewrites")).getD .null :=
    congrArg (fun o ↦ Option.getD o Json.null) hlookup
  rw [hunder, Slot.items_normal_list, Json.under]

theorem accepts_of_mem_rules : ∀ rule ∈ (v.under "rewrites").items,
    RewriteRule.format.Accepts rule := by
  obtain ⟨members, rfl, hfits⟩ := Json.Record.exists_of_accepts_kept unambiguous_fields haccepts
  have hslot := slot_of_rules hfits.slots
  rw [Json.Field.given_optional] at hslot
  exact fun rule ↦ Slot.accepts_of_mem_list hslot

variable (hfull : Unabridged v)

include hfull

theorem whole_of_mem_section (s : NamedSection) :
    ∀ p ∈ (v.under s.key).members, s.format.Accepts p.2 ∧ s.format.Whole p.2 := by
  obtain ⟨members, rfl, hfits⟩ := Json.Record.exists_of_accepts_kept unambiguous_fields haccepts
  intro p hp
  have hslot := slot_of_section hfits.slots s
  rw [NamedSection.field, Json.Field.given_optional] at hslot
  have hentry : s.format.Accepts p.2 := Slot.accepts_of_mem_named hslot hp
  refine ⟨hentry, ?_⟩
  cases s with
  | views => exact View.whole hentry (hfull.views p hp)
  | indexes =>
    obtain ⟨hmodelled, hnull⟩ := hfull.indexes p hp
    exact SearchIndex.whole hentry hmodelled hnull (hfull.analyzers p hp)
  | filters | shows | lists | updates => trivial
  | fulltext =>
    obtain ⟨hmodelled, hnull⟩ := hfull.fulltext p hp
    exact FulltextIndex.whole hmodelled hnull

theorem whole : format.Whole v := by
  have hsections := whole_of_mem_section haccepts hfull
  obtain ⟨members, rfl, hfits⟩ := Json.Record.exists_of_accepts_kept unambiguous_fields haccepts
  have hnull := hfull.document
  simp only [Json.Record.NullFree, record, List.forall_mem_cons, Json.Field.given_essential,
    Json.Field.given_optional, Json.members] at hnull
  obtain ⟨-, hrev, hlanguage, hviews, hindexes, hfilters, hshows, hlists, hupdates, hvalidate,
    hrewrites, hfulltext, -⟩ := hnull
  refine ⟨members, rfl, names_or_beside otherName?_of_mem, ?_⟩
  simp only [record, slotFormats, List.forall₂_cons, Json.Field.given_essential,
    Json.Field.given_optional]
  refine ⟨fun _ _ ↦ trivial, ?_, ?_, ?_, ?_, ?_, ?_, ?_, ?_, ?_, ?_, ?_, .nil⟩
  · exact Slot.whole_optional (hrev rfl) fun _ _ ↦ trivial
  · exact Slot.whole_optional (hlanguage rfl) fun _ _ ↦ trivial
  · exact Slot.whole_named (hviews rfl) fun p hp ↦ (hsections .views p hp).2
  · exact Slot.whole_named (hindexes rfl) fun p hp ↦ (hsections .indexes p hp).2
  · exact Slot.whole_named (hfilters rfl) fun p hp ↦ (hsections .filters p hp).2
  · exact Slot.whole_named (hshows rfl) fun p hp ↦ (hsections .shows p hp).2
  · exact Slot.whole_named (hlists rfl) fun p hp ↦ (hsections .lists p hp).2
  · exact Slot.whole_named (hupdates rfl) fun p hp ↦ (hsections .updates p hp).2
  · exact Slot.whole_optional (hvalidate rfl) fun _ _ ↦ trivial
  · refine Slot.whole_list (hrewrites rfl) fun rule hrule ↦ ?_
    obtain ⟨hmodelled, hnull⟩ := hfull.rules rule hrule
    exact RewriteRule.whole hmodelled hnull
  · exact Slot.whole_named (hfulltext rfl) fun p hp ↦ (hsections .fulltext p hp).2

theorem oneOrder_normal (hd : v.Distinct) : OneOrder (format.normal v) v where
  sections s := by
    rw [members_under_normal haccepts, List.forall₂_map_left_iff, List.forall₂_same]
    intro p hp
    obtain ⟨hentry, hwhole⟩ := whole_of_mem_section haccepts hfull s p hp
    exact ⟨rfl, s.format.permuted_normal ((hd.under s.key).members p hp) hentry hwhole⟩
  rules := by
    rw [items_under_normal haccepts, List.forall₂_map_left_iff, List.forall₂_same]
    intro rule hrule
    obtain ⟨hmodelled, hnull⟩ := hfull.rules rule hrule
    exact RewriteRule.format.permuted_normal ((hd.under "rewrites").items rule hrule)
      (accepts_of_mem_rules haccepts rule hrule) (RewriteRule.whole hmodelled hnull)
  others := Json.Record.unmodelled_normal unambiguous_fields v
  views := by
    have hviews := members_under_normal haccepts .views
    rw [NamedSection.key] at hviews
    rw [hviews, List.forall₂_map_left_iff, List.forall₂_same]
    exact fun p _ ↦ Json.Record.unmodelled_normal View.unambiguous_fields p.2
  analyzers := by
    have hindexes := members_under_normal haccepts .indexes
    rw [NamedSection.key] at hindexes
    rw [hindexes, List.forall₂_map_left_iff, List.forall₂_same]
    exact fun p hp ↦ SearchIndex.unmodelled_analyzer_normal (hfull.indexes p hp).1

end

/-- A value of which a document holds everything is written again, up to the order of members. The
entries of sections, the rules and what is not modelled keep their order, and texts are as they
were. -/
theorem toValue_of_ofValue {v : Value} {d : DesignDocument} (h : Wire.ofValue v = .ok d)
    (hfull : Unabridged v.json) :
    Wire.toValue d == v ∧ Permuted (Wire.toValue d).json v.json ∧
      OneOrder (Wire.toValue d).json v.json ∧
      ∀ path s, Json.part? path (Wire.toValue d).json = some (.string s) ↔
        Json.part? path v.json = some (.string s) := by
  have haccepts := Wire.accepts_of_ofValue describes steady_read h
  have hwritten : (Wire.toValue d).json = format.normal v.json :=
    (Wire.toValue_json d.distinct_toJson).trans (Wire.toJson_of_ofValue describes steady_read h)
  have hpermuted : Permuted (Wire.toValue d).json v.json := by
    rw [hwritten]
    exact format.permuted_normal v.distinct haccepts (whole haccepts hfull)
  refine ⟨?_, hpermuted, ?_, fun path s ↦ ?_⟩
  · exact Value.beq_iff_same.2 (hpermuted.same (Wire.toValue d).distinct)
  · rw [hwritten]
    exact oneOrder_normal haccepts hfull v.distinct
  · exact hpermuted.part?_eq_string_iff (Wire.toValue d).distinct path s

def shuffled : Value :=
  .object (.ofList
    [("views", .object (.ofList
        [("recent", .object (.ofList
            [("partitioned", .null), ("reduce", .string "_sum\n"), ("map", .string "f"),
              ("keys", .array [])])),
          ("all", .object (.singleton "map" (.object (.ofList [("b", .null), ("a", .null)]))))])),
      ("tags", .object (.ofList [("b", .null), ("a", .bool true)])),
      ("indexes", .object (.singleton "titles" (.object (.ofList
        [("analyzer", .object (.ofList
            [("tokens", .null), ("name", .string "standard"), ("author", .null)])),
          ("index", .string "g")])))),
      ("rewrites", .array [.object (.ofList [("to", .string "b"), ("from", .string "a")])]),
      ("_id", .string "_design/shuffled"), ("author", .string "me")])

theorem toValue_shuffled : Unabridged shuffled.json ∧
    ∃ d : DesignDocument, Wire.ofValue shuffled = .ok d ∧ Wire.toValue d == shuffled := by
  have hfull : Unabridged shuffled.json := by decide
  exact ⟨hfull, _, rfl, (toValue_of_ofValue rfl hfull).1⟩

end DesignDocument

end DesignDocs
