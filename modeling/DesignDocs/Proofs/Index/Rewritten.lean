import DesignDocs.Proofs.Format.Index
import DesignDocs.Proofs.Format.Value
import DesignDocs.Proofs.Json.Parts

namespace DesignDocs

open Json (Format Slot member?)
open Json.Record (written unmodelled_eq)

/-- What is written for an analyzer: a name as it is, a configuration without nulls, and with what
it keeps after its own members. -/
def Analyzer.rewritten : Json → Json
  | .object members => .object (member? "name" id (members.lookup "name") ++
      member? "default" id (Json.notNull (members.lookup "default")) ++
      member? "fields" id (Json.notNull (members.lookup "fields")) ++
      member? "stopwords" id (Json.notNull (members.lookup "stopwords")) ++
      members.filter fun p ↦ p.1 ∉ AnalyzerConfig.record.names)
  | v => v

def DefaultField.rewritten : Json → Json
  | .object members => .object (member? "enabled" id (Json.notNull (members.lookup "enabled")) ++
      member? "analyzer" Analyzer.rewritten (Json.notNull (members.lookup "analyzer")))
  | v => v

def JsonBody.rewritten (members : List (String × Json)) : List (String × Json) :=
  member? "partial_filter_selector" id (Json.notNull (members.lookup "partial_filter_selector")) ++
    member? "selector" id (Json.notNull (members.lookup "selector")) ++
    member? "fields" id (members.lookup "fields")

/-- The analyzer may be given under an older name. -/
def TextBody.rewritten (members : List (String × Json)) : List (String × Json) :=
  member? "default_analyzer" Analyzer.rewritten
      (Json.notNull ((members.lookup "default_analyzer").or (members.lookup "analyzer"))) ++
    member? "default_field" DefaultField.rewritten
      (Json.notNull (members.lookup "default_field")) ++
    member? "partial_filter_selector" id
      (Json.notNull (members.lookup "partial_filter_selector")) ++
    member? "selector" id (Json.notNull (members.lookup "selector")) ++
    member? "fields" id (Json.notNull (members.lookup "fields")) ++
    member? "index_array_lengths" id (Json.notNull (members.lookup "index_array_lengths"))

def IndexBody.rewritten : IndexType → List (String × Json) → List (String × Json)
  | .json, members | .special, members => JsonBody.rewritten members
  | .text, members => TextBody.rewritten members

theorem JsonField.normal_format : format.normal = id := by
  funext v
  cases v <;> rfl

namespace AnalyzerConfig

theorem values_eq (members : List (String × Json)) : record.values slotFormats members =
    [(members.lookup "name").map id, (Json.notNull (members.lookup "default")).map id,
      (Json.notNull (members.lookup "fields")).map id,
      (Json.notNull (members.lookup "stopwords")).map id] := by
  have hfields : (Format.named .text).normal = id := Format.normal_named rfl
  have hstopwords : (Format.list .text).normal = id := Format.normal_list rfl
  simp only [Json.Record.values, record, slotFormats, List.zipWith_cons_cons,
    List.zipWith_nil_right, Json.Field.given_essential, Json.Field.given_optional,
    Slot.normal_optional_eq, hfields, hstopwords]
  rfl

theorem normal_object (members : List (String × Json)) :
    format.normal (.object members) = Analyzer.rewritten (.object members) := by
  have hnames : record.names = ["name", "default", "fields", "stopwords"] := rfl
  refine (Json.Record.normal_object_kept unambiguous_fields members).trans ?_
  rw [unmodelled_eq otherName?_of_mem, Analyzer.rewritten, values_eq, hnames]
  simp only [Json.Record.written_map, Json.Record.written_nil, List.append_assoc, List.nil_append]

end AnalyzerConfig

theorem Analyzer.normal_eq : format.normal = rewritten := by
  funext v
  cases v with
  | object members => exact AnalyzerConfig.normal_object members
  | _ => rfl

theorem DefaultField.normal_object (members : List (String × Json)) :
    format.normal (.object members) = rewritten (.object members) := by
  have hvalues : record.values slotFormats members =
      [(Json.notNull (members.lookup "enabled")).map id,
        (Json.notNull (members.lookup "analyzer")).map Analyzer.rewritten] := by
    simp only [Json.Record.values, record, slotFormats, List.zipWith_cons_cons,
      List.zipWith_nil_right, Json.Field.given_optional, Slot.normal_optional_eq,
      Analyzer.normal_eq]
    rfl
  have hnames : record.names = ["enabled", "analyzer"] := rfl
  refine (Json.Record.normal_object_skipped unambiguous_fields members).trans ?_
  rw [hvalues, rewritten, hnames]
  simp only [Json.Record.written_map, Json.Record.written_nil, List.append_nil]

theorem JsonBody.normal_object (members : List (String × Json)) :
    format.normal (.object members) = .object (rewritten members) := by
  have hfields : (Slot.essential (.list JsonField.format)).normal (members.lookup "fields") =
      (members.lookup "fields").map id :=
    congrArg (Option.map · _) (Format.normal_list JsonField.normal_format)
  have hvalues : record.values slotFormats members =
      [(Json.notNull (members.lookup "partial_filter_selector")).map id,
        (Json.notNull (members.lookup "selector")).map id, (members.lookup "fields").map id] := by
    simp only [Json.Record.values, record, slotFormats, List.zipWith_cons_cons,
      List.zipWith_nil_right, Json.Field.given_essential, Json.Field.given_optional,
      Slot.normal_optional_eq, hfields]
    rfl
  have hnames : record.names = ["partial_filter_selector", "selector", "fields"] := rfl
  refine (Json.Record.normal_object_skipped unambiguous_fields members).trans ?_
  rw [hvalues, rewritten, hnames]
  simp only [Json.Record.written_map, Json.Record.written_nil, List.append_nil, List.append_assoc]

theorem TextBody.normal_object {members : List (String × Json)}
    (h : ∀ v ∈ members.lookup "default_field", v = .null ∨ ∃ ms, v = .object ms) :
    format.normal (.object members) = .object (rewritten members) := by
  have hdefault : (Json.notNull (members.lookup "default_field")).map DefaultField.format.normal =
      (Json.notNull (members.lookup "default_field")).map DefaultField.rewritten := by
    cases hlookup : members.lookup "default_field" with
    | none => rfl
    | some v =>
      obtain rfl | ⟨ms, rfl⟩ := h v hlookup
      · rfl
      · exact congrArg some (DefaultField.normal_object ms)
  have hfields : (Format.list TextField.format).normal = id := Format.normal_list rfl
  have hvalues : record.values slotFormats members =
      [(Json.notNull ((members.lookup "default_analyzer").or (members.lookup "analyzer"))).map
          Analyzer.rewritten,
        (Json.notNull (members.lookup "default_field")).map DefaultField.rewritten,
        (Json.notNull (members.lookup "partial_filter_selector")).map id,
        (Json.notNull (members.lookup "selector")).map id,
        (Json.notNull (members.lookup "fields")).map id,
        (Json.notNull (members.lookup "index_array_lengths")).map id] := by
    simp only [Json.Record.values, record, slotFormats, List.zipWith_cons_cons,
      List.zipWith_nil_right, Json.Field.given_optional, Json.Field.given_alsoCalled,
      Slot.normal_optional_eq, Analyzer.normal_eq, hdefault, hfields]
    rfl
  have hnames : record.names = ["default_analyzer", "default_field", "partial_filter_selector",
    "selector", "fields", "index_array_lengths"] := rfl
  refine (Json.Record.normal_object_skipped unambiguous_fields members).trans ?_
  rw [hvalues, rewritten, hnames]
  simp only [Json.Record.written_map, Json.Record.written_nil, List.append_nil, List.append_assoc]

theorem IndexBody.normal_object {type : IndexType} {members : List (String × Json)}
    (h : ∀ v ∈ members.lookup "default_field", v = .null ∨ ∃ ms, v = .object ms) :
    (format type).normal (.object members) = .object (rewritten type members) := by
  cases type with
  | json | special => exact JsonBody.normal_object members
  | text => exact TextBody.normal_object h

namespace QueryIndex

theorem typeIn_eq_of_getD {members : List (String × Json)} {type : IndexType}
    (h : type.toJson = (members.lookup "type").getD IndexType.json.toJson) :
    typeIn members = type := by
  cases hlookup : members.lookup "type" with
  | none =>
    rw [hlookup] at h
    have hnone : (none : Option IndexType).map IndexType.toJson = members.lookup "type" :=
      hlookup.symm
    rw [IndexType.toJson_injective h]
    exact typeIn_eq hnone
  | some v =>
    rw [hlookup] at h
    have htype : (some type).map IndexType.toJson = members.lookup "type" :=
      (congrArg some h).trans hlookup.symm
    exact typeIn_eq htype

/-- What is written for an index that is read from an object: its names as they were given, its
type, which is json where none was given, and the normal form of its body. -/
theorem json_toValue_of_ofValue {v : Value} {members : List (String × Json)} {i : QueryIndex}
    (hv : v.json = .object members) (h : Wire.ofValue v = .ok i)
    (hdefault : ∀ body, bodyIn members = some (.object body) →
      ∀ v ∈ body.lookup "default_field", v = .null ∨ ∃ ms, v = .object ms) :
    (∃ body, bodyIn members = some (.object body) ∧
      i.type.toJson = (members.lookup "type").getD (.string "json") ∧
      (Wire.toValue i).json =
        .object (member? "ddoc" id (members.lookup "ddoc") ++
          member? "name" id (members.lookup "name") ++
          [("type", (members.lookup "type").getD (.string "json")),
            ("def", .object (IndexBody.rewritten i.type body))])) ∧
    Wire.ofValue (Wire.toValue i) = .ok i := by
  have hgiven : record.given? .skipped v.json = some members := by
    rw [hv, Json.Record.given?_object]
  obtain ⟨ms, hms, hfits⟩ := Wire.accepts_of_ofValue describes steady_read h
  rw [hgiven] at hms
  cases hms
  obtain ⟨-, _, hbody, ⟨body, rfl⟩, -⟩ := fits_slotFormats_iff.1 hfits
  have hwritten : i.toJson = format.normal v.json := Wire.toJson_of_ofValue describes steady_read h
  rw [normal_eq hgiven, toJson_eq] at hwritten
  have hslots := Json.Record.eq_of_written_eq unambiguous_fields.nodup_names rfl rfl
    (Json.object.inj hwritten)
  have htype : i.type.toJson = (members.lookup "type").getD IndexType.json.toJson :=
    Option.some.inj (List.cons.inj (List.cons.inj (List.cons.inj hslots).2).2).1
  refine ⟨⟨body, hbody, htype, ?_⟩, Wire.ofValue_toValue i.reads_toJson i.distinct_toJson⟩
  have hnames : record.names = ["ddoc", "name", "type", "def"] := rfl
  rw [typeIn_eq_of_getD htype, hbody, Option.map_some,
    IndexBody.normal_object (hdefault body hbody), hnames] at hwritten
  rw [Wire.toValue_json i.distinct_toJson]
  refine (toJson_eq i).trans (hwritten.trans ?_)
  rw [Json.Record.written_option, Json.Record.written_option, List.append_assoc]
  rfl

def loose : Value :=
  .object (.ofList
    [("index", .object (.ofList
        [("analyzer", .object (.ofList
            [("tokens", .null), ("stopwords", .null), ("name", .string "standard")])),
          ("fields", .array [.object (.singleton "title" (.string "string"))]),
          ("default_field", .object (.ofList [("boost", .null), ("enabled", .bool true)])),
          ("selector", .null), ("version", .null)])),
      ("name", .null), ("type", .string "text")])

theorem json_toValue_loose : ∃ i : QueryIndex, Wire.ofValue loose = .ok i ∧
    (Wire.toValue i).json = .object
      [("name", .null), ("type", .string "text"),
        ("def", .object
          [("default_analyzer", .object [("name", .string "standard"), ("tokens", .null)]),
            ("default_field", .object [("enabled", .bool true)]),
            ("fields", .array [.object [("title", .string "string")]])])] := by
  have hdefault : ∀ body, bodyIn loose.json.members = some (.object body) →
      ∀ v ∈ body.lookup "default_field", v = .null ∨ ∃ ms, v = .object ms := by
    rintro _ ⟨⟩ _ ⟨⟩
    exact .inr ⟨_, rfl⟩
  obtain ⟨⟨body, hbody, -, hjson⟩, -⟩ := json_toValue_of_ofValue (v := loose) rfl rfl hdefault
  cases hbody
  exact ⟨_, rfl, hjson⟩

end QueryIndex

end DesignDocs
