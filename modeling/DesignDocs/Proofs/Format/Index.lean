import DesignDocs.Proofs.Format.Analyzer
import DesignDocs.Proofs.Index.Basic

namespace DesignDocs

open Json (Reader Format Slot Record Steady decode)
open Json.Source (ofTreeMembers trailing)

theorem Selector.describes : Format.object.Describes read toJson :=
  Format.Describes.object.map mk fun _ ↦ rfl

theorem readSingle_eq_ok_iff {members : List (String × Json)} {name text : String} :
    readSingle (ofTreeMembers trailing members) = .ok (name, text) ↔
      members = [(name, .string text)] := by
  constructor
  · intro h
    match members with
    | [] => cases h
    | [(n, v)] =>
      obtain ⟨s, hs, h⟩ := Except.bind_eq_ok_iff.1 h
      cases h
      cases v with
      | string s' =>
        cases hs
        rfl
      | _ => cases hs
    | _ :: _ :: _ =>
      obtain ⟨s, -, h⟩ := Except.bind_eq_ok_iff.1 h
      cases h
  · rintro rfl
    rfl

theorem SortOrder.text_of_ofText? {s : String} {order : SortOrder} (h : ofText? s = some order) :
    order.text = s := by
  unfold ofText? at h
  split at h <;> cases h <;> rfl

theorem TextFieldType.text_of_ofText? {s : String} {type : TextFieldType}
    (h : ofText? s = some type) : type.text = s := by
  unfold ofText? at h
  split at h <;> cases h <;> rfl

theorem IndexType.name_of_ofName? {s : String} {type : IndexType} (h : ofName? s = some type) :
    type.name = s := by
  unfold ofName? at h
  split at h <;> cases h <;> rfl

namespace JsonField

def format : Format := .textOr (.entry fun s ↦ (SortOrder.ofText? s).isSome)

theorem describes : format.Describes read toJson where
  exists_ok := by
    rintro _ - (⟨name, rfl, -⟩ | ⟨name, s, rfl, hs⟩)
    · exact ⟨unordered name, rfl⟩
    · obtain ⟨order, hs⟩ := Option.isSome_iff_exists.1 hs
      obtain rfl := SortOrder.text_of_ofText? hs
      exact ⟨⟨name, some order⟩, reads_toJson ⟨name, some order⟩ trailing⟩
  of_ok {v f} _ h := by
    cases v with
    | string name =>
      cases h
      exact ⟨.inl ⟨name, rfl, trivial⟩, rfl⟩
    | object members =>
      obtain ⟨⟨name, text⟩, hsingle, hf⟩ := Except.bind_eq_ok_iff.1 h
      obtain rfl := readSingle_eq_ok_iff.1 hsingle
      dsimp only at hf
      split at hf
      · next order horder =>
        cases hf
        obtain rfl := SortOrder.text_of_ofText? horder
        exact ⟨.inr ⟨name, _, rfl, Option.isSome_iff_exists.2 ⟨order, horder⟩⟩, rfl⟩
      · cases hf
    | _ => cases h

end JsonField

namespace TextField

def format : Format := .entry fun s ↦ (TextFieldType.ofText? s).isSome

theorem describes : format.Describes read toJson where
  exists_ok := by
    rintro _ - ⟨name, s, rfl, hs⟩
    obtain ⟨type, hs⟩ := Option.isSome_iff_exists.1 hs
    obtain rfl := TextFieldType.text_of_ofText? hs
    exact ⟨⟨name, type⟩, reads_toJson ⟨name, type⟩ trailing⟩
  of_ok {v f} _ h := by
    cases v with
    | object members =>
      obtain ⟨⟨name, text⟩, hsingle, hf⟩ := Except.bind_eq_ok_iff.1 h
      obtain rfl := readSingle_eq_ok_iff.1 hsingle
      dsimp only at hf
      split at hf
      · next type htype =>
        cases hf
        obtain rfl := TextFieldType.text_of_ofText? htype
        exact ⟨⟨name, _, rfl, Option.isSome_iff_exists.2 ⟨type, htype⟩⟩, rfl⟩
      · cases hf
    | _ => cases h

end TextField

namespace JsonBody

def Member.key : Member → String
  | .partialFilter _ => "partial_filter_selector"
  | .selector _ => "selector"
  | .fields _ => "fields"

/-- What is written for a member. -/
def Member.toJson? : Member → Option Json
  | .partialFilter s => s.map Selector.toJson
  | .selector s => s.map Selector.toJson
  | .fields l => some (.array (l.map JsonField.toJson))

def slotFormats : List Slot :=
  [.optional .object, .optional .object, .essential (.list JsonField.format)]

theorem unambiguous_fields : Record.Unambiguous record.fields := by
  unfold Record.Unambiguous
  decide

def format : Format := .record record .skipped slotFormats unambiguous_fields

theorem describes_slots :
    List.Forall₂ (fun f (s : Slot) ↦ s.Describes f Member.key Member.toJson?) record.fields
      slotFormats := by
  refine .cons ?_ (.cons ?_ (.cons ?_ .nil))
  · exact .optional Selector.describes (fun _ ↦ rfl) fun _ ↦ rfl
  · exact .optional Selector.describes (fun _ ↦ rfl) fun _ ↦ rfl
  · exact .essential JsonField.describes.list (fun _ ↦ rfl) fun _ ↦ rfl

theorem describes : format.Describes read toJson := by
  refine Record.describes_skipped describes_slots _ (fun _ ↦ rfl) fun es ↦ ?_
  refine .of_required slots (fun l ↦ .array (l.map JsonField.toJson))
    ⟨_, .tail _ (.tail _ (.head _)), rfl, rfl⟩ ?_ ?_ (fun _ ↦ toJson_eq _)
    fun l hl ↦ .cons ?_ (.cons ?_ (.cons hl .nil))
  · simp [record, Json.Field.essential, Json.Field.optional]
  all_goals exact Record.map_eq_shown (fun e ↦ by cases e <;> rfl) es

end JsonBody

namespace TextBody

def Member.key : Member → String
  | .defaultAnalyzer _ => "default_analyzer"
  | .defaultField _ => "default_field"
  | .partialFilter _ => "partial_filter_selector"
  | .selector _ => "selector"
  | .fields _ => "fields"
  | .indexArrayLengths _ => "index_array_lengths"

def Member.toJson? : Member → Option Json
  | .defaultAnalyzer a => a.map Analyzer.toJson
  | .defaultField d => d.map DefaultField.toJson
  | .partialFilter s => s.map Selector.toJson
  | .selector s => s.map Selector.toJson
  | .fields l => l.map fun l ↦ .array (l.map TextField.toJson)
  | .indexArrayLengths b => b.map .bool

def slotFormats : List Slot :=
  [.optional Analyzer.format, .optional DefaultField.format, .optional .object, .optional .object,
    .optional (.list TextField.format), .optional .bool]

theorem unambiguous_fields : Record.Unambiguous record.fields := by
  unfold Record.Unambiguous
  decide

def format : Format := .record record .skipped slotFormats unambiguous_fields

theorem describes_slots :
    List.Forall₂ (fun f (s : Slot) ↦ s.Describes f Member.key Member.toJson?) record.fields
      slotFormats := by
  have hanalyzer : (Slot.optional Analyzer.format).Describes
      (.optional "default_analyzer" fun s ↦ (Reader.optional Analyzer.read s).map .defaultAnalyzer)
      Member.key Member.toJson? := .optional Analyzer.describes (fun _ ↦ rfl) fun _ ↦ rfl
  refine .cons (hanalyzer.alsoCalled "analyzer") (.cons ?_ (.cons ?_ (.cons ?_ (.cons ?_
    (.cons ?_ .nil)))))
  · exact .optional DefaultField.describes (fun _ ↦ rfl) fun _ ↦ rfl
  · exact .optional Selector.describes (fun _ ↦ rfl) fun _ ↦ rfl
  · exact .optional Selector.describes (fun _ ↦ rfl) fun _ ↦ rfl
  · exact .optional TextField.describes.list (fun _ ↦ rfl) fun _ ↦ rfl
  · exact .optional .bool (fun _ ↦ rfl) fun _ ↦ rfl

theorem describes : format.Describes read toJson := by
  refine Record.describes_skipped describes_slots _ (fun _ ↦ rfl) fun es ↦ ?_
  refine .of_optional slots ?_ (toJson_eq _)
    (.cons ?_ (.cons ?_ (.cons ?_ (.cons ?_ (.cons ?_ (.cons ?_ .nil))))))
  · simp [record, Json.Field.alsoCalled, Json.Field.optional]
  all_goals exact Record.map_eq_shown (fun e ↦ by cases e <;> rfl) es

end TextBody

namespace IndexBody

def format : IndexType → Format
  | .json | .special => JsonBody.format
  | .text => TextBody.format

theorem steady_read (type : IndexType) : Steady (read type) := by
  cases type with
  | json => exact JsonBody.steady_read.map _
  | text => exact TextBody.steady_read.map _
  | special => exact JsonBody.steady_read.map _

theorem describes (type : IndexType) : (format type).Describes (read type) toJson := by
  cases type with
  | json => exact JsonBody.describes.map json fun _ ↦ rfl
  | text => exact TextBody.describes.map text fun _ ↦ rfl
  | special => exact JsonBody.describes.map special fun _ ↦ rfl

theorem type_of_read {type : IndexType} {s : Json.Source} {b : IndexBody}
    (h : read type s = .ok b) : b.type = type := by
  cases type <;>
  · obtain ⟨x, -, rfl⟩ := Except.map_eq_ok_iff.1 h
    rfl

end IndexBody

namespace IndexType

def format : Format := .word fun s ↦ (ofName? s).isSome

theorem describes : format.Describes read toJson where
  exists_ok := by
    rintro _ - ⟨s, rfl, hs⟩
    obtain ⟨type, hs⟩ := Option.isSome_iff_exists.1 hs
    obtain rfl := name_of_ofName? hs
    exact ⟨type, type.reads_toJson trailing⟩
  of_ok {v type} _ h := by
    cases v with
    | string s =>
      obtain ⟨_, ⟨⟩, h⟩ := Except.bind_eq_ok_iff.1 h
      split at h
      · next type htype =>
        cases h
        obtain rfl := name_of_ofName? htype
        exact ⟨⟨_, rfl, Option.isSome_iff_exists.2 ⟨_, htype⟩⟩, rfl⟩
      · cases h
    | _ => cases h

end IndexType

namespace QueryIndex

theorem describes_nullable : Format.nullableText.Describes Reader.text.optional nullable where
  exists_ok := by
    rintro _ - (rfl | ⟨s, rfl⟩)
    · exact ⟨none, rfl⟩
    · exact ⟨some s, rfl⟩
  of_ok {v o} _ h := by
    cases v with
    | null =>
      cases h
      exact ⟨.inl rfl, rfl⟩
    | string s =>
      cases h
      exact ⟨.inr ⟨s, rfl⟩, rfl⟩
    | _ => cases h

def Member.key : Member → String
  | .designDocument _ => "ddoc"
  | .name _ => "name"
  | .type _ => "type"
  | .body _ => "def"

def Member.toJson? : Member → Option Json
  | .designDocument s => some (nullable s)
  | .name s => some (nullable s)
  | .type t => some t.toJson
  | .body v => some v.json

/-- The slots of an index whose body is taken as it is. -/
def rawFormats : List Slot :=
  [.free .nullableText, .free .nullableText, .free IndexType.format, .essential .any]

def slotFormats (type : IndexType) : List Slot :=
  [.free .nullableText, .free .nullableText, .defaulted IndexType.format IndexType.json.toJson,
    .essential (.ofObject (IndexBody.format type))]

theorem unambiguous_fields : Record.Unambiguous record.fields := by
  unfold Record.Unambiguous
  decide

/-- The type that members name; one that is not named is json. -/
def typeIn (members : List (String × Json)) : IndexType :=
  match members.lookup "type" with
  | some (.string s) => (IndexType.ofName? s).getD .json
  | _ => .json

def bodyIn (members : List (String × Json)) : Option Json :=
  (members.lookup "def").or (members.lookup "index")

def typeOf (v : Json) : IndexType := (record.given? .skipped v).elim .json typeIn

theorem typeOf_eq {v : Json} {members : List (String × Json)}
    (h : record.given? .skipped v = some members) : typeOf v = typeIn members := by
  rw [typeOf, h]
  rfl

theorem typeIn_eq {members : List (String × Json)} {type? : Option IndexType}
    (h : type?.map IndexType.toJson = members.lookup "type") :
    typeIn members = type?.getD .json := by
  rw [typeIn, ← h]
  cases type? with
  | none => rfl
  | some type => exact congrArg (Option.getD · _) type.ofName?_name

theorem typeOf_of_same {v w : Json} (h : Json.Same v w) : typeOf v = typeOf w := by
  cases hv : record.given? .skipped v with
  | none =>
    cases hw : record.given? .skipped w with
    | none => rw [typeOf, typeOf, hv, hw]
    | some ys =>
      obtain ⟨xs, hxs, -⟩ := Record.exists_given?_of_same h.symm hw
      rw [hv] at hxs
      cases hxs
  | some xs =>
    obtain ⟨ys, hys, hrel⟩ := Record.exists_given?_of_same h hv
    rw [typeOf_eq hv, typeOf_eq hys, typeIn, typeIn]
    have htype := hrel "type"
    generalize xs.lookup "type" = x, ys.lookup "type" = y at htype ⊢
    cases htype with
    | none => rfl
    | some hs => cases hs <;> rfl

/-- The type decides which body is taken, wherever it stands. -/
def format : Format :=
  .depending typeOf (fun _ _ ↦ typeOf_of_same) fun type ↦
    .record record .skipped (slotFormats type) unambiguous_fields

section

variable (s₁ s₂ s₃ s₄ : Slot) (members : List (String × Json))

theorem values_eq : record.values [s₁, s₂, s₃, s₄] members =
    [s₁.normal (members.lookup "ddoc"), s₂.normal (members.lookup "name"),
      s₃.normal (members.lookup "type"), s₄.normal (bodyIn members)] := by
  simp [Record.values, record, bodyIn, Json.Field.essential]

theorem fits_iff_accepts : record.Fits [s₁, s₂, s₃, s₄] members ↔
    (Record.spelledNames record.fields members).Nodup ∧ s₁.Accepts (members.lookup "ddoc") ∧
      s₂.Accepts (members.lookup "name") ∧ s₃.Accepts (members.lookup "type") ∧
      s₄.Accepts (bodyIn members) := by
  refine ⟨fun h ↦ ⟨h.once, ?_⟩, fun h ↦ ⟨h.1, ?_⟩⟩
  · have hslots := h.slots
    simpa [record, bodyIn, Json.Field.essential] using hslots
  · simpa [record, bodyIn, Json.Field.essential] using h.2

end

theorem values_rawFormats (members : List (String × Json)) :
    record.values rawFormats members = [members.lookup "ddoc", members.lookup "name",
      members.lookup "type", bodyIn members] := by
  simp only [rawFormats, values_eq, Slot.normal, Format.nullableText, Format.any, Format.plain,
    IndexType.format, Format.word, Option.map_id, id]

theorem values_slotFormats (type : IndexType) (members : List (String × Json)) :
    record.values (slotFormats type) members = [members.lookup "ddoc", members.lookup "name",
      some ((members.lookup "type").getD IndexType.json.toJson),
      (bodyIn members).map (IndexBody.format type).normal] := by
  simp only [slotFormats, values_eq, Slot.normal, Format.nullableText, Format.plain,
    Format.ofObject, IndexType.format, Format.word, Option.map_id, id]
  cases members.lookup "type" <;> rfl

theorem normal_eq {v : Json} {members : List (String × Json)}
    (h : record.given? .skipped v = some members) :
    format.normal v = .object (Record.written record.names [members.lookup "ddoc",
      members.lookup "name", some ((members.lookup "type").getD IndexType.json.toJson),
      (bodyIn members).map (IndexBody.format (typeIn members)).normal]) := by
  change (record.given? .skipped v).elim v _ = _
  rw [typeOf_eq h, h, Option.elim_some, Record.rewritten, values_slotFormats]
  exact congrArg Json.object (List.append_nil _)

theorem fits_slotFormats_iff {type : IndexType} {members : List (String × Json)} :
    record.Fits (slotFormats type) members ↔ record.Fits rawFormats members ∧
      ∃ body, bodyIn members = some body ∧
        (Format.ofObject (IndexBody.format type)).Accepts body := by
  rw [slotFormats, rawFormats, fits_iff_accepts, fits_iff_accepts]
  constructor
  · rintro ⟨hn, hddoc, hname, htype, body, hbody, haccepts⟩
    exact ⟨⟨hn, hddoc, hname, htype, body, hbody, trivial⟩, body, hbody, haccepts⟩
  · rintro ⟨⟨hn, hddoc, hname, htype, -⟩, hbody⟩
    exact ⟨hn, hddoc, hname, htype, hbody⟩

theorem describes_rawFormats :
    List.Forall₂ (fun f (s : Slot) ↦ s.Describes f Member.key Member.toJson?) record.fields
      rawFormats := by
  have hbody : (Slot.essential .any).Describes
      (.essential "def" fun s ↦ s.distinctValue.map .body) Member.key Member.toJson? :=
    .essential .any (fun _ ↦ rfl) fun _ ↦ rfl
  refine .cons ?_ (.cons ?_ (.cons ?_ (.cons (hbody.alsoCalled "index") .nil)))
  · exact .free describes_nullable (fun _ ↦ rfl) fun _ ↦ rfl
  · exact .free describes_nullable (fun _ ↦ rfl) fun _ ↦ rfl
  · exact .free IndexType.describes (fun _ ↦ rfl) fun _ ↦ rfl

theorem found_eq {members : List (String × Json)} {es : List Member}
    (h : record.names.map (Record.shown Member.key Member.toJson? es) =
      record.values rawFormats members) :
    (es.findSome? fun | .designDocument s => some s | _ => none).map nullable =
        members.lookup "ddoc" ∧
      (es.findSome? fun | .name s => some s | _ => none).map nullable = members.lookup "name" ∧
      (es.findSome? fun | .type t => some t | _ => none).map IndexType.toJson =
        members.lookup "type" ∧
      (es.findSome? fun | .body v => some v | _ => none).map Value.json = bodyIn members := by
  rw [values_rawFormats] at h
  obtain ⟨hddoc, h⟩ := List.cons.inj h
  obtain ⟨hname, h⟩ := List.cons.inj h
  obtain ⟨htype, h⟩ := List.cons.inj h
  obtain ⟨hbody, -⟩ := List.cons.inj h
  refine ⟨.trans ?_ hddoc, .trans ?_ hname, .trans ?_ htype, .trans ?_ hbody⟩
  all_goals exact Record.map_eq_shown (fun e ↦ by cases e <;> rfl) es

theorem readBody_eq_ok_iff {type : IndexType} {v : Value} {b : IndexBody} :
    readBody type v = .ok b ↔
      (∃ members, v.json = .object members) ∧ decode (IndexBody.read type) v.json = .ok b := by
  obtain ⟨json, hd⟩ := v
  rw [← (IndexBody.steady_read type).ok_iff, ← Json.Source.ofJson_eq_ofTree]
  cases json with
  | object members =>
    have hread : readBody type ⟨.object members, hd⟩ =
        (IndexBody.read type (.ofJson (.object members))).mapError .inDefinition := rfl
    rw [hread, and_iff_right ⟨members, rfl⟩]
    cases IndexBody.read type (.ofJson (.object members)) with
    | error f => exact iff_of_false nofun nofun
    | ok b => exact Iff.rfl
  | _ => exact iff_of_false nofun fun h ↦ by obtain ⟨⟨_, ⟨⟩⟩, -⟩ := h

section

variable {v : Json} (hv : v.Distinct)

include hv

theorem exists_fits_of_decode_read {i : QueryIndex} (h : decode read v = .ok i) :
    ∃ members, record.given? .skipped v = some members ∧ record.Fits rawFormats members := by
  obtain ⟨es, hes, h⟩ := Except.bind_eq_ok_iff.1 h
  obtain ⟨value, hvalue, -⟩ := Except.bind_eq_ok_iff.1 h
  obtain ⟨members, hmembers, hn, hall, rfl⟩ :=
    Record.exists_members_of_read unambiguous_fields hes
  replace hmembers : record.given? .skipped v = some members := hmembers
  have hd := Record.distinct_of_given? unambiguous_fields.nodup_names hv hmembers
  obtain ⟨-, -, -, hfound⟩ := found_eq
    (Record.map_shown_found describes_rawFormats unambiguous_fields hd hn hall)
  have hbody : bodyIn members = some value.json :=
    hfound.symm.trans (congrArg _ (Json.required_eq_ok_iff.1 hvalue))
  refine ⟨members, hmembers, ?_⟩
  refine (Record.fits_iff describes_rawFormats unambiguous_fields hd).2 ⟨hn, hall, ?_⟩
  simp only [record, List.forall_mem_cons, Json.Field.given_alsoCalled]
  have hoptional : ∀ {P : Prop}, false = true → P := fun h ↦ absurd h Bool.false_ne_true
  exact ⟨hoptional, hoptional, hoptional, fun _ ↦ Option.isSome_iff_exists.2 ⟨_, hbody⟩,
    List.forall_mem_nil _⟩

/-- Where the members fit, all depends on the body. -/
theorem decode_read_eq {members : List (String × Json)}
    (hmembers : record.given? .skipped v = some members) (hraw : record.Fits rawFormats members) :
    ∃ value designDocument name, bodyIn members = some (Value.json value) ∧
      designDocument.map nullable = members.lookup "ddoc" ∧
      name.map nullable = members.lookup "name" ∧
      (typeIn members).toJson = (members.lookup "type").getD IndexType.json.toJson ∧
      decode read v = (readBody (typeIn members) value).map fun b ↦ ⟨designDocument, name, b⟩ := by
  have hd := Record.distinct_of_given? unambiguous_fields.nodup_names hv hmembers
  obtain ⟨hn, hall, hrequired⟩ :=
    (Record.fits_iff describes_rawFormats unambiguous_fields hd).1 hraw
  have hread : decode record.read v = .ok (Record.found record.fields members) :=
    Record.read_of_members unambiguous_fields hmembers hn hall hrequired
  obtain ⟨hddoc, hname, htype, hfound⟩ := found_eq
    (Record.map_shown_found describes_rawFormats unambiguous_fields hd hn hall)
  obtain ⟨-, -, -, -, body, hbody, -⟩ := (fits_iff_accepts _ _ _ _ _).1 hraw
  rw [hbody, Option.map_eq_some_iff] at hfound
  obtain ⟨value, hvalue, rfl⟩ := hfound
  have hvalue : Json.required "def" _ = .ok value := Json.required_eq_ok_iff.2 hvalue
  refine ⟨value, _, _, hbody, hddoc, hname, ?_, ?_⟩
  · rw [typeIn_eq htype, ← htype, Option.getD_map]
  · rw [typeIn_eq htype]
    exact (Except.bind_of_eq_ok hread _).trans
      ((Except.bind_of_eq_ok hvalue _).trans (Except.bind_pure_eq_map _ _))

end

theorem describes : format.Describes read toJson where
  exists_ok {v} hv h := by
    obtain ⟨members, hmembers, hfits⟩ := h
    rw [typeOf_eq hmembers] at hfits
    obtain ⟨hraw, body, hbody, ⟨object, hobject⟩, haccepts⟩ := fits_slotFormats_iff.1 hfits
    obtain ⟨value, designDocument, name, hvalue, -, -, -, hread⟩ := decode_read_eq hv hmembers hraw
    obtain rfl := Option.some.inj (hvalue.symm.trans hbody)
    obtain ⟨b, hb⟩ := (IndexBody.describes _).exists_ok value.distinct haccepts
    have hbody : readBody _ value = .ok b := readBody_eq_ok_iff.2 ⟨⟨object, hobject⟩, hb⟩
    exact ⟨_, by rw [hread, hbody, Except.map_ok]⟩
  of_ok {v i} hv h := by
    obtain ⟨members, hmembers, hraw⟩ := exists_fits_of_decode_read hv h
    obtain ⟨value, designDocument, name, hvalue, hddoc, hname, htype, hread⟩ :=
      decode_read_eq hv hmembers hraw
    rw [hread] at h
    obtain ⟨b, hb, rfl⟩ := Except.map_eq_ok_iff.1 h
    obtain ⟨⟨object, hobject⟩, hb⟩ := readBody_eq_ok_iff.1 hb
    obtain ⟨haccepts, hnormal⟩ := (IndexBody.describes _).of_ok value.distinct hb
    constructor
    · refine ⟨members, hmembers, ?_⟩
      rw [typeOf_eq hmembers]
      exact fits_slotFormats_iff.2 ⟨hraw, value.json, hvalue, ⟨object, hobject⟩, haccepts⟩
    · rw [normal_eq hmembers, toJson_eq]
      refine congrArg (fun values ↦ Json.object (Record.written record.names values)) ?_
      refine congrArg₂ List.cons hddoc (congrArg₂ List.cons hname
        (congrArg₂ List.cons (congrArg some ?_) (congrArg₂ List.cons ?_ rfl)))
      · change IndexType.toJson b.type = _
        rw [IndexBody.type_of_read hb, htype]
      · rw [hvalue]
        exact congrArg some hnormal

end QueryIndex

namespace IndexListing

def Member.key : Member → String
  | .totalRows _ => "total_rows"
  | .indexes _ => "indexes"

def Member.toJson? : Member → Option Json
  | .totalRows n => n.map fun n ↦ .number (.ofUInt64 n)
  | .indexes l => some (.array (l.map QueryIndex.toJson))

def slotFormats : List Slot := [.optional .count, .essential (.list QueryIndex.format)]

theorem unambiguous_fields : Record.Unambiguous record.fields := by
  unfold Record.Unambiguous
  decide

def format : Format := .record record .skipped slotFormats unambiguous_fields

theorem describes_slots :
    List.Forall₂ (fun f (s : Slot) ↦ s.Describes f Member.key Member.toJson?) record.fields
      slotFormats := by
  refine .cons ?_ (.cons ?_ .nil)
  · exact .optional .count (fun _ ↦ rfl) fun _ ↦ rfl
  · exact .essential QueryIndex.describes.list (fun _ ↦ rfl) fun _ ↦ rfl

theorem describes : format.Describes read toJson := by
  refine Record.describes_skipped describes_slots _ (fun _ ↦ rfl) fun es ↦ ?_
  refine .of_required slots (fun l ↦ .array (l.map QueryIndex.toJson))
    ⟨_, .tail _ (.head _), rfl, rfl⟩ ?_ ?_ (fun _ ↦ toJson_eq _) fun l hl ↦ .cons ?_ (.cons hl .nil)
  · simp [record, Json.Field.essential, Json.Field.optional]
  all_goals exact Record.map_eq_shown (fun e ↦ by cases e <;> rfl) es

end IndexListing

end DesignDocs
