import DesignDocs.Proofs.Index.Misfit

namespace DesignDocs

open Json (Reader Reads Record Steady Spells decode)
open Text (Symbol)

/-- The descriptor is read from the values and from the texts of the trees with the property, and
from no others; what is written for it is the tree that it was read from. -/
structure Wire.Recognizes (α : Type) [Wire α] (P : Json → Prop) : Prop where
  ofValue_iff : ∀ v : Value, (∃ a : α, ofValue v = .ok a) ↔ P v.json
  toValue_eq : ∀ (v : Value) (a : α), ofValue v = .ok a → toValue a = v
  ofText_iff : ∀ (s : String) (v : Json), Spells (Symbol.ofString s) v →
    ((∃ a : α, ofText s = .ok a) ↔ P v)
  toJson_eq : ∀ (s : String) (v : Json), Spells (Symbol.ofString s) v →
    ∀ a : α, ofText s = .ok a → toJson a = v

theorem Wire.recognizes {α : Type} [Wire α] {P : Json → Prop} (hs : Steady (read : Reader α))
    (hreads : ∀ a : α, Reads read (toJson a) a) (hP : ∀ {v : Json}, P v ↔ ∃ a : α, v = toJson a)
    (herror : ∀ {v : Json}, ¬ P v → ∃ f, decode (read : Reader α) v = .error f) :
    Recognizes α P := by
  have hread : ∀ {v : Json} {a : α}, decode read v = .ok a ↔ v = toJson a := by
    intro v a
    constructor
    · intro h
      by_cases hv : P v
      · obtain ⟨b, rfl⟩ := hP.1 hv
        rw [Except.ok.inj ((hreads b _).symm.trans h)]
      · obtain ⟨f, hf⟩ := herror hv
        cases hf.symm.trans h
    · rintro rfl
      exact hreads a _
  have hvalue : ∀ (v : Value) (a : α), ofValue v = .ok a ↔ v.json = toJson a := fun v a ↦
    (ofValue_eq_ok_iff hs).trans hread
  have htext : ∀ (s : String) (v : Json), Spells (Symbol.ofString s) v → ∀ a : α,
      ofText s = .ok a ↔ v = toJson a := by
    intro s v h a
    rw [ofText, ofSymbols_of_spells h, Except.mapError_eq_ok_iff]
    exact hread
  refine ⟨fun v ↦ ?_, fun v a h ↦ ?_, fun s v h ↦ ?_, fun s v h a ha ↦ ?_⟩
  · simp only [hvalue, hP]
  · rw [toValue, ← (hvalue v a).1 h, Value.ofJson_json]
  · simp only [htext s v h, hP]
  · exact ((htext s v h a).1 ha).symm

namespace JsonField

theorem isField_iff {v : Json} : IndexType.IsField .json v ↔ ∃ f : JsonField, v = f.toJson := by
  constructor
  · rintro (⟨name, rfl⟩ | ⟨name, order, rfl⟩)
    · exact ⟨unordered name, rfl⟩
    · exact ⟨⟨name, some order⟩, rfl⟩
  · rintro ⟨⟨name, _ | order⟩, rfl⟩
    · exact .inl ⟨name, rfl⟩
    · exact .inr ⟨name, order, rfl⟩

theorem isField_iff_word {v : Json} : IndexType.IsField .json v ↔ (∃ name, v = .string name) ∨
    ∃ name word, v = .object [(name, .string word)] ∧ word ∈ ["asc", "desc"] := by
  refine or_congr_right ⟨?_, ?_⟩
  · rintro ⟨name, order, rfl⟩
    exact ⟨name, _, rfl, by cases order <;> decide⟩
  · rintro ⟨name, word, rfl, hword⟩
    obtain rfl | rfl : word = "asc" ∨ word = "desc" := by simpa using hword
    · exact ⟨name, .ascending, rfl⟩
    · exact ⟨name, .descending, rfl⟩

theorem recognizes : Wire.Recognizes JsonField fun v ↦ (∃ name, v = .string name) ∨
    ∃ name word, v = .object [(name, .string word)] ∧ word ∈ ["asc", "desc"] :=
  Wire.recognizes steady_read reads_toJson (isField_iff_word.symm.trans isField_iff) fun h ↦
    (exists_error_of_misfit (mt isField_iff_word.1 h)).imp fun _ ↦ And.left

end JsonField

namespace TextField

theorem isField_iff {v : Json} : IndexType.IsField .text v ↔ ∃ f : TextField, v = f.toJson := by
  constructor
  · rintro ⟨name, type, rfl⟩
    exact ⟨⟨name, type⟩, rfl⟩
  · rintro ⟨⟨name, type⟩, rfl⟩
    exact ⟨name, type, rfl⟩

theorem isField_iff_word {v : Json} : IndexType.IsField .text v ↔
    ∃ name word, v = .object [(name, .string word)] ∧ word ∈ ["string", "number", "boolean"] := by
  constructor
  · rintro ⟨name, type, rfl⟩
    exact ⟨name, _, rfl, by cases type <;> decide⟩
  · rintro ⟨name, word, rfl, hword⟩
    obtain rfl | rfl | rfl : word = "string" ∨ word = "number" ∨ word = "boolean" := by
      simpa using hword
    · exact ⟨name, .string, rfl⟩
    · exact ⟨name, .number, rfl⟩
    · exact ⟨name, .boolean, rfl⟩

theorem recognizes : Wire.Recognizes TextField fun v ↦
    ∃ name word, v = .object [(name, .string word)] ∧ word ∈ ["string", "number", "boolean"] :=
  Wire.recognizes steady_read reads_toJson (isField_iff_word.symm.trans isField_iff) fun h ↦
    (exists_error_of_misfit (mt isField_iff_word.1 h)).imp fun _ ↦ And.left

end TextField

/-- A tree says by itself of which type it is a field. -/
theorem IndexType.not_isField_both {v : Json} (hjson : IsField .json v) : ¬ IsField .text v := by
  rintro ⟨name, type, rfl⟩
  obtain ⟨_, ⟨⟩⟩ | ⟨_, order, h⟩ := hjson
  cases order <;> cases type <;> simp [SortOrder.text, TextFieldType.text] at h

theorem JsonField.isField_of_accepts {v : Json} (h : format.Accepts v) :
    IndexType.IsField .json v := by
  obtain ⟨name, rfl, -⟩ | ⟨name, s, rfl, hs⟩ := h
  · exact .inl ⟨name, rfl⟩
  · obtain ⟨order, hs⟩ := Option.isSome_iff_exists.1 hs
    exact .inr ⟨name, order, by rw [SortOrder.text_of_ofText? hs]⟩

theorem TextField.isField_of_accepts {v : Json} (h : format.Accepts v) :
    IndexType.IsField .text v := by
  obtain ⟨name, s, rfl, hs⟩ := h
  obtain ⟨type, hs⟩ := Option.isSome_iff_exists.1 hs
  exact ⟨name, type, by rw [TextFieldType.text_of_ofText? hs]⟩

section

variable {members : List (String × Json)} {items : List Json}
  (hfields : members.lookup "fields" = some (.array items))

include hfields

theorem JsonBody.forall_isField (h : format.Accepts (.object members)) :
    ∀ v ∈ items, IndexType.IsField .json v := by
  obtain ⟨_, ⟨⟩, hfits⟩ := h
  have hslots := hfits.slots
  simp only [record, slotFormats, List.forall₂_cons, Json.Field.given_essential, hfields] at hslots
  obtain ⟨-, -, ⟨_, ⟨⟩, _, ⟨⟩, hitems⟩, -⟩ := hslots
  exact fun v hv ↦ JsonField.isField_of_accepts (hitems v hv)

theorem TextBody.forall_isField (h : format.Accepts (.object members)) :
    ∀ v ∈ items, IndexType.IsField .text v := by
  obtain ⟨_, ⟨⟩, hfits⟩ := h
  have hslots := hfits.slots
  simp only [record, slotFormats, List.forall₂_cons, Json.Field.given_optional, hfields] at hslots
  obtain ⟨-, -, -, -, hslot, -⟩ := hslots
  obtain ⟨⟨⟩⟩ | ⟨_, ⟨⟩, hitems⟩ := hslot _ rfl
  exact fun v hv ↦ TextField.isField_of_accepts (hitems v hv)

end

namespace QueryIndex

variable {members : List (String × Json)} {type : IndexType}

/-- The definitions that have the body, by the type that they say: objects with the body under one
of its keys, and arrays of the four members. -/
inductive Defines (body : Object) : (IndexType → Value) → Prop
  | object (o : Object) (key : String) (hkey : key = "def" ∨ key = "index")
      (h : o.find? key = some (.object body)) :
    Defines body fun type ↦ .object (o.insert "type" (.string type.name))
  | array (designDocument name : Value) :
    Defines body fun type ↦ .array [designDocument, name, .string type.name, .object body]

def retyped (type : IndexType) (members : List (String × Json)) : List (String × Json) :=
  putEntry "type" type.toJson members

theorem lookup_retyped (type : IndexType) (members : List (String × Json)) {key : String}
    (h : key ≠ "type") : (retyped type members).lookup key = members.lookup key := by
  rw [retyped, NamedMap.lookup_putEntry, if_neg h]

theorem lookup_type_retyped (type : IndexType) (members : List (String × Json)) :
    (retyped type members).lookup "type" = some type.toJson := by
  rw [retyped, NamedMap.lookup_putEntry, if_pos rfl]

theorem typeIn_retyped (type : IndexType) (members : List (String × Json)) :
    typeIn (retyped type members) = type := by
  rw [typeIn, lookup_type_retyped]
  exact congrArg (Option.getD · _) type.ofName?_name

theorem bodyIn_retyped (type : IndexType) (members : List (String × Json)) :
    bodyIn (retyped type members) = bodyIn members := by
  rw [bodyIn, bodyIn, lookup_retyped type members (by decide),
    lookup_retyped type members (by decide)]

/-- The type does not matter as long as the body is taken as it is. -/
theorem fits_retyped (type' : IndexType) (h : record.Fits rawFormats (retyped type members)) :
    record.Fits rawFormats (retyped type' members) := by
  have hnames : Record.spelledNames record.fields (retyped type' members) =
      Record.spelledNames record.fields (retyped type members) :=
    Record.spelledNames_congr _ (by rw [retyped, retyped, names_putEntry, names_putEntry])
  obtain ⟨hn, hddoc, hname, -, hbody⟩ := (fits_iff_accepts _ _ _ _ _).1 h
  refine (fits_iff_accepts _ _ _ _ _).2 ⟨?_, ?_, ?_, ?_, ?_⟩
  · rwa [hnames]
  · rwa [lookup_retyped _ _ (by decide)] at hddoc ⊢
  · rwa [lookup_retyped _ _ (by decide)] at hname ⊢
  · rw [lookup_type_retyped]
    rintro _ ⟨⟩
    exact ⟨type'.name, rfl, Option.isSome_iff_exists.2 ⟨type', type'.ofName?_name⟩⟩
  · rwa [bodyIn_retyped] at hbody ⊢

theorem nullable_injective : Function.Injective nullable := fun o p h ↦ by
  cases o <;> cases p <;> simp_all [nullable]

/-- Types whose bodies are read alike take the same bodies. -/
theorem readBody_exchanged {type type' : IndexType} {wrap wrap' : JsonBody → IndexBody}
    (h : ∀ s, IndexBody.read type s = (JsonBody.read s).map wrap)
    (h' : ∀ s, IndexBody.read type' s = (JsonBody.read s).map wrap') {value : Value}
    {b : IndexBody} (hb : readBody type value = .ok b) :
    ∃ c, b = wrap c ∧ readBody type' value = .ok (wrap' c) := by
  obtain ⟨hobject, hb⟩ := readBody_eq_ok_iff.1 hb
  obtain ⟨c, hc, rfl⟩ := Except.map_eq_ok_iff.1 ((h _).symm.trans hb)
  exact ⟨c, rfl, readBody_eq_ok_iff.2
    ⟨hobject, (h' _).trans (Except.map_eq_ok_iff.2 ⟨c, hc, rfl⟩)⟩⟩

section

variable {body : Object} {definition : IndexType → Value}

theorem Defines.exists_members (h : Defines body definition) :
    ∃ members, ∀ type, record.given? .skipped (definition type).json =
      some (retyped type members) ∧
        ∃ key, (key = "def" ∨ key = "index") ∧ (key, body.toJson) ∈ retyped type members := by
  cases h with
  | object o key hkey h =>
    refine ⟨o.entries.map fun p ↦ (p.1, p.2.json), fun type ↦ ?_⟩
    have hentries : (o.insert "type" (.string type.name)).entries.map
        (fun p ↦ (p.1, p.2.json)) = retyped type (o.entries.map fun p ↦ (p.1, p.2.json)) :=
      map_putEntry Value.json "type" (.string type.name) o.entries
    have hfind : (o.insert "type" (.string type.name)).find? key = some (.object body) := by
      rw [NamedMap.find?_insert, if_neg, h]
      rintro rfl
      simp at hkey
    refine ⟨congrArg some hentries, key, hkey, ?_⟩
    rw [← hentries]
    exact List.mem_map_of_mem (NamedMap.find?_eq_some_iff.1 hfind)
  | array designDocument name =>
    refine ⟨[("ddoc", designDocument.json), ("name", name.json), ("type", .null),
      ("def", body.toJson)], fun type ↦ ⟨rfl, "def", .inl rfl, ?_⟩⟩
    exact .tail _ (.tail _ (.tail _ (.head _)))

variable (hdefines : Defines body definition)

include hdefines

theorem Defines.exists_parts {i : QueryIndex} (h : Wire.ofValue (definition type) = .ok i) :
    ∃ value : Value, value.json = body.toJson ∧ readBody type value = .ok i.body ∧
      ∀ type' b, readBody type' value = .ok b →
        Wire.ofValue (definition type') = .ok { i with body := b } := by
  obtain ⟨members, hmembers⟩ := hdefines.exists_members
  obtain ⟨hgiven, hbody⟩ := hmembers type
  replace h : decode read (definition type).json = .ok i :=
    (Wire.ofValue_eq_ok_iff steady_read).1 h
  obtain ⟨_, hgiven', hfits⟩ := exists_fits_of_decode_read (definition type).distinct h
  obtain rfl := Option.some.inj (hgiven.symm.trans hgiven')
  obtain ⟨value, d, n, hvalue, hd, hn, -, hread⟩ :=
    decode_read_eq (definition type).distinct hgiven hfits
  rw [hread, typeIn_retyped] at h
  obtain ⟨b, hb, rfl⟩ := Except.map_eq_ok_iff.1 h
  have hjson := Option.some.inj (hvalue.symm.trans ((bodyIn_eq_some_iff hfits.once).2 hbody))
  refine ⟨value, hjson, hb, fun type' b' hb' ↦ ?_⟩
  obtain ⟨value', d', n', hvalue', hd', hn', -, hread'⟩ :=
    decode_read_eq (definition type').distinct (hmembers type').1 (fits_retyped type' hfits)
  rw [bodyIn_retyped] at hvalue hvalue'
  rw [lookup_retyped _ _ (by decide)] at hd hd' hn hn'
  obtain rfl := Value.ext_json (Option.some.inj (hvalue.symm.trans hvalue'))
  obtain rfl := Option.map_injective nullable_injective (hd.trans hd'.symm)
  obtain rfl := Option.map_injective nullable_injective (hn.trans hn'.symm)
  refine (Wire.ofValue_eq_ok_iff steady_read).2 (hread'.trans ?_)
  rw [typeIn_retyped, hb', Except.map_ok]

theorem Defines.accepts {i : QueryIndex} (h : Wire.ofValue (definition type) = .ok i) :
    (IndexBody.format type).Accepts body.toJson := by
  obtain ⟨value, hjson, hb, -⟩ := hdefines.exists_parts h
  rw [← hjson]
  exact ((IndexBody.describes type).of_ok value.distinct (readBody_eq_ok_iff.1 hb).2).1

end

/-- The trees that are fields, and what they say of the type: a definition that lists a field is
not taken both for a json index and for a text index, while it is taken for a json index just when
it is taken for the special one, with the same names and the same body. -/
theorem types_of_fields :
    Wire.Recognizes JsonField (fun v ↦ (∃ name, v = .string name) ∨
      ∃ name word, v = .object [(name, .string word)] ∧ word ∈ ["asc", "desc"]) ∧
    Wire.Recognizes TextField (fun v ↦
      ∃ name word, v = .object [(name, .string word)] ∧ word ∈ ["string", "number", "boolean"]) ∧
    ∀ body definition, Defines body definition →
      (∀ items, body.find? "fields" = some (.array items) → items ≠ [] →
        ¬ ((∃ i : QueryIndex, Wire.ofValue (definition .json) = .ok i) ∧
          ∃ i : QueryIndex, Wire.ofValue (definition .text) = .ok i)) ∧
      (∀ i : QueryIndex, Wire.ofValue (definition .json) = .ok i →
        ∃ b, i.body = .json b ∧
          Wire.ofValue (definition .special) = .ok { i with body := .special b }) ∧
      ∀ i : QueryIndex, Wire.ofValue (definition .special) = .ok i →
        ∃ b, i.body = .special b ∧
          Wire.ofValue (definition .json) = .ok { i with body := .json b } := by
  have hjson : ∀ s, IndexBody.read .json s = (JsonBody.read s).map .json := fun _ ↦ rfl
  have hspecial : ∀ s, IndexBody.read .special s = (JsonBody.read s).map .special := fun _ ↦ rfl
  refine ⟨JsonField.recognizes, TextField.recognizes, fun body definition hdefines ↦ ⟨?_, ?_, ?_⟩⟩
  · rintro items hfields hitems ⟨⟨i, hi⟩, j, hj⟩
    obtain ⟨v, hv⟩ := List.exists_mem_of_ne_nil items hitems
    have hlookup : (body.entries.map fun p ↦ (p.1, p.2.json)).lookup "fields" =
        some (.array (items.map Value.json)) := by
      rw [lookup_map_snd]
      exact congrArg (Option.map Value.json) hfields
    have hmem : v.json ∈ items.map Value.json := List.mem_map_of_mem hv
    exact IndexType.not_isField_both
      (JsonBody.forall_isField hlookup (hdefines.accepts hi) _ hmem)
      (TextBody.forall_isField hlookup (hdefines.accepts hj) _ hmem)
  · intro i hi
    obtain ⟨value, -, hb, hother⟩ := hdefines.exists_parts hi
    obtain ⟨b, hbody, hb⟩ := readBody_exchanged hjson hspecial hb
    exact ⟨b, hbody, hother .special _ hb⟩
  · intro i hi
    obtain ⟨value, -, hb, hother⟩ := hdefines.exists_parts hi
    obtain ⟨b, hbody, hb⟩ := readBody_exchanged hspecial hjson hb
    exact ⟨b, hbody, hother .json _ hb⟩

def ofName (type : IndexType) : Value :=
  .object (.insert ⟨[("def", .object (.singleton "fields" (.array [.string "year"])))], by simp⟩
    "type" (.string type.name))

theorem types_of_fields_ofName :
    Wire.ofValue (ofName .json) = .ok (new none none (.json (.new [.unordered "year"]))) ∧
    Wire.ofValue (ofName .special) = .ok (new none none (.special (.new [.unordered "year"]))) ∧
    ∀ i : QueryIndex, Wire.ofValue (ofName .text) ≠ .ok i := by
  have hdefines : Defines (.singleton "fields" (.array [.string "year"])) ofName :=
    .object _ "def" (.inl rfl) rfl
  obtain ⟨hnot, hspecial, -⟩ := types_of_fields.2.2 _ _ hdefines
  have hjson : Wire.ofValue (ofName .json) =
      .ok (new none none (.json (.new [.unordered "year"]))) := rfl
  obtain ⟨_, ⟨⟩, hspecial⟩ := hspecial _ hjson
  exact ⟨hjson, hspecial, fun i hi ↦ hnot _ rfl (by simp) ⟨⟨_, hjson⟩, i, hi⟩⟩

end QueryIndex

end DesignDocs
