import DesignDocs.Proofs.Format.Index
import DesignDocs.Proofs.Format.Value
import DesignDocs.Proofs.Json.Replaced

namespace DesignDocs

open Json (Record decode)
open Json.Source (ofTree ofTreeItems ofTreeMembers trailing)

/-- The items that a list of fields may have, by the type of the index. -/
def IndexType.IsField : IndexType → Json → Prop
  | .text, v => ∃ (name : String) (type : TextFieldType), v = .object [(name, .string type.text)]
  | .json, v | .special, v => (∃ name, v = .string name) ∨
    ∃ (name : String) (order : SortOrder), v = .object [(name, .string order.text)]

/-- The kind of the error that an item gives which is not a field. -/
def misfitKind : Json → ErrorKind
  | .string _ | .object [] | .object ((_, .string _) :: _) => .invalidFieldShape
  | _ => .malformedJson

/-- Of an object that is not one name and one text, the first member decides. -/
theorem readSingle_cases (members : List (String × Json)) :
    (∃ name text, members = [(name, .string text)]) ∨
      ∃ f, readSingle (ofTreeMembers trailing members) = .error f ∧
        f.kind = misfitKind (.object members) := by
  cases members with
  | nil => exact .inr ⟨_, rfl, rfl⟩
  | cons p rest =>
    obtain ⟨name, v⟩ := p
    cases v with
    | string text =>
      cases rest with
      | nil => exact .inl ⟨name, text, rfl⟩
      | cons p rest => exact .inr ⟨_, rfl, rfl⟩
    | _ => exact .inr ⟨_, rfl, rfl⟩

namespace JsonField

theorem exists_decode_read {v : Json} (h : IndexType.IsField .json v) :
    ∃ f, decode read v = .ok f := by
  obtain ⟨name, rfl⟩ | ⟨name, order, rfl⟩ := h
  · exact ⟨unordered name, rfl⟩
  · exact ⟨⟨name, some order⟩, reads_toJson ⟨name, some order⟩ trailing⟩

theorem exists_error_of_misfit {v : Json} (h : ¬ IndexType.IsField .json v) :
    ∃ f, decode read v = .error f ∧ f.kind = misfitKind v := by
  cases v with
  | string name => exact absurd (.inl ⟨name, rfl⟩) h
  | object members =>
    obtain ⟨name, text, rfl⟩ | ⟨f, hf, hkind⟩ := readSingle_cases members
    · have hsingle : readSingle (ofTreeMembers trailing [(name, .string text)]) =
          .ok (name, text) := rfl
      cases horder : SortOrder.ofText? text with
      | some order =>
        obtain rfl := SortOrder.text_of_ofText? horder
        exact absurd (.inr ⟨name, order, rfl⟩) h
      | none =>
        refine ⟨.fieldShape (.badDirection name text), ?_, rfl⟩
        refine (Except.bind_of_eq_ok hsingle _).trans ?_
        dsimp only
        rw [horder]
    · exact ⟨f, Except.bind_of_eq_error hf _, hkind⟩
  | _ => exact ⟨_, rfl, rfl⟩

end JsonField

namespace TextField

theorem exists_decode_read {v : Json} (h : IndexType.IsField .text v) :
    ∃ f, decode read v = .ok f := by
  obtain ⟨name, type, rfl⟩ := h
  exact ⟨⟨name, type⟩, reads_toJson ⟨name, type⟩ trailing⟩

theorem exists_error_of_misfit {v : Json} (h : ¬ IndexType.IsField .text v) :
    ∃ f, decode read v = .error f ∧ f.kind = misfitKind v := by
  cases v with
  | object members =>
    obtain ⟨name, text, rfl⟩ | ⟨f, hf, hkind⟩ := readSingle_cases members
    · have hsingle : readSingle (ofTreeMembers trailing [(name, .string text)]) =
          .ok (name, text) := rfl
      cases htype : TextFieldType.ofText? text with
      | some type =>
        obtain rfl := TextFieldType.text_of_ofText? htype
        exact absurd ⟨name, type, rfl⟩ h
      | none =>
        refine ⟨.fieldShape (.badType name text), ?_, rfl⟩
        refine (Except.bind_of_eq_ok hsingle _).trans ?_
        dsimp only
        rw [htype]
    · exact ⟨f, Except.bind_of_eq_error hf _, hkind⟩
  | _ => exact ⟨_, rfl, rfl⟩

end TextField

section

variable {members : List (String × Json)} {items : List Json}
  (hd : (Json.object members).Distinct) (hkey : "fields" ∈ members.map Prod.fst)

include hd hkey

theorem JsonBody.exists_error_of_misfit (haccepts : format.Accepts (.object members))
    (h : ∃ v ∈ items, ¬ IndexType.IsField .json v) :
    ∃ before v after f, items = before ++ v :: after ∧ (∀ w ∈ before, IndexType.IsField .json w) ∧
      ¬ IndexType.IsField .json v ∧
      decode read (.object (putEntry "fields" (.array items) members)) = .error f ∧
      f.kind = misfitKind v := by
  obtain ⟨ms, hms, hfits⟩ := haccepts
  cases hms
  obtain ⟨hn, hall, -⟩ := (Record.fits_iff describes_slots unambiguous_fields hd).1 hfits
  obtain ⟨before, v, after, f, hsplit, hbefore, hv, hread, hkind⟩ :=
    Record.exists_first_misfit (fun _ ↦ JsonField.exists_decode_read)
      (fun _ ↦ JsonField.exists_error_of_misfit) hn hall hkey rfl
      (fun _ ↦ congrArg (Except.map Member.fields)) h
  exact ⟨before, v, after, f, hsplit, hbefore, hv, Except.bind_of_eq_error hread _, hkind⟩

theorem TextBody.exists_error_of_misfit (haccepts : format.Accepts (.object members))
    (h : ∃ v ∈ items, ¬ IndexType.IsField .text v) :
    ∃ before v after f, items = before ++ v :: after ∧ (∀ w ∈ before, IndexType.IsField .text w) ∧
      ¬ IndexType.IsField .text v ∧
      decode read (.object (putEntry "fields" (.array items) members)) = .error f ∧
      f.kind = misfitKind v := by
  obtain ⟨ms, hms, hfits⟩ := haccepts
  cases hms
  obtain ⟨hn, hall, -⟩ := (Record.fits_iff describes_slots unambiguous_fields hd).1 hfits
  obtain ⟨before, v, after, f, hsplit, hbefore, hv, hread, hkind⟩ :=
    Record.exists_first_misfit (fun _ ↦ TextField.exists_decode_read)
      (fun _ ↦ TextField.exists_error_of_misfit) hn hall hkey rfl
      (fun _ ↦ congrArg fun l ↦ Except.map Member.fields (Except.map some l)) h
  exact ⟨before, v, after, f, hsplit, hbefore, hv, Except.bind_of_eq_error hread _, hkind⟩

theorem IndexBody.exists_error_of_misfit {type : IndexType}
    (haccepts : (format type).Accepts (.object members)) (h : ∃ v ∈ items, ¬ type.IsField v) :
    ∃ before v after f, items = before ++ v :: after ∧ (∀ w ∈ before, type.IsField w) ∧
      ¬ type.IsField v ∧
      decode (read type) (.object (putEntry "fields" (.array items) members)) = .error f ∧
      f.kind = misfitKind v := by
  cases type with
  | json =>
    obtain ⟨before, v, after, f, hsplit, hbefore, hv, hread, hkind⟩ :=
      JsonBody.exists_error_of_misfit hd hkey haccepts h
    exact ⟨before, v, after, f, hsplit, hbefore, hv, congrArg (Except.map json) hread, hkind⟩
  | special =>
    obtain ⟨before, v, after, f, hsplit, hbefore, hv, hread, hkind⟩ :=
      JsonBody.exists_error_of_misfit hd hkey haccepts h
    exact ⟨before, v, after, f, hsplit, hbefore, hv, congrArg (Except.map special) hread, hkind⟩
  | text =>
    obtain ⟨before, v, after, f, hsplit, hbefore, hv, hread, hkind⟩ :=
      TextBody.exists_error_of_misfit hd hkey haccepts h
    exact ⟨before, v, after, f, hsplit, hbefore, hv, congrArg (Except.map text) hread, hkind⟩

end

namespace QueryIndex

variable {members : List (String × Json)} {key : String}

theorem bodyIn_eq_some_iff (hn : (Record.spelledNames record.fields members).Nodup) {v : Json} :
    bodyIn members = some v ↔ ∃ key, (key = "def" ∨ key = "index") ∧ (key, v) ∈ members := by
  have hgiven : record.fields[3].given members = bodyIn members :=
    Json.Field.given_alsoCalled _ _ _
  have hspelled : ∀ key, record.fields[3].spelled key ↔ key = "def" ∨ key = "index" := by
    intro key
    rw [← Json.Field.mem_spellings_iff]
    simp [record, Json.Field.spellings, Json.Field.alsoCalled, Json.Field.essential]
  rw [← hgiven, Record.given_eq_some_iff unambiguous_fields hn (List.getElem_mem _)]
  simp only [hspelled]

section

variable (hd : (Json.object members).Distinct)

include hd

theorem of_decode_read_object {i : QueryIndex} (h : decode read (.object members) = .ok i) :
    record.Fits rawFormats members ∧ typeIn members = i.type ∧ ∃ body : List (String × Json),
      bodyIn members = some (.object body) ∧
        (IndexBody.format i.type).Accepts (.object body) := by
  obtain ⟨_, ⟨⟩, hraw⟩ := exists_fits_of_decode_read hd h
  obtain ⟨value, _, _, hvalue, -, -, -, hread⟩ := decode_read_eq hd rfl hraw
  rw [hread] at h
  obtain ⟨b, hb, rfl⟩ := Except.map_eq_ok_iff.1 h
  obtain ⟨⟨body, hbody⟩, hb⟩ := readBody_eq_ok_iff.1 hb
  have htype : typeIn members = b.type := (IndexBody.type_of_read hb).symm
  obtain ⟨haccepts, -⟩ := (IndexBody.describes _).of_ok value.distinct hb
  rw [hbody] at hvalue haccepts
  refine ⟨hraw, htype, body, hvalue, ?_⟩
  change (IndexBody.format b.type).Accepts _
  rwa [← htype]

/-- A fault inside the body is one of the definition. -/
theorem exists_decode_read_error (hraw : record.Fits rawFormats members)
    {body : List (String × Json)} (hbody : bodyIn members = some (.object body)) {f : Json.Fault}
    (hf : decode (IndexBody.read (typeIn members)) (.object body) = .error f) :
    ∃ g, decode read (.object members) = .error g ∧ g.kind = f.kind := by
  obtain ⟨g, hg, hkind⟩ := (IndexBody.steady_read (typeIn members)).exists_error hf
  obtain ⟨⟨json, hvalue⟩, _, _, hjson, -, -, -, hread⟩ := decode_read_eq hd rfl hraw
  obtain rfl : Json.object body = json := Option.some.inj (hbody.symm.trans hjson)
  have hreadBody : readBody (typeIn members) ⟨.object body, hvalue⟩ =
      (IndexBody.read (typeIn members) (.ofJson (.object body))).mapError .inDefinition := rfl
  refine ⟨.inDefinition g, ?_, hkind⟩
  rw [hread, hreadBody, Json.Source.ofJson_eq_ofTree, hg, Except.mapError_error, Except.map_error]

end

theorem fits_putEntry (hkey : key = "def" ∨ key = "index") (body : Json)
    (h : record.Fits rawFormats members) (hmem : key ∈ members.map Prod.fst) :
    record.Fits rawFormats (putEntry key body members) ∧
      bodyIn (putEntry key body members) = some body ∧
      typeIn (putEntry key body members) = typeIn members := by
  have hlookup : ∀ other, other ≠ "def" → other ≠ "index" →
      (putEntry key body members).lookup other = members.lookup other := by
    intro other hdef hindex
    have hne : other ≠ key := by
      obtain rfl | rfl := hkey
      · exact hdef
      · exact hindex
    rw [NamedMap.lookup_putEntry, if_neg hne]
  have hnames := Record.spelledNames_putEntry (v := body) record.fields hmem
  obtain ⟨hn, hddoc, hname, htype, -⟩ := (fits_iff_accepts _ _ _ _ _).1 h
  have hn' : (Record.spelledNames record.fields (putEntry key body members)).Nodup := by
    rwa [hnames]
  have hbody : bodyIn (putEntry key body members) = some body :=
    (bodyIn_eq_some_iff hn').2 ⟨key, hkey, self_mem_putEntry⟩
  refine ⟨(fits_iff_accepts _ _ _ _ _).2 ⟨hn', ?_, ?_, ?_, body, hbody, trivial⟩, hbody, ?_⟩
  · rwa [hlookup "ddoc" (by decide) (by decide)]
  · rwa [hlookup "name" (by decide) (by decide)]
  · rwa [hlookup "type" (by decide) (by decide)]
  · rw [typeIn, typeIn, hlookup "type" (by decide) (by decide)]

/-- The second tree is the first with other items in the list of fields of its body. -/
def OtherItems (items : List Json) (v w : Json) : Prop :=
  ∃ members key body old, v = .object members ∧ (key = "def" ∨ key = "index") ∧
    (key, .object body) ∈ members ∧ ("fields", .array old) ∈ body ∧
    w = .object (putEntry key (.object (putEntry "fields" (.array items) body)) members)

/-- The first item that is not a field decides with which kind a definition is refused. -/
theorem kind_of_misfit {v w : Value} {i : QueryIndex} {items : List Json}
    (hv : Wire.ofValue v = .ok i) (hw : OtherItems items v.json w.json)
    (hitems : ∃ x ∈ items, ¬ i.type.IsField x) :
    ∃ before x after e, items = before ++ x :: after ∧ (∀ y ∈ before, i.type.IsField y) ∧
      ¬ i.type.IsField x ∧ (Wire.ofValue w : Except DesignError QueryIndex) = .error e ∧
      e.kind = misfitKind x := by
  obtain ⟨members, key, body, old, hvjson, hkey, hbody, hold, hwjson⟩ := hw
  have hdecode := (Wire.ofValue_eq_ok_iff steady_read).1 hv
  have hvdistinct := v.distinct
  have hwdistinct := w.distinct
  rw [hvjson] at hdecode hvdistinct
  rw [hwjson] at hwdistinct
  obtain ⟨hraw, htype, body', hbody', haccepts⟩ := of_decode_read_object hvdistinct hdecode
  have hthis := (bodyIn_eq_some_iff hraw.once).2 ⟨key, hkey, hbody⟩
  obtain rfl : body = body' := by simpa [hthis] using hbody'
  obtain ⟨hraw', hbodyIn, htypeIn⟩ := fits_putEntry hkey
    (.object (putEntry "fields" (.array items) body)) hraw (List.mem_map_of_mem hbody)
  obtain ⟨before, x, after, f, hsplit, hbefore, hx, hf, hkind⟩ :=
    IndexBody.exists_error_of_misfit (Json.distinctMembers_iff.1 hvdistinct.2 _ hbody)
      (List.mem_map_of_mem hold) haccepts hitems
  rw [← htype, ← htypeIn] at hf
  obtain ⟨g, hg, hgkind⟩ := exists_decode_read_error hwdistinct hraw' hbodyIn hf
  rw [← hwjson] at hg
  obtain ⟨e, he, hekind⟩ := Wire.exists_ofValue_error steady_read hg
  exact ⟨before, x, after, e, hsplit, hbefore, hx, he, hekind.trans (hgkind.trans hkind)⟩

def listing (items : List Value) : Value :=
  .object ⟨[("type", .string "json"), ("def", .object (.singleton "fields" (.array items)))],
    by simp⟩

def byYear : QueryIndex := .new none none (.json (.new [.unordered "year"]))

theorem otherItems_listing (old items : List Value) :
    OtherItems (items.map Value.json) (listing old).json (listing items).json :=
  ⟨_, "def", _, _, rfl, .inl rfl, .tail _ (.head _), .head _, rfl⟩

theorem kind_of_misfit_listing :
    Wire.ofValue (listing [.string "year"]) = .ok byYear ∧ ¬ byYear.type.IsField (.object []) ∧
      ∃ e, (Wire.ofValue (listing [.object .empty]) : Except DesignError QueryIndex) = .error e ∧
        e.kind = .invalidFieldShape := by
  have hx : ¬ byYear.type.IsField (.object []) := by rintro (⟨_, ⟨⟩⟩ | ⟨_, _, ⟨⟩⟩)
  obtain ⟨before, x, after, e, hsplit, -, -, he, hkind⟩ :=
    kind_of_misfit (i := byYear) rfl (otherItems_listing [.string "year"] [.object .empty])
      ⟨_, List.mem_cons_self, hx⟩
  obtain rfl : Json.object [] = x := by
    cases before with
    | nil => exact (List.cons.inj hsplit).1
    | cons y before => simp at hsplit
  exact ⟨rfl, hx, e, he, hkind⟩

theorem number_as_field :
    Wire.ofValue (listing [.string "year"]) = .ok byYear ∧
      OtherItems [.number (.ofUInt64 5)] (listing [.string "year"]).json
        (listing [.number (.ofUInt64 5)]).json ∧
      ¬ byYear.type.IsField (.number (.ofUInt64 5)) ∧
      ∃ e, (Wire.ofValue (listing [.number (.ofUInt64 5)]) : Except DesignError QueryIndex) =
        .error e ∧ e.kind = .malformedJson := by
  refine ⟨rfl, otherItems_listing _ [.number (.ofUInt64 5)], ?_, _, rfl, ?_⟩
  · rintro (⟨_, ⟨⟩⟩ | ⟨_, _, ⟨⟩⟩)
  · exact DesignError.kind_ofFault _

end QueryIndex

end DesignDocs
