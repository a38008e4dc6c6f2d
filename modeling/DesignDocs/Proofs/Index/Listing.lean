import DesignDocs.Proofs.Format.Value
import DesignDocs.Proofs.Index.Depth
import DesignDocs.Proofs.Json.Replaced

namespace DesignDocs

open Json (Reader Record Spells decode depthLimit)
open Text (Symbol)

theorem rel_find? {α β : Type} {R : α → β → Prop} {p : α → Bool} {q : β → Bool} {xs : List α}
    {ys : List β} (h : List.Forall₂ R xs ys) (hpq : ∀ x y, R x y → p x = q y) :
    Option.Rel R (xs.find? p) (ys.find? q) := by
  induction h with
  | nil => exact .none
  | @cons x y xs ys hxy _ ih =>
    rw [List.find?_cons, List.find?_cons, hpq x y hxy]
    cases q y with
    | true => exact .some hxy
    | false => exact ih

namespace QueryIndex

/-- The text that an entry gives to a field, under its name or, in an array, at its place. -/
def word? (key : String) (v : Value) : Option String :=
  match (record.given? .skipped v.json).bind (·.lookup key) with
  | some (.string s) => some s
  | _ => none

def ReadFrom (v : Value) (i : QueryIndex) : Prop := Wire.ofValue v = .ok i

theorem readFrom_iff {v : Value} {i : QueryIndex} :
    ReadFrom v i ↔ decode read v.json = .ok i :=
  Wire.ofValue_eq_ok_iff steady_read

namespace ReadFrom

variable {v : Value} {i : QueryIndex} (h : ReadFrom v i)

include h

theorem exists_members : ∃ members, record.given? .skipped v.json = some members ∧
    i.name.map nullable = members.lookup "name" ∧
    i.type.toJson = (members.lookup "type").getD IndexType.json.toJson := by
  have hi := readFrom_iff.1 h
  obtain ⟨members, hmembers, hfits⟩ := exists_fits_of_decode_read v.distinct hi
  obtain ⟨value, designDocument, name, -, -, hname, htype, hread⟩ :=
    decode_read_eq v.distinct hmembers hfits
  refine ⟨members, hmembers, ?_⟩
  obtain ⟨body, hbody, rfl⟩ := Except.map_eq_ok_iff.1 (hread.symm.trans hi)
  obtain ⟨-, hbody⟩ := readBody_eq_ok_iff.1 hbody
  rw [← htype]
  exact ⟨hname, congrArg IndexType.toJson (IndexBody.type_of_read hbody)⟩

theorem name?_eq : i.name? = word? "name" v := by
  obtain ⟨members, hmembers, hname, -⟩ := h.exists_members
  rw [word?, hmembers, Option.bind_some, ← hname, name?]
  obtain _ | _ | s := i.name <;> rfl

theorem word?_type :
    word? "type" v = some i.type.name ∨ word? "type" v = none ∧ i.type = .json := by
  obtain ⟨members, hmembers, -, htype⟩ := h.exists_members
  rw [word?, hmembers, Option.bind_some]
  cases htypes : members.lookup "type" with
  | none =>
    rw [htypes] at htype
    exact .inr ⟨rfl, IndexType.toJson_injective htype⟩
  | some w =>
    rw [htypes] at htype
    obtain rfl : i.type.toJson = w := htype
    exact .inl rfl

theorem type_eq_json_iff :
    i.type = .json ↔ word? "type" v = none ∨ word? "type" v = some "json" := by
  obtain hword | ⟨hword, htype⟩ := h.word?_type
  · rw [hword]
    cases i.type <;> simp [IndexType.name]
  · rw [hword, htype]
    exact iff_of_true rfl (.inl rfl)

theorem type_eq_text_iff : i.type = .text ↔ word? "type" v = some "text" := by
  obtain hword | ⟨hword, htype⟩ := h.word?_type
  · rw [hword]
    cases i.type <;> simp [IndexType.name]
  · rw [hword, htype]
    exact iff_of_false nofun nofun

end ReadFrom

end QueryIndex

namespace IndexListing

open QueryIndex (ReadFrom word?)

/-- The object lists the entries, with a count or without one, among whatever other members. -/
structure Lists (listing : Object) (totalRows : Option UInt64) (entries : List Value) : Prop where
  totalRows_eq : listing.find? "total_rows" = totalRows.map fun n ↦ .number (.ofUInt64 n)
  indexes_eq : listing.find? "indexes" = some (.array entries)

/-- The first entry that is not read alone fails with the error. -/
def FirstFails (entries : List Value) (f : DesignError) : Prop :=
  ∃ before v after, entries = before ++ v :: after ∧ (∀ w ∈ before, ∃ i, ReadFrom w i) ∧
    (Wire.ofValue v : Except DesignError QueryIndex) = .error f

/-- The listing holds what the entries are read as. -/
structure Holds (l : IndexListing) (totalRows : Option UInt64) (entries : List Value) : Prop where
  totalRows_eq : l.totalRows = totalRows
  indexes : List.Forall₂ ReadFrom entries l.indexes
  sublists : l.jsonIndexes.Sublist l.indexes ∧ l.textIndexes.Sublist l.indexes
  jsonIndexes : List.Forall₂ ReadFrom
    (entries.filter fun v ↦ word? "type" v = none ∨ word? "type" v = some "json") l.jsonIndexes
  textIndexes : List.Forall₂ ReadFrom (entries.filter fun v ↦ word? "type" v = some "text")
    l.textIndexes
  find? : ∀ name, Option.Rel ReadFrom (entries.find? fun v ↦ word? "name" v = some name)
    (l.find? name)

theorem holds_of_forall₂ {totalRows : Option UInt64} {entries : List Value}
    {indexes : List QueryIndex} (h : List.Forall₂ ReadFrom entries indexes) :
    Holds ⟨totalRows, indexes⟩ totalRows entries where
  totalRows_eq := rfl
  indexes := h
  sublists := ⟨List.filter_sublist, List.filter_sublist⟩
  jsonIndexes := by
    refine List.rel_filter (fun v i hi ↦ ?_) h
    dsimp only
    rw [decide_eq_true_eq, decide_eq_true_eq, hi.type_eq_json_iff]
  textIndexes := by
    refine List.rel_filter (fun v i hi ↦ ?_) h
    dsimp only
    rw [decide_eq_true_eq, decide_eq_true_eq, hi.type_eq_text_iff]
  find? name := by
    refine rel_find? h fun v i hi ↦ ?_
    rw [← hi.name?_eq, Bool.eq_iff_iff, decide_eq_true_eq, beq_iff_eq]

def totalRowsField : Json.Field Member :=
  .optional "total_rows" fun s ↦ (Reader.count.optional s).map .totalRows

def indexesField : Json.Field Member :=
  .essential "indexes" fun s ↦ (Reader.list QueryIndex.read s).map .indexes

theorem fields_eq : record.fields = [totalRowsField, indexesField] := rfl

theorem mem_totalRowsField : totalRowsField ∈ record.fields := List.mem_cons_self

theorem mem_indexesField : indexesField ∈ record.fields := List.mem_cons_of_mem _ List.mem_cons_self

theorem decode_totalRows (n : UInt64) :
    decode totalRowsField.read (.number (.ofUInt64 n)) = .ok (.totalRows (some n)) :=
  ((Json.Reads.count n).optional nofun).map _ Json.Source.trailing

theorem decode_indexes (entries : List Value) :
    decode indexesField.read (.array (entries.map Value.json)) =
      (entries.mapM fun v ↦ decode QueryIndex.read v.json).map .indexes := by
  have hlist : decode (Reader.list QueryIndex.read) (.array (entries.map Value.json)) =
      entries.mapM fun v ↦ decode QueryIndex.read v.json :=
    (Json.readAll_eq_mapM _).trans (List.mapM_map ..)
  rw [← hlist]
  rfl

theorem decode_indexes_of_ok {entries : List Value} {indexes : List QueryIndex}
    (h : (entries.mapM fun v ↦ decode QueryIndex.read v.json) = .ok indexes) :
    decode indexesField.read (.array (entries.map Value.json)) = .ok (.indexes indexes) := by
  rw [decode_indexes, h, Except.map_ok]

def membersOf (listing : Object) : List (String × Json) :=
  listing.entries.map fun p ↦ (p.1, p.2.json)

theorem lookup_membersOf (listing : Object) (name : String) :
    (membersOf listing).lookup name = (listing.find? name).map Value.json :=
  lookup_map_snd Value.json listing.entries name

theorem nodup_spelledNames (listing : Object) :
    (Record.spelledNames record.fields (membersOf listing)).Nodup := by
  have hother : ∀ f ∈ record.fields, f.otherName? = none := by
    simp [fields_eq, totalRowsField, indexesField, Json.Field.essential, Json.Field.optional]
  refine Record.nodup_spelledNames hother fun name _ ↦ ?_
  exact List.nodup_iff_count_le_one.1 (Value.distinct_toJson listing).1 name

section

variable {listing : Object} {totalRows : Option UInt64} {entries : List Value}
  (h : Lists listing totalRows entries)

include h

theorem Lists.given_totalRows : totalRowsField.given (membersOf listing) =
    totalRows.map fun n ↦ .number (.ofUInt64 n) := by
  rw [totalRowsField, Json.Field.given_optional, lookup_membersOf, h.totalRows_eq, Option.map_map]
  rfl

theorem Lists.given_indexes :
    indexesField.given (membersOf listing) = some (.array (entries.map Value.json)) := by
  rw [indexesField, Json.Field.given_essential, lookup_membersOf, h.indexes_eq]
  rfl

theorem Lists.exists_totalRows {v : Json} (hv : totalRowsField.given (membersOf listing) = some v) :
    ∃ e, decode totalRowsField.read v = .ok e := by
  rw [h.given_totalRows, Option.map_eq_some_iff] at hv
  obtain ⟨n, -, rfl⟩ := hv
  exact ⟨_, decode_totalRows n⟩

theorem found_totalRows : (Record.found record.fields (membersOf listing)).findSome?
    (fun | .totalRows n => n | _ => none) = totalRows := by
  rw [Record.findSome?_found unambiguous_fields (nodup_spelledNames listing) mem_totalRowsField,
    h.given_totalRows]
  · cases totalRows with
    | none => rfl
    | some n =>
      rw [Option.map_some, Option.bind_some, decode_totalRows]
      rfl
  · simp only [fields_eq, List.forall_mem_cons]
    refine ⟨fun hname ↦ absurd rfl hname, fun _ v e he ↦ ?_, List.forall_mem_nil _⟩
    obtain ⟨l, -, rfl⟩ := Except.map_eq_ok_iff.1 he
    rfl

theorem read_of_error {fault : Json.Fault}
    (hfault : (entries.mapM fun v ↦ decode QueryIndex.read v.json) = .error fault) :
    decode record.read listing.toJson = .error fault := by
  have hdecode : decode indexesField.read (.array (entries.map Value.json)) = .error fault := by
    rw [decode_indexes, hfault, Except.map_error]
  have hn := nodup_spelledNames listing
  obtain ⟨key, hkey, hm⟩ := Json.Field.exists_of_given h.given_indexes
  have hf := unambiguous_fields.field?_eq_some_iff.2 ⟨mem_indexesField, hkey⟩
  refine Record.read_object_of_error hn hm hf hdecode fun p hp hne g hg ↦ ?_
  obtain ⟨hgf, hgs⟩ := unambiguous_fields.field?_eq_some_iff.1 hg
  simp only [fields_eq, List.mem_cons, List.not_mem_nil, or_false] at hgf
  obtain rfl | rfl := hgf
  · refine h.exists_totalRows ?_
    exact (Record.given_eq_some_iff unambiguous_fields hn mem_totalRowsField).2 ⟨p.1, hgs, hp⟩
  · exact absurd (Record.eq_of_field? hn hp hm hg hf) hne

section

variable {indexes : List QueryIndex}
  (hok : (entries.mapM fun v ↦ decode QueryIndex.read v.json) = .ok indexes)

include hok

theorem read_of_ok :
    decode record.read listing.toJson = .ok (Record.found record.fields (membersOf listing)) := by
  have hn := nodup_spelledNames listing
  have hall : Record.Decodable record.fields (membersOf listing) := by
    rw [Record.decodable_iff unambiguous_fields hn]
    simp only [fields_eq, List.forall_mem_cons]
    refine ⟨fun v ↦ h.exists_totalRows, fun v hv ↦ ?_, List.forall_mem_nil _⟩
    rw [h.given_indexes] at hv
    cases hv
    exact ⟨_, decode_indexes_of_ok hok⟩
  refine Record.read_of_members unambiguous_fields rfl hn hall ?_
  simp only [fields_eq, List.forall_mem_cons]
  exact ⟨nofun, fun _ ↦ by rw [h.given_indexes]; rfl, List.forall_mem_nil _⟩

theorem found_indexes : (Record.found record.fields (membersOf listing)).findSome?
    (fun | .indexes l => some l | _ => none) = some indexes := by
  rw [Record.findSome?_found unambiguous_fields (nodup_spelledNames listing) mem_indexesField,
    h.given_indexes, Option.bind_some, decode_indexes_of_ok hok]
  · rfl
  · simp only [fields_eq, List.forall_mem_cons]
    refine ⟨fun _ v e he ↦ ?_, fun hname ↦ absurd rfl hname, List.forall_mem_nil _⟩
    obtain ⟨n, -, rfl⟩ := Except.map_eq_ok_iff.1 he
    rfl

end

/-- A listing is read when all its entries are, and fails as the first that is not. -/
theorem decode_read_eq : decode read listing.toJson =
    (entries.mapM fun v ↦ decode QueryIndex.read v.json).map (mk totalRows) := by
  cases hx : entries.mapM fun v ↦ decode QueryIndex.read v.json with
  | error fault => exact Except.bind_of_eq_error (read_of_error h hx) _
  | ok indexes =>
    have hrequired : Json.required "indexes" _ = .ok indexes :=
      Json.required_eq_ok_iff.2 (found_indexes h hx)
    have htotal := found_totalRows h
    exact (Except.bind_of_eq_ok (read_of_ok h hx) _).trans
      ((Except.bind_of_eq_ok hrequired _).trans
        (congrArg (fun n ↦ (.ok ⟨n, indexes⟩ : Except Json.Fault IndexListing)) htotal))

variable {text : String} (htext : Spells (Symbol.ofString text) listing.toJson)

include htext

theorem ofText_eq : (Wire.ofText text : Except DesignError IndexListing) =
    ((entries.mapM fun v ↦ decode QueryIndex.read v.json).map (mk totalRows)).mapError
      .ofFault := by
  rw [Wire.ofText, Wire.ofSymbols_of_spells htext, ← decode_read_eq h]
  rfl

theorem ofText_eq_ok_iff {l : IndexListing} : Wire.ofText text = .ok l ↔
    l.totalRows = totalRows ∧ List.Forall₂ ReadFrom entries l.indexes := by
  obtain ⟨totalRows', indexes⟩ := l
  have hentries : List.Forall₂ ReadFrom entries indexes ↔
      (entries.mapM fun v ↦ decode QueryIndex.read v.json) = .ok indexes := by
    rw [Except.mapM_eq_ok_iff]
    exact ⟨fun hall ↦ hall.imp fun _ _ ↦ QueryIndex.readFrom_iff.1,
      fun hall ↦ hall.imp fun _ _ ↦ QueryIndex.readFrom_iff.2⟩
  rw [ofText_eq h htext, Except.mapError_eq_ok_iff, Except.map_eq_ok_iff, hentries]
  simp only [mk.injEq]
  constructor
  · rintro ⟨_, hindexes, rfl, rfl⟩
    exact ⟨rfl, hindexes⟩
  · rintro ⟨rfl, hindexes⟩
    exact ⟨indexes, hindexes, rfl, rfl⟩

theorem exists_firstFails {e : DesignError}
    (he : (Wire.ofText text : Except DesignError IndexListing) = .error e) :
    ∃ f, FirstFails entries f ∧ e.kind = f.kind := by
  rw [ofText_eq h htext] at he
  cases hx : entries.mapM fun v ↦ decode QueryIndex.read v.json with
  | ok indexes =>
    rw [hx] at he
    cases he
  | error fault =>
    rw [hx] at he
    cases he
    obtain ⟨before, v, after, hentries, hbefore, hv⟩ := Except.mapM_eq_error_iff.1 hx
    obtain ⟨f, hf, hkind⟩ := Wire.exists_ofValue_error QueryIndex.steady_read hv
    refine ⟨f, ⟨before, v, after, hentries, fun w hw ↦ ?_, hf⟩,
      (DesignError.kind_ofFault fault).trans hkind.symm⟩
    obtain ⟨i, hi⟩ := hbefore w hw
    exact ⟨i, QueryIndex.readFrom_iff.2 hi⟩

/-- A listing is read just when each of its entries is, and written again without loss. -/
theorem ofText_listing :
    ((∃ l : IndexListing, Wire.ofText text = .ok l) ↔ ∀ v ∈ entries, ∃ i, ReadFrom v i) ∧
    (∀ e, (Wire.ofText text : Except DesignError IndexListing) = .error e →
      ∃ f, FirstFails entries f ∧ e.kind = f.kind) ∧
    ∀ l : IndexListing, Wire.ofText text = .ok l → l.Holds totalRows entries ∧
      (l.toJson.Integral →
        Wire.ofText (Wire.toText l) = .ok l ∧ Wire.ofText (Wire.toPrettyText l) = .ok l) := by
  refine ⟨⟨?_, fun hall ↦ ?_⟩, fun e ↦ exists_firstFails h htext, fun l hl ↦ ⟨?_, fun hi ↦ ?_⟩⟩
  · rintro ⟨l, hl⟩ v hv
    obtain ⟨i, -, hi⟩ := exists_mem_of_forall₂ ((ofText_eq_ok_iff h htext).1 hl).2 hv
    exact ⟨i, hi⟩
  · obtain ⟨indexes, hindexes⟩ := exists_forall₂ hall
    exact ⟨⟨totalRows, indexes⟩, (ofText_eq_ok_iff h htext).2 ⟨rfl, hindexes⟩⟩
  · obtain ⟨rfl, hindexes⟩ := (ofText_eq_ok_iff h htext).1 hl
    exact holds_of_forall₂ hindexes
  · have hd : l.toJson.depth ≤ depthLimit := Wire.depth_toJson_of_ofText shallow_read hl
    exact ⟨Wire.ofText_toText l.reads_toJson hi hd, Wire.ofText_toPrettyText l.reads_toJson hi hd⟩

end

def filmEntries : List Value :=
  [.ofJson (.object [("name", .null), ("def", .object [("fields", .array [.string "year"])])]),
    .ofJson (.object [("name", .string "films"), ("type", .string "text"),
      ("index", .object [("fields", .array [.object [("title", .string "string")]])])]),
    .ofJson (.array [.null, .string "films", .string "json",
      .object [("fields", .array [.object [("year", .string "desc")]])]])]

def films : IndexListing where
  totalRows := some 3
  indexes :=
    [⟨none, some none, .json (.new [.unordered "year"])⟩,
      ⟨none, some (some "films"), .text { TextBody.unset with fields := some [⟨"title", .string⟩] }⟩,
      ⟨some none, some (some "films"), .json (.new [.descending "year"])⟩]

def filmListing : Object where
  entries := [("total_rows", .number (.ofUInt64 3)), ("indexes", .array filmEntries)]
  distinct := by decide

theorem ofText_listing_films : Wire.ofText filmListing.toJson.render = .ok films ∧
    films.Holds (some 3) filmEntries ∧ films.find? "films" = films.indexes[1]? ∧
    Wire.ofText (Wire.toText films) = .ok films := by
  have hlists : Lists filmListing (some 3) filmEntries := ⟨rfl, rfl⟩
  have htext : Spells (Symbol.ofString filmListing.toJson.render) filmListing.toJson :=
    Json.spells_render (by decide) (by decide)
  have hentries : List.Forall₂ ReadFrom filmEntries films.indexes :=
    .cons rfl (.cons rfl (.cons rfl .nil))
  have hread : Wire.ofText filmListing.toJson.render = .ok films :=
    (ofText_eq_ok_iff hlists htext).2 ⟨rfl, hentries⟩
  obtain ⟨-, -, hall⟩ := ofText_listing hlists htext
  obtain ⟨hholds, hagain⟩ := hall films hread
  exact ⟨hread, hholds, rfl, (hagain (by decide)).1⟩

end IndexListing

end DesignDocs
