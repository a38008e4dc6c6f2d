import DesignDocs.Proofs.Document.Basic
import DesignDocs.Proofs.Document.Section
import DesignDocs.Proofs.Json.Members
import DesignDocs.Proofs.Wire

namespace DesignDocs

open DesignDocument (Member record)
open Json (Reader Spells Decodes decode field?)
open Json.Record (found Decodable FailsWith PicksFrom readKeeping_cases nodup_spelledNames
  unmodelled_eq)
open Text (Symbol)

namespace DesignDocument

def Member.key : Member → String
  | .id _ => "_id"
  | .rev _ => "_rev"
  | .language _ => "language"
  | .views _ => "views"
  | .indexes _ => "indexes"
  | .filters _ => "filters"
  | .shows _ => "shows"
  | .lists _ => "lists"
  | .updates _ => "updates"
  | .validateDocUpdate _ => "validate_doc_update"
  | .rewrites _ => "rewrites"
  | .fulltext _ => "fulltext"

def Member.id? : Member → Option String
  | .id s => some s
  | _ => none

theorem key_of_read {f : Json.Field Member} (hf : f ∈ record.fields) {s : Json.Source} {e : Member}
    (h : f.read s = .ok e) : e.key = f.name := by
  simp only [record, List.mem_cons, List.not_mem_nil, or_false] at hf
  rcases hf with rfl | rfl | rfl | rfl | rfl | rfl | rfl | rfl | rfl | rfl | rfl | rfl <;>
  · obtain ⟨x, -, rfl⟩ := Except.map_eq_ok_iff.1 h
    rfl

theorem key_of_decode {key : String} {v : Json} {f : Json.Field Member} {e : Member}
    (hf : field? record.fields key = some f) (h : decode f.read v = .ok e) : e.key = key := by
  rw [key_of_read (List.mem_of_find?_eq_some hf) h,
    Json.Record.name_of_field? otherName?_of_mem hf]

end DesignDocument

namespace NamedSection

def read : (s : NamedSection) → Reader s.Entry
  | views => View.read
  | indexes => SearchIndex.read
  | filters | shows | lists | updates => Script.read
  | fulltext => FulltextIndex.read

def member : (s : NamedSection) → Option (NamedMap s.Entry) → Member
  | views, m => .views m
  | indexes, m => .indexes m
  | filters, m => .filters m
  | shows, m => .shows m
  | lists, m => .lists m
  | updates, m => .updates m
  | fulltext, m => .fulltext m

/-- The entries of the section, if the member is about them. -/
def pick : (s : NamedSection) → Member → Option (NamedMap s.Entry)
  | views => fun | .views m => m | _ => none
  | indexes => fun | .indexes m => m | _ => none
  | filters => fun | .filters m => m | _ => none
  | shows => fun | .shows m => m | _ => none
  | lists => fun | .lists m => m | _ => none
  | updates => fun | .updates m => m | _ => none
  | fulltext => fun | .fulltext m => m | _ => none

def field (s : NamedSection) : Json.Field Member :=
  .optional s.key fun source ↦ (Reader.optional (.named s.read) source).map s.member

theorem field?_key (s : NamedSection) : field? record.fields s.key = some s.field := by
  cases s <;> rfl

theorem pick_member (s : NamedSection) (m : Option (NamedMap s.Entry)) :
    s.pick (s.member m) = m := by
  cases s <;> rfl

theorem pick_of_key_ne {s : NamedSection} {e : Member} (h : e.key ≠ s.key) : s.pick e = none := by
  cases s <;> cases e <;> first | rfl | exact absurd rfl h

theorem picksFrom (s : NamedSection) : PicksFrom record.fields s.key s.pick := by
  intro name v f e hne hf he
  refine pick_of_key_ne ?_
  rwa [DesignDocument.key_of_decode hf he]

end NamedSection

namespace DesignDocument

/-- The members of a document with which nothing is wrong, unless a section repeats a name. -/
structure Legible (members : List (String × Json)) : Prop where
  id : "_id" ∈ members.map Prod.fst
  once : ∀ name ∈ record.names, (members.map Prod.fst).count name ≤ 1
  others : ∀ p ∈ members, (∀ s : NamedSection, p.1 ≠ s.key) →
    ∀ f, field? record.fields p.1 = some f → ∃ e, decode f.read p.2 = .ok e
  sections : ∀ (s : NamedSection) v, (s.key, v) ∈ members → v = .null ∨
    ∃ es, v = .object es ∧ ∀ p ∈ es, ∃ a, decode s.read p.2 = .ok a

/-- In no section does a name come twice. -/
def Unrepeated (members : List (String × Json)) : Prop :=
  ∀ (s : NamedSection) es, (s.key, .object es) ∈ members → (es.map Prod.fst).Nodup

/-- The sections of the document are the decoded members of the section objects. -/
structure Lists (members : List (String × Json)) (d : DesignDocument) : Prop where
  present : ∀ (s : NamedSection) es, (s.key, .object es) ∈ members →
    ∃ m, s.entries? d = some m ∧ Decodes s.read es m.entries
  absent : ∀ s : NamedSection, (∀ es, (s.key, .object es) ∉ members) → s.entries? d = none

variable {members : List (String × Json)}

theorem key_mem_names (s : NamedSection) : s.key ∈ record.names := by
  rw [Json.Record.mem_names_iff otherName?_of_mem, NamedSection.field?_key]
  rfl

theorem decode_field (s : NamedSection) (v : Json) :
    decode s.field.read v = (decode (Reader.optional (.named s.read)) v).map s.member := rfl

theorem section_cases {s : NamedSection} {es : List (String × Json)}
    (h : ∀ p ∈ es, ∃ a, decode s.read p.2 = .ok a) :
    ((es.map Prod.fst).Nodup ∧ ∃ m,
      decode s.field.read (.object es) = .ok (s.member (some m)) ∧ Decodes s.read es m.entries) ∨
    ∃ name, 2 ≤ (es.map Prod.fst).count name ∧
      decode s.field.read (.object es) = .error (.nameRepeated name) := by
  rw [decode_field]
  obtain ⟨hnodup, m, hm, hdecodes⟩ | ⟨name, hcount, hname⟩ := Json.named_cases h
  · exact .inl ⟨hnodup, m, by rw [hm, Except.map_ok], hdecodes⟩
  · exact .inr ⟨name, hcount, by rw [hname]; rfl⟩

theorem Legible.repeats_of_failsWith (h : Legible members) {fault : Json.Fault}
    (hfails : FailsWith record.fields members fault) :
    ∃ (s : NamedSection) (es : _) (name : String), (s.key, .object es) ∈ members ∧
      2 ≤ (es.map Prod.fst).count name ∧ fault = .nameRepeated name := by
  obtain ⟨⟨key, v⟩, hp, f, hf, he⟩ := hfails
  by_cases hs : ∃ s : NamedSection, key = s.key
  · obtain ⟨s, rfl⟩ := hs
    rw [NamedSection.field?_key] at hf
    cases hf
    obtain rfl | ⟨es, rfl, hes⟩ := h.sections s v hp
    · cases he
    · obtain ⟨-, m, hm, -⟩ | ⟨name, hcount, hname⟩ := section_cases hes
      · rw [hm] at he
        cases he
      · rw [hname] at he
        cases he
        exact ⟨s, es, name, hp, hcount, rfl⟩
  · obtain ⟨e, hok⟩ := h.others (key, v) hp (fun s hk ↦ hs ⟨s, hk⟩) f hf
    rw [hok] at he
    cases he

theorem exists_decode_read {v : Json} {ms : Json.Members.Sorted Member}
    (h : decode record.readKeeping v = .ok ms) {id : String}
    (hid : ms.modelled.findSome? Member.id? = some id) :
    ∃ d, decode read v = .ok d ∧ (∀ s : NamedSection, s.entries? d = ms.modelled.findSome? s.pick) ∧
      d.extras = .ofMembers ms.others := by
  have hrequired : Json.required "_id" (ms.modelled.findSome? Member.id?) = .ok id := by
    rw [hid]
    rfl
  exact ⟨_, Except.bind_eq_ok_iff.2 ⟨ms, h, Except.bind_eq_ok_iff.2 ⟨id, hrequired, rfl⟩⟩,
    fun s ↦ by cases s <;> rfl, rfl⟩

theorem decode_read_of_error {v : Json} {fault : Json.Fault}
    (h : decode record.readKeeping v = .error fault) : decode read v = .error fault := by
  change (decode record.readKeeping v >>= _) = _
  rw [h]
  rfl

theorem Legible.exists_id (h : Legible members) (hall : Decodable record.fields members) :
    ∃ id, (found record.fields members).findSome? Member.id? = some id := by
  obtain ⟨⟨key, v⟩, hp, hkey⟩ := List.mem_map.1 h.id
  obtain rfl : key = "_id" := hkey
  have hf : field? record.fields "_id" = some (.essential "_id" fun s ↦ (Reader.text s).map .id) :=
    rfl
  obtain ⟨e, he⟩ := hall _ hp _ hf
  have hpick : PicksFrom record.fields "_id" Member.id? := by
    intro name v f e hne hf he
    have hkey : e.key ≠ "_id" := by rwa [key_of_decode hf he]
    cases e <;> first | rfl | exact absurd rfl hkey
  rw [Json.Record.findSome?_found_of_mem hpick (h.once "_id" (by decide)) hp hf he]
  obtain ⟨id, -, rfl⟩ := Except.map_eq_ok_iff.1 he
  exact ⟨id, rfl⟩

/-- What is found for a section is what its only member decodes to. -/
theorem Legible.found_of_mem (h : Legible members) {s : NamedSection} {v : Json}
    (hm : (s.key, v) ∈ members) {m : Option (NamedMap s.Entry)}
    (hv : decode s.field.read v = .ok (s.member m)) :
    (found record.fields members).findSome? s.pick = m := by
  rw [Json.Record.findSome?_found_of_mem s.picksFrom (h.once _ (key_mem_names s)) hm s.field?_key hv,
    s.pick_member]

theorem Legible.found_of_object (h : Legible members) (hall : Decodable record.fields members)
    {s : NamedSection} {es : List (String × Json)} (hm : (s.key, .object es) ∈ members) :
    (es.map Prod.fst).Nodup ∧ ∃ m,
      (found record.fields members).findSome? s.pick = some m ∧ Decodes s.read es m.entries := by
  obtain h0 | ⟨_, h0, hes⟩ := h.sections s _ hm
  · cases h0
  · cases h0
    obtain ⟨hnodup, m, hdecode, hdecodes⟩ | ⟨name, -, hname⟩ := section_cases hes
    · exact ⟨hnodup, m, h.found_of_mem hm hdecode, hdecodes⟩
    · obtain ⟨e, he⟩ := hall _ hm _ s.field?_key
      rw [hname] at he
      cases he

theorem Legible.found_of_no_object (h : Legible members) {s : NamedSection}
    (habsent : ∀ es, (s.key, .object es) ∉ members) :
    (found record.fields members).findSome? s.pick = none := by
  by_cases hkey : s.key ∈ members.map Prod.fst
  · obtain ⟨⟨key, v⟩, hm, hk⟩ := List.mem_map.1 hkey
    obtain rfl : key = s.key := hk
    obtain rfl | ⟨es, rfl, -⟩ := h.sections s v hm
    · exact h.found_of_mem hm rfl
    · exact absurd hm (habsent es)
  · exact Json.Record.findSome?_found_of_notMem s.picksFrom hkey

theorem Legible.read_cases (h : Legible members) :
    (Unrepeated members ∧ ∃ d, decode read (.object members) = .ok d ∧ Lists members d ∧
      d.extras = .ofMembers (members.filter fun p ↦ p.1 ∉ record.names)) ∨
    ∃ (s : NamedSection) (es : _) (name : String), (s.key, .object es) ∈ members ∧
      2 ≤ (es.map Prod.fst).count name ∧
      decode read (.object members) = .error (.nameRepeated name) := by
  obtain ⟨hall, hsorted⟩ | ⟨fault, hfails, hfault⟩ :=
    readKeeping_cases (nodup_spelledNames otherName?_of_mem h.once)
  · obtain ⟨id, hid⟩ := h.exists_id hall
    obtain ⟨d, hd, hsections, hextras⟩ := exists_decode_read hsorted hid
    rw [unmodelled_eq otherName?_of_mem] at hextras
    have hlists : Lists members d :=
      { present := fun s es hm ↦ by rw [hsections]; exact (h.found_of_object hall hm).2
        absent := fun s habsent ↦ by rw [hsections]; exact h.found_of_no_object habsent }
    exact .inl ⟨fun s es hm ↦ (h.found_of_object hall hm).1, d, hd, hlists, hextras⟩
  · obtain ⟨s, es, name, hm, hcount, rfl⟩ := h.repeats_of_failsWith hfails
    exact .inr ⟨s, es, name, hm, hcount, decode_read_of_error hfault⟩

/-- The look-ups of a document give the decoded members, and nothing for other names. -/
theorem Lists.entry?_eq_some_iff {d : DesignDocument} (h : Lists members d) {s : NamedSection}
    {name : String} {a : s.Entry} :
    s.entry? d name = some a ↔
      ∃ es v, (s.key, .object es) ∈ members ∧ (name, v) ∈ es ∧ decode s.read v = .ok a := by
  rw [NamedSection.entry?_eq]
  constructor
  · intro ha
    by_cases hmem : ∃ es, (s.key, .object es) ∈ members
    · obtain ⟨es, hes⟩ := hmem
      obtain ⟨m, hm, hdecodes⟩ := h.present s es hes
      rw [hm, Option.bind_some, NamedMap.find?_eq_some_iff] at ha
      obtain ⟨v, hv, hread⟩ := hdecodes.mem_iff.1 ha
      exact ⟨es, v, hes, hv, hread⟩
    · rw [h.absent s fun es hes ↦ hmem ⟨es, hes⟩] at ha
      cases ha
  · rintro ⟨es, v, hes, hv, hread⟩
    obtain ⟨m, hm, hdecodes⟩ := h.present s es hes
    rw [hm, Option.bind_some, NamedMap.find?_eq_some_iff]
    exact hdecodes.mem_iff.2 ⟨v, hv, hread⟩

end DesignDocument

theorem Json.Fault.message_nameRepeated (name : String) :
    (nameRepeated name).message =
      labelled .duplicateName s!"'{name}' is defined more than once" := by
  rw [message.eq_def]

theorem MapFunction.decode_object (members : List (String × Json)) :
    decode read (.object members) = .ok (.query (Json.objectOf members)) := by
  have htree : (Json.Source.ofTree Json.Source.trailing (.object members)).tree =
      .ok (.object members) := Json.Source.tree_ofTree _
  rw [decode, read, htree]
  rfl

/-- A document that is legible but for repeats is read just when no section repeats a name. Its
sections are then the decoded members in their order, and repeats elsewhere are taken as they come;
otherwise the error quotes a name that a section repeats. -/
theorem DesignDocument.ofText_of_legible {t : String} {members : List (String × Json)}
    (ht : Spells (Symbol.ofString t) (.object members)) (h : Legible members) :
    ((∃ d : DesignDocument, Wire.ofText t = .ok d) ↔ Unrepeated members) ∧
    (∀ d : DesignDocument, Wire.ofText t = .ok d → Lists members d ∧
      (∀ (s : NamedSection) (name : String) (a : s.Entry), s.entry? d name = some a ↔
        ∃ es v, (s.key, .object es) ∈ members ∧ (name, v) ∈ es ∧ decode s.read v = .ok a) ∧
      d.extras = .ofMembers (members.filter fun p ↦ p.1 ∉ record.names)) ∧
    (∀ e, (Wire.ofText t : Except DesignError DesignDocument) = .error e →
      e.kind = .duplicateName ∧ ∃ (s : NamedSection) (es : _) (name : String),
        (s.key, .object es) ∈ members ∧ 2 ≤ (es.map Prod.fst).count name ∧
        e.message = Json.Fault.labelled .duplicateName s!"'{name}' is defined more than once") ∧
    ∀ ms, decode MapFunction.read (.object ms) = .ok (.query (Json.objectOf ms)) ∧
      decode Reader.object (.object ms) = .ok (Json.objectOf ms) := by
  have hdecode : (Wire.ofText t : Except DesignError DesignDocument) =
      (decode read (.object members)).mapError .ofFault := Wire.ofSymbols_of_spells ht
  have hobject := fun ms ↦ And.intro (MapFunction.decode_object ms) (Json.Reader.decode_object ms)
  rw [hdecode]
  obtain ⟨hunrepeated, d, hd, hlists, hextras⟩ | ⟨s, es, name, hmem, hcount, hname⟩ := h.read_cases
  · rw [hd]
    refine ⟨iff_of_true ⟨d, rfl⟩ hunrepeated, ?_, ?_, hobject⟩
    · rintro _ ⟨⟩
      exact ⟨hlists, fun s name a ↦ hlists.entry?_eq_some_iff, hextras⟩
    · rintro _ ⟨⟩
  · have hkind := DesignError.kind_ofFault (.nameRepeated name)
    have hmessage := DesignError.message_ofFault (.nameRepeated name)
    rw [Json.Fault.message_nameRepeated] at hmessage
    rw [hname, Except.mapError_error]
    refine ⟨iff_of_false ?_ ?_, ?_, ?_, hobject⟩
    · rintro ⟨d, hd⟩
      cases hd
    · intro hunrepeated
      have hle := List.nodup_iff_count.1 (hunrepeated s es hmem) name
      omega
    · rintro d ⟨⟩
    · rintro _ ⟨⟩
      exact ⟨hkind, s, es, name, hmem, hcount, hmessage⟩

namespace DesignDocument

def twoViews (first second : String) : List (String × Json) :=
  [("_id", .string "_design/posts"),
    ("views", .object [(first, .object [("map", .string "function(doc) { emit(doc.date) }")]),
      (second, .object [("map", .string "function(doc) { emit(doc.day) }")])]),
    ("note", .object [("by", .string "a"), ("by", .string "b")])]

theorem legible_twoViews (first second : String) : Legible (twoViews first second) where
  id := List.mem_cons_self
  once := by
    have h : ∀ name ∈ record.names, ["_id", "views", "note"].count name ≤ 1 := by decide
    exact h
  others := by
    intro p hp hs f hf
    simp only [twoViews, List.mem_cons, List.not_mem_nil, or_false] at hp
    rcases hp with rfl | rfl | rfl
    · cases hf
      exact ⟨_, rfl⟩
    · exact absurd rfl (hs .views)
    · cases hf
  sections := by
    intro s v hv
    cases s with
    | views =>
      obtain rfl : v = .object _ := by simpa [twoViews, NamedSection.key] using hv
      refine .inr ⟨_, rfl, ?_⟩
      simp only [List.mem_cons, List.not_mem_nil, or_false]
      rintro p (rfl | rfl) <;> exact ⟨_, rfl⟩
    | _ => simp [twoViews, NamedSection.key] at hv

theorem unrepeated_twoViews_iff {first second : String} :
    Unrepeated (twoViews first second) ↔ first ≠ second := by
  constructor
  · intro h he
    have hnodup := h .views _ (List.mem_cons_of_mem _ List.mem_cons_self)
    simp [he] at hnodup
  · intro hne s es hes
    cases s with
    | views =>
      obtain rfl : es = _ := by simpa [twoViews, NamedSection.key] using hes
      simpa using hne
    | _ => simp [twoViews, NamedSection.key] at hes

theorem ofText_of_legible_twoViews :
    (∃ d : DesignDocument,
      Wire.ofText (Json.object (twoViews "by-date" "by-day")).render = .ok d) ∧
    ∃ e, (Wire.ofText (Json.object (twoViews "by-date" "by-date")).render :
      Except DesignError DesignDocument) = .error e ∧ e.kind = .duplicateName := by
  have hdifferent := ofText_of_legible (Json.spells_render (by decide) (by decide))
    (legible_twoViews "by-date" "by-day")
  have hequal := ofText_of_legible (Json.spells_render (by decide) (by decide))
    (legible_twoViews "by-date" "by-date")
  refine ⟨hdifferent.1.2 (unrepeated_twoViews_iff.2 (by decide)), ?_⟩
  cases hread : (Wire.ofText (Json.object (twoViews "by-date" "by-date")).render :
      Except DesignError DesignDocument) with
  | ok d => exact absurd rfl (unrepeated_twoViews_iff.1 (hequal.1.1 ⟨d, hread⟩))
  | error e => exact ⟨e, rfl, (hequal.2.2.1 e hread).1⟩

end DesignDocument

end DesignDocs
