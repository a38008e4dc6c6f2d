import DesignDocs.Proofs.Index.Misfit

namespace DesignDocs

open Json (Fault Reads Record Spells decode field?)
open Json.Record (Alike found)
open Json.Source (ofTree)
open Text (Symbol)

/-- The map with another name in the place of one that it may have. -/
def NamedMap.renamed {α : Type} (m : NamedMap α) (name name' : String) (h : name' ∉ m.names) :
    NamedMap α where
  entries := m.entries.map fun p ↦ (if p.1 = name then name' else p.1, p.2)
  distinct := by
    have hnames : (m.names.map fun n ↦ if n = name then name' else n).Nodup := by
      refine List.Nodup.map_on (fun x hx y hy hxy ↦ ?_) m.distinct
      split at hxy <;> split at hxy <;> simp_all
    rw [names, List.map_map] at hnames
    rwa [List.map_map]

theorem Json.Record.read_renamed {ε : Type} {r : Record ε} {key key' : String}
    (hkeys : field? r.fields key = field? r.fields key') (o : Object) (h : key' ∉ o.names)
    (surplus : Nat → Fault) :
    r.read (ofTree surplus (o.renamed key key' h).toJson) = r.read (ofTree surplus o.toJson) := by
  refine read_respelled ?_ surplus
  rw [NamedMap.renamed, List.map_map, List.forall₂_map_left_iff, List.forall₂_map_right_iff,
    List.forall₂_same]
  intro p _
  refine ⟨?_, rfl⟩
  dsimp only [Function.comp_apply]
  split
  · next hp => rw [hp, hkeys]
  · rfl

namespace QueryIndex

def bodyKeys : List String := ["def", "index"]

def analyzerKeys : List String := ["default_analyzer", "analyzer"]

section

variable {key key' : String}

theorem field?_of_mem_bodyKeys (h : key ∈ bodyKeys) :
    field? record.fields key = some record.fields[3] := by
  obtain rfl | rfl : key = "def" ∨ key = "index" := by simpa [bodyKeys] using h
  · rfl
  · rfl

theorem field?_of_mem_analyzerKeys (h : key ∈ analyzerKeys) :
    field? TextBody.record.fields key = some TextBody.record.fields[0] ∧
      field? JsonBody.record.fields key = none := by
  obtain rfl | rfl : key = "default_analyzer" ∨ key = "analyzer" := by
    simpa [analyzerKeys] using h
  · exact ⟨rfl, rfl⟩
  · exact ⟨rfl, rfl⟩

theorem readBody_object (type : IndexType) (o : Object) : readBody type (.object o) =
    (IndexBody.read type (ofTree .surplusItems o.toJson)).mapError .inDefinition := by
  rw [← Json.Source.ofJson_eq_ofTree]
  rfl

/-- Bodies of other types pass the analyzer over, however it is spelled. -/
theorem readBody_renamed (hkey : key ∈ analyzerKeys) (hkey' : key' ∈ analyzerKeys)
    (type : IndexType) (body : Object) (h : key' ∉ body.names) :
    readBody type (.object (body.renamed key key' h)) = readBody type (.object body) := by
  obtain ⟨htext, hjson⟩ := field?_of_mem_analyzerKeys hkey
  obtain ⟨htext', hjson'⟩ := field?_of_mem_analyzerKeys hkey'
  rw [readBody_object, readBody_object]
  cases type with
  | text =>
    rw [IndexBody.read, IndexBody.read, TextBody.read, TextBody.read,
      Record.read_renamed (htext.trans htext'.symm)]
  | json | special =>
    rw [IndexBody.read, IndexBody.read, JsonBody.read, JsonBody.read,
      Record.read_renamed (hjson.trans hjson'.symm)]

end

/-- What the reader of an index seeks in a member. A body stands for what each type reads from
it. -/
structure Sought where
  designDocument : Option (Option String)
  name : Option (Option String)
  type : Option IndexType
  body : Option (IndexType → Except Fault IndexBody)

def Member.sought : Member → Sought
  | .designDocument s => ⟨some s, none, none, none⟩
  | .name s => ⟨none, some s, none, none⟩
  | .type t => ⟨none, none, some t, none⟩
  | .body v => ⟨none, none, none, some fun type ↦ readBody type v⟩

/-- The index of which the reader has found this. -/
def ofSought (l : List Sought) : Except Fault QueryIndex := do
  let readAs ← Json.required "def" (l.findSome? (·.body))
  let body ← readAs ((l.findSome? (·.type)).getD .json)
  return ⟨l.findSome? (·.designDocument), l.findSome? (·.name), body⟩

theorem ofSought_map {designDocument? name? : Member → Option (Option String)}
    {type? : Member → Option IndexType} {body? : Member → Option Value}
    (hddoc : ∀ e, Sought.designDocument e.sought = designDocument? e)
    (hname : ∀ e, Sought.name e.sought = name? e) (htype : ∀ e, Sought.type e.sought = type? e)
    (hbody : ∀ e, Sought.body e.sought = (body? e).map fun v type ↦ readBody type v)
    (ms : List Member) :
    ofSought (ms.map Member.sought) = do
      let value ← Json.required "def" (ms.findSome? body?)
      let body ← readBody ((ms.findSome? type?).getD .json) value
      return ⟨ms.findSome? designDocument?, ms.findSome? name?, body⟩ := by
  have hreadAs : ms.findSome? (fun e ↦ Sought.body e.sought) =
      (ms.findSome? body?).map fun v type ↦ readBody type v := by
    rw [List.map_findSome?]
    exact congrArg (List.findSome? · ms) (funext hbody)
  simp only [ofSought, List.findSome?_map, Function.comp_def, hddoc, hname, htype, hreadAs]
  cases ms.findSome? body? <;> rfl

/-- The reader looks at the members of an index only for what it seeks. -/
theorem read_eq_ofSought (s : Json.Source) :
    read s = (record.read s).map (List.map Member.sought) >>= ofSought := by
  rw [read]
  cases record.read s with
  | error f => rfl
  | ok ms =>
    refine (ofSought_map (fun e ↦ ?_) (fun e ↦ ?_) (fun e ↦ ?_) (fun e ↦ ?_) ms).symm <;>
      cases e <;> rfl

theorem ofValue_object (o : Object) : (Wire.ofValue (.object o) : Except DesignError QueryIndex) =
    (read (ofTree .surplusItems o.toJson)).mapError .ofFault := Wire.ofValue_eq _

/-- The members seem the same with another value as the body that every type reads alike. -/
theorem alike_insert_body {o : Object} {key : String} {v w : Value} (hkey : key ∈ bodyKeys)
    (hv : o.find? key = some v) (h : ∀ type, readBody type w = readBody type v) :
    List.Forall₂ (Alike record.fields .surplusItems Member.sought)
      ((o.insert key w).entries.map fun p ↦ (p.1, p.2.json))
      (o.entries.map fun p ↦ (p.1, p.2.json)) := by
  have hbody : ∀ (x : Value) (surplus : Nat → Fault),
      record.fields[3].read (ofTree surplus x.json) = .ok (.body x) :=
    fun x ↦ (Reads.distinctValue x.distinct).map Member.body
  rw [NamedMap.insert, map_putEntry]
  refine forall₂_putEntry (Alike.refl _) (fun b hb ↦ ⟨rfl, fun f hf ↦ ?_⟩) ?_
  · obtain ⟨⟨_, x⟩, hx, ⟨⟩⟩ := List.mem_map.1 hb
    obtain rfl : v = x := Option.some.inj (hv.symm.trans (NamedMap.find?_eq_some_iff.2 hx))
    obtain rfl := Option.some.inj ((field?_of_mem_bodyKeys hkey).symm.trans hf)
    rw [hbody, hbody, Except.map_ok, Except.map_ok, Member.sought, Member.sought, funext h]
  · rw [List.map_map]
    exact List.mem_map_of_mem (NamedMap.find?_eq_some_iff.1 hv)

theorem ofValue_insert_body {o : Object} {key : String} {v w : Value} (hkey : key ∈ bodyKeys)
    (hv : o.find? key = some v) (h : ∀ type, readBody type w = readBody type v) :
    (Wire.ofValue (.object (o.insert key w)) : Except DesignError QueryIndex) =
      Wire.ofValue (.object o) := by
  have hread : (record.read (ofTree .surplusItems (o.insert key w).toJson)).map _ =
      (record.read (ofTree .surplusItems o.toJson)).map _ :=
    Record.read_alike (alike_insert_body hkey hv h)
  rw [ofValue_object, ofValue_object, read_eq_ofSought, read_eq_ofSought, hread]

/-- Neither a value nor a text of the tree is accepted as an index. -/
def Refused (v : Json) : Prop :=
  (∀ w : Value, w.json = v → ∀ i : QueryIndex, Wire.ofValue w ≠ .ok i) ∧
    ∀ s, Spells (Symbol.ofString s) v → ∀ i : QueryIndex, Wire.ofText s ≠ .ok i

theorem refused_of_decode {v : Json} (h : ∀ i, decode read v ≠ .ok i) : Refused v := by
  constructor
  · rintro w rfl i hi
    exact h i ((Wire.ofValue_eq_ok_iff steady_read).1 hi)
  · intro s hs i hi
    rw [Wire.ofText, Wire.ofSymbols_of_spells hs, Except.mapError_eq_ok_iff] at hi
    exact h i hi

section

variable {members : List (String × Json)}

theorem findSome?_sought {α : Type} (hn : (Record.spelledNames record.fields members).Nodup)
    {f : Json.Field Member} {key : String} (hf : field? record.fields key = some f) {v : Json}
    (hm : (key, v) ∈ members) {e : Member} (he : decode f.read v = .ok e) {seek : Sought → Option α}
    (hseek : ∀ e : Member, e.key ≠ f.name → seek e.sought = none) :
    ((found record.fields members).map Member.sought).findSome? seek = seek e.sought := by
  obtain ⟨hmem, hs⟩ := unambiguous_fields.field?_eq_some_iff.1 hf
  rw [List.findSome?_map]
  refine Record.findSome?_found_of_spelled unambiguous_fields hn hmem hs hm he
    fun g hg hne v e he ↦ hseek e ?_
  rwa [Record.key_eq_of_decode describes_rawFormats hg he]

theorem type_of_sought {l : List Member} {readAs : IndexType → Except Fault IndexBody}
    (h : (l.map Member.sought).findSome? (·.body) = some readAs) {type : IndexType} {b : IndexBody}
    (hb : readAs type = .ok b) : b.type = type := by
  obtain ⟨_, hmem, hbody⟩ := List.exists_of_findSome?_eq_some h
  obtain ⟨e, -, rfl⟩ := List.mem_map.1 hmem
  cases e with
  | body x =>
    cases hbody
    exact IndexBody.type_of_read (readBody_eq_ok_iff.1 hb).2
  | designDocument | name | type => cases hbody

theorem of_decode_read {v : Json} {i : QueryIndex} (hm : record.members? v = some members)
    (h : decode read v = .ok i) :
    (∀ type : IndexType, ("type", type.toJson) ∈ members → i.type = type) ∧
      ∀ key body, key ∈ bodyKeys → (key, body) ∈ members →
        decode (IndexBody.read i.type) body = .ok i.body := by
  rw [decode, read_eq_ofSought] at h
  obtain ⟨_, hsought, h⟩ := Except.bind_eq_ok_iff.1 h
  obtain ⟨es, hes, rfl⟩ := Except.map_eq_ok_iff.1 hsought
  obtain ⟨_, hm', hn, hall, rfl⟩ :=
    Record.exists_members_of_read (r := record) unambiguous_fields hes
  obtain rfl := Option.some.inj (hm.symm.trans hm')
  obtain ⟨readAs, hreadAs, h⟩ := Except.bind_eq_ok_iff.1 h
  obtain ⟨b, hb, h⟩ := Except.bind_eq_ok_iff.1 h
  rw [Json.required_eq_ok_iff] at hreadAs
  have htype : b.type = _ := type_of_sought hreadAs hb
  cases h
  refine ⟨fun type hmem ↦ ?_, fun key body hkey hmem ↦ ?_⟩
  · have hfield : field? record.fields "type" = some record.fields[2] := rfl
    have he : decode record.fields[2].read type.toJson = .ok (.type type) :=
      type.reads_toJson.map Member.type _
    rw [findSome?_sought hn hfield hmem he fun e hne ↦ by
      cases e <;> first | rfl | exact absurd rfl hne] at htype
    exact htype
  · have hfield := field?_of_mem_bodyKeys hkey
    obtain ⟨_, he⟩ := hall _ hmem _ hfield
    obtain ⟨x, hx, rfl⟩ := Except.map_eq_ok_iff.1 he
    have htree := Json.tree_of_distinctValue hx
    rw [Json.Source.tree_ofTree] at htree
    cases htree
    rw [findSome?_sought hn hfield hmem he fun e hne ↦ by
      cases e <;> first | rfl | exact absurd rfl hne] at hreadAs
    cases hreadAs
    rw [← htype] at hb
    exact (readBody_eq_ok_iff.1 hb).2

theorem decode_text_ne_ok {body : List (String × Json)}
    (hboth : ∀ key ∈ analyzerKeys, key ∈ body.map Prod.fst) (b : IndexBody) :
    decode (IndexBody.read .text) (.object body) ≠ .ok b := by
  intro hb
  obtain ⟨_, hb, -⟩ := Except.map_eq_ok_iff.1 hb
  obtain ⟨es, hes, -⟩ := Except.bind_eq_ok_iff.1 hb
  exact Record.decode_read_ne_ok (r := TextBody.record) (hboth "default_analyzer" (.head _))
    (hboth "analyzer" (.tail _ (.head _))) (by decide) rfl rfl es hes

theorem refused_of_both_bodies (hboth : ∀ key ∈ bodyKeys, key ∈ members.map Prod.fst) :
    Refused (.object members) := by
  refine refused_of_decode fun i hi ↦ ?_
  obtain ⟨es, hes, -⟩ := Except.bind_eq_ok_iff.1 hi
  exact Record.decode_read_ne_ok (r := record) (hboth "def" (.head _))
    (hboth "index" (.tail _ (.head _))) (by decide) rfl rfl es hes

theorem refused_of_both_analyzers {v : Json} (hm : record.members? v = some members)
    (htext : ("type", .string "text") ∈ members) {key : String} {body : List (String × Json)}
    (hkey : key ∈ bodyKeys) (hbody : (key, .object body) ∈ members)
    (hboth : ∀ key ∈ analyzerKeys, key ∈ body.map Prod.fst) : Refused v := by
  refine refused_of_decode fun i hi ↦ ?_
  obtain ⟨htype, hread⟩ := of_decode_read hm hi
  have hb := hread key _ hkey hbody
  rw [htype .text htext] at hb
  exact decode_text_ne_ok hboth i.body hb

end

/-- Each spelling is read as the other: an object that has the body of an index under one of its
keys gives the same under the other, and so it does with the other spelling of the analyzer inside
the body. Both spellings at once are refused, in an object as well as in the body of a text index,
whatever the values. -/
theorem ofValue_renamed :
    (∀ (o : Object) (key key' : String), key ∈ bodyKeys → key' ∈ bodyKeys →
      ∀ h : key' ∉ o.names, (Wire.ofValue (.object (o.renamed key key' h)) :
        Except DesignError QueryIndex) = Wire.ofValue (.object o)) ∧
    (∀ (o body : Object) (place key key' : String), place ∈ bodyKeys →
      o.find? place = some (.object body) → key ∈ analyzerKeys → key' ∈ analyzerKeys →
        ∀ h : key' ∉ body.names,
          (Wire.ofValue (.object (o.insert place (.object (body.renamed key key' h)))) :
            Except DesignError QueryIndex) = Wire.ofValue (.object o)) ∧
    (∀ members : List (String × Json), (∀ key ∈ bodyKeys, key ∈ members.map Prod.fst) →
      Refused (.object members)) ∧
    ∀ (v : Json) (members : List (String × Json)), record.members? v = some members →
      ("type", .string "text") ∈ members → ∀ place body, place ∈ bodyKeys →
        (place, .object body) ∈ members → (∀ key ∈ analyzerKeys, key ∈ body.map Prod.fst) →
          Refused v := by
  refine ⟨fun o key key' hkey hkey' h ↦ ?_,
    fun o body place key key' hplace hbody hkey hkey' h ↦ ?_,
    fun members ↦ refused_of_both_bodies,
    fun v members hm htext place body ↦ refused_of_both_analyzers hm htext⟩
  · have hfield := (field?_of_mem_bodyKeys hkey).trans (field?_of_mem_bodyKeys hkey').symm
    rw [ofValue_object, ofValue_object, read, read, Record.read_renamed hfield]
  · exact ofValue_insert_body hplace hbody fun type ↦ readBody_renamed hkey hkey' type body h

def keywordBody : Object :=
  ⟨[("analyzer", .string "keyword"),
    ("fields", .array [.object (.singleton "a" (.string "string"))])], by decide⟩

def keywordIndex : Object := ⟨[("type", .string "text"), ("index", .object keywordBody)], by decide⟩

theorem ofValue_renamed_keyword :
    (∃ i : QueryIndex, Wire.ofValue (.object keywordIndex) = .ok i ∧
      Wire.ofValue (.object (keywordIndex.renamed "index" "def" (by decide))) = .ok i ∧
      Wire.ofValue (.object (keywordIndex.insert "index"
        (.object (keywordBody.renamed "analyzer" "default_analyzer" (by decide))))) = .ok i) ∧
    Refused (.object [("def", .null), ("index", .null)]) ∧
    Refused (.array [.null, .null, .string "text",
      .object [("default_analyzer", .null), ("analyzer", .null)]]) := by
  obtain ⟨hbody, hanalyzer, hbodies, hanalyzers⟩ := ofValue_renamed
  obtain ⟨i, hi⟩ : ∃ i : QueryIndex, Wire.ofValue (.object keywordIndex) = .ok i := ⟨_, rfl⟩
  refine ⟨⟨i, hi, ?_, ?_⟩, hbodies _ (by decide), ?_⟩
  · rw [hbody keywordIndex "index" "def" (by decide) (by decide), hi]
  · rw [hanalyzer keywordIndex keywordBody "index" "analyzer" "default_analyzer" (by decide) rfl
      (by decide) (by decide), hi]
  · exact hanalyzers _ _ rfl (.tail _ (.tail _ (.head _))) "def" _ (.head _)
      (.tail _ (.tail _ (.tail _ (.head _)))) (by decide)

end QueryIndex

end DesignDocs
