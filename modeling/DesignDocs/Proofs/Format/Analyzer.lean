import DesignDocs.Proofs.Analyzer
import DesignDocs.Proofs.Json.Described

namespace DesignDocs

open Json (Reader Format Slot Record decode)

namespace AnalyzerConfig

def Member.key : Member → String
  | .name _ => "name"
  | .default _ => "default"
  | .fields _ => "fields"
  | .stopwords _ => "stopwords"

def Member.toJson? : Member → Option Json
  | .name s => some (.string s)
  | .default s => s.map .string
  | .fields m => m.map fieldsToJson
  | .stopwords l => l.map fun l ↦ .array (l.map .string)

def slotFormats : List Slot :=
  [.essential .text, .optional .text, .optional (.named .text), .optional (.list .text)]

theorem unambiguous_fields : Record.Unambiguous record.fields := by
  unfold Record.Unambiguous
  decide

/-- A configuration keeps what it does not model. -/
def format : Format := .record record .kept slotFormats unambiguous_fields

theorem go_iff {members : List (String × Json)} {l : List (String × String)} :
    readFields.go (Json.Source.ofTreeMembers Json.Source.trailing members) = .ok l ↔
      Json.Decodes Reader.text members l := by
  induction members generalizing l with
  | nil =>
    rw [Json.Source.ofTreeMembers, readFields.go, Json.Decodes, List.forall₂_nil_left_iff,
      Except.ok.injEq, eq_comm]
  | cons p ms ih =>
    obtain ⟨name, v⟩ := p
    rw [Json.Source.ofTreeMembers, readFields.go, Except.bind_eq_ok_iff, Json.Decodes,
      List.forall₂_cons_left_iff]
    constructor
    · rintro ⟨s, hs, h⟩
      obtain ⟨rest, hrest, h⟩ := Except.bind_eq_ok_iff.1 h
      cases h
      exact ⟨(name, s), rest, ⟨rfl, hs⟩, ih.1 hrest, rfl⟩
    · rintro ⟨⟨_, s⟩, rest, ⟨rfl, hs⟩, hrest, rfl⟩
      exact ⟨s, hs, Except.bind_eq_ok_iff.2 ⟨rest, ih.2 hrest, rfl⟩⟩

/-- Fields do not repeat here, so that none is lost. -/
theorem describes_readFields : (Format.named .text).Describes readFields fieldsToJson := by
  have hread : ∀ members, decode readFields (.object members) = (readFields.go
      (Json.Source.ofTreeMembers Json.Source.trailing members)).map .ofList := fun _ ↦ rfl
  refine Format.Describes.of_decodes .text (fun {members} _ hall ↦ ?_) fun {v m} hv hm ↦ ?_
  · have hentries : ∀ p ∈ members, ∃ q : String × String,
        p.1 = q.1 ∧ decode Reader.text p.2 = .ok q.2 := by
      intro p hp
      obtain ⟨s, hs⟩ := hall p hp
      exact ⟨(p.1, s), rfl, hs⟩
    obtain ⟨l, hl⟩ := exists_forall₂ hentries
    exact ⟨.ofList l, (hread members).trans (Except.map_eq_ok_iff.2 ⟨l, go_iff.2 hl, rfl⟩)⟩
  · cases v with
    | object members =>
      obtain ⟨l, hl, rfl⟩ := Except.map_eq_ok_iff.1 ((hread members).symm.trans hm)
      have hdecodes := go_iff.1 hl
      refine ⟨members, rfl, ?_⟩
      rwa [NamedMap.entries_ofList (hdecodes.map_fst_eq ▸ hv.1)]
    | _ => cases hm

theorem describes_slots :
    List.Forall₂ (fun f (s : Slot) ↦ s.Describes f Member.key Member.toJson?) record.fields
      slotFormats := by
  refine .cons (.essential .text (fun _ ↦ rfl) fun _ ↦ rfl) (.cons ?_ (.cons ?_ (.cons ?_ .nil)))
  · exact .optional .text (fun _ ↦ rfl) fun _ ↦ rfl
  · exact .optional describes_readFields (fun _ ↦ rfl) fun _ ↦ rfl
  · exact .optional (.list .text) (fun _ ↦ rfl) fun _ ↦ rfl

theorem describes : format.Describes read toJson := by
  refine Record.describes_kept describes_slots _ (fun _ ↦ rfl) fun es xs hd hx ↦ ?_
  refine .of_required slots .string ⟨_, List.mem_cons_self, rfl, rfl⟩ ?_ ?_ (fun name ↦ ?_)
    fun name hname ↦ .cons hname (.cons ?_ (.cons ?_ (.cons ?_ .nil)))
  · simp [record, Json.Field.essential, Json.Field.optional]
  · exact Record.map_eq_shown (fun e ↦ by cases e <;> rfl) es
  · rw [toJson_eq, Extras.toMembers_ofMembers hd hx]
  all_goals exact Record.map_eq_shown (fun e ↦ by cases e <;> rfl) es

end AnalyzerConfig

namespace Analyzer

def format : Format := .textOr AnalyzerConfig.format

theorem config_ok_iff {v : Json} {c : AnalyzerConfig} :
    AnalyzerConfig.read (.ofJson v) = .ok c ↔ decode AnalyzerConfig.read v = .ok c := by
  rw [Json.Source.ofJson_eq_ofTree, AnalyzerConfig.steady_read.ok_iff]

theorem decode_read_of_ne {v : Json} (h : ∀ s, v ≠ .string s) :
    decode read v = match AnalyzerConfig.read (.ofJson v) with
      | .ok c => .ok (config c)
      | .error _ => .error (.noVariant "Analyzer") := by
  rw [decode, read, Json.Source.tree_ofTree, Except.ok_bind]
  cases v <;> first | rfl | exact absurd rfl (h _)

theorem describes : format.Describes read toJson where
  exists_ok {v} hv h := by
    obtain ⟨s, rfl, -⟩ | h := h
    · exact ⟨named s, rfl⟩
    · obtain ⟨c, hc⟩ := AnalyzerConfig.describes.exists_ok hv h
      refine ⟨config c, (decode_read_of_ne ?_).trans (by rw [config_ok_iff.2 hc])⟩
      rintro s rfl
      cases hc
  of_ok {v a} hv h := by
    by_cases hstring : ∃ s, v = .string s
    · obtain ⟨s, rfl⟩ := hstring
      cases h
      exact ⟨.inl ⟨s, rfl, trivial⟩, rfl⟩
    · rw [decode_read_of_ne fun s hs ↦ hstring ⟨s, hs⟩] at h
      split at h
      · next c hc =>
        cases h
        obtain ⟨haccepts, hnormal⟩ := AnalyzerConfig.describes.of_ok hv (config_ok_iff.1 hc)
        refine ⟨.inr haccepts, hnormal.trans ?_⟩
        cases v <;> rfl
      · cases h

end Analyzer

namespace DefaultField

def Member.key : Member → String
  | .enabled _ => "enabled"
  | .analyzer _ => "analyzer"

def Member.toJson? : Member → Option Json
  | .enabled b => b.map .bool
  | .analyzer a => a.map Analyzer.toJson

def slotFormats : List Slot := [.optional .bool, .optional Analyzer.format]

theorem unambiguous_fields : Record.Unambiguous record.fields := by
  unfold Record.Unambiguous
  decide

def format : Format := .record record .skipped slotFormats unambiguous_fields

theorem describes_slots :
    List.Forall₂ (fun f (s : Slot) ↦ s.Describes f Member.key Member.toJson?) record.fields
      slotFormats := by
  refine .cons ?_ (.cons ?_ .nil)
  · exact .optional .bool (fun _ ↦ rfl) fun _ ↦ rfl
  · exact .optional Analyzer.describes (fun _ ↦ rfl) fun _ ↦ rfl

theorem describes : format.Describes read toJson := by
  refine Record.describes_skipped describes_slots _ (fun _ ↦ rfl) fun es ↦ ?_
  refine .of_optional slots ?_ (toJson_eq _) (.cons ?_ (.cons ?_ .nil))
  · simp [record, Json.Field.optional]
  all_goals exact Record.map_eq_shown (fun e ↦ by cases e <;> rfl) es

end DefaultField

end DesignDocs
