import DesignDocs.Proofs.Document.Repeats
import DesignDocs.Proofs.Format.Analyzer

namespace DesignDocs

open Json (Reader Format Slot Record decode)

theorem Script.describes : Format.text.Describes read toJson :=
  Format.Describes.text.map mk fun _ ↦ rfl

theorem Reducer.describes : Format.text.Describes read toJson :=
  Format.Describes.text.map mk fun _ ↦ rfl

namespace MapFunction

def format : Format := .textOr .object

theorem describes : format.Describes read toJson where
  exists_ok := by
    rintro _ - (⟨s, rfl, -⟩ | ⟨members, rfl⟩)
    · exact ⟨script ⟨s⟩, rfl⟩
    · exact ⟨_, decode_object members⟩
  of_ok {v f} hv h := by
    cases v with
    | string s =>
      cases h
      exact ⟨.inl ⟨s, rfl, trivial⟩, rfl⟩
    | object members =>
      rw [decode_object] at h
      cases h
      exact ⟨.inr ⟨members, rfl⟩, Json.toJson_objectOf hv⟩
    | _ =>
      rw [decode, read, Json.Source.tree_ofTree] at h
      cases h

end MapFunction

namespace View

def Member.key : Member → String
  | .map _ => "map"
  | .reduce _ => "reduce"
  | .dbcopy _ => "dbcopy"
  | .options _ => "options"

def Member.toJson? : Member → Option Json
  | .map f => some f.toJson
  | .reduce r => r.map Reducer.toJson
  | .dbcopy s => s.map .string
  | .options o => o.map NamedMap.toJson

def slotFormats : List Slot :=
  [.essential MapFunction.format, .optional .text, .optional .text, .optional .object]

theorem unambiguous_fields : Record.Unambiguous record.fields := by
  unfold Record.Unambiguous
  decide

def format : Format := .record record .kept slotFormats unambiguous_fields

theorem describes_slots :
    List.Forall₂ (fun f (s : Slot) ↦ s.Describes f Member.key Member.toJson?) record.fields
      slotFormats := by
  refine .cons ?_ (.cons ?_ (.cons ?_ (.cons ?_ .nil)))
  · exact .essential MapFunction.describes (fun _ ↦ rfl) fun _ ↦ rfl
  · exact .optional Reducer.describes (fun _ ↦ rfl) fun _ ↦ rfl
  · exact .optional .text (fun _ ↦ rfl) fun _ ↦ rfl
  · exact .optional .object (fun _ ↦ rfl) fun _ ↦ rfl

theorem describes : format.Describes read toJson := by
  refine Record.describes_kept describes_slots _ (fun _ ↦ rfl) fun es xs hd hx ↦ ?_
  refine .of_required slots MapFunction.toJson ⟨_, List.mem_cons_self, rfl, rfl⟩ ?_ ?_ (fun f ↦ ?_)
    fun f hf ↦ .cons hf (.cons ?_ (.cons ?_ (.cons ?_ .nil)))
  · simp [record, Json.Field.essential, Json.Field.optional]
  · exact Record.map_eq_shown (fun e ↦ by cases e <;> rfl) es
  · rw [toJson_eq, Extras.toMembers_ofMembers hd hx]
  all_goals exact Record.map_eq_shown (fun e ↦ by cases e <;> rfl) es

end View

namespace RewriteRule

def Member.key : Member → String
  | .source _ => "from"
  | .target _ => "to"
  | .method _ => "method"
  | .query _ => "query"

def Member.toJson? : Member → Option Json
  | .source s => s.map .string
  | .target s => some (.string s)
  | .method s => s.map .string
  | .query o => o.map NamedMap.toJson

def slotFormats : List Slot :=
  [.optional .text, .essential .text, .optional .text, .optional .object]

theorem unambiguous_fields : Record.Unambiguous record.fields := by
  unfold Record.Unambiguous
  decide

def format : Format := .record record .skipped slotFormats unambiguous_fields

theorem describes_slots :
    List.Forall₂ (fun f (s : Slot) ↦ s.Describes f Member.key Member.toJson?) record.fields
      slotFormats := by
  refine .cons ?_ (.cons ?_ (.cons ?_ (.cons ?_ .nil)))
  · exact .optional .text (fun _ ↦ rfl) fun _ ↦ rfl
  · exact .essential .text (fun _ ↦ rfl) fun _ ↦ rfl
  · exact .optional .text (fun _ ↦ rfl) fun _ ↦ rfl
  · exact .optional .object (fun _ ↦ rfl) fun _ ↦ rfl

theorem describes : format.Describes read toJson := by
  refine Record.describes_skipped describes_slots _ (fun _ ↦ rfl) fun es ↦ ?_
  refine .of_required slots .string ⟨_, .tail _ (.head _), rfl, rfl⟩ ?_ ?_ (fun _ ↦ toJson_eq _)
    fun s hs ↦ .cons ?_ (.cons hs (.cons ?_ (.cons ?_ .nil)))
  · simp [record, Json.Field.essential, Json.Field.optional]
  all_goals exact Record.map_eq_shown (fun e ↦ by cases e <;> rfl) es

end RewriteRule

namespace SearchIndex

def Member.key : Member → String
  | .index _ => "index"
  | .analyzer _ => "analyzer"

def Member.toJson? : Member → Option Json
  | .index s => some s.toJson
  | .analyzer a => a.map Analyzer.toJson

def slotFormats : List Slot := [.essential .text, .optional Analyzer.format]

theorem unambiguous_fields : Record.Unambiguous record.fields := by
  unfold Record.Unambiguous
  decide

def format : Format := .record record .skipped slotFormats unambiguous_fields

theorem describes_slots :
    List.Forall₂ (fun f (s : Slot) ↦ s.Describes f Member.key Member.toJson?) record.fields
      slotFormats := by
  refine .cons ?_ (.cons ?_ .nil)
  · exact .essential Script.describes (fun _ ↦ rfl) fun _ ↦ rfl
  · exact .optional Analyzer.describes (fun _ ↦ rfl) fun _ ↦ rfl

theorem describes : format.Describes read toJson := by
  refine Record.describes_skipped describes_slots _ (fun _ ↦ rfl) fun es ↦ ?_
  refine .of_required slots Script.toJson ⟨_, List.mem_cons_self, rfl, rfl⟩ ?_ ?_
    (fun _ ↦ toJson_eq _) fun s hs ↦ .cons hs (.cons ?_ .nil)
  · simp [record, Json.Field.essential, Json.Field.optional]
  all_goals exact Record.map_eq_shown (fun e ↦ by cases e <;> rfl) es

end SearchIndex

namespace FulltextIndex

def Member.key : Member → String
  | .index _ => "index"
  | .defaults _ => "defaults"
  | .analyzer _ => "analyzer"

def Member.toJson? : Member → Option Json
  | .index s => some s.toJson
  | .defaults o => o.map NamedMap.toJson
  | .analyzer s => s.map .string

def slotFormats : List Slot := [.essential .text, .optional .object, .optional .text]

theorem unambiguous_fields : Record.Unambiguous record.fields := by
  unfold Record.Unambiguous
  decide

def format : Format := .record record .skipped slotFormats unambiguous_fields

theorem describes_slots :
    List.Forall₂ (fun f (s : Slot) ↦ s.Describes f Member.key Member.toJson?) record.fields
      slotFormats := by
  refine .cons ?_ (.cons ?_ (.cons ?_ .nil))
  · exact .essential Script.describes (fun _ ↦ rfl) fun _ ↦ rfl
  · exact .optional .object (fun _ ↦ rfl) fun _ ↦ rfl
  · exact .optional .text (fun _ ↦ rfl) fun _ ↦ rfl

theorem describes : format.Describes read toJson := by
  refine Record.describes_skipped describes_slots _ (fun _ ↦ rfl) fun es ↦ ?_
  refine .of_required slots Script.toJson ⟨_, List.mem_cons_self, rfl, rfl⟩ ?_ ?_
    (fun _ ↦ toJson_eq _) fun s hs ↦ .cons hs (.cons ?_ (.cons ?_ .nil))
  · simp [record, Json.Field.essential, Json.Field.optional]
  all_goals exact Record.map_eq_shown (fun e ↦ by cases e <;> rfl) es

end FulltextIndex

namespace DesignDocument

def Member.toJson? : Member → Option Json
  | .id s => some (.string s)
  | .rev s => s.map .string
  | .language s => s.map .string
  | .views m => m.map (sectionToJson View.toJson)
  | .indexes m => m.map (sectionToJson SearchIndex.toJson)
  | .filters m => m.map (sectionToJson Script.toJson)
  | .shows m => m.map (sectionToJson Script.toJson)
  | .lists m => m.map (sectionToJson Script.toJson)
  | .updates m => m.map (sectionToJson Script.toJson)
  | .validateDocUpdate s => s.map Script.toJson
  | .rewrites l => l.map fun l ↦ .array (l.map RewriteRule.toJson)
  | .fulltext m => m.map (sectionToJson FulltextIndex.toJson)

def slotFormats : List Slot :=
  [.essential .text, .optional .text, .optional .text, .optional (.named View.format),
    .optional (.named SearchIndex.format), .optional (.named .text), .optional (.named .text),
    .optional (.named .text), .optional (.named .text), .optional .text,
    .optional (.list RewriteRule.format), .optional (.named FulltextIndex.format)]

theorem unambiguous_fields : Record.Unambiguous record.fields := by
  unfold Record.Unambiguous
  decide

def format : Format := .record record .kept slotFormats unambiguous_fields

theorem describes_slots :
    List.Forall₂ (fun f (s : Slot) ↦ s.Describes f Member.key Member.toJson?) record.fields
      slotFormats := by
  refine .cons ?_ (.cons ?_ (.cons ?_ (.cons ?_ (.cons ?_ (.cons ?_ (.cons ?_ (.cons ?_
    (.cons ?_ (.cons ?_ (.cons ?_ (.cons ?_ .nil)))))))))))
  · exact .essential .text (fun _ ↦ rfl) fun _ ↦ rfl
  · exact .optional .text (fun _ ↦ rfl) fun _ ↦ rfl
  · exact .optional .text (fun _ ↦ rfl) fun _ ↦ rfl
  · exact .optional View.describes.named (fun _ ↦ rfl) fun _ ↦ rfl
  · exact .optional SearchIndex.describes.named (fun _ ↦ rfl) fun _ ↦ rfl
  · exact .optional Script.describes.named (fun _ ↦ rfl) fun _ ↦ rfl
  · exact .optional Script.describes.named (fun _ ↦ rfl) fun _ ↦ rfl
  · exact .optional Script.describes.named (fun _ ↦ rfl) fun _ ↦ rfl
  · exact .optional Script.describes.named (fun _ ↦ rfl) fun _ ↦ rfl
  · exact .optional Script.describes (fun _ ↦ rfl) fun _ ↦ rfl
  · exact .optional RewriteRule.describes.list (fun _ ↦ rfl) fun _ ↦ rfl
  · exact .optional FulltextIndex.describes.named (fun _ ↦ rfl) fun _ ↦ rfl

theorem describes : format.Describes read toJson := by
  refine Record.describes_kept describes_slots _ (fun _ ↦ rfl) fun es xs hd hx ↦ ?_
  refine .of_required slots .string ⟨_, List.mem_cons_self, rfl, rfl⟩ ?_ ?_ (fun id ↦ ?_)
    fun id hid ↦ .cons hid (.cons ?_ (.cons ?_ (.cons ?_ (.cons ?_ (.cons ?_ (.cons ?_ (.cons ?_
      (.cons ?_ (.cons ?_ (.cons ?_ (.cons ?_ .nil)))))))))))
  · simp [record, Json.Field.essential, Json.Field.optional]
  · exact Record.map_eq_shown (fun e ↦ by cases e <;> rfl) es
  · rw [toJson_eq, Extras.toMembers_ofMembers hd hx]
  all_goals exact Record.map_eq_shown (fun e ↦ by cases e <;> rfl) es

end DesignDocument

end DesignDocs
