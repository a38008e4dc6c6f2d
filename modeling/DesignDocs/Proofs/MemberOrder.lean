import DesignDocs.Proofs.Document.Content
import DesignDocs.Proofs.Format.Document
import DesignDocs.Proofs.Format.Index
import DesignDocs.Proofs.Format.Value

namespace DesignDocs

open Json (Format Reader Steady Faithful Permuted Same)

/-- Both values are taken or none is, and what is read from them is equal. -/
structure ReadAlike (α : Type) [Wire α] [BEq α] (v w : Value) : Prop where
  exists_ok : (∃ a : α, Wire.ofValue v = .ok a) ↔ ∃ b : α, Wire.ofValue w = .ok b
  beq : ∀ a b : α, Wire.ofValue v = .ok a → Wire.ofValue w = .ok b → a == b

/-- A described reader that is written faithfully does not tell the same trees apart. -/
theorem readAlike_of_same {α : Type} [Wire α] [BEq α] {F : Format}
    (hF : F.Describes (Wire.read : Reader α) Wire.toJson) (hs : Steady (Wire.read : Reader α))
    (hfaithful : Faithful (Wire.toJson : α → Json)) {v w : Value} (h : Same v.json w.json) :
    ReadAlike α v w where
  exists_ok := by
    rw [Wire.exists_ofValue_iff hF hs, Wire.exists_ofValue_iff hF hs]
    exact ⟨F.accepts_of_same v.distinct w.distinct h,
      F.accepts_of_same w.distinct v.distinct h.symm⟩
  beq a b ha hb := by
    rw [← hfaithful, Wire.toJson_of_ofValue hF hs ha, Wire.toJson_of_ofValue hF hs hb]
    exact F.same_normal v.distinct w.distinct h (Wire.accepts_of_ofValue hF hs ha)

theorem DesignDocument.contentEq_of_beq {d e : DesignDocument} (h : d == e) : d.contentEq e := by
  have hrest := beq_iff.1 h
  exact beq_iff.2 ⟨hrest.1, rfl, hrest.2.2⟩

/-- Documents, indexes and listings are read alike from a value and from the value with its members
in another order. -/
theorem readAlike_of_permuted {v w : Value} (h : Permuted v.json w.json) :
    ReadAlike DesignDocument v w ∧
      (∀ d e : DesignDocument, Wire.ofValue v = .ok d → Wire.ofValue w = .ok e → d.contentEq e) ∧
      ReadAlike QueryIndex v w ∧ ReadAlike IndexListing v w := by
  have hsame : Same v.json w.json := h.same v.distinct
  have hdocument : ReadAlike DesignDocument v w := readAlike_of_same DesignDocument.describes
    DesignDocument.steady_read DesignDocument.faithful_toJson hsame
  refine ⟨hdocument, fun d e hd he ↦ ?_, ?_, ?_⟩
  · exact DesignDocument.contentEq_of_beq (hdocument.beq d e hd he)
  · exact readAlike_of_same QueryIndex.describes QueryIndex.steady_read QueryIndex.faithful_toJson
      hsame
  · exact readAlike_of_same IndexListing.describes IndexListing.steady_read
      IndexListing.faithful_toJson hsame

def typeLast : Value :=
  .object (.ofList
    [("def", .object (.ofList
        [("fields", .array [.string "year", .object (.singleton "title" (.string "desc"))]),
          ("selector", .object (.ofList [("year", .null), ("kind", .string "post")]))])),
      ("ddoc", .null), ("type", .string "json")])

def typeFirst : Value :=
  .object (.ofList
    [("type", .string "json"), ("ddoc", .null),
      ("def", .object (.ofList
        [("selector", .object (.ofList [("kind", .string "post"), ("year", .null)])),
          ("fields", .array [.string "year", .object (.singleton "title" (.string "desc"))])]))])

theorem permuted_typeLast : Permuted typeLast.json typeFirst.json := by
  let fields : Json := .array [.string "year", .object [("title", .string "desc")]]
  let selector : Json := .object [("kind", .string "post"), ("year", .null)]
  let body : Json := .object [("selector", selector), ("fields", fields)]
  have hselector : Permuted (.object [("year", .null), ("kind", .string "post")]) selector :=
    .object rfl (.cons .null (.cons (.string _) .nil)) (.swap _ _ _)
  have hswap : List.Perm [("fields", fields), ("selector", selector)]
      [("selector", selector), ("fields", fields)] := .swap _ _ _
  have hbody : Permuted (.object [("fields", fields),
      ("selector", .object [("year", .null), ("kind", .string "post")])]) body := by
    refine .object ?_ ?_ hswap
    · rfl
    · exact .cons (.refl fields) (.cons hselector .nil)
  have hreverse : List.Perm [("def", body), ("ddoc", .null), ("type", .string "json")]
      [("type", .string "json"), ("ddoc", .null), ("def", body)] := (List.reverse_perm _).symm
  refine .object ?_ ?_ hreverse
  · rfl
  · exact .cons hbody (.cons .null (.cons (.string _) .nil))

theorem readAlike_typeLast : Permuted typeLast.json typeFirst.json ∧
    ∃ i j : QueryIndex, Wire.ofValue typeLast = .ok i ∧ Wire.ofValue typeFirst = .ok j ∧
      i == j := by
  refine ⟨permuted_typeLast, ?_⟩
  obtain ⟨-, -, halike, -⟩ := readAlike_of_permuted permuted_typeLast
  exact ⟨_, _, rfl, rfl, halike.beq _ _ rfl rfl⟩

end DesignDocs
