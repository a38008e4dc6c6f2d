import DesignDocs.Proofs.Document.Basic
import DesignDocs.Proofs.Wire

namespace DesignDocs.DesignDocument

open Json (depthLimit)

/-- Nothing of a document is lost in its texts: neither the order of names nor whether an empty
section is there. -/
theorem ofText_written (d : DesignDocument) (hi : d.toJson.Integral)
    (hd : d.toJson.depth ≤ depthLimit) :
    Wire.ofText (Wire.toText d) = .ok d ∧ Wire.ofText (Wire.toPrettyText d) = .ok d ∧
      ∀ e : DesignDocument,
        Wire.ofText (Wire.toText d) = .ok e ∨ Wire.ofText (Wire.toPrettyText d) = .ok e →
          Wire.toText e = Wire.toText d := by
  have hcompact : Wire.ofText (Wire.toText d) = .ok d :=
    Wire.ofText_toText d.reads_toJson hi hd
  have hpretty : Wire.ofText (Wire.toPrettyText d) = .ok d :=
    Wire.ofText_toPrettyText d.reads_toJson hi hd
  refine ⟨hcompact, hpretty, ?_⟩
  rintro e (he | he)
  · rw [hcompact] at he
    cases he
    rfl
  · rw [hpretty] at he
    cases he
    rfl

def posts : DesignDocument :=
  { (new "_design/posts").withRev "1-a" with
    views := some (.singleton "recent"
      ((View.new (.query (Json.objectOf [("date", .string "desc")]))).withReduce ⟨"_count"⟩))
    filters := some .empty
    rewrites := some []
    extras := .ofMembers
      [("version", .number (.integer (-3) (by decide))), ("tags", .array [.null, .object []])] }

theorem ofText_posts : posts.toJson.Integral ∧ posts.toJson.depth ≤ depthLimit ∧
    Wire.ofText (Wire.toText posts) = .ok posts ∧
    Wire.ofText (Wire.toPrettyText posts) = .ok posts := by
  have hi : posts.toJson.Integral := by decide
  have hd : posts.toJson.depth ≤ depthLimit := by decide
  obtain ⟨hcompact, hpretty, -⟩ := ofText_written posts hi hd
  exact ⟨hi, hd, hcompact, hpretty⟩

end DesignDocs.DesignDocument
