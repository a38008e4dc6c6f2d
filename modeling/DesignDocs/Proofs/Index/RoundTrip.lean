import DesignDocs.Proofs.Index.Basic
import DesignDocs.Proofs.Wire

namespace DesignDocs.QueryIndex

open Json (depthLimit)

/-- Nothing of an index is lost: neither how a field is given, nor whether a name is absent or
null, nor which members of the body are there. -/
theorem ofValue_written (i : QueryIndex) :
    Wire.ofValue (Wire.toValue i) = .ok i ∧
      (i.toJson.Integral → i.toJson.depth ≤ depthLimit →
        Wire.ofText (Wire.toText i) = .ok i ∧ Wire.ofText (Wire.toPrettyText i) = .ok i) := by
  refine ⟨Wire.ofValue_toValue i.reads_toJson i.distinct_toJson, fun hi hd ↦ ⟨?_, ?_⟩⟩
  · exact Wire.ofText_toText i.reads_toJson hi hd
  · exact Wire.ofText_toPrettyText i.reads_toJson hi hd

def titles : QueryIndex where
  designDocument := some none
  name := none
  body := .text
    { TextBody.unset with
      defaultField := some .unset
      selector := some ⟨Json.objectOf [("year", .number (.integer 1999 (by decide)))]⟩
      fields := some [⟨"title", .string⟩] }

theorem ofText_titles : titles.toJson.Integral ∧ titles.toJson.depth ≤ depthLimit ∧
    Wire.ofText (Wire.toText titles) = .ok titles ∧
    Wire.ofText (Wire.toPrettyText titles) = .ok titles := by
  have hi : titles.toJson.Integral := by decide
  have hd : titles.toJson.depth ≤ depthLimit := by decide
  exact ⟨hi, hd, (ofValue_written titles).2 hi hd⟩

end DesignDocs.QueryIndex
