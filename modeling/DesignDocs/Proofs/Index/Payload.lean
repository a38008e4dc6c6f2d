import DesignDocs.Proofs.Index.Draft
import DesignDocs.Proofs.Index.RoundTrip

namespace DesignDocs

open Json (Record field?)

namespace QueryIndex

variable {i : QueryIndex}

/-- The body is read alike under both of its keys. -/
theorem read_toJsonUnder (surplus : Nat → Json.Fault) (i : QueryIndex) :
    read (.ofTree surplus (i.toJsonUnder "index")) = read (.ofTree surplus i.toJson) := by
  have hkeys : List.Forall₂
      (fun p q ↦ field? record.fields p.1 = field? record.fields q.1 ∧ p.2 = q.2)
      (i.heading ++ [("index", i.body.toJson)]) (i.heading ++ [("def", i.body.toJson)]) :=
    List.rel_append (List.forall₂_same.2 fun _ _ ↦ ⟨rfl, rfl⟩) (.cons ⟨rfl, rfl⟩ .nil)
  rw [toJson, toJsonUnder_eq, toJsonUnder_eq, read, read, Record.read_respelled hkeys]

theorem exists_creationPayload_iff :
    (∃ v, i.creationPayload = .ok v) ↔ i.type ≠ .special ∧ i.validate = .ok () := by
  refine ⟨?_, fun h ↦ exists_creationPayload h.1 h.2⟩
  rintro ⟨v, hv⟩
  rw [creationPayload] at hv
  split at hv
  · cases hv
  · next ht =>
    obtain ⟨_, h, -⟩ := Except.map_eq_ok_iff.1 hv
    exact ⟨ht, h⟩

theorem kind_of_creationPayload {e : DesignError} (h : i.creationPayload = .error e) :
    e.kind = .validation := by
  rw [creationPayload] at h
  split at h
  · cases h
    rfl
  · cases hv : i.validate with
    | error e' =>
      rw [hv] at h
      cases h
      exact kind_of_validate hv
    | ok u =>
      rw [hv] at h
      cases h

theorem eq_of_creationPayload {v : Value} (h : i.creationPayload = .ok v) :
    v = .ofJson (i.toJsonUnder "index") := by
  rw [creationPayload] at h
  split at h
  · cases h
  · obtain ⟨_, -, rfl⟩ := Except.map_eq_ok_iff.1 h
    rfl

/-- There is a payload for each valid index that is not the primary one. It is the value of the
index but for the key of its body, and it is read as the index again, which has the same payload. -/
theorem creationPayload_eq_ok (i : QueryIndex) :
    ((∃ v, i.creationPayload = .ok v) ↔ i.type ≠ .special ∧ i.validate = .ok ()) ∧
    (∀ e, i.creationPayload = .error e → e.kind = .validation) ∧
    ∀ v, i.creationPayload = .ok v →
      (∃ heading body, (Wire.toValue i).json = .object (heading ++ [("def", body)]) ∧
        v.json = .object (heading ++ [("index", body)])) ∧
      Wire.ofValue v = .ok i ∧
      ∀ j : QueryIndex, Wire.ofValue v = .ok j →
        j.validate = .ok () ∧ j.creationPayload = .ok v := by
  refine ⟨exists_creationPayload_iff, fun e ↦ kind_of_creationPayload, fun v hv ↦ ?_⟩
  have hjson : v.json = i.toJsonUnder "index" := by
    rw [eq_of_creationPayload hv, Value.ofJson_of_distinct (distinct_toJsonUnder (by decide) i)]
  have hread : Wire.ofValue v = .ok i := by
    rw [Wire.ofValue_eq, hjson]
    exact congrArg (Except.mapError _) ((read_toJsonUnder _ i).trans (i.reads_toJson _))
  refine ⟨⟨i.heading, i.body.toJson, ?_, ?_⟩, hread, fun j hj ↦ ?_⟩
  · rw [Wire.toValue_json i.distinct_toJson]
    exact toJsonUnder_eq "def" i
  · rw [hjson, toJsonUnder_eq]
  · obtain rfl : i = j := Except.ok.inj (hread.symm.trans hj)
    exact ⟨(exists_creationPayload_iff.1 ⟨v, hv⟩).2, hv⟩

def byLength : QueryIndex where
  designDocument := some none
  name := none
  body := .text { TextBody.unset with fields := some [⟨"length", .number⟩] }

theorem creationPayload_byLength : ∃ v, byLength.creationPayload = .ok v ∧
    v.json = .object [("ddoc", .null), ("type", .string "text"),
      ("index", .object [("fields", .array [.object [("length", .string "number")]])])] ∧
    Wire.ofValue v = .ok byLength := by
  obtain ⟨hexists, -, hpayload⟩ := creationPayload_eq_ok byLength
  obtain ⟨v, hv⟩ := hexists.2 ⟨by decide, rfl⟩
  obtain ⟨-, hread, -⟩ := hpayload v hv
  refine ⟨v, hv, ?_, hread⟩
  cases hv
  rfl

end QueryIndex

end DesignDocs
