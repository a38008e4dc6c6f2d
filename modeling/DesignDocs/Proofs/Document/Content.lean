import DesignDocs.Proofs.Document.Validity
import DesignDocs.Proofs.Wire

namespace DesignDocs

open Json (Same)
open Json.Record (written)

def Value.without (name : String) : Value → Value
  | ⟨.object members, h⟩ =>
    { json := .object (members.filter fun p ↦ p.1 != name)
      distinct := by
        refine ⟨(List.filter_sublist.map Prod.fst).nodup h.1, Json.distinctMembers_iff.2 ?_⟩
        exact fun p hp ↦ Json.distinctMembers_iff.1 h.2 p (List.mem_of_mem_filter hp) }
  | v => v

theorem Value.json_without {v : Value} {members : List (String × Json)}
    (h : v.json = .object members) (name : String) :
    (v.without name).json = .object (members.filter fun p ↦ p.1 != name) := by
  obtain ⟨json, hd⟩ := v
  subst h
  rfl

theorem Json.Record.filter_written_append {name : String} {names : List String}
    {values : List (Option Json)} {xs : List (String × Json)} (hn : name ∉ names)
    (hx : ∀ p ∈ xs, p.1 ≠ name) :
    (written names values ++ xs).filter (fun p ↦ p.1 != name) = written names values ++ xs := by
  refine List.filter_eq_self.2 fun p hp ↦ bne_iff_ne.2 ?_
  obtain hp | hp := List.mem_append.1 hp
  · exact fun he ↦ hn (he ▸ (mem_written hp).1)
  · exact hx p hp

namespace DesignDocument

def namesAfterRev : List String := record.names.drop 2

theorem written_names (d : DesignDocument) :
    written record.names d.slots = ("_id", .string d.id) :: Json.member? "_rev" .string d.rev ++
      written namesAfterRev (d.slots.drop 2) := by
  have hnames : record.names = "_id" :: "_rev" :: namesAfterRev := rfl
  have hslots : d.slots = some (.string d.id) :: d.rev.map .string :: d.slots.drop 2 := rfl
  rw [hnames, hslots, Json.Record.written_some, Json.Record.written_map]
  rfl

theorem rev_notMem_namesAfterRev : "_rev" ∉ namesAfterRev := by
  have hnodup : ("_id" :: "_rev" :: namesAfterRev).Nodup :=
    Json.Record.nodup_names separate_fields
  exact (List.nodup_cons.1 (List.nodup_cons.1 hnodup).2).1

theorem rev_mem_names : "_rev" ∈ record.names := List.mem_cons_of_mem _ List.mem_cons_self

/-- The revision is the member `_rev` of what is written, and nothing else. -/
theorem toValue_without_rev (d : DesignDocument) :
    (Wire.toValue d).without "_rev" = Wire.toValue d.withoutRev := by
  have hx : ∀ p ∈ d.extras.toMembers, p.1 ≠ "_rev" := fun p hp he ↦
    Extras.notMem_of_mem hp (he ▸ rev_mem_names)
  have hrest : (written namesAfterRev (d.slots.drop 2) ++ d.extras.toMembers).filter
      (fun p ↦ p.1 != "_rev") = written namesAfterRev (d.slots.drop 2) ++ d.extras.toMembers :=
    Json.Record.filter_written_append rev_notMem_namesAfterRev hx
  have hwithout : written record.names d.withoutRev.slots =
      ("_id", .string d.id) :: written namesAfterRev (d.slots.drop 2) := d.withoutRev.written_names
  refine Value.ext_json ?_
  rw [Wire.toValue_json d.withoutRev.distinct_toJson,
    Value.json_without ((Wire.toValue_json d.distinct_toJson).trans d.toJson_eq)]
  change _ = d.withoutRev.toJson
  rw [toJson_eq, hwithout, written_names, List.cons_append, List.cons_append, List.append_assoc,
    List.filter_cons_of_pos (by simp), List.filter_append, hrest]
  cases d.rev <;> rfl

theorem contentEq_iff_same {a b : DesignDocument} :
    a.contentEq b ↔ Same ((Wire.toValue a).without "_rev").json
      ((Wire.toValue b).without "_rev").json := by
  rw [toValue_without_rev, toValue_without_rev, Wire.toValue_json a.withoutRev.distinct_toJson,
    Wire.toValue_json b.withoutRev.distinct_toJson]
  exact (faithful_toJson a.withoutRev b.withoutRev).symm

theorem contentEq_comm {a b : DesignDocument} : a.contentEq b ↔ b.contentEq a := by
  rw [contentEq_iff_same, contentEq_iff_same]
  exact ⟨Same.symm, Same.symm⟩

theorem equivalence_contentEq : Equivalence fun a b : DesignDocument ↦ a.contentEq b := by
  simp only [contentEq_iff_same]
  exact ⟨fun a ↦ Same.refl _, Same.symm, Same.trans⟩

theorem validate_iff_of_contentEq {a b : DesignDocument} (h : a.contentEq b) :
    a.validate = .ok () ↔ b.validate = .ok () := by
  rw [validate_eq_ok_iff, validate_eq_ok_iff]
  exact ⟨defect?_eq_none_of_contentEq (contentEq_comm.1 h), defect?_eq_none_of_contentEq h⟩

/-- Documents are equal up to the revision just when their values without `_rev` are equal, that
is, differ in the order of members only. -/
theorem contentEq_iff_eq_without_rev :
    (∀ a b : DesignDocument,
      (a.contentEq b ↔ (Wire.toValue a).without "_rev" == (Wire.toValue b).without "_rev") ∧
        (a.contentEq b ↔ Same ((Wire.toValue a).without "_rev").json
          ((Wire.toValue b).without "_rev").json)) ∧
    Equivalence (fun a b : DesignDocument ↦ a.contentEq b) ∧
    (∀ (a b : DesignDocument) (rev : String),
      (a.withRev rev).contentEq b = a.contentEq b ∧ a.withoutRev.contentEq b = a.contentEq b ∧
        a.contentEq (b.withRev rev) = a.contentEq b ∧
        a.contentEq b.withoutRev = a.contentEq b) ∧
    ∀ a b : DesignDocument, a.contentEq b → (a.validate = .ok () ↔ b.validate = .ok ()) := by
  refine ⟨fun a b ↦ ⟨?_, contentEq_iff_same⟩, equivalence_contentEq, ?_,
    fun a b ↦ validate_iff_of_contentEq⟩
  · rw [Value.beq_iff_same]
    exact contentEq_iff_same
  · exact fun a b rev ↦ ⟨rfl, rfl, rfl, rfl⟩

def stored : DesignDocument :=
  { (new "_design/posts").withRev "1-a" with
    filters := some (.ofList [("mine", ⟨"f"⟩), ("open", ⟨"g"⟩)]) }

def redrafted : DesignDocument :=
  { new "_design/posts" with filters := some (.ofList [("open", ⟨"g"⟩), ("mine", ⟨"f"⟩)]) }

theorem validate_stored_iff_redrafted :
    stored.contentEq redrafted ∧ (stored.validate = .ok () ↔ redrafted.validate = .ok ()) := by
  have h : stored.contentEq redrafted := by decide
  exact ⟨h, contentEq_iff_eq_without_rev.2.2.2 stored redrafted h⟩

end DesignDocument

end DesignDocs
