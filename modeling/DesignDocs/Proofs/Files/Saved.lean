import DesignDocs.Files.Load
import DesignDocs.Proofs.Document.Depth
import DesignDocs.Proofs.Document.RoundTrip
import DesignDocs.Proofs.Document.Validity
import DesignDocs.Proofs.Files.Tree

namespace DesignDocs

theorem Text.Utf8.decode_toUTF8 (s : String) : decode s.toUTF8 = .ok s := by
  have h : String.fromUTF8? s.toUTF8 = some s := by
    rw [String.toUTF8_eq_toByteArray, String.fromUTF8?, dif_pos s.isValidUTF8]
    rfl
  rw [decode, h]

def LoadSettings.completed (c : LoadSettings) (d : DesignDocument) : DesignDocument :=
  if c.completeIds then d.withId (DesignDocument.fullId d.id) else d

namespace LoadSettings

variable (c : LoadSettings)

theorem completed_eq (d : DesignDocument) : c.completed d =
    d.withId (if c.completeIds && !DesignDocument.startsId d.id then
      DesignDocument.idStart ++ d.id else d.id) := by
  rw [completed, DesignDocument.fullId]
  cases c.completeIds <;> cases DesignDocument.startsId d.id <;> rfl

theorem completed_completed (d : DesignDocument) : c.completed (c.completed d) = c.completed d := by
  rw [completed]
  split
  · next h =>
    rw [completed, if_pos h, DesignDocument.withId, DesignDocument.withId,
      DesignDocument.fullId_fullId]
  · rfl

end LoadSettings

namespace FileTree

variable {t : FileTree} {c : LoadSettings} {path : String} {bytes : ByteArray} {d : DesignDocument}

theorem documentOf_eq_ok_iff : documentOf c bytes = .ok d ↔
    ∃ text e, Text.Utf8.decode bytes = .ok text ∧ Wire.ofText text = .ok e ∧ d = c.completed e ∧
      (c.validate → d.validate = .ok ()) := by
  rw [documentOf, Except.bind_eq_ok_iff]
  refine exists_congr fun text ↦ ?_
  rw [Except.mapError_eq_ok_iff, exists_and_left, Except.bind_eq_ok_iff]
  refine and_congr_right fun _ ↦ exists_congr fun e ↦ and_congr_right fun _ ↦ ?_
  change (if c.validate then (c.completed e).validate >>= fun _ ↦ .ok (c.completed e)
    else .ok (c.completed e)) = .ok d ↔ _
  split
  · next hv =>
    rw [Except.bind_eq_ok_iff]
    constructor
    · rintro ⟨⟨⟩, hvalid, he⟩
      cases he
      exact ⟨rfl, fun _ ↦ hvalid⟩
    · rintro ⟨rfl, hvalid⟩
      exact ⟨(), hvalid hv, rfl⟩
  · next hv =>
    rw [Except.ok.injEq, eq_comm]
    exact ⟨fun h ↦ ⟨h, fun hc ↦ absurd hc hv⟩, And.left⟩

theorem loadFile_eq_ok_iff : t.loadFile c path = .ok d ↔
    ∃ bytes, t.readFile path = .ok bytes ∧ documentOf c bytes = .ok d := by
  rw [loadFile, Except.mapError_eq_ok_iff, readDocument, Except.bind_eq_ok_iff]
  simp only [Except.mapError_eq_ok_iff]

theorem loadFile_of_written {text : String} (hread : t.readFile path = .ok text.toUTF8)
    (htext : Wire.ofText text = .ok d) (hcompleted : d = c.completed d)
    (hvalid : c.validate → d.validate = .ok ()) : t.loadFile c path = .ok d :=
  loadFile_eq_ok_iff.2 ⟨_, hread, documentOf_eq_ok_iff.2
    ⟨text, d, Text.Utf8.decode_toUTF8 text, htext, hcompleted, hvalid⟩⟩

theorem depth_toJson_completed (c : LoadSettings) (d : DesignDocument) :
    (c.completed d).toJson.depth = d.toJson.depth := by
  rw [c.completed_eq]
  rfl

/-- A loaded document without floats loads as itself from either of its texts, and differs from
what its file holds in a completed id at most. -/
theorem loadFile_written (h : t.loadFile c path = .ok d) (hi : d.toJson.Integral) :
    (∀ (t' : FileTree) (path' : String), (t'.readFile path' = .ok (Wire.toText d).toUTF8 ∨
      t'.readFile path' = .ok (Wire.toPrettyText d).toUTF8) → t'.loadFile c path' = .ok d) ∧
    (∃ (bytes : ByteArray) (text : String) (e : DesignDocument),
      t.readFile path = .ok bytes ∧ Text.Utf8.decode bytes = .ok text ∧ Wire.ofText text = .ok e ∧
      d = e.withId (if c.completeIds && !DesignDocument.startsId e.id then
        DesignDocument.idStart ++ e.id else e.id)) ∧
    (c.validate → d.validate = .ok ()) ∧ d.toJson.depth ≤ Json.depthLimit := by
  obtain ⟨bytes, hread, hdocument⟩ := loadFile_eq_ok_iff.1 h
  obtain ⟨text, e, hdecode, htext, hd, hvalid⟩ := documentOf_eq_ok_iff.1 hdocument
  have hcompleted : d = c.completed d := by rw [hd, c.completed_completed]
  have hdepth : d.toJson.depth ≤ Json.depthLimit := by
    rw [hd, depth_toJson_completed]
    exact DesignDocument.depth_toJson_of_ofText htext
  obtain ⟨hcompact, hpretty, -⟩ := d.ofText_written hi hdepth
  refine ⟨?_, ⟨bytes, text, e, hread, hdecode, htext, hd.trans (c.completed_eq e)⟩, hvalid, hdepth⟩
  rintro t' path' (hread' | hread')
  · exact loadFile_of_written hread' hcompact hcompleted hvalid
  · exact loadFile_of_written hread' hpretty hcompleted hvalid

/-- A document whose id lacks its beginning, with a rule given as an array, a rule with a member
that is passed over, a null and a section that is empty. -/
def loose : Json :=
  .object [("rewrites", .array [.array [.string "/old", .string "/new"],
      .object [("to", .string "/"), ("note", .array [.null])]]),
    ("language", .null), ("filters", .object []), ("_id", .string "posts")]

def tidied : DesignDocument :=
  { DesignDocument.new "_design/posts" with
    filters := some .empty
    rewrites := some [.new "/old" "/new", ⟨none, "/", none, none⟩] }

theorem loadFile_written_loose :
    ∃ t : FileTree, t.loadFile .standard "/srv/posts.json" = .ok tidied ∧
      ∀ (t' : FileTree) (path' : String),
        t'.readFile path' = .ok (Wire.toPrettyText tidied).toUTF8 →
          t'.loadFile .standard path' = .ok tidied := by
  let t : FileTree := ⟨"/srv/posts.json", .file loose.render.toUTF8⟩
  have hread : t.readFile t.location = .ok loose.render.toUTF8 := by
    rw [readFile, find_location ⟨by decide, by decide⟩]
    rfl
  have htext : Wire.ofText loose.render = .ok { tidied with id := "posts" } := by
    rw [Wire.ofText, Wire.ofSymbols_of_spells (Json.spells_render (by decide) (by decide))]
    rfl
  have h : t.loadFile .standard t.location = .ok tidied :=
    loadFile_eq_ok_iff.2 ⟨_, hread, documentOf_eq_ok_iff.2
      ⟨_, _, Text.Utf8.decode_toUTF8 _, htext, rfl, fun _ ↦ rfl⟩⟩
  exact ⟨t, h, fun t' path' h' ↦ (loadFile_written h (by decide)).1 t' path' (.inr h')⟩

end FileTree

end DesignDocs
