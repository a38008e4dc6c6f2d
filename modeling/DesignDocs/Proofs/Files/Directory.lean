import DesignDocs.Files.Load
import DesignDocs.Proofs.Files.Saved
import DesignDocs.Proofs.Files.Walk

namespace DesignDocs

namespace LoadSettings

/-- One of the given extensions, without the dots that begin it, is that of the name up to the case
of ASCII letters; or no extensions are given. -/
def Wanted (given : List String) (name : String) : Prop :=
  given = [] ∨ ∃ extension, Path.HasExtension name extension ∧
    ∃ g ∈ given, (g.toList.dropWhile (· == '.')).map Char.toLower =
      extension.toList.map Char.toLower

/-- A letter made small is no capital. -/
theorem toLower_toLower (c : Char) : c.toLower.toLower = c.toLower := by
  by_cases h : c.val ≥ 'A'.val ∧ c.val ≤ 'Z'.val
  · have hlower : c.toLower.val = c.val + ('a'.val - 'A'.val) := congrArg Char.val (dif_pos h)
    refine dif_neg ?_
    simp only [hlower, ge_iff_le, UInt32.le_iff_toNat_le, UInt32.toNat_add, Char.reduceVal,
      UInt32.reduceSub, UInt32.reduceToNat] at h ⊢
    omega
  · have hsmall : c.toLower = c := dif_neg h
    rw [hsmall, hsmall]

theorem sameExtension_plainExtension_iff (g extension : String) :
    sameExtension (plainExtension g) extension = true ↔
      (g.toList.dropWhile (· == '.')).map Char.toLower = extension.toList.map Char.toLower := by
  rw [sameExtension, plainExtension, beq_iff_eq, String.toList_ofList, List.map_map]
  refine Eq.congr_left (List.map_congr_left fun c _ ↦ toLower_toLower c)

theorem accepts_join_iff (c : LoadSettings) (given : List String) (path : String) {name : String}
    (hname : Path.IsName name) :
    (c.withExtensions given).accepts (Path.join path name) = true ↔ Wanted given name := by
  rw [accepts, Path.extension?, Path.fileName?_join hname, Option.bind_some, Bool.or_eq_true,
    withExtensions, List.isEmpty_iff, List.map_eq_nil_iff, Wanted]
  refine or_congr_right ?_
  cases hext : Path.extensionOf name with
  | none =>
    refine iff_of_false Bool.false_ne_true ?_
    rintro ⟨extension, hextension, -⟩
    rw [Path.extensionOf_eq_some_iff.2 hextension] at hext
    cases hext
  | some extension =>
    have hextension := Path.extensionOf_eq_some_iff.1 hext
    simp only [List.any_map, List.any_eq_true, Function.comp_apply,
      sameExtension_plainExtension_iff]
    constructor
    · rintro ⟨g, hg, hsame⟩
      exact ⟨extension, hextension, g, hg, hsame⟩
    · rintro ⟨extension', hextension', g, hg, hsame⟩
      rw [Path.extensionOf_eq_some_iff.2 hextension', Option.some.injEq] at hext
      exact ⟨g, hg, hext ▸ hsame⟩

end LoadSettings

namespace FileNode

/-- All the files below a node whose names are wanted, each once, ordered by their places: what
stands in a directory takes the place of the directory among its neighbours. -/
structure InOrder (root : FileNode) (wanted : String → Prop) (files : List (Place × ByteArray)) :
    Prop where
  ordered : files.Pairwise (·.1 < ·.1)
  mem_iff : ∀ place bytes, (place, bytes) ∈ files ↔
    root.at? place = some (.file bytes) ∧ ∃ name ∈ place.getLast?, wanted name

theorem InOrder.eq_of_agree {root root' : FileNode} {wanted : String → Prop}
    {files files' : List (Place × ByteArray)} (h : root.InOrder wanted files)
    (h' : root'.InOrder wanted files')
    (hagree : ∀ place bytes, (∃ name ∈ place.getLast?, wanted name) →
      (root.at? place = some (.file bytes) ↔ root'.at? place = some (.file bytes))) :
    files = files' := by
  have hnodup : ∀ {l : List (Place × ByteArray)}, l.Pairwise (·.1 < ·.1) → l.Nodup := fun hl ↦
    hl.imp fun hlt ↦ ne_of_apply_ne Prod.fst hlt.ne
  have hperm : files.Perm files' := by
    rw [List.perm_ext_iff_of_nodup (hnodup h.ordered) (hnodup h'.ordered)]
    rintro ⟨place, bytes⟩
    rw [h.mem_iff, h'.mem_iff]
    exact and_congr_left fun hwanted ↦ hagree place bytes hwanted
  exact hperm.eq_of_pairwise (fun f g _ _ hlt hgt ↦ absurd hlt (lt_asymm hgt)) h.ordered h'.ordered

variable {n : FileNode} {entries : List (String × FileNode)}

theorem Plain.at? (h : n.Plain) {place : Place} {m : FileNode} (hat : n.at? place = some m) :
    m.Plain := by
  induction place generalizing n with
  | nil =>
    cases hat
    exact h
  | cons name place ih =>
    obtain ⟨child, hchild, hbelow⟩ := Option.bind_eq_some_iff.1 hat
    cases n with
    | directory entries =>
      exact ih (h.entry ((child?_eq_some_iff h.nodup).1 hchild)).2.1 hbelow
    | _ => cases hchild

theorem Plain.exists_name (h : (FileNode.directory entries).Plain) {place : Place}
    {bytes : ByteArray} (hat : (FileNode.directory entries).at? place = some (.file bytes)) :
    ∃ parent name, place = parent ++ [name] ∧ Path.IsName name := by
  obtain rfl | ⟨parent, name, rfl⟩ := List.eq_nil_or_concat' place
  · cases hat
  · refine ⟨parent, name, rfl, ?_⟩
    rw [at?_append, Option.bind_eq_some_iff] at hat
    obtain ⟨m, hm, hat⟩ := hat
    obtain ⟨child, hchild, -⟩ := Option.bind_eq_some_iff.1 hat
    have hplain := h.at? hm
    cases m with
    | directory inner => exact (hplain.entry ((child?_eq_some_iff hplain.nodup).1 hchild)).1
    | _ => cases hchild

end FileNode

namespace FileTree

variable {t t' : FileTree} {path : String} {entries entries' : List (String × FileNode)}
  {files : List (Place × ByteArray)} {c : LoadSettings}

theorem loadWalked_map_ok (t : FileTree) (c : LoadSettings) (paths : List String) :
    t.loadWalked c (paths.map .ok) = (paths.filter c.accepts).mapM (t.loadFile c) := by
  induction paths with
  | nil => rfl
  | cons path paths ih =>
    rw [List.map_cons, loadWalked, ih]
    split
    · next h => rw [List.filter_cons_of_pos h, List.mapM_cons]
    · next h => rw [List.filter_cons_of_neg h]

theorem under_concat (path : String) (parent : Place) (name : String) :
    Path.under path (parent ++ [name]) = Path.join (Path.under path parent) name := by
  rw [Path.under, List.foldl_append, Path.under]
  rfl

def wantedFiles (c : LoadSettings) (path : String) (entries : List (String × FileNode)) :
    List (Place × ByteArray) :=
  (FileNode.directory entries).listing.filter fun f ↦ c.accepts (Path.under path f.1)

theorem inOrder_wantedFiles (c : LoadSettings) (given : List String) (path : String)
    (h : (FileNode.directory entries).Plain) :
    (FileNode.directory entries).InOrder (LoadSettings.Wanted given)
      (wantedFiles (c.withExtensions given) path entries) where
  ordered := h.pairwise_listing.filter _
  mem_iff place bytes := by
    rw [wantedFiles, List.mem_filter, h.mem_listing]
    refine and_congr_right fun hat ↦ ?_
    obtain ⟨parent, name, rfl, hname⟩ := h.exists_name hat
    rw [under_concat, LoadSettings.accepts_join_iff c given _ hname, List.getLast?_concat]
    simp

theorem loadDirectory_eq_mapM (h : t.Walkable path entries) (c : LoadSettings) :
    t.loadDirectory c path =
      (wantedFiles c path entries).mapM fun f ↦ t.loadFile c (Path.under path f.1) := by
  obtain ⟨place, hfind⟩ := h.found
  have hfiles : t.files c.followLinks path place entries =
      ((FileNode.directory entries).listing.map fun f ↦ Path.under path f.1).map .ok := by
    rw [files, visit_eq h hfind, List.map_map]
    rfl
  rw [loadDirectory, hfind]
  simp only [hfiles]
  rw [loadWalked_map_ok, List.filter_map, List.mapM_map, wantedFiles]
  rfl

theorem loadFile_eq_of_at? (h : t.Walkable path entries) (h' : t'.Walkable path entries')
    (c : LoadSettings) {place : Place} {bytes : ByteArray}
    (hat : (FileNode.directory entries).at? place = some (.file bytes))
    (hat' : (FileNode.directory entries').at? place = some (.file bytes)) :
    t'.loadFile c (Path.under path place) = t.loadFile c (Path.under path place) := by
  rw [loadFile, loadFile, readDocument, readDocument, readFile_under h hat, readFile_under h' hat']

/-- Files whose names are not wanted have no part in what is loaded. -/
theorem loadDirectory_eq_of_agree (h : t.Walkable path entries) (h' : t'.Walkable path entries')
    (c : LoadSettings) (given : List String)
    (hagree : ∀ place bytes, (∃ name ∈ place.getLast?, LoadSettings.Wanted given name) →
      ((FileNode.directory entries).at? place = some (.file bytes) ↔
        (FileNode.directory entries').at? place = some (.file bytes))) :
    t'.loadDirectory (c.withExtensions given) path =
      t.loadDirectory (c.withExtensions given) path := by
  have horder := inOrder_wantedFiles c given path h.plain
  have horder' := inOrder_wantedFiles c given path h'.plain
  rw [loadDirectory_eq_mapM h, loadDirectory_eq_mapM h', ← horder.eq_of_agree horder' hagree]
  refine Except.mapM_congr_of_mem fun f hf ↦ ?_
  obtain ⟨hat, hwanted⟩ := (horder.mem_iff f.1 f.2).1 hf
  exact loadFile_eq_of_at? h h' _ hat ((hagree f.1 f.2 hwanted).1 hat)

theorem exists_cause_of_loadFile {c : LoadSettings} {e : DesignError}
    (h : t.loadFile c path = .error e) :
    ∃ cause, t.readDocument c path = .error cause ∧
      e = .because cause.kind ("Failed to load design document from " ++ path) cause := by
  rw [loadFile] at h
  cases hread : t.readDocument c path with
  | ok d =>
    rw [hread] at h
    cases h
  | error cause =>
    rw [hread, Except.mapError_error] at h
    cases h
    exact ⟨cause, rfl, rfl⟩

/-- A directory loads as the documents of its wanted files in order, or fails as the first of these
files does that fails. Nothing else below the directory matters, and no order of entries. -/
theorem loadDirectory_in_order (h : t.Walkable path entries) (c : LoadSettings)
    (given : List String) :
    ∃ files, (FileNode.directory entries).InOrder (LoadSettings.Wanted given) files ∧
      (∀ ds, List.Forall₂
        (fun f d ↦ t.loadFile (c.withExtensions given) (Path.under path f.1) = .ok d) files ds →
        t.loadDirectory (c.withExtensions given) path = .ok ds) ∧
      (∀ before f after e, files = before ++ f :: after →
        (∀ g ∈ before, ∃ d, t.loadFile (c.withExtensions given) (Path.under path g.1) = .ok d) →
        t.loadFile (c.withExtensions given) (Path.under path f.1) = .error e →
        t.loadDirectory (c.withExtensions given) path = .error e ∧
          e.message = "Failed to load design document from " ++ Path.under path f.1) ∧
      (∀ t' entries', FileTree.Walkable t' path entries' →
        (∀ place bytes, (∃ name ∈ place.getLast?, LoadSettings.Wanted given name) →
          ((FileNode.directory entries).at? place = some (.file bytes) ↔
            (FileNode.directory entries').at? place = some (.file bytes))) →
        t'.loadDirectory (c.withExtensions given) path =
          t.loadDirectory (c.withExtensions given) path) ∧
      ∀ t' entries', FileTree.Walkable t' path entries' →
        (FileNode.directory entries).Relisted (.directory entries') →
        t'.loadDirectory (c.withExtensions given) path =
          t.loadDirectory (c.withExtensions given) path := by
  refine ⟨wantedFiles (c.withExtensions given) path entries, inOrder_wantedFiles c given path
    h.plain, ?loaded, ?failed, fun _ _ h' ↦ loadDirectory_eq_of_agree h h' c given, ?relisted⟩
  case loaded =>
    intro ds hds
    rw [loadDirectory_eq_mapM h, Except.mapM_eq_ok_of_forall₂ hds]
  case failed =>
    intro before f after e hsplit hbefore hf
    obtain ⟨cause, -, rfl⟩ := exists_cause_of_loadFile hf
    rw [loadDirectory_eq_mapM h, hsplit, Except.mapM_eq_error_of_append hbefore hf]
    exact ⟨rfl, rfl⟩
  case relisted =>
    intro t' entries' h' hrelisted
    exact loadDirectory_eq_of_agree h h' c given fun _ _ _ ↦
      hrelisted.at?_eq_file_iff h.plain h'.plain

theorem short_of_entries (hnames : (entries.map Prod.fst).Nodup)
    (hpath : path.utf8ByteSize ≤ pathLimit)
    (h : ∀ name inner, (name, FileNode.directory inner) ∈ entries → ∀ below innermost,
      (FileNode.directory inner).at? below = some (.directory innermost) →
        (Path.under (Path.join path name) below).utf8ByteSize ≤ pathLimit)
    (below : Place) (inner : List (String × FileNode))
    (hat : (FileNode.directory entries).at? below = some (.directory inner)) :
    (Path.under path below).utf8ByteSize ≤ pathLimit := by
  cases below with
  | nil => exact hpath
  | cons name below =>
    obtain ⟨child, hchild, hat⟩ := Option.bind_eq_some_iff.1 hat
    have hmem := (FileNode.child?_eq_some_iff hnames).1 hchild
    cases child with
    | directory entries' => exact h name entries' hmem below inner hat
    | file | link => cases below <;> cases hat

def bare (id : String) : ByteArray := (Wire.toText (DesignDocument.new id)).toUTF8

theorem ofText_bare (id : String) :
    Wire.ofText (Wire.toText (DesignDocument.new id)) = .ok (DesignDocument.new id) :=
  Wire.ofText_toText (DesignDocument.new id).reads_toJson ⟨trivial, trivial⟩
    (by decide : 1 ≤ Json.depthLimit)

theorem documentOf_bare_iff {id : String} {d : DesignDocument} :
    documentOf c (bare id) = .ok d ↔
      d = c.completed (.new id) ∧ (c.validate → d.validate = .ok ()) := by
  rw [documentOf_eq_ok_iff, bare, Text.Utf8.decode_toUTF8]
  constructor
  · rintro ⟨_, e, ⟨⟩, he, hd, hvalid⟩
    cases (ofText_bare id).symm.trans he
    exact ⟨hd, hvalid⟩
  · rintro ⟨hd, hvalid⟩
    exact ⟨_, _, rfl, ofText_bare id, hd, hvalid⟩

/-- Documents in a directory with another in it, their entries not in order, and notes. -/
def nested (notes : ByteArray) : List (String × FileNode) :=
  [("notes.txt", .file notes),
    ("sub", .directory [("z.json", .file (bare "z")), ("a.JS", .file (bare "_design/a"))]),
    ("b.json", .file (bare "b"))]

def shelf (notes : ByteArray) : FileTree := ⟨"/srv", .directory (nested notes)⟩

theorem walkable_shelf (notes : ByteArray) : (shelf notes).Walkable "/srv" (nested notes) where
  location := (by decide : "/srv".toList.getLast? ≠ some '/')
  found := ⟨[], find_location ⟨(by decide : '\x00' ∉ "/srv".toList),
    (by decide : "/srv".utf8ByteSize ≤ pathLimit)⟩⟩
  plain := by
    have hnames : ∀ name ∈ ["notes.txt", "sub", "b.json"], Path.IsName name := by decide
    have hsub : (FileNode.directory [("z.json", .file (bare "z")),
        ("a.JS", .file (bare "_design/a"))]).Plain :=
      .directory (by decide) (by decide) (by simp [FileNode.Plain.file])
    exact .directory (by decide : ["notes.txt", "sub", "b.json"].Nodup)
      (fun e he ↦ hnames e.1 (List.mem_map_of_mem he))
      (by simp [nested, hsub, FileNode.Plain.file])
  short := by
    refine short_of_entries (by simp [nested]) (by decide) fun name inner hinner ↦ ?_
    obtain ⟨rfl, rfl⟩ : name = "sub" ∧ inner = _ := by simpa [nested] using hinner
    exact short_of_entries (by simp) (by decide) (by simp)

theorem listing_nested (notes : ByteArray) : (FileNode.directory (nested notes)).listing =
    [(["b.json"], bare "b"), (["notes.txt"], notes), (["sub", "a.JS"], bare "_design/a"),
      (["sub", "z.json"], bare "z")] := by
  have hsorted : sortedEntries (nested notes) = [("b.json", .file (bare "b")),
      ("notes.txt", .file notes),
      ("sub", .directory [("z.json", .file (bare "z")), ("a.JS", .file (bare "_design/a"))])] := by
    simp [sortedEntries, nested, List.mergeSort]
  have hsub : sortedEntries [("z.json", .file (bare "z")), ("a.JS", .file (bare "_design/a"))] =
      [("a.JS", .file (bare "_design/a")), ("z.json", .file (bare "z"))] := by
    simp [sortedEntries, List.mergeSort]
  simp [FileNode.listing_directory, hsorted, hsub, FileNode.listing]

theorem loadFile_shelf_iff {notes : ByteArray} {place : Place} {id : String} {d : DesignDocument}
    (hat : (FileNode.directory (nested notes)).at? place = some (.file (bare id)))
    (hshort : (Path.under "/srv" place).utf8ByteSize ≤ pathLimit) :
    (shelf notes).loadFile c (Path.under "/srv" place) = .ok d ↔
      d = c.completed (.new id) ∧ (c.validate → d.validate = .ok ()) := by
  rw [loadFile_eq_ok_iff, readFile_under (walkable_shelf notes) hat, if_neg (Nat.not_lt.2 hshort)]
  simp only [Except.ok.injEq, exists_eq_left', documentOf_bare_iff]

theorem at?_nested_iff {notes notes' bytes : ByteArray} {place : Place}
    (h : ∃ name ∈ place.getLast?, LoadSettings.Wanted [".Js", "JSON"] name) :
    (FileNode.directory (nested notes)).at? place = some (.file bytes) ↔
      (FileNode.directory (nested notes')).at? place = some (.file bytes) := by
  have hplace : place ≠ ["notes.txt"] := by
    rintro rfl
    obtain ⟨name, hname, hwanted⟩ := h
    cases hname
    have haccepts := (LoadSettings.accepts_join_iff .standard [".Js", "JSON"] "/srv"
      (by decide : Path.IsName "notes.txt")).2 hwanted
    exact absurd haccepts (by decide)
  rw [← (walkable_shelf notes).plain.mem_listing, ← (walkable_shelf notes').plain.mem_listing,
    listing_nested, listing_nested]
  simp [hplace]

/-- The notes are not wanted at first. Later they are, and hold no document with a name. -/
theorem loadDirectory_nested :
    (shelf (bare "_design/")).Walkable "/srv" (nested (bare "_design/")) ∧
      (shelf (bare "_design/")).loadDirectory
          (LoadSettings.standard.withExtensions [".Js", "JSON"]) "/srv" =
        .ok [.new "_design/b", .new "_design/a", .new "_design/z"] ∧
      (shelf ⟨#[0xFF]⟩).loadDirectory
          (LoadSettings.standard.withExtensions [".Js", "JSON"]) "/srv" =
        .ok [.new "_design/b", .new "_design/a", .new "_design/z"] ∧
      ∃ e, (shelf (bare "_design/")).loadDirectory
          (LoadSettings.standard.withExtensions ["txt", "json"]) "/srv" = .error e ∧
        e.message = "Failed to load design document from /srv/notes.txt" := by
  have hw := walkable_shelf (bare "_design/")
  have hwanted : ∀ {given files}, (FileNode.directory (nested (bare "_design/"))).InOrder
      (LoadSettings.Wanted given) files → files = wantedFiles
        (LoadSettings.standard.withExtensions given) "/srv" (nested (bare "_design/")) :=
    fun horder ↦ horder.eq_of_agree (inOrder_wantedFiles _ _ "/srv" hw.plain) fun _ _ _ ↦ Iff.rfl
  obtain ⟨files, horder, hloaded, -, hagree, -⟩ :=
    loadDirectory_in_order hw LoadSettings.standard [".Js", "JSON"]
  have hfiles : files = [(["b.json"], bare "b"), (["sub", "a.JS"], bare "_design/a"),
      (["sub", "z.json"], bare "z")] := by
    rw [hwanted horder, wantedFiles, listing_nested]
    rfl
  subst hfiles
  have hall := hloaded [.new "_design/b", .new "_design/a", .new "_design/z"]
    (.cons ((loadFile_shelf_iff rfl (by decide)).2 ⟨rfl, fun _ ↦ rfl⟩)
      (.cons ((loadFile_shelf_iff rfl (by decide)).2 ⟨rfl, fun _ ↦ rfl⟩)
        (.cons ((loadFile_shelf_iff rfl (by decide)).2 ⟨rfl, fun _ ↦ rfl⟩) .nil)))
  have hstray := hagree (shelf ⟨#[0xFF]⟩) _ (walkable_shelf _) fun _ _ ↦ at?_nested_iff
  refine ⟨hw, hall, hstray.trans hall, ?_⟩
  obtain ⟨files, horder, -, hfailed, -⟩ :=
    loadDirectory_in_order hw LoadSettings.standard ["txt", "json"]
  have hfiles : files = [(["b.json"], bare "b")] ++ (["notes.txt"], bare "_design/") ::
      [(["sub", "z.json"], bare "z")] := by
    rw [hwanted horder, wantedFiles, listing_nested]
    rfl
  cases hnotes : (shelf (bare "_design/")).loadFile
      (LoadSettings.standard.withExtensions ["txt", "json"]) (Path.under "/srv" ["notes.txt"]) with
  | ok d =>
    obtain ⟨rfl, hvalid⟩ := (loadFile_shelf_iff rfl (by decide)).1 hnotes
    cases hvalid rfl
  | error e =>
    refine ⟨e, hfailed _ _ _ e hfiles ?_ hnotes⟩
    rw [List.forall_mem_singleton]
    exact ⟨_, (loadFile_shelf_iff rfl (by decide)).2 ⟨rfl, fun _ ↦ rfl⟩⟩

end FileTree

end DesignDocs
