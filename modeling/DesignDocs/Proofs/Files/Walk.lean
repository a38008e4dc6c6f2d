import DesignDocs.Files.Walk
import DesignDocs.Proofs.Files.Tree
import Mathlib.Data.List.Lex
import Mathlib.Data.String.Basic

namespace DesignDocs

namespace FileTree

variable {entries : List (String × FileNode)}

theorem pairwise_sortedEntries (hnames : (entries.map Prod.fst).Nodup) :
    (sortedEntries entries).Pairwise (·.1 < ·.1) := by
  have hle : (sortedEntries entries).Pairwise (·.1 ≤ ·.1) := by
    refine (List.pairwise_mergeSort ?_ ?_ entries).imp of_decide_eq_true
    · intro x y z hxy hyz
      exact decide_eq_true (le_trans (of_decide_eq_true hxy) (of_decide_eq_true hyz))
    · intro x y
      simpa using le_total x.1 y.1
  have hne : (sortedEntries entries).Pairwise (·.1 ≠ ·.1) := by
    have hsorted := (List.mergeSort_perm entries fun x y ↦ decide (x.1 ≤ y.1)).map Prod.fst
    exact List.pairwise_map.1 (hsorted.nodup_iff.2 hnames)
  exact (hle.and hne).imp fun h ↦ lt_of_le_of_ne h.1 h.2

end FileTree

namespace FileNode

/-- The files below a node, each after all that have a lesser name in the same directory. -/
def listing : FileNode → List (Place × ByteArray)
  | file bytes => [([], bytes)]
  | link _ => []
  | directory entries =>
    (FileTree.sortedEntries entries).attach.flatMap fun ⟨(name, node), _h⟩ ↦
      node.listing.map fun f ↦ (name :: f.1, f.2)
decreasing_by
  have := List.sizeOf_lt_of_mem (FileTree.mem_sortedEntries.1 _h)
  simp only [Prod.mk.sizeOf_spec] at this
  simp only [directory.sizeOf_spec]
  omega

theorem listing_directory (entries : List (String × FileNode)) :
    (directory entries).listing = (FileTree.sortedEntries entries).flatMap fun e ↦
      e.2.listing.map fun f ↦ (e.1 :: f.1, f.2) := by
  rw [listing, List.flatMap_subtype (fun _ _ ↦ rfl), List.unattach_attach]

/-- A tree of files and directories: no links, and names that entries of a directory may have. -/
inductive Plain : FileNode → Prop
  | file (bytes : ByteArray) : Plain (.file bytes)
  | directory {entries : List (String × FileNode)} (nodup : (entries.map Prod.fst).Nodup)
      (names : ∀ e ∈ entries, Path.IsName e.1) (below : ∀ e ∈ entries, Plain e.2) :
      Plain (.directory entries)

variable {n : FileNode} {entries : List (String × FileNode)}

theorem Plain.not_link (h : n.Plain) (target : String) : n ≠ .link target := by
  rintro rfl
  cases h

theorem Plain.nodup (h : (FileNode.directory entries).Plain) : (entries.map Prod.fst).Nodup := by
  cases h with
  | directory hnodup => exact hnodup

theorem child?_eq_some_iff (hnames : (entries.map Prod.fst).Nodup) {name : String} :
    (directory entries).child? name = some n ↔ (name, n) ∈ entries := by
  rw [child?]
  exact NamedMap.lookup_eq_some_iff hnames

theorem Plain.entry (h : (FileNode.directory entries).Plain) {name : String}
    (he : (name, n) ∈ entries) :
    Path.IsName name ∧ n.Plain ∧ (FileNode.directory entries).child? name = some n := by
  cases h with
  | directory hnodup hnames hbelow =>
    exact ⟨hnames _ he, hbelow _ he, (child?_eq_some_iff hnodup).2 he⟩

theorem Plain.mem_listing (h : n.Plain) {place : Place} {bytes : ByteArray} :
    (place, bytes) ∈ n.listing ↔ n.at? place = some (.file bytes) := by
  induction h generalizing place with
  | file content =>
    cases place with
    | nil => simp [listing, at?, eq_comm]
    | cons name place => simp [listing, at?, child?]
  | @directory entries hnodup _ _ ih =>
    rw [listing_directory, List.mem_flatMap]
    cases place with
    | nil => simp [at?]
    | cons name place =>
      rw [at?, Option.bind_eq_some_iff]
      constructor
      · rintro ⟨e, he, hlisted⟩
        obtain ⟨f, hf, heq⟩ := List.mem_map.1 hlisted
        cases heq
        have hmem := FileTree.mem_sortedEntries.1 he
        exact ⟨e.2, (child?_eq_some_iff hnodup).2 hmem, (ih e hmem).1 hf⟩
      · rintro ⟨child, hchild, hat⟩
        have hmem := (child?_eq_some_iff hnodup).1 hchild
        exact ⟨(name, child), FileTree.mem_sortedEntries.2 hmem,
          List.mem_map.2 ⟨(place, bytes), (ih _ hmem).2 hat, rfl⟩⟩

theorem Plain.pairwise_listing (h : n.Plain) : n.listing.Pairwise (·.1 < ·.1) := by
  induction h with
  | file => simp [listing]
  | @directory entries hnodup _ _ ih =>
    rw [listing_directory, List.pairwise_flatMap]
    constructor
    · intro e he
      refine List.pairwise_map.2 ((ih e (FileTree.mem_sortedEntries.1 he)).imp fun hlt ↦ ?_)
      exact List.cons_lt_cons_iff.2 (.inr ⟨rfl, hlt⟩)
    · refine (FileTree.pairwise_sortedEntries hnodup).imp fun hlt f hf g hg ↦ ?_
      obtain ⟨f, -, rfl⟩ := List.mem_map.1 hf
      obtain ⟨g, -, rfl⟩ := List.mem_map.1 hg
      exact List.cons_lt_cons_iff.2 (.inl hlt)

/-- The same tree with the entries of its directories in another order. -/
inductive Relisted : FileNode → FileNode → Prop
  | file (bytes : ByteArray) : Relisted (.file bytes) (.file bytes)
  | directory {entries relisted : List (String × FileNode)}
      (names : (entries.map Prod.fst).Perm (relisted.map Prod.fst))
      (below : ∀ e ∈ entries, ∀ f ∈ relisted, e.1 = f.1 → Relisted e.2 f.2) :
      Relisted (.directory entries) (.directory relisted)

theorem Relisted.at?_eq_file {m : FileNode} (h : Relisted n m) (hn : n.Plain) (hm : m.Plain)
    {place : Place} {bytes : ByteArray} (hat : n.at? place = some (.file bytes)) :
    m.at? place = some (.file bytes) := by
  induction h generalizing place with
  | file => exact hat
  | @directory entries relisted hnames _ ih =>
    cases hn with
    | directory hnodup _ hplain =>
      cases hm with
      | directory hnodup' _ hplain' =>
        cases place with
        | nil => simp [at?] at hat
        | cons name place =>
          rw [at?, Option.bind_eq_some_iff] at hat ⊢
          obtain ⟨child, hchild, hat⟩ := hat
          have hmem := (child?_eq_some_iff hnodup).1 hchild
          obtain ⟨e, he, rfl⟩ := List.mem_map.1
            (hnames.mem_iff.1 (List.mem_map_of_mem (f := Prod.fst) hmem))
          exact ⟨e.2, (child?_eq_some_iff hnodup').2 he,
            ih _ hmem _ he rfl (hplain _ hmem) (hplain' _ he) hat⟩

theorem Relisted.symm {m : FileNode} (h : Relisted n m) : Relisted m n := by
  induction h with
  | file bytes => exact .file bytes
  | directory hnames _ ih =>
    exact .directory hnames.symm fun f hf e he hname ↦ ih e he f hf hname.symm

theorem Relisted.at?_eq_file_iff {m : FileNode} (h : Relisted n m) (hn : n.Plain) (hm : m.Plain)
    {place : Place} {bytes : ByteArray} :
    n.at? place = some (.file bytes) ↔ m.at? place = some (.file bytes) :=
  ⟨h.at?_eq_file hn hm, h.symm.at?_eq_file hm hn⟩

end FileNode

namespace Path

def under (path : String) (place : Place) : String := place.foldl join path

theorem under_cons (path name : String) (place : Place) :
    under path (name :: place) = under (join path name) place := rfl

end Path

namespace FileTree

variable {t : FileTree} {path name : String} {place below : Place}
  {entries inner : List (String × FileNode)} {bytes : ByteArray}

/-- A path that leads to a directory without links below it, all of whose directories have paths
that are short enough to be listed. The tree stands at a location not written with a slash at its
end. -/
structure Walkable (t : FileTree) (path : String) (entries : List (String × FileNode)) : Prop where
  location : t.location.toList.getLast? ≠ some '/'
  found : ∃ place, t.find path = .ok (place, .directory entries)
  plain : (FileNode.directory entries).Plain
  short : ∀ below inner, (FileNode.directory entries).at? below = some (.directory inner) →
    (Path.under path below).utf8ByteSize ≤ pathLimit

namespace Walkable

theorem short_child (h : t.Walkable path entries) (he : (name, FileNode.directory inner) ∈ entries)
    (below : Place) (innermost : List (String × FileNode))
    (hat : (FileNode.directory inner).at? below = some (.directory innermost)) :
    (Path.under (Path.join path name) below).utf8ByteSize ≤ pathLimit := by
  refine h.short (name :: below) innermost ?_
  rw [FileNode.at?, (h.plain.entry he).2.2]
  exact hat

theorem find_directory (h : t.Walkable path entries)
    (hfind : t.find path = .ok (place, .directory entries))
    (he : (name, FileNode.directory inner) ∈ entries) :
    t.find (Path.join path name) = .ok (place ++ [name], .directory inner) := by
  obtain ⟨hname, -, hlookup⟩ := h.plain.entry he
  exact find_join h.location hfind hname hlookup nofun (h.short_child he [] inner rfl)

theorem child (h : t.Walkable path entries) (he : (name, FileNode.directory inner) ∈ entries) :
    t.Walkable (Path.join path name) inner where
  location := h.location
  found := by
    obtain ⟨place, hfind⟩ := h.found
    exact ⟨_, h.find_directory hfind he⟩
  plain := (h.plain.entry he).2.1
  short := h.short_child he

end Walkable

/-- The walk of a directory without links yields what the directory lists, and meets no fault. -/
theorem visit_eq {path : String} {place : Place} {entries : List (String × FileNode)}
    (h : t.Walkable path entries)
    (hfind : t.find path = .ok (place, .directory entries)) (follow : Bool) (links : Nat)
    (outer : List Station) :
    t.visit follow links outer ⟨place, path⟩ entries =
      (FileNode.directory entries).listing.map fun f ↦ .ok (Path.under path f.1) := by
  rw [visit, FileNode.listing_directory, List.map_flatMap]
  refine (List.flatMap_subtype (g := fun e ↦ (e.2.listing.map fun f ↦ (e.1 :: f.1, f.2)).map
    fun f ↦ .ok (Path.under path f.1)) ?_).trans (by rw [List.unattach_attach])
  rintro ⟨name, node⟩ hsorted
  have he := mem_sortedEntries.1 hsorted
  cases node with
  | file bytes => simp [FileNode.listing, Path.under]
  | link target => exact absurd rfl ((h.plain.entry he).2.1.not_link target)
  | directory inner =>
    have hinner := h.find_directory hfind he
    simp only [hinner]
    rw [visit_eq (h.child he) hinner, List.map_map]
    rfl
termination_by sizeOf entries
decreasing_by exact sizeOf_directory_lt he

/-- A file below the directory is read by its path, unless that path is too long. -/
theorem readFile_under (h : t.Walkable path entries)
    (hat : (FileNode.directory entries).at? below = some (.file bytes)) :
    t.readFile (Path.under path below) =
      if pathLimit < (Path.under path below).utf8ByteSize then .error .nameTooLong
      else .ok bytes := by
  induction below generalizing path entries with
  | nil => cases hat
  | cons name below ih =>
    rw [FileNode.at?, Option.bind_eq_some_iff] at hat
    obtain ⟨node, hchild, hat⟩ := hat
    have he := (FileNode.child?_eq_some_iff h.plain.nodup).1 hchild
    obtain ⟨hname, hplain, -⟩ := h.plain.entry he
    rw [Path.under_cons]
    cases node with
    | directory inner => exact ih (h.child he) hat
    | link target => exact absurd rfl (hplain.not_link target)
    | file content =>
      cases below with
      | cons => simp [FileNode.at?, FileNode.child?] at hat
      | nil =>
        obtain ⟨place, hfind⟩ := h.found
        cases hat
        rw [readFile]
        split
        · next hlong =>
          rw [Path.under, List.foldl_nil] at hlong
          have hnul := Path.nul_notMem_join (admissible_of_find hfind).no_nul hname
          rw [Path.under, List.foldl_nil, find_of_long hnul hlong]
          rfl
        · next hshort =>
          have hfile := find_join h.location hfind hname hchild (by simp) (Nat.not_lt.1 hshort)
          rw [Path.under, List.foldl_nil, hfile]
          rfl

end FileTree

end DesignDocs
