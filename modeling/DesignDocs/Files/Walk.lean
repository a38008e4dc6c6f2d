import DesignDocs.Files.Tree

namespace DesignDocs

inductive WalkFault
  | system (path : String) (f : SystemFault)
  | loop (path ancestor : String)
  deriving DecidableEq

def WalkFault.error : WalkFault → DesignError
  | system path f =>
    .of f.systemKind.kind
      ("Directory walk error: IO error for operation on " ++ path ++ ": " ++ f.message)
  | loop path ancestor =>
    .of .inputOutput
      ("Directory walk error: File system loop found: " ++ path ++ " points to an ancestor " ++
        ancestor)

/-- A directory being walked: where it stands, and the path by which it was reached. -/
structure Station where
  place : Place
  path : String

namespace FileTree

def sortedEntries (entries : List (String × FileNode)) : List (String × FileNode) :=
  entries.mergeSort fun x y ↦ decide (x.1 ≤ y.1)

theorem mem_sortedEntries {entries : List (String × FileNode)} {e : String × FileNode} :
    e ∈ sortedEntries entries ↔ e ∈ entries :=
  List.mem_mergeSort

theorem sizeOf_directory_lt {entries inner : List (String × FileNode)} {name : String}
    (h : (name, FileNode.directory inner) ∈ entries) : sizeOf inner < sizeOf entries := by
  have := List.sizeOf_lt_of_mem h
  simp only [Prod.mk.sizeOf_spec, FileNode.directory.sizeOf_spec] at this
  omega

/-- The paths of the files in a directory, in the order of the walk, and the faults met among them.
The directory stands inside the stations `outer`, the innermost first. Its entries are reached by
their whole paths, so that no more links are followed on the way to one than a path may have. -/
def visit (t : FileTree) (follow : Bool) (links : Nat) (outer : List Station) (here : Station)
    (entries : List (String × FileNode)) : List (Except WalkFault String) :=
  (sortedEntries entries).attach.flatMap fun ⟨(name, node), _h⟩ ↦
    let path := Path.join here.path name
    let stations := here :: outer
    match node with
    | .file _ => [.ok path]
    | .directory inner =>
      match t.find path with
      | .error f => [.error (.system path f)]
      | .ok (place, _) => t.visit follow links stations ⟨place, path⟩ inner
    | .link _ =>
      if follow then
        match t.find path with
        | .error f => [.error (.system path f)]
        | .ok (place, .directory inner) =>
          match stations.find? fun s ↦ s.place == place, links with
          | some s, _ => [.error (.loop path s.path)]
          | none, 0 => [.error (.system path .tooManyLinks)]
          | none, links + 1 => t.visit follow links stations ⟨place, path⟩ inner
        | .ok _ => [.ok path]
      else []
termination_by (links, sizeOf entries)
decreasing_by
  · exact .right _ (sizeOf_directory_lt (mem_sortedEntries.1 _h))
  · exact .left _ _ (Nat.lt_succ_self _)

def files (t : FileTree) (follow : Bool) (path : String) (place : Place)
    (entries : List (String × FileNode)) : List (Except WalkFault String) :=
  t.visit follow linkLimit [] ⟨place, path⟩ entries

end FileTree

end DesignDocs
