import DesignDocs.Files.Tree

namespace DesignDocs

inductive FileEntry
  | file (path : String) (bytes : ByteArray)
  | link (path target : String)
  | directory (path : String)

namespace FileTree

def empty (location : String) : FileTree := ⟨location, .directory []⟩

def put (t : FileTree) (place : Place) (node : FileNode) : FileTree :=
  { t with root := node.put place t.root }

/-- Where a name leads; a directory is made where it leads nowhere. -/
def enter (t : FileTree) (here : Place) (name : String) : FileTree × Place :=
  match t.walk linkLimit here [name] with
  | .ok place => (t, place)
  | .error _ =>
    -- the tree does not hold what lies above it
    if name = ".." then (t, here)
    else (t.put (here ++ [name]) (.directory []), here ++ [name])

def makeDirectories (t : FileTree) (names : List String) : FileTree × Place :=
  names.foldl (fun (t, here) name ↦ t.enter here name) (t, [])

/-- Where a file stands that is written under a name: where links lead from there, the last of them
perhaps to nothing yet. None if that is outside the tree. -/
def fileEnd? (t : FileTree) (links : Nat) (here : Place) (name : String) : Option Place :=
  match t.root.at? (here ++ [name]), links with
  | some (.link _), 0 => none
  | some (.link target), links + 1 =>
    if Path.isAbsolute target then none
    else do
      let last ← (Path.names target).getLast?
      let place ← (t.walk links here (Path.names target).dropLast).toOption
      t.fileEnd? links place last
  | _, _ => some (here ++ [name])

def putAt (t : FileTree) (path : String) (node : FileNode)
    (finish : FileTree → Place → String → Option Place) : FileTree :=
  match (Path.names path).getLast? with
  | none => t
  | some name =>
    let (t, here) := t.makeDirectories (Path.names path).dropLast
    match finish t here name with
    | some place => t.put place node
    | none => t

def write (t : FileTree) : FileEntry → FileTree
  | .file path bytes => t.putAt path (.file bytes) fun t here name ↦ t.fileEnd? linkLimit here name
  | .link path target => t.putAt path (.link target) fun _ here name ↦ some (here ++ [name])
  | .directory path => (t.makeDirectories (Path.names path)).1

def ofEntries (location : String) (entries : List FileEntry) : FileTree :=
  entries.foldl write (empty location)

end FileTree

end DesignDocs
