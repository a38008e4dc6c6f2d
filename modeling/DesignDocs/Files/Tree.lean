import DesignDocs.Error.Origin
import DesignDocs.Files.Path
import DesignDocs.NamedMap

namespace DesignDocs

inductive FileNode
  | file (bytes : ByteArray)
  | link (target : String)
  | directory (entries : List (String × FileNode))

/-- The names that lead from the root of a tree to a node, no link among them. -/
abbrev Place := List String

/-- A tree of files, which stands at a location. Above it stand directories of which nothing is
known, and what is neither below nor above it does not exist. -/
structure FileTree where
  location : String
  root : FileNode

inductive SystemFault
  | notFound
  | notDirectory
  | isDirectory
  | nameTooLong
  | tooManyLinks
  | nulInPath
  deriving DecidableEq

namespace SystemFault

def message : SystemFault → String
  | notFound => "No such file or directory (os error 2)"
  | notDirectory => "Not a directory (os error 20)"
  | isDirectory => "Is a directory (os error 21)"
  | nameTooLong => "File name too long (os error 36)"
  | tooManyLinks => "Too many levels of symbolic links (os error 40)"
  | nulInPath => "file name contained an unexpected NUL byte"

def systemKind : SystemFault → SystemKind
  | notFound => .notFound
  | _ => .other

def error (f : SystemFault) : DesignError := .ofSystem f.systemKind f.message

end SystemFault

namespace FileNode

def child? (name : String) : FileNode → Option FileNode
  | directory entries => entries.lookup name
  | _ => none

def at? (n : FileNode) : Place → Option FileNode
  | [] => some n
  | name :: names => (n.child? name).bind (·.at? names)

/-- Puts a node at a place, and the directories that lead there. -/
def put (node : FileNode) : Place → FileNode → FileNode
  | [], _ => node
  | name :: names, old =>
    let entries := match old with
      | directory entries => entries
      | _ => []
    directory (putEntry name (node.put names ((entries.lookup name).getD (directory []))) entries)

end FileNode

namespace FileTree

def linkLimit : Nat := 40

/-- The longest name, in bytes. -/
def nameLimit : Nat := 255

def pathLimit : Nat := 4095

/-- The steps of a path. Empty names are no steps, but one at the end asks for a directory. -/
def steps (path : String) : List String :=
  let names := Path.split path
  let proper := names.filter (· != "")
  if names.getLast? = some "" then proper ++ ["."] else proper

def above (names : List String) : SystemFault :=
  if names.all fun name ↦ name = "." || name = ".." then .isDirectory else .notFound

/-- Where the steps lead from a place. Links are followed, so many at most. -/
def walk (t : FileTree) (links : Nat) (here : Place) (names : List String) :
    Except SystemFault Place :=
  match names with
  | [] => .ok here
  | name :: rest =>
    match t.root.at? here with
    | none => .error .notFound
    | some (.directory entries) =>
      if name = "." then t.walk links here rest
      else if name = ".." then
        if here.isEmpty then .error (above rest) else t.walk links here.dropLast rest
      else if nameLimit < name.utf8ByteSize then .error .nameTooLong
      else
        match entries.lookup name with
        | none => .error .notFound
        | some (.link target) =>
          match links with
          | 0 => .error .tooManyLinks
          | links + 1 =>
            if Path.isAbsolute target then .error (above (steps target ++ rest))
            else t.walk links here (steps target ++ rest)
        | some _ => t.walk links (here ++ [name]) rest
    | some _ => .error .notDirectory
termination_by (links, names.length)

def resolve (t : FileTree) (path : String) : Except SystemFault Place :=
  let start := t.location.toList
  if path.toList.contains '\x00' then .error .nulInPath
  else if pathLimit < path.utf8ByteSize then .error .nameTooLong
  else if path = t.location then .ok []
  else if (start ++ ['/']).isPrefixOf path.toList then
    t.walk linkLimit [] (steps (String.ofList (path.toList.drop (start.length + 1))))
  else .error (above (steps path))

def find (t : FileTree) (path : String) : Except SystemFault (Place × FileNode) := do
  let place ← t.resolve path
  match t.root.at? place with
  | some n => return (place, n)
  | none => .error .notFound

def readFile (t : FileTree) (path : String) : Except SystemFault ByteArray := do
  match ← t.find path with
  | (_, .file bytes) => return bytes
  | (_, .directory _) => .error .isDirectory
  | (_, .link _) => .error .notFound

end FileTree

end DesignDocs
