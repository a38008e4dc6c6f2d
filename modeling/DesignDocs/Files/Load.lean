import DesignDocs.Document.Validity
import DesignDocs.Files.Walk

namespace DesignDocs

structure LoadSettings where
  /-- Lower-case extensions without dots; an empty list accepts every file. -/
  extensions : List String
  followLinks : Bool
  completeIds : Bool
  validate : Bool
  deriving DecidableEq

namespace LoadSettings

def standard : LoadSettings := ⟨["js", "json"], false, true, true⟩

def plainExtension (s : String) : String :=
  String.ofList ((s.toList.dropWhile (· == '.')).map Char.toLower)

def withExtensions (c : LoadSettings) (extensions : List String) : LoadSettings :=
  { c with extensions := extensions.map plainExtension }

def sameExtension (x y : String) : Bool := x.toList.map Char.toLower == y.toList.map Char.toLower

def accepts (c : LoadSettings) (path : String) : Bool :=
  c.extensions.isEmpty ||
    match Path.extension? path with
    | some e => c.extensions.any (sameExtension · e)
    | none => false

end LoadSettings

namespace FileTree

def documentOf (c : LoadSettings) (bytes : ByteArray) : Except DesignError DesignDocument := do
  let text ← (Text.Utf8.decode bytes).mapError .ofUtf8
  let d : DesignDocument ← Wire.ofText text
  let d := if c.completeIds then d.withId (DesignDocument.fullId d.id) else d
  if c.validate then d.validate
  return d

def readDocument (t : FileTree) (c : LoadSettings) (path : String) :
    Except DesignError DesignDocument := do
  let bytes ← (t.readFile path).mapError SystemFault.error
  documentOf c bytes

/-- An error names the file, and keeps the kind of its cause. -/
def loadFile (t : FileTree) (c : LoadSettings) (path : String) :
    Except DesignError DesignDocument :=
  (t.readDocument c path).mapError fun e ↦
    .because e.kind ("Failed to load design document from " ++ path) e

def loadWalked (t : FileTree) (c : LoadSettings) :
    List (Except WalkFault String) → Except DesignError (List DesignDocument)
  | [] => .ok []
  | .error f :: _ => .error f.error
  | .ok path :: rest =>
    if c.accepts path then do
      let d ← t.loadFile c path
      let ds ← t.loadWalked c rest
      return d :: ds
    else t.loadWalked c rest

/-- The documents of the accepted files below a directory; a path that leads to a file stands for
that file alone. -/
def loadDirectory (t : FileTree) (c : LoadSettings) (path : String) :
    Except DesignError (List DesignDocument) :=
  match t.find path with
  | .error f => .error f.error
  | .ok (place, .directory entries) => t.loadWalked c (t.files c.followLinks path place entries)
  | .ok _ => (t.loadFile c path).map ([·])

end FileTree

end DesignDocs
