import DesignDocs.Error.Basic
import DesignDocs.Text.Utf8

namespace DesignDocs

/-- What the system says went wrong, as far as kinds of errors tell it apart. -/
inductive SystemKind
  | notFound
  | permissionDenied
  | invalidData
  | other
  deriving DecidableEq

def SystemKind.kind : SystemKind → ErrorKind
  | notFound => .fileNotFound
  | permissionDenied => .permissionDenied
  | invalidData => .encoding
  | other => .inputOutput

structure Position where
  line : Nat
  column : Nat
  deriving DecidableEq

namespace Position

def text (p : Position) : String :=
  " at line " ++ toString p.line ++ " column " ++ toString p.column

def bound : Nat := 0x10000000000000000

/-- The number that ends a text read backward, and what stands before it. -/
def takeNumber (cs : List Char) : Option (Nat × List Char) :=
  match cs.takeWhile Char.isDigit with
  | [] => none
  | ds =>
    let n := ds.reverse.foldl (fun n d ↦ n * 10 + (d.toNat - '0'.toNat)) 0
    if n < bound then some (n, cs.dropWhile Char.isDigit) else none

def takeWord (word : String) (cs : List Char) : Option (List Char) :=
  let backward := word.toList.reverse
  if backward.isPrefixOf cs then some (cs.drop backward.length) else none

/-- Splits the position off the end of a message. -/
def split? (message : String) : Option (String × Position) := do
  let (column, cs) ← takeNumber message.toList.reverse
  let cs ← takeWord " column " cs
  let (line, cs) ← takeNumber cs
  let cs ← takeWord " at line " cs
  return (String.ofList cs.reverse, ⟨line, column⟩)

/-- A message with its position in the usual form. Line zero is no position, and is left out. -/
def normalize (message : String) : String :=
  match split? message with
  | none => message
  | some (words, p) => if p.line = 0 then words else words ++ p.text

end Position

namespace DesignError

def ofSystem (kind : SystemKind) (text : String) : DesignError :=
  of kind.kind ("IO error: " ++ text)

def ofUtf8 (f : Text.Utf8.Fault) : DesignError :=
  of .encoding ("UTF-8 encoding error: " ++ f.message)

def ofPositioned (message : String) : DesignError := ofMessage (Position.normalize message)

end DesignError

end DesignDocs
