import DesignDocs.Json.Source

namespace DesignDocs.Json

open Text (Symbol)

/-- A reader takes a source to a result or to the first fault that it meets; a fault of the source
is the fault of every reader that reaches it. -/
abbrev Reader (α : Type) := Source → Except Fault α

def Source.mismatch (expected : String) : Source → Fault
  | .fault f => f
  | .null => .mismatch .null expected
  | .bool b => .mismatch (.bool b) expected
  | .number n => .mismatch (.number n) expected
  | .string s => .mismatch (.string s) expected
  | .array _ _ => .mismatch .array expected
  | .object _ => .mismatch .object expected

mutual

def Source.tree : Source → Except Fault Json
  | .null => .ok .null
  | .bool b => .ok (.bool b)
  | .number n => .ok (.number n)
  | .string s => .ok (.string s)
  | .array items _ => items.trees.map .array
  | .object members => members.trees.map .object
  | .fault f => .error f

def Items.trees : Items → Except Fault (List Json)
  | .done => .ok []
  | .fault f => .error f
  | .cons head tail => do
    let v ← head.tree
    let vs ← tail.trees
    return v :: vs

def Members.trees : Members → Except Fault (List (String × Json))
  | .done => .ok []
  | .fault f => .error f
  | .cons name value _ rest => do
    let v ← value.tree
    let ms ← rest.trees
    return (name, v) :: ms

end

mutual

/-- The value of a source; a repeated key is a fault, at any depth. -/
def Source.distinctValue : Source → Except Fault Value
  | .null => .ok .null
  | .bool b => .ok (.bool b)
  | .number n => .ok (.number n)
  | .string s => .ok (.string s)
  | .array items _ => items.distinctValues.map .array
  | .object members => (members.distinctMembers .empty).map .object
  | .fault f => .error f

def Items.distinctValues : Items → Except Fault (List Value)
  | .done => .ok []
  | .fault f => .error f
  | .cons head tail => do
    let v ← head.distinctValue
    let vs ← tail.distinctValues
    return v :: vs

def Members.distinctMembers (before : Object) : Members → Except Fault Object
  | .done => .ok before
  | .fault f => .error f
  | .cons name value _ rest => do
    let v ← value.distinctValue
    if h : name ∈ before.names then .error (.keyRepeated name)
    else rest.distinctMembers (before.push name v h)

end

def Items.readAll {α : Type} (read : Reader α) : Items → Except Fault (List α)
  | .done => .ok []
  | .fault f => .error f
  | .cons head tail => do
    let a ← read head
    let as ← tail.readAll read
    return a :: as

/-- Reads every member after those read before; a name must not come again. -/
def Members.readNamed {α : Type} (read : Reader α) (before : NamedMap α) :
    Members → Except Fault (NamedMap α)
  | .done => .ok before
  | .fault f => .error f
  | .cons name value _ rest => do
    let a ← read value
    if h : name ∈ before.names then .error (.nameRepeated name)
    else rest.readNamed read (before.push name a h)

namespace Reader

variable {α : Type}

def text : Reader String
  | .string s => .ok s
  | s => .error (s.mismatch "a string")

def bool : Reader Bool
  | .bool b => .ok b
  | s => .error (s.mismatch "a boolean")

def count : Reader UInt64
  | .number (.integer i _) =>
    if 0 ≤ i then .ok (UInt64.ofNat i.toNat) else .error (.negative i)
  | s => .error (s.mismatch "u64")

/-- A value in which repeated keys keep their first place and last value. -/
def value : Reader Value := fun s ↦ s.tree.map .ofJson

def object : Reader Object
  | .object members => members.trees.map objectOf
  | s => .error (s.mismatch "a map")

def list (read : Reader α) : Reader (List α)
  | .array items _ => items.readAll read
  | s => .error (s.mismatch "a sequence")

def optional (read : Reader α) : Reader (Option α)
  | .null => .ok none
  | s => (read s).map some

def named (read : Reader α) : Reader (NamedMap α)
  | .object members => members.readNamed read .empty
  | s => .error (s.mismatch "a map with unique names")

/-- Reads a text whose value nothing but space follows. -/
def symbols (read : Reader α) (cs : List Symbol) : Except Fault α :=
  let tokens := Token.scan cs
  match read (.ofTokens 0 tokens) with
  | .error f => .error f
  | .ok a =>
    match skipValue tokens with
    | .ok [] => .ok a
    | .ok (_ :: _) => .error (.form .trailingText)
    | .error f => .error (.form f)

end Reader

def parse (s : String) : Except Fault Value := Reader.value.symbols (Symbol.ofString s)

end DesignDocs.Json
