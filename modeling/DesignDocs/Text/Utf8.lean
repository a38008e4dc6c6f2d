namespace DesignDocs.Text

/-- What the first byte of a character asks for: how many bytes follow it, and between which
bounds the first of them lies. -/
structure Lead where
  tails : Nat
  low : UInt8
  high : UInt8

namespace Utf8

def lead? (b : UInt8) : Option Lead :=
  if b ≤ 0x7F then some ⟨0, 0x80, 0xBF⟩
  else if 0xC2 ≤ b && b ≤ 0xDF then some ⟨1, 0x80, 0xBF⟩
  else if b == 0xE0 then some ⟨2, 0xA0, 0xBF⟩
  else if b == 0xED then some ⟨2, 0x80, 0x9F⟩
  else if 0xE1 ≤ b && b ≤ 0xEF then some ⟨2, 0x80, 0xBF⟩
  else if b == 0xF0 then some ⟨3, 0x90, 0xBF⟩
  else if 0xF1 ≤ b && b ≤ 0xF3 then some ⟨3, 0x80, 0xBF⟩
  else if b == 0xF4 then some ⟨3, 0x80, 0x8F⟩
  else none

def leadBits (b : UInt8) : Nat → Nat
  | 0 => b.toNat
  | 1 => b.toNat % 32
  | 2 => b.toNat % 16
  | _ => b.toNat % 8

inductive Head
  | scalar (c : Char) (tails : Nat)
  /-- So many bytes begin no character. -/
  | broken (width : Nat)
  /-- The bytes end inside a character. -/
  | cut

def takeTails (width bits : Nat) (low high : UInt8) : Nat → List UInt8 → Head
  | 0, _ => .scalar (Char.ofNat bits) (width - 1)
  | _ + 1, [] => .cut
  | owed + 1, b :: rest =>
    if low ≤ b && b ≤ high then
      takeTails (width + 1) (bits * 64 + b.toNat % 64) 0x80 0xBF owed rest
    else .broken width

def head (b : UInt8) (rest : List UInt8) : Head :=
  match lead? b with
  | none => .broken 1
  | some lead => takeTails 1 (leadBits b lead.tails) lead.low lead.high lead.tails rest

/-- Where the bytes stop being UTF-8: `width` bytes that begin no character, or none when the
bytes end inside one. -/
structure Fault where
  index : Nat
  width : Option Nat
  deriving DecidableEq

def Fault.message (f : Fault) : String :=
  match f.width with
  | some width => s!"invalid utf-8 sequence of {width} bytes from index {f.index}"
  | none => s!"incomplete utf-8 byte sequence from index {f.index}"

/-- The first fault of the bytes; `covered` bytes more belong to the character last met. -/
def firstFault (index covered : Nat) : List UInt8 → Fault
  | [] => ⟨index, none⟩
  | b :: rest =>
    match covered with
    | covered + 1 => firstFault (index + 1) covered rest
    | 0 =>
      match head b rest with
      | .scalar _ tails => firstFault (index + 1) tails rest
      | .broken width => ⟨index, some width⟩
      | .cut => ⟨index, none⟩

def decode (bytes : ByteArray) : Except Fault String :=
  match String.fromUTF8? bytes with
  | some s => .ok s
  | none => .error (firstFault 0 0 bytes.toList)

end Utf8

/-- One step of a text given as bytes: a character, or a byte that is part of none. -/
inductive Symbol
  | char (c : Char)
  | stray (b : UInt8)
  deriving DecidableEq

namespace Symbol

def size : Symbol → Nat
  | char c => c.utf8Size
  | stray _ => 1

def ofString (s : String) : List Symbol := s.toList.map .char

def ofByteList (covered : Nat) : List UInt8 → List Symbol
  | [] => []
  | b :: rest =>
    match covered with
    | covered + 1 => ofByteList covered rest
    | 0 =>
      match Utf8.head b rest with
      | .scalar c tails => .char c :: ofByteList tails rest
      | _ => .stray b :: ofByteList 0 rest

def ofBytes (bytes : ByteArray) : List Symbol :=
  match String.fromUTF8? bytes with
  | some s => ofString s
  | none => ofByteList 0 bytes.toList

end Symbol

end DesignDocs.Text
