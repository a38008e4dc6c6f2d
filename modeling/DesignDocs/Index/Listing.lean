import DesignDocs.Index.Basic

namespace DesignDocs

open Json (Reader Record member?)

structure IndexListing where
  totalRows : Option UInt64
  indexes : List QueryIndex

namespace IndexListing

inductive Member
  | totalRows (n : Option UInt64)
  | indexes (l : List QueryIndex)

def record : Record Member where
  expected := "struct Indexes"
  fields :=
    [.optional "total_rows" fun s ↦ (Reader.count.optional s).map .totalRows,
      .essential "indexes" fun s ↦ (Reader.list QueryIndex.read s).map .indexes]

def new (indexes : List QueryIndex) : IndexListing :=
  ⟨some (UInt64.ofNat indexes.length), indexes⟩

instance : BEq IndexListing where
  beq l m := l.totalRows == m.totalRows && l.indexes == m.indexes

def read : Reader IndexListing := fun s ↦ do
  let ms ← record.read s
  let indexes ← Json.required "indexes" (ms.findSome? fun | .indexes l => some l | _ => none)
  return { totalRows := ms.findSome? fun | .totalRows n => n | _ => none, indexes }

def toJson (l : IndexListing) : Json :=
  .object (member? "total_rows" (fun n ↦ .number (.ofUInt64 n)) l.totalRows ++
    [("indexes", .array (l.indexes.map QueryIndex.toJson))])

instance : Wire IndexListing := ⟨read, toJson⟩

def size (l : IndexListing) : Nat := l.indexes.length

def isEmpty (l : IndexListing) : Bool := l.indexes.isEmpty

def ofType (l : IndexListing) (type : IndexType) : List QueryIndex :=
  l.indexes.filter fun i ↦ i.type = type

def jsonIndexes (l : IndexListing) : List QueryIndex := l.ofType .json

def textIndexes (l : IndexListing) : List QueryIndex := l.ofType .text

def find? (l : IndexListing) (name : String) : Option QueryIndex :=
  l.indexes.find? fun i ↦ i.name? == some name

end IndexListing

end DesignDocs
