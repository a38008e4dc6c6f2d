import DesignDocs.Wire

namespace DesignDocs

open Json (Reader Record member?)

structure RewriteRule where
  source : Option String
  target : String
  method : Option String
  query : Option Object

namespace RewriteRule

inductive Member
  | source (s : Option String)
  | target (s : String)
  | method (s : Option String)
  | query (o : Option Object)

def record : Record Member where
  expected := "struct RewriteRule"
  fields :=
    [.optional "from" fun s ↦ (Reader.text.optional s).map .source,
      .essential "to" fun s ↦ (Reader.text s).map .target,
      .optional "method" fun s ↦ (Reader.text.optional s).map .method,
      .optional "query" fun s ↦ (Reader.object.optional s).map .query]

def new (source target : String) : RewriteRule := ⟨some source, target, none, none⟩

def withMethod (r : RewriteRule) (s : String) : RewriteRule := { r with method := some s }
def withQuery (r : RewriteRule) (o : Object) : RewriteRule := { r with query := some o }

instance : BEq RewriteRule where
  beq r s := r.source == s.source && r.target == s.target && r.method == s.method &&
    r.query == s.query

def read : Reader RewriteRule := fun s ↦ do
  let ms ← record.read s
  let target ← Json.required "to" (ms.findSome? fun | .target s => some s | _ => none)
  return {
    source := ms.findSome? fun | .source s => s | _ => none
    target
    method := ms.findSome? fun | .method s => s | _ => none
    query := ms.findSome? fun | .query o => o | _ => none }

def toJson (r : RewriteRule) : Json :=
  .object (member? "from" .string r.source ++ ("to", .string r.target) ::
    member? "method" .string r.method ++ member? "query" NamedMap.toJson r.query)

instance : Wire RewriteRule := ⟨read, toJson⟩

end RewriteRule

end DesignDocs
