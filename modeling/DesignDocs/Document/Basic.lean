import DesignDocs.Document.Rewrite
import DesignDocs.Document.Search
import DesignDocs.Document.View

namespace DesignDocs

open Json (Reader Record member?)

namespace DesignDocument

inductive Member
  | id (s : String)
  | rev (s : Option String)
  | language (s : Option String)
  | views (m : Option (NamedMap View))
  | indexes (m : Option (NamedMap SearchIndex))
  | filters (m : Option (NamedMap Script))
  | shows (m : Option (NamedMap Script))
  | lists (m : Option (NamedMap Script))
  | updates (m : Option (NamedMap Script))
  | validateDocUpdate (s : Option Script)
  | rewrites (l : Option (List RewriteRule))
  | fulltext (m : Option (NamedMap FulltextIndex))

def scripts : Reader (Option (NamedMap Script)) := Reader.optional (.named Script.read)

def record : Record Member where
  expected := "struct DesignDocument"
  fields :=
    [.essential "_id" fun s ↦ (Reader.text s).map .id,
      .optional "_rev" fun s ↦ (Reader.text.optional s).map .rev,
      .optional "language" fun s ↦ (Reader.text.optional s).map .language,
      .optional "views" fun s ↦ (Reader.optional (.named View.read) s).map .views,
      .optional "indexes" fun s ↦ (Reader.optional (.named SearchIndex.read) s).map .indexes,
      .optional "filters" fun s ↦ (scripts s).map .filters,
      .optional "shows" fun s ↦ (scripts s).map .shows,
      .optional "lists" fun s ↦ (scripts s).map .lists,
      .optional "updates" fun s ↦ (scripts s).map .updates,
      .optional "validate_doc_update" fun s ↦
        (Reader.optional Script.read s).map .validateDocUpdate,
      .optional "rewrites" fun s ↦ (Reader.optional (.list RewriteRule.read) s).map .rewrites,
      .optional "fulltext" fun s ↦ (Reader.optional (.named FulltextIndex.read) s).map .fulltext]

end DesignDocument

structure DesignDocument where
  id : String
  rev : Option String
  language : Option String
  views : Option (NamedMap View)
  indexes : Option (NamedMap SearchIndex)
  filters : Option (NamedMap Script)
  shows : Option (NamedMap Script)
  lists : Option (NamedMap Script)
  updates : Option (NamedMap Script)
  validateDocUpdate : Option Script
  rewrites : Option (List RewriteRule)
  fulltext : Option (NamedMap FulltextIndex)
  extras : Extras DesignDocument.record.names

namespace DesignDocument

def new (id : String) : DesignDocument :=
  ⟨id, none, none, none, none, none, none, none, none, none, none, none, .none⟩

def withRev (d : DesignDocument) (rev : String) : DesignDocument := { d with rev := some rev }
def withoutRev (d : DesignDocument) : DesignDocument := { d with rev := none }
def withId (d : DesignDocument) (id : String) : DesignDocument := { d with id }

def view? (d : DesignDocument) (name : String) : Option View := d.views.bind (·.find? name)

def searchIndex? (d : DesignDocument) (name : String) : Option SearchIndex :=
  d.indexes.bind (·.find? name)

def filter? (d : DesignDocument) (name : String) : Option Script := d.filters.bind (·.find? name)
def show? (d : DesignDocument) (name : String) : Option Script := d.shows.bind (·.find? name)
def list? (d : DesignDocument) (name : String) : Option Script := d.lists.bind (·.find? name)
def update? (d : DesignDocument) (name : String) : Option Script := d.updates.bind (·.find? name)

def fulltextIndex? (d : DesignDocument) (name : String) : Option FulltextIndex :=
  d.fulltext.bind (·.find? name)

instance : BEq DesignDocument where
  beq d e := d.id == e.id && d.rev == e.rev && d.language == e.language && d.views == e.views &&
    d.indexes == e.indexes && d.filters == e.filters && d.shows == e.shows &&
    d.lists == e.lists && d.updates == e.updates &&
    d.validateDocUpdate == e.validateDocUpdate && d.rewrites == e.rewrites &&
    d.fulltext == e.fulltext && d.extras == e.extras

def contentEq (d e : DesignDocument) : Bool := d.withoutRev == e.withoutRev

def read : Reader DesignDocument := fun s ↦ do
  let ms ← record.readKeeping s
  let id ← Json.required "_id" (ms.modelled.findSome? fun | .id s => some s | _ => none)
  return {
    id
    rev := ms.modelled.findSome? fun | .rev s => s | _ => none
    language := ms.modelled.findSome? fun | .language s => s | _ => none
    views := ms.modelled.findSome? fun | .views m => m | _ => none
    indexes := ms.modelled.findSome? fun | .indexes m => m | _ => none
    filters := ms.modelled.findSome? fun | .filters m => m | _ => none
    shows := ms.modelled.findSome? fun | .shows m => m | _ => none
    lists := ms.modelled.findSome? fun | .lists m => m | _ => none
    updates := ms.modelled.findSome? fun | .updates m => m | _ => none
    validateDocUpdate := ms.modelled.findSome? fun | .validateDocUpdate s => s | _ => none
    rewrites := ms.modelled.findSome? fun | .rewrites l => l | _ => none
    fulltext := ms.modelled.findSome? fun | .fulltext m => m | _ => none
    extras := .ofMembers ms.others }

def sectionToJson {α : Type} (f : α → Json) (m : NamedMap α) : Json :=
  .object (m.entries.map fun p ↦ (p.1, f p.2))

def toJson (d : DesignDocument) : Json :=
  .object (("_id", .string d.id) :: member? "_rev" .string d.rev ++
    member? "language" .string d.language ++
    member? "views" (sectionToJson View.toJson) d.views ++
    member? "indexes" (sectionToJson SearchIndex.toJson) d.indexes ++
    member? "filters" (sectionToJson Script.toJson) d.filters ++
    member? "shows" (sectionToJson Script.toJson) d.shows ++
    member? "lists" (sectionToJson Script.toJson) d.lists ++
    member? "updates" (sectionToJson Script.toJson) d.updates ++
    member? "validate_doc_update" Script.toJson d.validateDocUpdate ++
    member? "rewrites" (fun l ↦ .array (l.map RewriteRule.toJson)) d.rewrites ++
    member? "fulltext" (sectionToJson FulltextIndex.toJson) d.fulltext ++ d.extras.toMembers)

instance : Wire DesignDocument := ⟨read, toJson⟩

end DesignDocument

end DesignDocs
