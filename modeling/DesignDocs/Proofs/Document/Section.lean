import DesignDocs.Document.Basic

namespace DesignDocs

/-- The sections whose entries have names. -/
inductive NamedSection
  | views
  | indexes
  | filters
  | shows
  | lists
  | updates
  | fulltext
  deriving DecidableEq

namespace NamedSection

def key : NamedSection → String
  | views => "views"
  | indexes => "indexes"
  | filters => "filters"
  | shows => "shows"
  | lists => "lists"
  | updates => "updates"
  | fulltext => "fulltext"

abbrev Entry : NamedSection → Type
  | views => View
  | indexes => SearchIndex
  | filters | shows | lists | updates => Script
  | fulltext => FulltextIndex

def entries? : (s : NamedSection) → DesignDocument → Option (NamedMap s.Entry)
  | views, d => d.views
  | indexes, d => d.indexes
  | filters, d => d.filters
  | shows, d => d.shows
  | lists, d => d.lists
  | updates, d => d.updates
  | fulltext, d => d.fulltext

def put : (s : NamedSection) → NamedMap s.Entry → DesignDocument → DesignDocument
  | views, m, d => { d with views := some m }
  | indexes, m, d => { d with indexes := some m }
  | filters, m, d => { d with filters := some m }
  | shows, m, d => { d with shows := some m }
  | lists, m, d => { d with lists := some m }
  | updates, m, d => { d with updates := some m }
  | fulltext, m, d => { d with fulltext := some m }

def entry? : (s : NamedSection) → DesignDocument → String → Option s.Entry
  | views, d, name => d.view? name
  | indexes, d, name => d.searchIndex? name
  | filters, d, name => d.filter? name
  | shows, d, name => d.show? name
  | lists, d, name => d.list? name
  | updates, d, name => d.update? name
  | fulltext, d, name => d.fulltextIndex? name

theorem entry?_eq (s : NamedSection) (d : DesignDocument) (name : String) :
    s.entry? d name = (s.entries? d).bind (·.find? name) := by
  cases s <;> rfl

section

variable {s t : NamedSection} (m : NamedMap s.Entry) (d : DesignDocument)

theorem entries?_put : s.entries? (s.put m d) = some m := by
  cases s <;> rfl

theorem entries?_put_of_ne (h : t ≠ s) : t.entries? (s.put m d) = t.entries? d := by
  cases s <;> cases t <;> first | rfl | exact absurd rfl h

@[simp] theorem id_put : (s.put m d).id = d.id := by cases s <;> rfl

@[simp] theorem rev_put : (s.put m d).rev = d.rev := by cases s <;> rfl

@[simp] theorem language_put : (s.put m d).language = d.language := by cases s <;> rfl

@[simp] theorem validateDocUpdate_put :
    (s.put m d).validateDocUpdate = d.validateDocUpdate := by
  cases s <;> rfl

@[simp] theorem rewrites_put : (s.put m d).rewrites = d.rewrites := by cases s <;> rfl

@[simp] theorem extras_put : (s.put m d).extras = d.extras := by cases s <;> rfl

end

end NamedSection

end DesignDocs
