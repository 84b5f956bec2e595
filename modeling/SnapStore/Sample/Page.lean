import SnapStore.Schema
import SnapStore.Index.Text

/-! # Pages

Pages are small sample objects, with one index of each sort: the path is the identity of
a page, its slug is unique, its title is not, and it may have several tags.
-/

namespace SnapStore

/-- A page. -/
structure Page where
  path : String
  slug : String := ""
  title : String := ""
  tags : List String := []
  deriving DecidableEq, Repr

namespace Page

/-- The primary index. -/
def byPath : IndexSchema Page :=
  { name := primaryName, unique := true, indexer := .single (TextIndex.single (some ·.path)) }

/-- The unique index over slugs. A page need not have one. -/
def bySlug : IndexSchema Page :=
  { name := "slug", unique := true, allowMissing := true
    indexer := .single (TextIndex.single (some ·.slug)) }

/-- The index over tags. -/
def byTag : IndexSchema Page :=
  { name := "tags", allowMissing := true, indexer := .multi (TextIndex.each (·.tags)) }

/-- The index over titles. A page need not have one. -/
def byTitle : IndexSchema Page :=
  { name := "title", allowMissing := true
    indexer := .single (TextIndex.single (some ·.title)) }

/-- The name of the table of pages. -/
def pages : String :=
  "pages"

/-- The table of pages. -/
def table : TableSchema Page :=
  { name := pages
    indexes := [(primaryName, byPath), ("slug", bySlug), ("tags", byTag), ("title", byTitle)] }

/-- The schema with the table of pages. -/
def schema : Schema Page :=
  ⟨[(pages, table)]⟩

/-- The name of the table of drafts. -/
def drafts : String :=
  "drafts"

/-- The schema with a table of drafts beside the table of pages. -/
def desk : Schema Page :=
  ⟨[(drafts, { table with name := drafts }), (pages, table)]⟩

end Page

end SnapStore
