import SnapStore.Schema
import SnapStore.Index.Compound
import SnapStore.Index.Number
import SnapStore.Index.Text

/-! # Stations

Stations are small sample objects, with indexes over numbers and over several fields at once: a
station has a code, which is its identity, and an address, of which the street may be unknown. It
lies some metres above or below the sea, and has a number of tracks.
-/

namespace SnapStore

/-- A station. -/
structure Station where
  code : String
  city : String := ""
  street : String := ""
  level : Int64 := 0
  tracks : UInt64 := 0
  deriving DecidableEq, Repr

namespace Station

/-- The index over cities and streets. A station may lack a street, or both. -/
def byAddress : IndexSchema Station :=
  { name := "address", allowMissing := true
    indexer := .single (CompoundIndex.single
      [TextIndex.single (some ·.city), TextIndex.single (some ·.street)] true) }

/-- The index over cities. -/
def byCity : IndexSchema Station :=
  { name := "city", allowMissing := true, indexer := .single (TextIndex.single (some ·.city)) }

/-- The primary index. -/
def byCode : IndexSchema Station :=
  { name := primaryName, unique := true, indexer := .single (TextIndex.single (some ·.code)) }

/-- The index over levels. -/
def byLevel : IndexSchema Station :=
  { name := "level", indexer := .single (NumberIndex.signed (some ·.level)) }

/-- The index over numbers of tracks. -/
def byTracks : IndexSchema Station :=
  { name := "tracks", indexer := .single (NumberIndex.unsigned (some ·.tracks)) }

/-- The name of the table of stations. -/
def stations : String :=
  "stations"

/-- The table of stations. -/
def table : TableSchema Station :=
  { name := stations
    indexes := [("address", byAddress), ("city", byCity), (primaryName, byCode),
      ("level", byLevel), ("tracks", byTracks)] }

/-- The schema with the table of stations. -/
def schema : Schema Station :=
  ⟨[(stations, table)]⟩

end Station

end SnapStore
