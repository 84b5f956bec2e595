import SnapStore.Index.Indexer

/-! # Indexes over identifiers

The key of an identifier is its sixteen bytes. Arguments give it as it is, as bytes,
or as hyphenated hexadecimal text; for a stem the bytes or the text may stop early.
Hyphens may stand anywhere in the text, up to four of them.
-/

namespace SnapStore.IdentifierIndex

universe u

variable {α : Type u}

/-- The bytes that hexadecimal text stands for. A whole identifier takes 36 bytes of
text and a stem at most as many; of several faults the first is told. -/
def ofText (whole : Bool) (s : String) : Except Misfit Key :=
  let bytes := Key.ofText s
  let digits := bytes.filter (· != 0x2d)
  if whole && bytes.length != 36 then .error (.uuidLength bytes.length)
  else if 36 < bytes.length then .error (.uuidTooLong s)
  else if 4 < bytes.length - digits.length then .error (.uuidHyphens s)
  else if digits.length % 2 != 0 then .error .uuidOddDigits
  else
    match Hex.bytes? digits with
    | some key => .ok key
    | none => .error (.uuidDigits s)

/-- The key of an argument that gives a whole identifier. -/
def keyOfArg : Arg → Except Misfit Key
  | .uuid u => .ok u.bytes
  | .text s => ofText true s
  | .bytes bs => if bs.length = 16 then .ok bs else .error (.uuidBytes bs.length)
  | arg => .error (.notWanted .uuid arg)

/-- The stem of an argument that gives the start of an identifier. -/
def stemOfArg : Arg → Except Misfit Key
  | .uuid u => .ok u.bytes
  | .text s => ofText false s
  | .bytes bs => .ok bs
  | arg => .error (.notWanted .uuidStem arg)

/-- The index over a field that holds an identifier. -/
def field (get : α → Option Uuid) : SingleIndexer α where
  toArgKeys := .ofSingleWithStem keyOfArg stemOfArg
  ofObject o := .ok ((get o).map Uuid.bytes)

end SnapStore.IdentifierIndex
