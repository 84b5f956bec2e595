import SnapStore.Index.Indexer
import SnapStore.Bytes

/-! # Indexes over numbers

The key of a number has eight bytes, most significant first. Signed numbers are moved
up by 2 ^ 63, so that keys sort as numbers across zero. Signed and unsigned arguments
stand for each other where both can hold the number.
-/

namespace SnapStore.NumberIndex

universe u

variable {α : Type u}

/-- How far signed numbers are moved up. -/
def offset : Nat :=
  Nat.pow 2 63

/-- The key of a signed number. -/
def signedKey (n : Int64) : Key :=
  Bytes.bigEndian 8 (n.toInt + offset).toNat

/-- The key of an unsigned number. -/
def unsignedKey (n : UInt64) : Key :=
  Bytes.bigEndian 8 n.toNat

/-- The signed number an argument gives. -/
def signedArg : Arg → Except Misfit Int64
  | .int n => .ok n
  | .uint n => if n.toNat < offset then .ok (.ofNat n.toNat) else .error (.overflow n)
  | arg => .error (.notWanted .integer arg)

/-- The unsigned number an argument gives. -/
def unsignedArg : Arg → Except Misfit UInt64
  | .uint n => .ok n
  | .int n => if 0 ≤ n.toInt then .ok (.ofNat n.toInt.toNat) else .error (.negative n)
  | arg => .error (.notWanted .unsigned arg)

/-- The index over a field that holds a signed number. -/
def signed (field : α → Option Int64) : SingleIndexer α where
  toArgKeys := .ofSingle fun arg => (signedArg arg).map signedKey
  ofObject o := .ok ((field o).map signedKey)

/-- The index over a field that holds an unsigned number. -/
def unsigned (field : α → Option UInt64) : SingleIndexer α where
  toArgKeys := .ofSingle fun arg => (unsignedArg arg).map unsignedKey
  ofObject o := .ok ((field o).map unsignedKey)

@[simp] theorem length_signedKey (n : Int64) : (signedKey n).length = 8 := by
  simp [signedKey]

@[simp] theorem length_unsignedKey (n : UInt64) : (unsignedKey n).length = 8 := by
  simp [unsignedKey]

end SnapStore.NumberIndex
