/-! # Numbers as bytes

Numbers of a fixed width, most significant byte first, so that bytes sort as the
numbers do.

Main statement: `length_bigEndian` (the width is fixed).
-/

namespace SnapStore.Bytes

/-- The last `width` bytes of a number, most significant first. -/
def bigEndian : Nat → Nat → List UInt8
  | 0, _ => []
  | width + 1, n => bigEndian width (n / 256) ++ [UInt8.ofNat (n % 256)]

@[simp] theorem length_bigEndian (width n : Nat) : (bigEndian width n).length = width := by
  induction width generalizing n with
  | zero => rfl
  | succ w ih => simp [bigEndian, ih]

/-- The number that bytes stand for, most significant first. -/
def value (bytes : List UInt8) : Nat :=
  bytes.foldl (fun n b => n * 256 + b.toNat) 0

end SnapStore.Bytes
