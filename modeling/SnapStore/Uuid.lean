import SnapStore.Bytes
import SnapStore.Text.Hex

/-! # Universally unique identifiers

An identifier is sixteen bytes. Its text has 32 hexadecimal digits in five groups
joined by hyphens.
-/

namespace SnapStore

/-- An identifier of sixteen bytes. -/
structure Uuid where
  bytes : List UInt8
  length_bytes : bytes.length = 16
  deriving DecidableEq

namespace Uuid

/-- The identifier with the bytes of a number below 2 ^ 128. -/
def ofNat (n : Nat) : Uuid :=
  ⟨Bytes.bigEndian 16 n, Bytes.length_bigEndian 16 n⟩

/-- The identifier of zeros. -/
def nil : Uuid :=
  ofNat 0

/-- The identifier with the given bytes, if there are sixteen. -/
def ofBytes? (bytes : List UInt8) : Option Uuid :=
  if h : bytes.length = 16 then some ⟨bytes, h⟩ else none

/-- The 32 digits without hyphens. -/
def digits (u : Uuid) : List Char :=
  u.bytes.flatMap Hex.ofByte

/-- The text of an identifier: groups of 8, 4, 4, 4 and 12 digits. -/
def text (u : Uuid) : String :=
  let d := u.digits
  let group (start size : Nat) := String.ofList ((d.drop start).take size)
  "-".intercalate [group 0 8, group 8 4, group 12 4, group 16 4, group 20 12]

/-- The identifier that a text stands for, wherever its hyphens are. -/
def ofText? (s : String) : Option Uuid :=
  (Hex.ofText? (String.ofList (s.toList.filter (· != '-')))).bind ofBytes?

theorem length_digits (u : Uuid) : u.digits.length = 32 := by
  have h (bytes : List UInt8) : (bytes.flatMap Hex.ofByte).length = 2 * bytes.length := by
    induction bytes with
    | nil => rfl
    | cons b bs ih =>
      simp only [List.flatMap_cons, List.length_append, ih, Hex.ofByte, List.length_cons,
        List.length_nil]
      omega
  rw [digits, h, u.length_bytes]

end Uuid

end SnapStore
