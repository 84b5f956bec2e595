/-! # Hexadecimal digits

Digits are written in lowercase and read in either case.

Main statement: `digit?_digit`, a digit reads back as its value.
-/

namespace SnapStore.Hex

/-- The digit of a value below 16. -/
def digit (n : Nat) : Char :=
  "0123456789abcdef".toList.getD n '0'

/-- The value of a digit, given as a byte of text. -/
def digit? (b : UInt8) : Option UInt8 :=
  if 0x30 ≤ b && b ≤ 0x39 then some (b - 0x30)
  else if 0x61 ≤ b && b ≤ 0x66 then some (b - 0x61 + 10)
  else if 0x41 ≤ b && b ≤ 0x46 then some (b - 0x41 + 10)
  else none

/-- The two digits of a byte. -/
def ofByte (b : UInt8) : List Char :=
  [digit (b.toNat / 16), digit (b.toNat % 16)]

/-- The digits of a number without leading zeros. -/
def ofNat (n : Nat) : String :=
  String.ofList (Nat.toDigits 16 n)

/-- The bytes that pairs of digits stand for. The digits have to be even in number. -/
def bytes? : List UInt8 → Option (List UInt8)
  | [] => some []
  | [_] => none
  | high :: low :: rest =>
    match digit? high, digit? low, bytes? rest with
    | some h, some l, some tail => some ((h <<< 4 ||| l) :: tail)
    | _, _, _ => none

/-- The digits of bytes. -/
def text (bytes : List UInt8) : String :=
  String.ofList (bytes.flatMap ofByte)

/-- The bytes that a text of digits stands for. -/
def ofText? (s : String) : Option (List UInt8) :=
  bytes? (s.toList.flatMap String.utf8EncodeChar)

theorem digit?_digit :
    ∀ n ∈ List.range 16, digit? (digit n).toNat.toUInt8 = some n.toUInt8 := by
  decide

end SnapStore.Hex
