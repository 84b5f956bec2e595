/-! # Numbers with fixed decimals

A binary floating-point number is a whole number times a power of two. Its text with a
fixed number of decimals is the nearest decimal of that length to its exact value; a
value halfway between two goes to the one with the even last digit.

Main statements: `roundDiv_mul` (a quotient without remainder is kept), `mul_roundDiv_le`
and `le_mul_roundDiv` (no quotient moves by more than a half).
-/

namespace SnapStore.Fixed

/-- The whole number nearest to a quotient, and the even one of two that are equally
near. -/
def roundDiv (num den : Nat) : Nat :=
  let q := num / den
  let twice := 2 * (num % den)
  if twice < den then q
  else if den < twice then q + 1
  else q + q % 2

theorem roundDiv_mul (q den : Nat) (h : 0 < den) : roundDiv (q * den) den = q := by
  simp [roundDiv, Nat.mul_div_cancel q h, h]

theorem mul_roundDiv_le (num den : Nat) : 2 * (den * roundDiv num den) ≤ 2 * num + den := by
  have hnum := Nat.div_add_mod num den
  have hq : den * (num / den + 1) = den * (num / den) + den := Nat.mul_succ _ _
  unfold roundDiv
  simp only
  split
  · omega
  · split
    · omega
    · -- halfway: the quotient goes up exactly if it is odd
      rcases Nat.mod_two_eq_zero_or_one (num / den) with he | he <;>
        simp only [he, Nat.add_zero] <;> omega

theorem le_mul_roundDiv {num den : Nat} (h : 0 < den) :
    2 * num ≤ 2 * (den * roundDiv num den) + den := by
  have hlt := Nat.mod_lt num h
  have hnum := Nat.div_add_mod num den
  have hq : den * (num / den + 1) = den * (num / den) + den := Nat.mul_succ _ _
  unfold roundDiv
  simp only
  split
  · omega
  · split
    · omega
    · -- halfway: the quotient goes up exactly if it is odd
      rcases Nat.mod_two_eq_zero_or_one (num / den) with he | he <;>
        simp only [he, Nat.add_zero] <;> omega

/-- A number of units of the last decimal, written with `places` decimals. -/
def text (places units : Nat) : String :=
  let scale := Nat.pow 10 places
  let digits := Nat.toDigits 10 (units % scale)
  toString (units / scale) ++ "." ++
    String.ofList (List.replicate (places - digits.length) '0' ++ digits)

/-- The value of a number that is finite and not negative, as a whole number times a
power of two: the mantissa, and the exponent moved up by 1075. -/
def parts (x : Float) : Nat × Nat :=
  let bits := x.toBits.toNat
  let fraction := bits % Nat.pow 2 52
  let exponent := bits / Nat.pow 2 52 % Nat.pow 2 11
  if exponent = 0 then (fraction, 1) else (fraction + Nat.pow 2 52, exponent)

/-- A number that is finite and not negative, with a fixed number of decimals. -/
def ofFloat (places : Nat) (x : Float) : String :=
  let (mantissa, exponent) := parts x
  let units := mantissa * Nat.pow 10 places * Nat.pow 2 (exponent - 1075)
  text places (roundDiv units (Nat.pow 2 (1075 - exponent)))

end SnapStore.Fixed
