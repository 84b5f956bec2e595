/-! # Spans of time

A span counts nanoseconds. In words it uses the largest unit of which it holds at
least one, with as many decimals as it needs.
-/

namespace SnapStore

/-- A span of time. -/
structure Span where
  nanoseconds : Nat
  deriving DecidableEq, Repr

namespace Span

/-- A span of so many milliseconds. -/
def ofMilliseconds (n : Nat) : Span :=
  ⟨n * 1000000⟩

/-- A whole part and a fraction of so many decimals, without trailing zeros. -/
def decimal (whole fraction places : Nat) : String :=
  let digits := Nat.toDigits 10 fraction
  let padded := List.replicate (places - digits.length) '0' ++ digits
  let kept := (padded.reverse.dropWhile (· == '0')).reverse
  if kept.isEmpty then toString whole else toString whole ++ "." ++ String.ofList kept

/-- A span in words. -/
def describe (s : Span) : String :=
  let n := s.nanoseconds
  if 1000000000 ≤ n then decimal (n / 1000000000) (n % 1000000000) 9 ++ "s"
  else if 1000000 ≤ n then decimal (n / 1000000) (n % 1000000) 6 ++ "ms"
  else if 1000 ≤ n then decimal (n / 1000) (n % 1000) 3 ++ "µs"
  else toString n ++ "ns"

end Span

end SnapStore
