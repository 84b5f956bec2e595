import SnapStore.Index.Arg

/-! # Why no key can be derived

An indexer refuses a value of an object, or arguments that do not fit it. The causes
are data; `message` gives each its wording.
-/

namespace SnapStore

/-- The sort of argument an indexer asks for. -/
inductive Wanted where
  | text
  | integer
  | unsigned
  | bool
  | uuid
  | uuidStem
  deriving DecidableEq, Repr

/-- The sort of argument, in words. -/
def Wanted.describe : Wanted → String
  | text => "string"
  | integer => "integer"
  | unsigned => "unsigned integer"
  | bool => "bool"
  | uuid => "UUID"
  | uuidStem => "UUID prefix"

/-- Why arguments do not fit an indexer. -/
inductive Misfit where
  /-- It takes one argument. -/
  | notSingle (got : Nat)
  /-- It takes one or two arguments. -/
  | notOneOrTwo (got : Nat)
  /-- The argument is of another sort. -/
  | notWanted (wanted : Wanted) (arg : Arg)
  /-- An unsigned number has no signed counterpart. -/
  | overflow (value : UInt64)
  /-- A signed number has no unsigned counterpart. -/
  | negative (value : Int64)
  /-- The text of an identifier has the wrong number of bytes. -/
  | uuidLength (got : Nat)
  /-- The start of an identifier's text is longer than the text can be. -/
  | uuidTooLong (text : String)
  /-- An identifier's text has more than four hyphens. -/
  | uuidHyphens (text : String)
  /-- An identifier's text has half a byte too many. -/
  | uuidOddDigits
  /-- An identifier's text has something else than digits and hyphens. -/
  | uuidDigits (text : String)
  /-- An identifier is given by the wrong number of bytes. -/
  | uuidBytes (got : Nat)
  /-- A compound takes one argument for each of its parts. -/
  | partCount (expected got : Nat)
  /-- A stem of a compound takes at most one argument for each of its parts. -/
  | tooMany (got parts : Nat)
  /-- The part that the last argument of a stem falls to derives no stems. -/
  | noStem (part : Nat)
  deriving DecidableEq

/-- The wording of a misfit. -/
def Misfit.message : Misfit → String
  | notSingle got => s!"must provide only a single argument, got {got}"
  | notOneOrTwo got => s!"must provide one or two arguments, got {got}"
  | notWanted wanted arg => s!"argument must be a {wanted.describe}: {arg.describe}"
  | overflow value => s!"{value.toNat} overflows a signed index"
  | negative value => s!"{value.toInt} is negative"
  | uuidLength got => s!"UUID must be 36 characters, got {got}"
  | uuidTooLong text => s!"UUID prefix is longer than a UUID: {text}"
  | uuidHyphens text => s!"UUID should have maximum of 4 \"-\"; got {text}"
  | uuidOddDigits => "input (without hyphens) must be even length"
  | uuidDigits text => s!"invalid hex in UUID: {text}"
  | uuidBytes got => s!"UUID must be 16 bytes, got {got}"
  | partCount expected got => s!"wrong number of arguments: expected {expected}, got {got}"
  | tooMany got parts => s!"more arguments than index parts: {got} > {parts}"
  | noStem part => s!"sub-index {part} does not support prefix scanning"

/-- Why no key can be derived. -/
inductive KeyError where
  /-- The indexer refuses a value of the object. -/
  | value (reason : String)
  /-- The arguments do not fit the indexer. -/
  | args (misfit : Misfit)
  deriving DecidableEq

/-- The wording of a failure to derive a key. -/
def KeyError.message : KeyError → String
  | value reason => s!"invalid index value: {reason}"
  | args misfit => s!"invalid index arguments: {misfit.message}"

end SnapStore
