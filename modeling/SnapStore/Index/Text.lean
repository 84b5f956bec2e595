import SnapStore.Index.Indexer
import SnapStore.Text.Lowercase

/-! # Indexes over texts

The key of a text is its UTF-8 bytes and a closing zero byte, so that the key of a
text is not a stem of the key of a longer one. The stem of a text leaves the closing
byte away. An index may fold case: it then lowercases texts and arguments alike.
-/

namespace SnapStore.TextIndex

universe u

variable {α : Type u}

/-- A text as an index sees it: lowercased if the index folds case. -/
def normal (fold : Bool) (s : String) : String :=
  if fold then Lowercase.ofText s else s

/-- The bytes of a text, which every key of a text that continues it starts with. -/
def stem (fold : Bool) (s : String) : Key :=
  Key.ofText (normal fold s)

/-- The key of a text: its bytes and a closing zero byte. -/
def key (fold : Bool) (s : String) : Key :=
  stem fold s ++ [0]

/-- The text an argument gives. -/
def ofArg : Arg → Except Misfit String
  | .text s => .ok s
  | arg => .error (.notWanted .text arg)

/-- Keys and stems of one text argument. -/
def args (fold : Bool) : ArgKeys :=
  .ofSingleWithStem (fun arg => (ofArg arg).map (key fold)) (fun arg => (ofArg arg).map (stem fold))

/-- The index over a field that holds one text. An empty text counts as none. -/
def single (field : α → Option String) (fold : Bool := false) : SingleIndexer α where
  toArgKeys := args fold
  ofObject o := .ok (((field o).filter (!·.isEmpty)).map (key fold))

/-- The index over a field that holds several texts: a key for each different one that
is not empty, in ascending order. -/
def each (field : α → List String) (fold : Bool := false) : MultiIndexer α where
  toArgKeys := args fold
  ofObject o := .ok (Key.ascending (((field o).filter (!·.isEmpty)).map (key fold)))

/-- The key of a name with a value. -/
def pairKey (fold : Bool) (name value : String) : Key :=
  key fold name ++ key fold value

/-- The key of a name, or of a name with a value. -/
def pairArgs (fold : Bool) : List Arg → Except Misfit Key
  | [name] => do return key fold (← ofArg name)
  | [name, value] => do return pairKey fold (← ofArg name) (← ofArg value)
  | args => .error (.notOneOrTwo args.length)

/-- The index over a field that holds named values: a key for each different pair
whose name is not empty, in ascending order. -/
def pairs (field : α → List (String × String)) (fold : Bool := false) : MultiIndexer α where
  key args := (pairArgs fold args).mapError .args
  stem? _ := none
  ofObject o :=
    .ok (Key.ascending
      (((field o).filter (!·.1.isEmpty)).map fun (name, value) => pairKey fold name value))

end SnapStore.TextIndex
