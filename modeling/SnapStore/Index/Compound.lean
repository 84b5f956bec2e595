import SnapStore.Index.Indexer

/-! # Compound indexes

A compound joins the keys of its parts. Over single indexers it derives at most one
key; over indexers of either sort it derives a key for every way to take one key from
each part. A part without a key leaves the object out, unless the compound allows
missing parts: then the key ends before that part.
-/

namespace SnapStore.CompoundIndex

universe u

variable {α : Type u}

/-! ## Arguments -/

/-- The keys of the arguments, each derived by the part it falls to, one after another. -/
def joinArgs : List ArgKeys → List Arg → Except KeyError Key
  | p :: ps, a :: as => do
    let key ← p.key [a]
    let rest ← joinArgs ps as
    return key ++ rest
  | _, _ => .ok []

/-- Like `joinArgs`, but the last argument gives a stem. The parts are counted from
`i`. -/
def joinStem (i : Nat) : List ArgKeys → List Arg → Except KeyError Key
  | p :: _, [a] =>
    match p.stem? [a] with
    | none => .error (.args (.noStem i))
    | some stem => stem
  | p :: ps, a :: as => do
    let key ← p.key [a]
    let rest ← joinStem (i + 1) ps as
    return key ++ rest
  | _, _ => .ok []

/-- Keys and stems of one argument for each part; a stem may give fewer. -/
def args (parts : List ArgKeys) : ArgKeys where
  key args :=
    if args.length = parts.length then joinArgs parts args
    else .error (.args (.partCount parts.length args.length))
  stem? args :=
    some (if parts.length < args.length then .error (.args (.tooMany args.length parts.length))
      else joinStem 0 parts args)

/-! ## Objects -/

/-- The keys of the parts, joined; nothing if a part has no key and none may miss. -/
def joined (allowMissing : Bool) (o : α) : List (SingleIndexer α) → Except KeyError (Option Key)
  | [] => .ok (some [])
  | p :: ps => do
    match ← p.ofObject o with
    | none => return if allowMissing then some [] else none
    | some key => return (← joined allowMissing o ps).map (key ++ ·)

/-- The compound over single indexers. A key without bytes counts as none. -/
def single (parts : List (SingleIndexer α)) (allowMissing : Bool := false) :
    SingleIndexer α where
  toArgKeys := args (parts.map (·.toArgKeys))
  ofObject o := (joined allowMissing o parts).map (·.filter (!·.isEmpty))

/-- Every way to join one key of each part, those with an earlier key of an earlier part
first; none if a part has no key and none may miss. -/
def products (allowMissing : Bool) (o : α) : List (Indexer α) → Except KeyError (List Key)
  | [] => .ok [[]]
  | p :: ps => do
    match ← p.keys o with
    | [] => return if allowMissing then [[]] else []
    | keys =>
      let tails ← products allowMissing o ps
      return keys.flatMap fun key => tails.map (key ++ ·)

/-- The compound over indexers of either sort. Keys without bytes count as none. -/
def multi (parts : List (Indexer α)) (allowMissing : Bool := false) : MultiIndexer α where
  toArgKeys := args (parts.map (·.args))
  ofObject o := (products allowMissing o parts).map (·.filter (!·.isEmpty))

end SnapStore.CompoundIndex
