import Phrasebook.Tree

/-!
# Phrasebook.Lookup

The flat view of a branch: each phrase under its full dotted key.

Two spellings of one key meet in the same entry. The spelling with the greater `Key.rank` wins,
which is the one that a walk along the key reaches first; of two with equal rank the later one wins.
-/

namespace Phrasebook

/-- Phrases by full dotted key, in the order in which the keys were first met. -/
abbrev Lookup := Entries Text Text

namespace Tree

mutual

/-- The phrases of a tree with the keys that lead to them, depth first; empty keys are left out. -/
def leaves (path : List Text) : Tree → List (List Text × Text)
  | .text phrase => [(path, phrase)]
  | .null => []
  | .branch entries => branchLeaves path entries

/-- The phrases below a branch with the keys that lead to them. -/
def branchLeaves (path : List Text) : List (Text × Tree) → List (List Text × Text)
  | [] => []
  | (key, value) :: rest =>
    leaves (if key = [] then path else path ++ [key]) value ++ branchLeaves path rest

end

end Tree

namespace Lookup

/-- A phrase with the rank of the spelling that brought it. -/
structure Spelled where
  rank : List Nat
  phrase : Text

/-- Enters one leaf, unless its key is empty or taken by a spelling of greater rank. -/
def record (table : Entries Text Spelled) (leaf : List Text × Text) : Entries Text Spelled :=
  let key := Key.join leaf.1
  let spelled : Spelled := ⟨Key.rank leaf.1, leaf.2⟩
  if key = [] then table
  else
    match table.get? key with
    | some held => if spelled.rank < held.rank then table else table.insert key spelled
    | none => table.insert key spelled

/-- The flat view of a branch. -/
def ofBranch (entries : Branch) : Lookup :=
  ((Tree.branchLeaves [] entries).foldl record []).map fun (key, spelled) => (key, spelled.phrase)

end Lookup

end Phrasebook
