import Phrasebook.Entries
import Phrasebook.Key

/-!
# Phrasebook.Tree

Trees of phrases: the plain content of a document, without positions.

A branch maps keys to trees in the order in which they were first written; the keys of the topmost
branch are locales. Trees of several files are laid over one another by `merge`, and `walk` follows
the segments of a key through a tree.
-/

namespace Phrasebook

/-- A phrase, the absence of one, or a mapping of keys to trees. -/
inductive Tree where
  | text (phrase : Text)
  /-- A key that was written without a phrase. -/
  | null
  /-- A mapping, in the order in which its keys were first written. -/
  | branch (entries : List (Text × Tree))

abbrev Branch := Entries Text Tree

namespace Tree

/-! ### Merging -/

mutual

/-- A value laid over an older one: two branches merge, anything else replaces the older value. -/
def laidOver : Tree → Tree → Tree
  | .branch newer, .branch older => .branch (merge older newer)
  | newer, _ => newer

/-- A branch with a second one laid over it. Keys keep their place, new keys go to the end. -/
def merge (base : Branch) : Branch → Branch
  | [] => base
  | (key, value) :: rest =>
    match base.get? key with
    | some older => merge (base.insert key (laidOver value older)) rest
    | none => merge (base.insert key value) rest

end

/-! ### Walking along a key -/

/-- A tree that answers a walk: a null leaf does not. -/
def present? : Tree → Option Tree
  | .null => none
  | tree => some tree

/-- Follows the segments from `start` on, trying the longest key first at every branch and going
    back when a way leads nowhere. Each branch uses up a segment, so `depth` bounds the way by the
    number of segments that are left. -/
def reach (parts : List Text) (depth : Nat) (tree : Tree) (start : Nat) : Option Tree :=
  if start = parts.length then tree.present?
  else
    match depth, tree with
    | depth + 1, .branch entries =>
      (Key.candidates parts start).findSome? fun (key, next) =>
        (Entries.get? entries key).bind fun child => reach parts depth child next
    | _, _ => none

/-- The phrase or mapping at the end of the segments from `start` on. -/
def walk (tree : Tree) (parts : List Text) (start : Nat) : Option Tree :=
  reach parts (parts.length - start) tree start

/-- Follows the segments from a position on that may be negative, and is then counted from the
    end. -/
def reachFrom (parts : List Text) (depth : Nat) (tree : Tree) (start : Int) : Option Tree :=
  if start = parts.length then tree.present?
  else
    match depth, tree with
    | depth + 1, .branch entries =>
      (Key.candidatesFrom parts start).findSome? fun (key, next) =>
        (Entries.get? entries key).bind fun child => reachFrom parts depth child next
    | _, _ => none

/-- The phrase or mapping at the end of the segments from a position on that may be negative. -/
def walkFrom (tree : Tree) (parts : List Text) (start : Int) : Option Tree :=
  reachFrom parts (parts.length - start).toNat tree start

theorem reachFrom_natCast (parts : List Text) (depth : Nat) (tree : Tree) (start : Nat) :
    reachFrom parts depth tree start = reach parts depth tree start := by
  induction depth generalizing tree start with
  | zero => simp only [reachFrom, reach, Int.natCast_inj]
  | succ depth ih =>
    cases tree with
    | text phrase => simp only [reachFrom, reach, Int.natCast_inj]
    | null => simp only [reachFrom, reach, Int.natCast_inj]
    | branch entries =>
      simp only [reachFrom, reach, Int.natCast_inj, Key.candidatesFrom_natCast,
        List.findSome?_map]
      congr 2
      funext candidate
      simp [ih]

theorem walkFrom_natCast (tree : Tree) (parts : List Text) (start : Nat) :
    tree.walkFrom parts start = tree.walk parts start := by
  have left : ((parts.length : Int) - start).toNat = parts.length - start := by
    omega
  simp only [walkFrom, walk, reachFrom_natCast, left]

/-! ### Listing -/

/-- The phrases directly below a branch, one `key: phrase` line each. -/
def listing (entries : Branch) : Text :=
  List.intercalate (Text.ofString "\n") <| entries.filterMap fun (key, value) =>
    match value with
    | .text phrase => some (key ++ Text.ofString ": " ++ phrase)
    | _ => none

end Tree

end Phrasebook
