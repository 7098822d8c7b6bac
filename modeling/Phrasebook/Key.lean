import Phrasebook.Text.CodePoint
import Phrasebook.Text.Pieces

/-!
# Phrasebook.Key

Dotted keys: `en.hello.world` names the phrase `world` under `hello` in the locale `en`.

A mapping may spell such a key in several ways, because one of its own keys may hold dots: nested
mappings `en`, `hello`, `world`, or a mapping `en` with the single key `hello.world`. The spellings
of one key are ordered by `rank`: the one whose leading parts are the longest comes first, and a
search that tries `candidates` in order meets them in that order.
-/

namespace Phrasebook.Key

def separator : CodePoint := '.'

/-- The segments of a dotted key; empty ones are dropped. -/
def split (key : Text) : List Text :=
  (Text.pieces separator key).filter (· ≠ [])

/-- The dotted key made of the non-empty parts. A part may hold dots of its own. -/
def join (parts : List Text) : Text :=
  List.intercalate [separator] (parts.filter (· ≠ []))

/-- The segments of a key under a locale, the locale first. -/
def localeSegments (key : Option Text) (locale : Text) : List Text :=
  split locale ++ split (key.getD [])

/-- The keys to try at one level of a mapping, longest first: all segments from `start` on read as
    one key, then one segment fewer, down to the segment at `start` alone. Each comes with the
    position of the first segment it leaves over. -/
def candidates (parts : List Text) (start : Nat) : List (Text × Nat) :=
  (List.range' (start + 1) (parts.length - start)).reverse.map fun stop =>
    (join ((parts.take stop).drop start), stop)

/-! ### Positions counted from the end -/

/-- The number of segments before a position. A negative position is counted from the end, and one
    that lies before the first segment has none before it. -/
def before (count : Nat) (position : Int) : Nat :=
  if position < 0 then (count + position).toNat else position.toNat

theorem before_natCast (count position : Nat) : before count position = position := by
  simp only [before, Int.toNat_natCast]
  split
  · omega
  · rfl

/-- The keys to try from a position that may be negative. The ends that the keys go to run down to
    the position itself, negative ones included, and a key that would end before it begins is
    empty. -/
def candidatesFrom (parts : List Text) (start : Int) : List (Text × Int) :=
  (List.range (parts.length - start).toNat).map fun (left : Nat) =>
    let stop : Int := parts.length - left
    (join ((parts.take (before parts.length stop)).drop (before parts.length start)), stop)

theorem candidatesFrom_natCast (parts : List Text) (start : Nat) :
    candidatesFrom parts start =
      (candidates parts start).map fun (key, next) => (key, (next : Int)) := by
  apply List.ext_getElem
  · simp [candidatesFrom, candidates]
  · intro i hi hj
    have bound : i < parts.length - start := by
      simpa [candidates] using hj
    have stop : (parts.length : Int) - i = (parts.length - i : Nat) := by
      omega
    have same : start + 1 + (parts.length - start - 1 - i) = parts.length - i := by
      omega
    simp [candidatesFrom, candidates, before_natCast, stop, same]

/-! ### Order of spellings -/

/-- How many segments each part of a spelling holds. Of two spellings of one key, search reaches the
    one with the lexicographically greater rank first. -/
def rank (path : List Text) : List Nat :=
  path.map fun part => (split part).length

end Phrasebook.Key
