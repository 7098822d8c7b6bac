import Phrasebook.Yaml.Token

/-!
# Phrasebook.Yaml.Scalar.Plain

Scalars without quotes.

A plain scalar is a chain of runs without blanks, with gaps between them: spaces on one line, or
line ends with indentation, which fold. It stops before a comment, before a colon that makes it a
key, before a document separator, and in block context before text that is not indented far enough.
-/

namespace Phrasebook.Yaml.Plain

/-- Whether a colon before this is the end of a key. -/
def endsKey (inFlow : Bool) (following : Option Char) : Bool :=
  isBlankOrEnd following ||
    inFlow && following.any fun c => c = ',' || c = '[' || c = ']' || c = '{' || c = '}'

/-- Whether a character goes on with a run. In flow context the marks of collections end it. -/
def isRunChar (inFlow : Bool) (c : Char) (following : Option Char) : Bool :=
  !(isBlankOrEnd (some c)) &&
  !(c = ':' && endsKey inFlow following) &&
  !(inFlow && (c = ',' || c = '?' || c = '[' || c = ']' || c = '{' || c = '}'))

def startsRun (inFlow : Bool) (cursor : Cursor) : Bool :=
  match cursor.rest with
  | [] => false
  | c :: rest => isRunChar inFlow c rest.head?

/-- The text between two runs, and what follows it. -/
structure Gap where
  /-- What stands for the gap in the value; nothing if the scalar cannot go on after it. -/
  text : List Char
  after : Cursor
  /-- Whether it holds the end of a line. -/
  crossesLine : Bool

/-- The line ends after the first one of a gap, indentation left out; none if a document separator
    stands at the beginning of one of the lines. Every turn takes a character. -/
def moreLineEnds : Nat → Cursor → Option (List Char) × Cursor
  | 0, cursor => (some [], cursor)
  | fuel + 1, cursor =>
    if cursor.peek = some ' ' then moreLineEnds fuel cursor.next
    else
      match cursor.lineEnd? with
      | none => (some [], cursor)
      | some (c, after) =>
        if after.atSeparator then (none, after)
        else
          let (more, stop) := moreLineEnds fuel after
          (more.map (c :: ·), stop)

def gap (fuel : Nat) (cursor : Cursor) : Gap :=
  let (spaces, afterSpaces) := cursor.span (· = ' ')
  match afterSpaces.lineEnd? with
  | none => ⟨spaces, afterSpaces, false⟩
  | some (first, after) =>
    if after.atSeparator then ⟨[], after, true⟩
    else
      match moreLineEnds fuel after with
      | (none, stop) => ⟨[], stop, true⟩
      | (some more, stop) => ⟨foldLines first more, stop, true⟩

structure Reading where
  value : List Char
  /-- Where its last run stops. -/
  stop : Mark
  /-- Where reading goes on, after the gap that follows the last run. -/
  after : Cursor
  /-- Whether that gap holds the end of a line. -/
  crossesLine : Bool

/-- Reads runs and gaps in turn. Every turn takes a run, so the size of the text bounds them. -/
def readRuns (size : Nat) (inFlow : Bool) (minColumn : Nat) : Nat → Cursor → Reading
  | 0, cursor => ⟨[], cursor.mark, cursor, false⟩
  | fuel + 1, cursor =>
    let (run, afterRun) := cursor.run (isRunChar inFlow)
    let gap := gap size afterRun
    if gap.text.isEmpty || gap.after.peek = some '#' ||
        (!inFlow && gap.after.mark.column < minColumn) || !startsRun inFlow gap.after then
      ⟨run, afterRun.mark, gap.after, gap.crossesLine⟩
    else
      let more := readRuns size inFlow minColumn fuel gap.after
      { more with value := run ++ gap.text ++ more.value }

/-- Reads the plain scalar that begins here. In block context its further lines start no further to
    the left than `minColumn`. The text that is left is shorter than `size`. -/
def read (size : Nat) (inFlow : Bool) (minColumn : Nat) (cursor : Cursor) : Reading :=
  readRuns size inFlow minColumn size cursor

end Phrasebook.Yaml.Plain
