import Phrasebook.Yaml.Fault

/-!
# Phrasebook.Yaml.Scalar.Block

Scalars whose text follows on indented lines, after `|` or `>`.

After `|` the lines are kept; after `>` a line end between two lines that begin with text folds. The
header may fix the indentation by a digit, and what becomes of the line ends after the last line by
a sign: `+` keeps them all, `-` keeps none, and without a sign one is kept.
-/

namespace Phrasebook.Yaml.Block

/-- What becomes of the line ends after the last line. -/
inductive Chomping where
  | strip
  | clip
  | keep

/-- The header after `|` or `>`. -/
structure Header where
  chomping : Chomping
  /-- The indentation of the text beyond that of its collection, if given. -/
  indentation : Option Nat

def sign? (cursor : Cursor) : Option Chomping × Cursor :=
  match cursor.peek with
  | some '+' => (some .keep, cursor.next)
  | some '-' => (some .strip, cursor.next)
  | _ => (none, cursor)

def digit? (cursor : Cursor) : Except Fault (Option Nat × Cursor) :=
  match cursor.peek with
  | some c =>
    if c = '0' then .error (.malformedAt cursor.mark .zeroIndentation)
    else if '1' ≤ c && c ≤ '9' then .ok (some (c.toNat - '0'.toNat), cursor.next)
    else .ok (none, cursor)
  | none => .ok (none, cursor)

/-- Reads the sign and the digit, in either order. -/
def header (cursor : Cursor) : Except Fault (Header × Cursor) := do
  let (before, afterSign) := sign? cursor
  let (digit, afterDigit) ← digit? afterSign
  let (chomping, after) :=
    match before, digit with
    | none, some _ => sign? afterDigit
    | _, _ => (before, afterDigit)
  if isSpaceOrEnd after.peek then return (⟨chomping.getD .clip, digit⟩, after)
  else throw (.malformedAt after.mark (.expected .blockIndicators after.peek))

def skipComment (cursor : Cursor) : Cursor :=
  if cursor.peek = some '#' then cursor.dropWhile (!isBreak ·) else cursor

/-- Passes the rest of a line, which may hold a comment only. -/
def skipRestOfLine (cursor : Cursor) : Except Fault Cursor :=
  let after := skipComment (cursor.dropWhile (· = ' '))
  if isLineEnd after.peek then .ok after.skipLineEnd
  else .error (.malformedAt after.mark (.expected .commentOrBreak after.peek))

/-- Line ends before a line of text, and where the last of them stops. -/
structure Blanks where
  ends : List Char
  /-- The position after the last line end, or where the blanks start if there is none. -/
  stop : Mark
  /-- Where the blanks stop, after the indentation of the next line. -/
  after : Cursor

/-- Passes line ends and spaces of any number, and tells the greatest indentation among them. -/
def leadingBlanks : Nat → Nat → Mark → Cursor → Blanks × Nat
  | 0, widest, stop, cursor => (⟨[], stop, cursor⟩, widest)
  | fuel + 1, widest, stop, cursor =>
    if cursor.peek = some ' ' then
      leadingBlanks fuel (max widest cursor.next.mark.column) stop cursor.next
    else
      match cursor.lineEnd? with
      | none => (⟨[], stop, cursor⟩, widest)
      | some (c, after) =>
        let (more, widest) := leadingBlanks fuel widest after.mark after
        ({ more with ends := c :: more.ends }, widest)

def indentTo (column : Nat) : Nat → Cursor → Cursor
  | 0, cursor => cursor
  | fuel + 1, cursor =>
    if cursor.mark.column < column && cursor.peek = some ' ' then indentTo column fuel cursor.next
    else cursor

/-- Passes line ends, and the indentation of each line as far as a column. -/
def blanks (size column : Nat) : Nat → Mark → Cursor → Blanks
  | 0, stop, cursor => ⟨[], stop, cursor⟩
  | fuel + 1, stop, cursor =>
    let indented := indentTo column size cursor
    match indented.lineEnd? with
    | none => ⟨[], stop, indented⟩
    | some (c, after) =>
      let more := blanks size column fuel after.mark after
      { more with ends := c :: more.ends }

def blanksAt (size column : Nat) (cursor : Cursor) : Blanks :=
  blanks size column size cursor.mark cursor

/-- Whether a line begins with text, rather than with a blank. -/
def beginsWithText (cursor : Cursor) : Bool :=
  match cursor.peek with
  | some c => c ≠ ' ' && c ≠ '\t'
  | none => true

/-- What stands between two lines of text. -/
def joint (folded : Bool) (fromText toText : Bool) (lineEnd : Char) (ends : List Char) :
    List Char :=
  if folded && lineEnd = '\n' && fromText && toText then
    if ends.isEmpty then [' '] else ends
  else lineEnd :: ends

/-- What is kept of the line ends after the last line of text; the last line of a document may have
    none. -/
def lastEnds (chomping : Chomping) (lineEnd : Option Char) (ends : List Char) : List Char :=
  match chomping with
  | .strip => []
  | .clip => lineEnd.toList
  | .keep => lineEnd.toList ++ ends

/-- The text of a block scalar, where it stops, and what follows it. -/
structure Reading where
  value : List Char
  stop : Mark
  after : Cursor

/-- Whether another line of text stands here: at the right column, and with a character on it. -/
def atLine (column : Nat) (cursor : Cursor) : Bool :=
  cursor.mark.column = column && !cursor.rest.isEmpty

/-- Reads the lines of text from here on. Every turn takes a line. -/
def lines (size : Nat) (folded : Bool) (chomping : Chomping) (column : Nat) :
    Nat → Cursor → Reading
  | 0, cursor => ⟨[], cursor.mark, cursor⟩
  | fuel + 1, cursor =>
    let (line, afterLine) := cursor.span (!isBreak ·)
    let lineEnd := afterLine.lineEnd?.map (·.1)
    let gap := blanksAt size column afterLine.skipLineEnd
    if atLine column gap.after then
      let between := joint folded (beginsWithText cursor) (beginsWithText gap.after)
        (lineEnd.getD '\n') gap.ends
      let more := lines size folded chomping column fuel gap.after
      { more with value := line ++ between ++ more.value }
    else ⟨line ++ lastEnds chomping lineEnd gap.ends, gap.stop, gap.after⟩

/-- Reads the block scalar whose indicator stands here. Without a digit in the header, the text is
    indented as far as the widest of the first lines up to the first one with text on it, and at
    least to `minColumn`. The text that is left is shorter than `size`. -/
def read (size : Nat) (folded : Bool) (minColumn : Nat) (cursor : Cursor) :
    Except Fault Reading := do
  let (header, afterHeader) ← header cursor.next
  let first ← skipRestOfLine afterHeader
  let least := max 1 minColumn
  -- Without a digit the first lines tell how far the text is indented.
  let (gap, column) :=
    match header.indentation with
    | none =>
      let (gap, widest) := leadingBlanks size 0 first.mark first
      (gap, max least widest)
    | some digit => (blanksAt size (least + digit - 1) first, least + digit - 1)
  if atLine column gap.after then
    let text := lines size folded header.chomping column size gap.after
    return { text with value := gap.ends ++ text.value }
  else return ⟨lastEnds header.chomping none gap.ends, gap.stop, gap.after⟩

end Phrasebook.Yaml.Block
