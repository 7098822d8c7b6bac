/-!
# Phrasebook.Yaml.Cursor

Positions in a text, and the text that follows them.

Every position counts characters: its offset in the text, its line and its column, all from zero. A
byte order mark takes up an offset but no column. All reading goes through `Cursor.next` or
`Cursor.run`, so a mark always tells how much text lies before it.
-/

namespace Phrasebook.Yaml

structure Mark where
  /-- The number of characters before it. -/
  index : Nat
  /-- The number of line ends before it. -/
  line : Nat
  /-- The number of columns before it on its line. -/
  column : Nat
  deriving DecidableEq

def isBreak (c : Char) : Bool :=
  c = '\n' || c = '\r' || c = '\x85' || c = '\u2028' || c = '\u2029'

/-- The position after a character; a carriage return before a line feed does not end the line. -/
def Mark.past (mark : Mark) (c : Char) (following : Option Char) : Mark :=
  if isBreak c && !(c = '\r' && following = some '\n') then ⟨mark.index + 1, mark.line + 1, 0⟩
  else if c = '\uFEFF' then ⟨mark.index + 1, mark.line, mark.column⟩
  else ⟨mark.index + 1, mark.line, mark.column + 1⟩

/-! ### What may follow a token -/

def isLineEnd : Option Char → Bool
  | none => true
  | some c => isBreak c

def isSpaceOrEnd : Option Char → Bool
  | none => true
  | some c => c = ' ' || isBreak c

def isBlankOrEnd : Option Char → Bool
  | none => true
  | some c => c = ' ' || c = '\t' || isBreak c

/-! ### Cursors -/

/-- A position together with the text after it. -/
structure Cursor where
  mark : Mark
  /-- The characters from the position to the end of the text. -/
  rest : List Char

namespace Cursor

def start (text : List Char) : Cursor :=
  ⟨⟨0, 0, 0⟩, text⟩

def peek (cursor : Cursor) : Option Char :=
  cursor.rest.head?

/-- The character after `ahead` more ones. -/
def peekAt (cursor : Cursor) (ahead : Nat) : Option Char :=
  cursor.rest[ahead]?

/-- Takes the longest run of characters that pass a test, which also sees the character after. -/
def runFrom (more : Char → Option Char → Bool) (mark : Mark) : List Char → List Char × Cursor
  | [] => ([], ⟨mark, []⟩)
  | c :: rest =>
    if more c rest.head? then
      let (taken, cursor) := runFrom more (mark.past c rest.head?) rest
      (c :: taken, cursor)
    else ([], ⟨mark, c :: rest⟩)

/-- Takes the longest run of characters that pass a test of themselves and what follows them. -/
def run (cursor : Cursor) (more : Char → Option Char → Bool) : List Char × Cursor :=
  runFrom more cursor.mark cursor.rest

/-- Takes the longest run of characters that pass a test. -/
def span (cursor : Cursor) (keep : Char → Bool) : List Char × Cursor :=
  cursor.run fun c _ => keep c

/-- Passes the longest run of characters that pass a test. -/
def dropWhile (cursor : Cursor) (drop : Char → Bool) : Cursor :=
  (cursor.span drop).2

def next (cursor : Cursor) : Cursor :=
  match cursor.rest with
  | [] => cursor
  | c :: rest => ⟨cursor.mark.past c rest.head?, rest⟩

def skip (cursor : Cursor) : Nat → Cursor
  | 0 => cursor
  | n + 1 => cursor.next.skip n

/-- Takes a line end, if one stands here. It reads as a line feed, except for the line separator and
    the paragraph separator, which stand for themselves. -/
def lineEnd? (cursor : Cursor) : Option (Char × Cursor) :=
  match cursor.rest with
  | '\r' :: '\n' :: _ => some ('\n', cursor.skip 2)
  | c :: _ =>
    if c = '\u2028' || c = '\u2029' then some (c, cursor.next)
    else if isBreak c then some ('\n', cursor.next)
    else none
  | [] => none

def skipLineEnd (cursor : Cursor) : Cursor :=
  match cursor.lineEnd? with
  | some (_, after) => after
  | none => cursor

/-- Whether the three characters here are the given one, with a blank or the end of a line after. -/
def atTriple (cursor : Cursor) (c : Char) : Bool :=
  match cursor.rest with
  | c₁ :: c₂ :: c₃ :: rest => c₁ = c && c₂ = c && c₃ = c && isBlankOrEnd rest.head?
  | _ => false

/-- Whether a document start `---` or a document end `...` stands here. -/
def atSeparator (cursor : Cursor) : Bool :=
  cursor.atTriple '-' || cursor.atTriple '.'

end Cursor

/-! ### Folding lines -/

/-- What stands for the line ends between two lines of text: a single line feed becomes a space, and
    the first of several is dropped. -/
def foldLines (first : Char) (more : List Char) : List Char :=
  if first ≠ '\n' then first :: more
  else if more.isEmpty then [' ']
  else more

end Phrasebook.Yaml
