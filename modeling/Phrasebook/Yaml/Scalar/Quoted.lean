import Phrasebook.Yaml.Fault

/-!
# Phrasebook.Yaml.Scalar.Quoted

Scalars between single or double quotes.

Between the quotes, runs without blanks alternate with gaps; a gap that holds line ends folds.
Single quotes know one escape, a quote written twice. Double quotes know the escapes that begin with
a backslash, one of which joins two lines.
-/

namespace Phrasebook.Yaml.Quoted

def simpleEscape? : Char → Option Char
  | '0' => some '\x00'
  | 'a' => some '\x07'
  | 'b' => some '\x08'
  | 't' | '\t' => some '\t'
  | 'n' => some '\n'
  | 'v' => some '\x0b'
  | 'f' => some '\x0c'
  | 'r' => some '\r'
  | 'e' => some '\x1b'
  | ' ' => some ' '
  | '"' => some '"'
  | '\\' => some '\\'
  | '/' => some '/'
  | 'N' => some '\x85'
  | '_' => some '\xa0'
  | 'L' => some '\u2028'
  | 'P' => some '\u2029'
  | _ => none

/-- The number of digits after the letter of a numeric escape. -/
def escapeWidth? : Char → Option Nat
  | 'x' => some 2
  | 'u' => some 4
  | 'U' => some 8
  | _ => none

/-- The number written by the next `count` hexadecimal digits, or what stands in the place of one.
    -/
def hexNumber : Nat → Nat → List Char → Except (Option Char) Nat
  | 0, value, _ => .ok value
  | _ + 1, _, [] => .error none
  | count + 1, value, c :: rest =>
    match Text.hexDigit? c with
    | some digit => hexNumber count (value * 16 + digit) rest
    | none => .error (some c)

/-- Reads the digits of a numeric escape, which may name half of a surrogate pair. -/
def numericEscape (width : Nat) (cursor : Cursor) : Except Fault (Text × Cursor) :=
  match hexNumber width 0 cursor.rest with
  | .error found => .error (.malformedAt cursor.mark (.expected (.hexDigits width) found))
  | .ok code =>
    match CodePoint.ofNat? code with
    | some c => .ok ([c], cursor.skip width)
    | none => .error (.excessive (if code < 0x80000000 then .codePoint else .wideCodePoint))

/-- The line ends at the beginning of lines between quotes, indentation left out. Every turn takes a
    line end. -/
def lineEnds : Nat → Cursor → Except Fault (List Char × Cursor)
  | 0, cursor => .ok ([], cursor)
  | fuel + 1, cursor =>
    if cursor.atSeparator then .error (.malformedAt cursor.mark .unexpectedSeparator)
    else
      let indented := cursor.dropWhile fun c => c = ' ' || c = '\t'
      match indented.lineEnd? with
      | none => .ok ([], indented)
      | some (c, after) => do
        let (more, stop) ← lineEnds fuel after
        return (c :: more, stop)

/-- Reads an escape; its backslash has been passed. -/
def escape (size : Nat) (cursor : Cursor) : Except Fault (Text × Cursor) :=
  match cursor.peek with
  | none => .error (.malformedAt cursor.mark (.unknownEscape none))
  | some c =>
    match simpleEscape? c, escapeWidth? c with
    | some meant, _ => .ok ([CodePoint.ofChar meant], cursor.next)
    | none, some width => numericEscape width cursor.next
    | none, none =>
      if isBreak c then do
        let (ends, stop) ← lineEnds size cursor.skipLineEnd
        return (.ofChars ends, stop)
      else .error (.malformedAt cursor.mark (.unknownEscape (some c)))

/-- Reads a run without blanks, up to the closing quote. Every turn takes a character. -/
def run (size : Nat) (quote : Char) : Nat → Cursor → Except Fault (Text × Cursor)
  | 0, cursor => .ok ([], cursor)
  | fuel + 1, cursor =>
    match cursor.rest with
    | [] => .ok ([], cursor)
    | c :: rest =>
      if isBlankOrEnd (some c) then .ok ([], cursor)
      else if c = quote then
        -- Between single quotes a quote is written twice.
        if quote = '\'' && rest.head? = some quote then do
          let (more, stop) ← run size quote fuel (cursor.skip 2)
          return (.ofChar quote :: more, stop)
        else .ok ([], cursor)
      else if quote = '"' && c = '\\' then do
        let (meant, after) ← escape size cursor.next
        let (more, stop) ← run size quote fuel after
        return (meant ++ more, stop)
      else do
        let (more, stop) ← run size quote fuel cursor.next
        return (.ofChar c :: more, stop)

def gap (size : Nat) (cursor : Cursor) : Except Fault (List Char × Cursor) :=
  let (blanks, afterBlanks) := cursor.span fun c => c = ' ' || c = '\t'
  match afterBlanks.lineEnd? with
  | some (first, after) => do
    let (more, stop) ← lineEnds size after
    return (foldLines first more, stop)
  | none =>
    if afterBlanks.rest.isEmpty then .error (.malformedAt afterBlanks.mark .unexpectedEnd)
    else .ok (blanks, afterBlanks)

/-- Reads runs and gaps in turn, and the closing quote. Every turn but the last takes a gap. -/
def body (size : Nat) (quote : Char) : Nat → Cursor → Except Fault (Text × Cursor)
  | 0, cursor => .ok ([], cursor)
  | fuel + 1, cursor => do
    let (written, afterRun) ← run size quote size cursor
    if afterRun.peek = some quote then return (written, afterRun.next)
    else
      let (blanks, afterGap) ← gap size afterRun
      let (more, stop) ← body size quote fuel afterGap
      return (written ++ .ofChars blanks ++ more, stop)

/-- Reads the quoted scalar whose opening quote stands here. The text that is left is shorter than
    `size`. -/
def read (size : Nat) (quote : Char) (cursor : Cursor) : Except Fault (Text × Cursor) :=
  body size quote size cursor.next

end Phrasebook.Yaml.Quoted
