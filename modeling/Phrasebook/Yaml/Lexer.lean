import Phrasebook.Yaml.Directive
import Phrasebook.Yaml.Scalar.Plain
import Phrasebook.Yaml.Scalar.Quoted

/-!
# Phrasebook.Yaml.Lexer

Finding the tokens of a text.

Two things make the order of tokens differ from that of the text. Indentation opens and closes block
collections, without a character for either. And a colon shows that what stands before it on its
line was a key, so a key token is put in front of tokens that have been found already. Until the
colon may no longer come, the place of such a key is pending.

A text can break off with a fault. A token is handed out before the fault only if it comes before
every pending key at that time: a reader that asks for more needs to know about the key first, and
meets the fault. `Lexer.frontier` is the number of tokens that do.
-/

namespace Phrasebook.Yaml

/-- A token that may turn out to begin a key. -/
structure PendingKey where
  /-- The depth of the flow collection it stands in. -/
  depth : Nat
  number : Nat
  /-- Whether only a key can stand there. -/
  required : Bool
  mark : Mark

/-- How far the tokens of a text have been found. -/
structure Lexer where
  /-- More than the number of characters in the text, which bounds all reading. -/
  size : Nat
  cursor : Cursor
  /-- The tokens found so far, the last one first. -/
  found : List Token
  count : Nat
  /-- The number of flow collections around the cursor. -/
  depth : Nat
  /-- The columns of the block collections around the cursor, innermost first. -/
  indents : List Nat
  /-- Whether a key may begin here. -/
  keyAllowed : Bool
  /-- The tokens that may turn out to begin a key, at most one for each depth. -/
  pending : List PendingKey

namespace Lexer

/-- The greatest distance from the beginning of a key to its colon. -/
def maxKeyLength : Nat := 1024

def start (text : List Char) : Lexer :=
  ⟨text.length + 1, .start text, [], 0, 0, [], true, []⟩

def mark (s : Lexer) : Mark :=
  s.cursor.mark

def inFlow (s : Lexer) : Bool :=
  s.depth ≠ 0

/-- The column at which a block collection inside the innermost one may begin. -/
def minColumn (s : Lexer) : Nat :=
  match s.indents with
  | [] => 0
  | column :: _ => column + 1

def fail {α : Type} (s : Lexer) (problem : Problem) : Except Fault α :=
  .error (.malformedAt s.mark problem)

def push (s : Lexer) (lexeme : Lexeme) (start stop : Mark) : Lexer :=
  { s with found := ⟨lexeme, start, stop⟩ :: s.found, count := s.count + 1 }

/-- Adds a token for which no character stands. -/
def pushEmpty (s : Lexer) (lexeme : Lexeme) : Lexer :=
  s.push lexeme s.mark s.mark

/-- Adds the token of the next `size` characters and passes them. -/
def take (s : Lexer) (lexeme : Lexeme) (size : Nat) : Lexer :=
  let after := s.cursor.skip size
  { s.push lexeme s.mark after.mark with cursor := after }

/-- Puts a token for which no character stands after the first `number` tokens. -/
def insertEmpty (s : Lexer) (number : Nat) (lexeme : Lexeme) (mark : Mark) : Lexer :=
  let later := s.count - number
  { s with
    found := s.found.take later ++ ⟨lexeme, mark, mark⟩ :: s.found.drop later
    count := s.count + 1 }

/-- The number of tokens that come before every pending key. -/
def frontier (s : Lexer) : Nat :=
  s.pending.foldl (fun least key => min least key.number) s.count

/-! ### Keys -/

/-- Forgets the key pending at the present depth, unless it has to be one. -/
def dropKey (s : Lexer) : Except Fault Lexer :=
  if s.pending.any fun key => key.depth = s.depth && key.required then s.fail .missingColon
  else .ok { s with pending := s.pending.filter fun key => key.depth ≠ s.depth }

/-- Notes that the next token may begin a key, if one may begin here. In block context it has to be
    a key when it stands at the column of the innermost mapping or sequence. -/
def noteKey (s : Lexer) : Except Fault Lexer :=
  if s.keyAllowed then do
    let required := !s.inFlow && s.indents.head? = some s.mark.column
    let key : PendingKey := ⟨s.depth, s.count, required, s.mark⟩
    let s ← s.dropKey
    return { s with pending := s.pending ++ [key] }
  else .ok s

/-- Whether the colon of a key can no longer come. -/
def isStale (s : Lexer) (key : PendingKey) : Bool :=
  key.mark.line ≠ s.mark.line || maxKeyLength < s.mark.index - key.mark.index

/-- Forgets the pending keys whose colon can no longer come, unless one has to be a key. -/
def dropStaleKeys (s : Lexer) : Except Fault Lexer :=
  if s.pending.any fun key => s.isStale key && key.required then s.fail .missingColon
  else .ok { s with pending := s.pending.filter fun key => !s.isStale key }

/-! ### Indentation -/

/-- Closes the innermost block collections, as long as their columns pass a test. In a flow
    collection none is closed. -/
def closeWhile (s : Lexer) (close : Nat → Bool) : Lexer :=
  if s.inFlow then s
  else
    (s.indents.takeWhile close).foldl (fun s _ => s.pushEmpty .blockEnd)
      { s with indents := s.indents.dropWhile close }

def closeAll (s : Lexer) : Lexer :=
  s.closeWhile fun _ => true

/-- Closes the block collections that begin to the right of the cursor. -/
def closeDeeper (s : Lexer) : Lexer :=
  s.closeWhile fun column => s.mark.column < column

/-- Whether a block collection begins at a column, to the right of the innermost one. -/
def opensAt (s : Lexer) (column : Nat) : Bool :=
  s.indents.head?.all (· < column)

/-- Opens a block collection at the cursor, if one begins there. -/
def openHere (s : Lexer) (lexeme : Lexeme) : Lexer :=
  if s.opensAt s.mark.column then
    { s.pushEmpty lexeme with indents := s.mark.column :: s.indents }
  else s

/-! ### Passing what lies between tokens -/

/-- Passes spaces, comments and line ends, and tells whether a line end was among them. -/
def skipBlanks (inComment crossed : Bool) (mark : Mark) : List Char → Cursor × Bool
  | [] => (⟨mark, []⟩, crossed)
  | c :: rest =>
    let past := mark.past c rest.head?
    if isBreak c then skipBlanks false true past rest
    else if inComment then skipBlanks true crossed past rest
    else if c = ' ' then skipBlanks false crossed past rest
    else if c = '#' then skipBlanks true crossed past rest
    else (⟨mark, c :: rest⟩, crossed)

/-- Passes a byte order mark at the beginning of the text. -/
def skipByteOrderMark (cursor : Cursor) : Cursor :=
  if cursor.mark.index = 0 && cursor.peek = some '\uFEFF' then cursor.next else cursor

/-- Goes to the next token. In block context a key may begin on a new line. -/
def toNextToken (s : Lexer) : Lexer :=
  let cursor := skipByteOrderMark s.cursor
  let (after, crossed) := skipBlanks false false cursor.mark cursor.rest
  { s with cursor := after, keyAllowed := s.keyAllowed || (crossed && !s.inFlow) }

/-! ### Finding tokens -/

/-- Begins or ends a document, or gives a directive: all block collections are closed. -/
def leaveDocument (s : Lexer) : Except Fault Lexer := do
  let s ← s.closeAll.dropKey
  return { s with keyAllowed := false }

def takeDirective (s : Lexer) : Except Fault Lexer := do
  let s ← s.leaveDocument
  let (directive, stop, after) ← Directive.read s.cursor
  return { s.push (.directive directive) s.mark stop with cursor := after }

def takeSeparator (s : Lexer) (lexeme : Lexeme) : Except Fault Lexer := do
  let s ← s.leaveDocument
  return s.take lexeme 3

/-- Takes the start of a flow collection, which may itself begin a key. -/
def takeFlowStart (s : Lexer) (lexeme : Lexeme) : Except Fault Lexer := do
  let s ← s.noteKey
  return { s.take lexeme 1 with depth := s.depth + 1, keyAllowed := true }

def takeFlowEnd (s : Lexer) (lexeme : Lexeme) : Except Fault Lexer := do
  let s ← s.dropKey
  return { s.take lexeme 1 with depth := s.depth - 1, keyAllowed := false }

def takeFlowEntry (s : Lexer) : Except Fault Lexer := do
  let s ← { s with keyAllowed := true }.dropKey
  return s.take .flowEntry 1

def takeBlockEntry (s : Lexer) : Except Fault Lexer := do
  if !s.inFlow && !s.keyAllowed then s.fail .entryNotAllowed
  let s := if s.inFlow then s else s.openHere .blockSequenceStart
  let s ← { s with keyAllowed := true }.dropKey
  return s.take .blockEntry 1

def takeKey (s : Lexer) : Except Fault Lexer := do
  if !s.inFlow && !s.keyAllowed then s.fail .keyNotAllowed
  let s := if s.inFlow then s else s.openHere .blockMappingStart
  let s ← { s with keyAllowed := !s.inFlow }.dropKey
  return s.take .key 1

/-- Puts a key token before a pending key. In block context a mapping begins there, unless the
    innermost collection already stands at its column. -/
def confirmKey (s : Lexer) (key : PendingKey) : Lexer :=
  let s := { s with pending := s.pending.filter fun other => other.depth ≠ key.depth }
  let s := s.insertEmpty key.number .key key.mark
  if !s.inFlow && s.opensAt key.mark.column then
    { s.insertEmpty key.number .blockMappingStart key.mark with
      indents := key.mark.column :: s.indents }
  else s

def takeValue (s : Lexer) : Except Fault Lexer := do
  match s.pending.find? fun key => key.depth = s.depth with
  | some key => return { s.confirmKey key with keyAllowed := false }.take .value 1
  | none =>
    if !s.inFlow && !s.keyAllowed then s.fail .valueNotAllowed
    let s := if s.inFlow then s else s.openHere .blockMappingStart
    let s ← { s with keyAllowed := !s.inFlow }.dropKey
    return s.take .value 1

def takeAnchor (s : Lexer) (lexeme : String → Lexeme) : Except Fault Lexer := do
  let s ← s.noteKey
  let (name, after) ← readAnchorName s.cursor.next
  return { s.push (lexeme name) s.mark after.mark with cursor := after, keyAllowed := false }

def takeTag (s : Lexer) : Except Fault Lexer := do
  let s ← s.noteKey
  let ((handle, suffix), after) ← Tag.read s.cursor
  return { s.push (.tag handle suffix) s.mark after.mark with cursor := after, keyAllowed := false }

def takeQuoted (s : Lexer) (quote : Char) (style : Style) : Except Fault Lexer := do
  let s ← s.noteKey
  let (value, after) ← Quoted.read s.size quote s.cursor
  return { s.push (.scalar value style) s.mark after.mark with
    cursor := after, keyAllowed := false }

/-- Takes a plain scalar. After a line end a key may begin again. -/
def takePlain (s : Lexer) : Except Fault Lexer := do
  let s ← s.noteKey
  let reading := Plain.read s.size s.inFlow s.minColumn s.cursor
  return { s.push (.scalar (.ofChars reading.value) .plain) s.mark reading.stop with
    cursor := reading.after, keyAllowed := reading.crossesLine }

def takeBlock (s : Lexer) (style : Style) : Except Fault Lexer := do
  let s ← { s with keyAllowed := true }.dropKey
  let reading ← Block.read s.size (style = .folded) s.minColumn s.cursor
  return { s.push (.scalar (.ofChars reading.value) style) s.mark reading.stop with
    cursor := reading.after }

/-- Whether a plain scalar begins here: no indicator does, except that a dash, and in block context
    a question mark or a colon, begins one if something follows it directly. -/
def startsPlain (s : Lexer) (c : Char) : Bool :=
  let indicators := ['-', '?', ':', ',', '[', ']', '{', '}', '#', '&', '*', '!', '|', '>', '\'',
    '"', '%', '@', '`']
  (!isBlankOrEnd (some c) && !indicators.contains c) ||
    (!isBlankOrEnd (s.cursor.peekAt 1) && (c = '-' || (!s.inFlow && (c = '?' || c = ':'))))

def takeToken (s : Lexer) (c : Char) : Except Fault Lexer :=
  let atLineStart := s.mark.column = 0
  let blankNext := isBlankOrEnd (s.cursor.peekAt 1)
  -- At the start of a line directives and separators go before anything else.
  if atLineStart && c = '%' then s.takeDirective
  else if atLineStart && s.cursor.atTriple '-' then s.takeSeparator .documentStart
  else if atLineStart && s.cursor.atTriple '.' then s.takeSeparator .documentEnd
  else if c = '[' then s.takeFlowStart .flowSequenceStart
  else if c = '{' then s.takeFlowStart .flowMappingStart
  else if c = ']' then s.takeFlowEnd .flowSequenceEnd
  else if c = '}' then s.takeFlowEnd .flowMappingEnd
  else if c = ',' then s.takeFlowEntry
  -- A dash that no blank follows may begin a plain scalar.
  else if c = '-' && blankNext then s.takeBlockEntry
  else if c = '?' && (s.inFlow || blankNext) then s.takeKey
  else if c = ':' && (s.inFlow || blankNext) then s.takeValue
  else if c = '*' then s.takeAnchor .alias
  else if c = '&' then s.takeAnchor .anchor
  else if c = '!' then s.takeTag
  else if c = '|' && !s.inFlow then s.takeBlock .literal
  else if c = '>' && !s.inFlow then s.takeBlock .folded
  else if c = '\'' then s.takeQuoted c .singleQuoted
  else if c = '"' then s.takeQuoted c .doubleQuoted
  else if s.startsPlain c then s.takePlain
  else s.fail (.noToken (some c))

/-- Goes to the next token and takes it. At the end of the text, closes what is open and tells so.
    -/
def step (s : Lexer) : Except Fault (Lexer × Bool) := do
  let s ← s.toNextToken.dropStaleKeys
  let s := s.closeDeeper
  match s.cursor.peek with
  | none => return (← s.closeAll.dropKey, true)
  | some c => return (← (← s.takeToken c).dropStaleKeys, false)

/-- The tokens from here on. Every turn but the last takes a character. -/
def tokens : Nat → Lexer → TokenStream
  | 0, s => .prepend s.found.reverse (.ends s.mark)
  | fuel + 1, s =>
    match s.step with
    | .error fault => .prepend (s.found.reverse.take s.frontier) (.broken fault)
    | .ok (s, true) => .prepend s.found.reverse (.ends s.mark)
    | .ok (s, false) => tokens fuel s

end Lexer

def TokenStream.ofText (text : List Char) : TokenStream :=
  let start := Lexer.start text
  start.tokens start.size

end Phrasebook.Yaml
