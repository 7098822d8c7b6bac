import Phrasebook.Yaml.Property
import Phrasebook.Yaml.Scalar.Block

/-!
# Phrasebook.Yaml.Directive

Lines that begin with `%` and instruct the reader: the version of the format, the meaning of a tag
handle, or something that is passed over.
-/

namespace Phrasebook.Yaml.Directive

/-- Reads a decimal number of at least one digit. -/
def readNumber (cursor : Cursor) : Except Fault (Nat × Cursor) :=
  let (digits, after) := cursor.span Text.isDigit
  if digits.isEmpty then .error (.malformedAt cursor.mark (.expected .digit cursor.peek))
  else if Text.maxDigits < digits.length then .error (.excessive (.digits digits.length))
  else .ok (digits.foldl (fun n c => n * 10 + (c.toNat - '0'.toNat)) 0, after)

def skipSpaces (cursor : Cursor) : Cursor :=
  cursor.dropWhile (· = ' ')

def readVersion (cursor : Cursor) : Except Fault (Directive × Cursor) := do
  let (major, afterMajor) ← readNumber (skipSpaces cursor)
  if afterMajor.peek ≠ some '.' then
    throw (.malformedAt afterMajor.mark (.expected .digitOrDot afterMajor.peek))
  let (minor, after) ← readNumber afterMajor.next
  if isSpaceOrEnd after.peek then return (.version major minor, after)
  else throw (.malformedAt after.mark (.expected .digitOrSpace after.peek))

def readTagHandle (cursor : Cursor) : Except Fault (Directive × Cursor) := do
  let (handle, afterHandle) ← Tag.readHandle (skipSpaces cursor)
  if afterHandle.peek ≠ some ' ' then
    throw (.malformedAt afterHandle.mark (.expected .space afterHandle.peek))
  let (expansion, after) ← Tag.readUri (skipSpaces afterHandle)
  if isSpaceOrEnd after.peek then return (.tagHandle handle expansion, after)
  else throw (.malformedAt after.mark (.expected .space after.peek))

/-- Reads the directive whose indicator stands here. Gives the directive, where it stops, and what
    follows its line. -/
def read (cursor : Cursor) : Except Fault (Directive × Mark × Cursor) := do
  let (name, afterName) ← readName cursor.next
  if !isSpaceOrEnd afterName.peek then
    throw (.malformedAt afterName.mark (.expected .nameCharacter afterName.peek))
  match String.ofList name with
  | "YAML" =>
    let (directive, after) ← readVersion afterName
    return (directive, after.mark, ← Block.skipRestOfLine after)
  | "TAG" =>
    let (directive, after) ← readTagHandle afterName
    return (directive, after.mark, ← Block.skipRestOfLine after)
  -- Nothing is known of any other directive, so the rest of its line is passed over.
  | name =>
    return (.other name, afterName.mark,
      ← Block.skipRestOfLine (afterName.dropWhile (!isBreak ·)))

end Phrasebook.Yaml.Directive
