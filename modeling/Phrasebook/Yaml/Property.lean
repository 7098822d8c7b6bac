import Phrasebook.Yaml.Fault

/-!
# Phrasebook.Yaml.Property

Anchors, aliases and tags.

An anchor gives a node a name, an alias stands for the node of that name, and a tag says what a node
is. A tag is written with a handle that a directive may define, or in full between angle brackets.
-/

namespace Phrasebook.Yaml

/-- Whether a character may stand in the name of an anchor, a handle or a directive. -/
def isNameChar (c : Char) : Bool :=
  ('0' ≤ c && c ≤ '9') || ('A' ≤ c && c ≤ 'Z') || ('a' ≤ c && c ≤ 'z') || c = '-' || c = '_'

def readName (cursor : Cursor) : Except Fault (List Char × Cursor) :=
  let (name, after) := cursor.span isNameChar
  if name.isEmpty then .error (.malformedAt cursor.mark (.expected .nameCharacter cursor.peek))
  else .ok (name, after)

/-- Whether an anchor or an alias may end here. -/
def endsAnchor (following : Option Char) : Bool :=
  isBlankOrEnd following ||
    following.any fun c => ['?', ':', ',', ']', '}', '%', '@', '`'].contains c

def readAnchorName (cursor : Cursor) : Except Fault (String × Cursor) := do
  let (name, after) ← readName cursor
  if endsAnchor after.peek then return (String.ofList name, after)
  else throw (.malformedAt after.mark (.expected .nameCharacter after.peek))

/-! ### Tags -/

namespace Tag

def isUriChar (c : Char) : Bool :=
  isNameChar c ||
    [';', '/', '?', ':', '@', '&', '=', '+', '$', ',', '.', '!', '~', '*', '\'', '(', ')', '[', ']',
      '%'].contains c

/-- Reads the bytes written as `%` and two digits each. Every turn takes three characters. -/
def escapedBytes : Nat → Cursor → Except Fault (List UInt8 × Cursor)
  | 0, cursor => .ok ([], cursor)
  | fuel + 1, cursor =>
    if cursor.peek = some '%' then
      let digits := cursor.next
      let digitAt (ahead : Nat) : Except Fault Nat :=
        match (digits.peekAt ahead).bind Text.hexDigit? with
        | some value => .ok value
        | none =>
          .error (.malformedAt digits.mark (.expected .uriEscape (digits.peekAt ahead)))
      do
        let high ← digitAt 0
        let low ← digitAt 1
        let (more, stop) ← escapedBytes fuel (digits.skip 2)
        return (UInt8.ofNat (high * 16 + low) :: more, stop)
    else .ok ([], cursor)

/-- Reads the characters of a tag. Every turn takes a character, or a run of escapes that together
    are the UTF-8 of some characters. -/
def uriChars : Nat → Cursor → Except Fault (List Char × Cursor)
  | 0, cursor => .ok ([], cursor)
  | fuel + 1, cursor =>
    match cursor.peek with
    | none => .ok ([], cursor)
    | some c =>
      if c = '%' then do
        -- A character may take several escaped bytes, so all in a row are read before any is
        -- decoded.
        let (bytes, after) ← escapedBytes (cursor.rest.length + 1) cursor
        match Text.Utf8.decode bytes with
        | .error error => throw (.malformedAt cursor.mark (.undecodableTag error))
        | .ok chars =>
          let (more, stop) ← uriChars fuel after
          return (chars ++ more, stop)
      else if isUriChar c then do
        let (more, stop) ← uriChars fuel cursor.next
        return (c :: more, stop)
      else .ok ([], cursor)

def readUri (cursor : Cursor) : Except Fault (String × Cursor) := do
  if cursor.peek.any isUriChar then
    let (chars, after) ← uriChars (cursor.rest.length + 1) cursor
    return (String.ofList chars, after)
  else throw (.malformedAt cursor.mark (.expected .uri cursor.peek))

/-- Reads a handle: an exclamation mark, or a name between two of them. -/
def readHandle (cursor : Cursor) : Except Fault (String × Cursor) :=
  if cursor.peek ≠ some '!' then
    .error (.malformedAt cursor.mark (.expected .bang cursor.peek))
  else
    let afterBang := cursor.next
    if afterBang.peek = some ' ' then .ok ("!", afterBang)
    else
      let (name, afterName) := afterBang.span isNameChar
      if afterName.peek = some '!' then
        .ok (String.ofList ('!' :: name ++ ['!']), afterName.next)
      else .error (.malformedAt afterName.mark (.expected .bang afterName.peek))

/-- Whether a handle with a second exclamation mark stands before the next blank. -/
def hasNamedHandle (cursor : Cursor) : Bool :=
  (cursor.next.span fun c => !isSpaceOrEnd (some c)).1.contains '!'

/-- Reads the handle and the suffix of the tag that begins here. -/
def readParts (cursor : Cursor) : Except Fault ((Option String × String) × Cursor) :=
  match cursor.peekAt 1 with
  | some '<' => do
    let (uri, after) ← readUri (cursor.skip 2)
    if after.peek = some '>' then return ((none, uri), after.next)
    else throw (.malformedAt after.mark (.expected .closingAngle after.peek))
  | following =>
    if isBlankOrEnd following then .ok ((none, "!"), cursor.next)
    else if hasNamedHandle cursor then do
      let (handle, afterHandle) ← readHandle cursor
      let (suffix, after) ← readUri afterHandle
      return ((some handle, suffix), after)
    else do
      let (suffix, after) ← readUri cursor.next
      return ((some "!", suffix), after)

def read (cursor : Cursor) : Except Fault ((Option String × String) × Cursor) := do
  let (parts, after) ← readParts cursor
  if isSpaceOrEnd after.peek then return (parts, after)
  else throw (.malformedAt after.mark (.expected .space after.peek))

end Tag

end Phrasebook.Yaml
