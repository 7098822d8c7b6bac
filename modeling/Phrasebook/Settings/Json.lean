import Phrasebook.Entries
import Phrasebook.Text.CodePoint

/-!
# Phrasebook.Settings.Json

Groups of settings that stand in one variable, in JSON.

Of a value only what settings can be made of is kept: texts, and objects of texts. The rest has to
be well-formed all the same. Beside the numbers of JSON, `NaN` and the infinities are read.
-/

namespace Phrasebook.Settings

/-- What a variable holds. -/
inductive Json where
  | string (value : Text)
  | object (members : List (Text × Json))
  | other

namespace Json

def skipBlanks (text : List Char) : List Char :=
  text.dropWhile fun c => c = ' ' || c = '\t' || c = '\n' || c = '\r'

/-- What follows some characters, if they stand here. -/
def after? (word : String) (text : List Char) : Option (List Char) :=
  if word.toList.isPrefixOf text then some (text.drop word.length) else none

/-! ### Numbers -/

/-- What follows the digits of a whole number, with their number. A number of several digits does
    not begin with a zero. -/
def afterWhole? : List Char → Option (Nat × List Char)
  | '0' :: rest => some (1, rest)
  | text =>
    match text.takeWhile Text.isDigit with
    | [] => none
    | digits => some (digits.length, text.dropWhile Text.isDigit)

def afterFraction? : List Char → Option (List Char)
  | '.' :: c :: rest => if Text.isDigit c then some (rest.dropWhile Text.isDigit) else none
  | _ => none

def afterExponent? : List Char → Option (List Char)
  | c :: rest =>
    if c = 'e' || c = 'E' then
      let digits :=
        match rest with
        | sign :: digits => if sign = '+' || sign = '-' then digits else rest
        | [] => []
      if digits.head?.any Text.isDigit then some (digits.dropWhile Text.isDigit) else none
    else none
  | [] => none

def afterNumber? (text : List Char) : Option (List Char) :=
  let unsigned := (after? "-" text).getD text
  (afterWhole? unsigned).bind fun (digits, rest) =>
    match afterFraction? rest with
    | some rest => some ((afterExponent? rest).getD rest)
    | none =>
      match afterExponent? rest with
      | some rest => some rest
      | none => if digits ≤ Text.maxDigits then some rest else none

/-! ### Texts -/

def escape? : Char → Option Char
  | '"' => some '"'
  | '\\' => some '\\'
  | '/' => some '/'
  | 'b' => some '\x08'
  | 'f' => some '\x0c'
  | 'n' => some '\n'
  | 'r' => some '\r'
  | 't' => some '\t'
  | _ => none

/-- The number that four hexadecimal digits write. -/
def unit? (a b c d : Char) : Option Nat := do
  let a ← Text.hexDigit? a
  let b ← Text.hexDigit? b
  let c ← Text.hexDigit? c
  let d ← Text.hexDigit? d
  return ((a * 16 + b) * 16 + c) * 16 + d

/-- The characters of a text whose opening quote has been passed, and what follows it. The halves of
    surrogate pairs come as numbers. -/
def units : List Char → Option (List Nat × List Char)
  | '"' :: rest => some ([], rest)
  | '\\' :: 'u' :: a :: b :: c :: d :: rest => do
    let unit ← unit? a b c d
    let (more, after) ← units rest
    return (unit :: more, after)
  | '\\' :: c :: rest => do
    let meant ← escape? c
    let (more, after) ← units rest
    return (meant.toNat :: more, after)
  | c :: rest =>
    if c < ' ' then none
    else (units rest).map fun (more, after) => (c.toNat :: more, after)
  | [] => none

/-- Puts the halves of surrogate pairs together. A half by itself stays as it is. -/
def join : List Nat → Text
  | high :: low :: rest =>
    if 0xD800 ≤ high && high < 0xDC00 && 0xDC00 ≤ low && low < 0xE000 then
      (CodePoint.ofNat? (0x10000 + (high - 0xD800) * 0x400 + (low - 0xDC00))).toList ++ join rest
    else (CodePoint.ofNat? high).toList ++ join (low :: rest)
  | unit :: rest => (CodePoint.ofNat? unit).toList ++ join rest
  | [] => []

/-- The text whose opening quote has been passed, and what follows it. -/
def string? (text : List Char) : Option (Text × List Char) :=
  (units text).map fun (units, after) => (join units, after)

/-! ### Values -/

/-- What follows a word that is a value. -/
def afterWord? (text : List Char) : Option (List Char) :=
  ["null", "true", "false", "NaN", "Infinity", "-Infinity"].findSome? (after? · text)

mutual

/-- Reads a value. Every turn takes a character. -/
def value? : Nat → List Char → Option (Json × List Char)
  | 0, _ => none
  | fuel + 1, text =>
    match text with
    | '"' :: rest => (string? rest).map fun (value, after) => (.string value, after)
    | '{' :: rest =>
      match skipBlanks rest with
      | '}' :: after => some (.object [], after)
      | rest => (members? fuel [] rest).map fun (members, after) => (.object members, after)
    | '[' :: rest =>
      match skipBlanks rest with
      | ']' :: after => some (.other, after)
      | rest => (items? fuel rest).map fun after => (.other, after)
    | _ => ((afterWord? text).or (afterNumber? text)).map fun after => (.other, after)

/-- Reads the members of an object, of which there is one more. Of members with the same name the
    last one counts. -/
def members? : Nat → Entries Text Json → List Char →
    Option (Entries Text Json × List Char)
  | 0, _, _ => none
  | fuel + 1, members, '"' :: rest => do
    let (name, afterName) ← string? rest
    let ':' :: rest := skipBlanks afterName | none
    let (value, afterValue) ← value? fuel (skipBlanks rest)
    let members := members.insert name value
    match skipBlanks afterValue with
    | ',' :: rest => members? fuel members (skipBlanks rest)
    | '}' :: after => return (members, after)
    | _ => none
  | _, _, _ => none

/-- Passes the items of an array, of which there is one more. -/
def items? : Nat → List Char → Option (List Char)
  | 0, _ => none
  | fuel + 1, text => do
    let (_, afterValue) ← value? fuel text
    match skipBlanks afterValue with
    | ',' :: rest => items? fuel (skipBlanks rest)
    | ']' :: after => return after
    | _ => none

end

def ofString? (text : String) : Option Json := do
  let chars := skipBlanks text.toList
  let (value, rest) ← value? (chars.length + 1) chars
  if (skipBlanks rest).isEmpty then return value else none

end Json

end Phrasebook.Settings
