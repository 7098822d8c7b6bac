import Phrasebook.Entries
import Phrasebook.Text.CodePoint
import Phrasebook.Text.Utf8

/-!
# Phrasebook.Settings.Dotenv

Files of variables, one `NAME=value` a line.

A name may follow the word `export` and may stand between single quotes. A value is the rest of the
line without a comment, or a text between quotes, which may go over several lines. A name without an
equals sign has no value. A line that follows none of this is passed over, and so is a byte order
mark at the beginning. In every value `${NAME}` stands for a variable that was set before, and
`${NAME:-text}` gives a text for the case that it was not.
-/

namespace Phrasebook.Dotenv

def isInlineBlank (c : Char) : Bool :=
  Text.isBlank c && c ≠ '\n' && c ≠ '\r'

def isLineEnd (c : Char) : Bool :=
  c = '\n' || c = '\r'

def skipInline (text : List Char) : List Char :=
  text.dropWhile isInlineBlank

/-- Passes the word `export` and the blanks after it. -/
def skipExport (text : List Char) : List Char :=
  match text with
  | 'e' :: 'x' :: 'p' :: 'o' :: 'r' :: 't' :: c :: rest =>
    if isInlineBlank c then skipInline rest else text
  | _ => text

/-! ### Quotes -/

/-- The text after an opening quote up to the closing one, as it is written, and what follows. A
    backslash keeps the character after it from closing the text. -/
def closeQuote? (quote : Char) : List Char → Option (List Char × List Char)
  | [] => none
  | '\\' :: c :: rest =>
    (closeQuote? quote rest).map fun (inside, after) => ('\\' :: c :: inside, after)
  | c :: rest =>
    if c = quote then some ([], rest)
    else (closeQuote? quote rest).map fun (inside, after) => (c :: inside, after)

/-- What an escape between double quotes stands for. -/
def doubleEscape? : Char → Option Char
  | '\\' => some '\\'
  | '\'' => some '\''
  | '"' => some '"'
  | 'a' => some '\x07'
  | 'b' => some '\x08'
  | 'f' => some '\x0c'
  | 'n' => some '\n'
  | 'r' => some '\r'
  | 't' => some '\t'
  | 'v' => some '\x0b'
  | _ => none

/-- What an escape between single quotes stands for. -/
def singleEscape? : Char → Option Char
  | '\\' => some '\\'
  | '\'' => some '\''
  | _ => none

/-- The text with its escapes replaced; any other backslash stands for itself. -/
def unescape (meaning? : Char → Option Char) : List Char → List Char
  | '\\' :: c :: rest =>
    match meaning? c with
    | some meant => meant :: unescape meaning? rest
    | none => '\\' :: unescape meaning? (c :: rest)
  | c :: rest => c :: unescape meaning? rest
  | [] => []

/-! ### Lines -/

/-- The text before a comment. A comment begins with a number sign after a blank. -/
def beforeComment : List Char → List Char
  | [] => []
  | c :: rest =>
    match rest with
    | '#' :: _ => if Text.isBlank c then [] else c :: beforeComment rest
    | _ => c :: beforeComment rest

/-- Reads a value, after the equals sign. Blanks may stand before it, and before a comment that
    stands in its place. -/
def readValue? (text : List Char) : Option (List Char × List Char) :=
  match skipInline text with
  | '\'' :: rest =>
    (closeQuote? '\'' rest).map fun (inside, after) => (unescape singleEscape? inside, after)
  | '"' :: rest =>
    (closeQuote? '"' rest).map fun (inside, after) => (unescape doubleEscape? inside, after)
  | _ =>
    let line := beforeComment (text.takeWhile (!isLineEnd ·))
    some (Text.trimEndChars (skipInline line), text.dropWhile (!isLineEnd ·))

/-- Reads a name. At a comment there is none to read. -/
def readName? (text : List Char) : Option (Option (List Char) × List Char) :=
  match text with
  | '#' :: _ => some (none, text)
  | '\'' :: rest =>
    match rest.takeWhile (· ≠ '\''), rest.dropWhile (· ≠ '\'') with
    | c :: name, _ :: after => some (some (c :: name), after)
    | _, _ => none
  | _ =>
    let isNameChar (c : Char) : Bool := c ≠ '=' && c ≠ '#' && !Text.isBlank c
    match text.takeWhile isNameChar with
    | [] => none
    | name => some (some name, text.dropWhile isNameChar)

/-- Passes a comment and the end of a line; there must be nothing else. -/
def endLine? (text : List Char) : Option (List Char) :=
  let afterBlanks := skipInline text
  let afterComment :=
    match afterBlanks with
    | '#' :: _ => afterBlanks.dropWhile (!isLineEnd ·)
    | _ => afterBlanks
  match afterComment with
  | [] => some []
  | c :: rest => if isLineEnd c then some rest else none

abbrev Variable := String × Option String

/-- Reads one line from its first character that is not blank. Gives the variable, if the line sets
    one, and what follows the line. -/
def readLine (text : List Char) : Option Variable × List Char :=
  let skipLine (text : List Char) : List Char := (text.dropWhile (!isLineEnd ·)).drop 1
  let text := skipExport text
  match readName? text with
  | none => (none, skipLine text)
  | some (name, afterName) =>
    let variableOf (value : Option (List Char)) : Option Variable :=
      name.map fun name => (String.ofList name, value.map String.ofList)
    match skipInline afterName with
    | '=' :: rest =>
      match readValue? rest with
      | none => (none, skipLine rest)
      | some (value, after) =>
        match endLine? after with
        | some next => (variableOf (some value), next)
        | none => (none, skipLine after)
    | rest =>
      match endLine? rest with
      | some next => (variableOf none, next)
      | none => (none, skipLine rest)

/-- Reads lines. Every turn takes a character. -/
def readLines : Nat → List Char → List Variable
  | 0, _ => []
  | fuel + 1, text =>
    match text.dropWhile Text.isBlank with
    | [] => []
    | text =>
      let (set, rest) := readLine text
      set.toList ++ readLines fuel rest

/-! ### References to other variables -/

abbrev Known := Entries String (Option String)

/-- A reference after `${`: its name, its text for the case that the variable is not set, and what
    follows. -/
def reference? (text : List Char) : Option (List Char × List Char × List Char) :=
  let name := text.takeWhile fun c => c ≠ '}' && c ≠ ':'
  match text.dropWhile fun c => c ≠ '}' && c ≠ ':' with
  | '}' :: after => some (name, [], after)
  | ':' :: '-' :: rest =>
    match rest.dropWhile (· ≠ '}') with
    | _ :: after => some (name, rest.takeWhile (· ≠ '}'), after)
    | [] => none
  | _ => none

/-- A value with its references replaced. Every turn takes a character. -/
def expand (known : Known) : Nat → List Char → List Char
  | 0, text => text
  | _ + 1, [] => []
  | fuel + 1, c :: rest =>
    match c, rest with
    | '$', '{' :: inside =>
      match reference? inside with
      | some (name, fallback, after) =>
        let value :=
          match known.get? (String.ofList name) with
          | some value => (value.getD "").toList
          | none => fallback
        value ++ expand known fuel after
      -- A dollar sign without a reference behind it stands for itself.
      | none => c :: expand known fuel rest
    | _, _ => c :: expand known fuel rest

/-- Sets variables in order, on top of what is known from elsewhere. -/
def setAll (elsewhere set : Known) : List Variable → Known
  | [] => set
  | (name, value) :: rest =>
    let expanded := value.map fun value =>
      String.ofList (expand (elsewhere.insertAll set) value.length value.toList)
    setAll elsewhere (set.insert name expanded) rest

/-- A text without the byte order mark that it may begin with. -/
def skipByteOrderMark : List Char → List Char
  | '\uFEFF' :: rest => rest
  | text => text

def read (environment : Entries String String) (text : String) : Known :=
  let chars := Text.unifyLineEnds (skipByteOrderMark text.toList)
  setAll (environment.map fun (name, value) => (name, some value)) []
    (readLines (chars.length + 1) chars)

end Phrasebook.Dotenv
