import Phrasebook.Text.Utf8
import Phrasebook.Yaml.Token

/-!
# Phrasebook.Yaml.Fault

Why a text cannot be read, and how far it can.

Each cause is a constructor; the wordings are in `message`. A cause that an editor can point at
comes with the position of the offending text. The tokens of a text go up to its end or up to a
fault (`TokenStream`).
-/

namespace Phrasebook.Yaml

/-- What could stand at a place where the text goes on otherwise. -/
inductive Expected where
  | nameCharacter
  | digit
  | digitOrDot
  | digitOrSpace
  | space
  | bang
  | closingAngle
  | uri
  | uriEscape
  | hexDigits (count : Nat)
  | blockIndicators
  | commentOrBreak
  deriving DecidableEq

def Expected.message : Expected → String
  | .nameCharacter => "alphabetic or numeric character"
  | .digit => "a digit"
  | .digitOrDot => "a digit or '.'"
  | .digitOrSpace => "a digit or ' '"
  | .space => "' '"
  | .bang => "'!'"
  | .closingAngle => "'>'"
  | .uri => "URI"
  | .uriEscape => "URI escape sequence of 2 hexadecimal numbers"
  | .hexDigits count => "escape sequence of " ++ toString count ++ " hexadecimal numbers"
  | .blockIndicators => "chomping or indentation indicators"
  | .commentOrBreak => "a comment or a line break"

/-- What is wrong at a place in a text. -/
inductive Problem where
  /-- No token begins with this character. -/
  | noToken (found : Option Char)
  /-- A character, or the end of the text, where something else is called for. -/
  | expected (what : Expected) (found : Option Char)
  /-- A key that must be one has no colon after it on its line. -/
  | missingColon
  | entryNotAllowed
  | keyNotAllowed
  | valueNotAllowed
  | zeroIndentation
  | unexpectedEnd
  /-- A document ends within quotes. -/
  | unexpectedSeparator
  | unknownEscape (found : Option Char)
  /-- The escapes of a tag are not UTF-8. -/
  | undecodableTag (error : Text.Utf8.DecodeError)
  | duplicateVersion
  | unsupportedVersion
  | duplicateHandle (handle : String)
  | undefinedHandle (handle : String)
  | expectedDocument (found : Lexeme)
  | expectedNode (found : Lexeme)
  | expectedBlockEnd (found : Lexeme)
  | expectedSequenceEnd (found : Lexeme)
  | expectedMappingEnd (found : Lexeme)
  | undefinedAlias (name : String)
  /-- An anchor's name is taken. -/
  | repeatedAnchor
  /-- The text goes on after its first document. -/
  | anotherDocument

/-- A character as a message shows it; the end of the text shows as the null character. -/
def quotedFound (found : Option Char) : String :=
  Text.quoted (String.singleton (found.getD '\x00'))

def Problem.message : Problem → String
  | .noToken found => "found character " ++ quotedFound found ++ " that cannot start any token"
  | .expected what found => "expected " ++ what.message ++ ", but found " ++ quotedFound found
  | .missingColon => "could not find expected ':'"
  | .entryNotAllowed => "sequence entries are not allowed here"
  | .keyNotAllowed => "mapping keys are not allowed here"
  | .valueNotAllowed => "mapping values are not allowed here"
  | .zeroIndentation => "expected indentation indicator in the range 1-9, but found 0"
  | .unexpectedEnd => "found unexpected end of stream"
  | .unexpectedSeparator => "found unexpected document separator"
  | .unknownEscape found => "found unknown escape character " ++ quotedFound found
  | .undecodableTag error => error.message
  | .duplicateVersion => "found duplicate YAML directive"
  | .unsupportedVersion => "found incompatible YAML document (version 1.* is required)"
  | .duplicateHandle handle => "duplicate tag handle " ++ Text.quoted handle
  | .undefinedHandle handle => "found undefined tag handle " ++ Text.quoted handle
  | .expectedDocument found =>
    "expected '<document start>', but found " ++ Text.quoted found.name
  | .expectedNode found => "expected the node content, but found " ++ Text.quoted found.name
  | .expectedBlockEnd found => "expected <block end>, but found " ++ Text.quoted found.name
  | .expectedSequenceEnd found => "expected ',' or ']', but got " ++ Text.quoted found.name
  | .expectedMappingEnd found => "expected ',' or '\x7d', but got " ++ Text.quoted found.name
  | .undefinedAlias name => "found undefined alias " ++ Text.quoted name
  | .repeatedAnchor => "second occurrence"
  | .anotherDocument => "but found another document"

/-- What an editor is told about a text that cannot be read. -/
inductive ParseError where
  /-- A character that no text may hold. -/
  | unacceptable (c : Char) (index : Nat)
  /-- The text breaks the rules of the format at a position. -/
  | malformed (problem : Problem) (mark : Mark)
  /-- A collection that contains itself starts at a position. -/
  | recursiveAlias (mark : Mark)

namespace ParseError

def mark? : ParseError → Option Mark
  | .unacceptable _ _ => none
  | .malformed _ mark => some mark
  | .recursiveAlias mark => some mark

def line? (e : ParseError) : Option Nat :=
  e.mark?.map (·.line + 1)

def column? (e : ParseError) : Option Nat :=
  e.mark?.map (·.column + 1)

/-- The wording of a broken rule. -/
def problem? : ParseError → Option String
  | .malformed problem _ => some problem.message
  | _ => none

/-- The wording of the error without its position. -/
def summary : ParseError → String
  | .unacceptable c index =>
    "unacceptable character #x" ++ Text.hex 4 c.toNat ++
      ": special characters are not allowed\n  in \"<unicode string>\", position " ++ toString index
  | .malformed problem _ => problem.message
  | .recursiveAlias _ => "recursive alias is not supported"

/-- The wording of the error, with its line and column if it has a position. -/
def message (e : ParseError) : String :=
  match e.mark? with
  | none => e.summary
  | some mark =>
    e.summary ++ " (line " ++ toString (mark.line + 1) ++ ", column " ++
      toString (mark.column + 1) ++ ")"

end ParseError

/-- A number in a text that is too large for what it is to tell. -/
inductive Excess where
  /-- The code point of an escape lies beyond U+10FFFF. -/
  | codePoint
  /-- The code point of an escape takes more than 31 bits. -/
  | wideCodePoint
  /-- A number of a version has more digits than are read. -/
  | digits (count : Nat)
  deriving DecidableEq

def Excess.message : Excess → String
  | .codePoint => "chr() arg not in range(0x110000)"
  | .wideCodePoint => "Python int too large to convert to C int"
  | .digits count =>
    "Exceeds the limit (" ++ toString Text.maxDigits ++
      " digits) for integer string conversion: value has " ++ toString count ++
      " digits; use sys.set_int_max_str_digits() to increase the limit"

/-- Why a text has no document. -/
inductive Fault where
  /-- The text cannot be read, and an editor can be told why. -/
  | unreadable (error : ParseError)
  /-- A number is too large. This is not reported as an error of the text but stops whatever was
      being done. -/
  | excessive (excess : Excess)

def Fault.malformedAt (mark : Mark) (problem : Problem) : Fault :=
  .unreadable (.malformed problem mark)

/-! ### Tokens up to a fault -/

/-- The tokens of a text up to its end, or up to a fault. -/
inductive TokenStream where
  | more (token : Token) (rest : TokenStream)
  | ends (mark : Mark)
  | broken (fault : Fault)

namespace TokenStream

/-- The next token; the end of the text counts as one. -/
def peek : TokenStream → Except Fault Token
  | .more token _ => .ok token
  | .ends mark => .ok ⟨.streamEnd, mark, mark⟩
  | .broken fault => .error fault

/-- The tokens after the next one. The end of the text is never passed. -/
def tail : TokenStream → TokenStream
  | .more _ rest => rest
  | stream => stream

/-- The number of tokens before the end or the fault. -/
def length : TokenStream → Nat
  | .more _ rest => rest.length + 1
  | _ => 0

def prepend (tokens : List Token) (rest : TokenStream) : TokenStream :=
  tokens.foldr .more rest

end TokenStream

end Phrasebook.Yaml
