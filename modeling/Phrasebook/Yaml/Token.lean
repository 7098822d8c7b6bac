import Phrasebook.Text.CodePoint
import Phrasebook.Yaml.Cursor

/-!
# Phrasebook.Yaml.Token

The smallest meaningful pieces of a text.

Indentation has become brackets here: a block collection stands between a start and an end token,
although no character of the text may stand for either.
-/

namespace Phrasebook.Yaml

inductive Style where
  | plain
  | singleQuoted
  | doubleQuoted
  | literal
  | folded
  deriving DecidableEq

/-- An instruction to the reader, on a line that begins with `%`. -/
inductive Directive where
  | version (major minor : Nat)
  /-- What a tag handle stands for. -/
  | tagHandle (handle expansion : String)
  /-- Any other instruction, which is passed over. -/
  | other (name : String)

inductive Lexeme where
  | directive (directive : Directive)
  | documentStart
  | documentEnd
  | streamEnd
  | blockSequenceStart
  | blockMappingStart
  | blockEnd
  | flowSequenceStart
  | flowSequenceEnd
  | flowMappingStart
  | flowMappingEnd
  | blockEntry
  | flowEntry
  | key
  | value
  | alias (name : String)
  | anchor (name : String)
  /-- A tag; without a handle its suffix is the whole tag. -/
  | tag (handle : Option String) (suffix : String)
  | scalar (text : Text) (style : Style)

def Lexeme.name : Lexeme → String
  | .directive _ => "<directive>"
  | .documentStart => "<document start>"
  | .documentEnd => "<document end>"
  | .streamEnd => "<stream end>"
  | .blockSequenceStart => "<block sequence start>"
  | .blockMappingStart => "<block mapping start>"
  | .blockEnd => "<block end>"
  | .flowSequenceStart => "["
  | .flowSequenceEnd => "]"
  | .flowMappingStart => "\x7b"
  | .flowMappingEnd => "\x7d"
  | .blockEntry => "-"
  | .flowEntry => ","
  | .key => "?"
  | .value => ":"
  | .alias _ => "<alias>"
  | .anchor _ => "<anchor>"
  | .tag _ _ => "<tag>"
  | .scalar _ _ => "<scalar>"

/-- A piece of a text with the positions where it starts and stops. -/
structure Token where
  lexeme : Lexeme
  start : Mark
  stop : Mark

end Phrasebook.Yaml
