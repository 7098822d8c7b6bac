import Phrasebook.Settings

/-!
# Phrasebook.Log.Setup

How log entries are selected and written.
-/

namespace Phrasebook.Log

inductive Renderer where
  /-- One object a line, for machines. -/
  | json
  /-- Coloured text, for people. -/
  | console
  deriving DecidableEq

def Renderer.name : Renderer → String
  | .json => "JSONRenderer"
  | .console => "ConsoleRenderer"

/-- What happens to an entry on its way to the output. -/
inductive Processor where
  | mergeContext
  | addLevel
  | addTime
  | addCallSite
  | renderStack
  | renderException
  | write (renderer : Renderer)
  deriving DecidableEq

/-- Which entries are written, and how. -/
structure Setup where
  /-- The weight that an entry must have. -/
  threshold : Nat
  processors : List Processor

def Setup.renderer? (setup : Setup) : Option Renderer :=
  setup.processors.findSome? fun processor =>
    match processor with
    | .write renderer => some renderer
    | _ => none

/-- The capitals of a letter, for the letters whose capitals are ASCII letters. -/
def capitals (c : Char) : List Char :=
  if 'a' ≤ c && c ≤ 'z' then [Char.ofNat (c.toNat - 0x20)]
  else if c = 'ı' then ['I']
  else if c = 'ſ' then ['S']
  else if c = 'ﬅ' || c = 'ﬆ' then ['S', 'T']
  else [c]

/-- The format of an entry that consists of its level, the name of its logger and its message. -/
def basicFormat : String := "%(levelname)s:%(name)s:%(message)s"

/-- The styles of formats, each with its class and its own basic format, as they are shown. -/
def shownStyles : String :=
  "\x7b'%': (<class 'logging.PercentStyle'>, '" ++ basicFormat ++ "'), " ++
    "'\x7b': (<class 'logging.StrFormatStyle'>, " ++
    "'\x7blevelname\x7d:\x7bname\x7d:\x7bmessage\x7d'), " ++
    "'$': (<class 'logging.StringTemplateStyle'>, " ++
    "'$\x7blevelname\x7d:$\x7bname\x7d:$\x7bmessage\x7d')\x7d"

/-- The weight of a level, by its name in letters of either case. A name that is not known has the
    weight of ordinary information. Two names are known that stand for no level, the one of the
    basic format and the one of the styles; nothing can be selected by these. -/
def weightOf (name : String) : Except Failure Nat :=
  match String.ofList (name.toList.flatMap capitals) with
  | "CRITICAL" | "FATAL" => .ok 50
  | "ERROR" => .ok 40
  | "WARNING" | "WARN" => .ok 30
  | "DEBUG" => .ok 10
  | "NOTSET" => .ok 0
  | "BASIC_FORMAT" => .error (.unknownLevel basicFormat)
  | "_STYLES" => .error (.unusableLevel shownStyles)
  | _ => .ok 20

/-- Sets up the log from the settings, unless a level or the kind of deployment is given. An empty
    level counts as not given. -/
def setup (settings : Settings) (level : Option String) (isProduction : Option Bool) :
    Except Failure Setup := do
  let levelName :=
    match level with
    | none | some "" => settings.logLevel
    | some name => name
  let renderer := if isProduction.getD settings.isProduction then Renderer.json else .console
  return ⟨← weightOf levelName,
    [.mergeContext, .addLevel, .addTime, .addCallSite, .renderStack, .renderException,
      .write renderer]⟩

end Phrasebook.Log
