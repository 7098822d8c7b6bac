import Phrasebook.Loader
import Phrasebook.Settings.Dotenv
import Phrasebook.Settings.Json

/-!
# Phrasebook.Settings

What can be set from outside.

A setting is looked for among the arguments, then in the environment, then in the variables of a
file, and has a default. The names of settings are case-sensitive, and other names are passed over.
The settings of the index form a group of their own, which may also be given as one argument, and
completed by one variable in JSON.
-/

namespace Phrasebook

structure Settings where
  /-- What sets a deployment apart from production; empty in production. -/
  deployment : String
  /-- The name of the least level of log entries. -/
  logLevel : String
  defaultLocale : Text
  /-- Selects the files below the root of a scope. -/
  filePattern : Text

namespace Settings

def isProduction (settings : Settings) : Bool :=
  settings.deployment = ""

/-! ### Sources -/

/-- An argument: a text, or something that is not a text. -/
inductive Argument (α : Type) where
  | text (text : α)
  | notText

abbrev Arguments (α : Type) := Entries Text (Argument α)

/-- Where the settings of the index are given among the arguments. -/
inductive IndexArguments where
  /-- They are read by themselves, before the other settings. -/
  | separate (arguments : Arguments Text)
  /-- They are given as one argument among the others, and are read together with these. -/
  | nested (arguments : Arguments Text)
  /-- What is given as that argument is no group of settings. -/
  | notGroup

/-- Where settings are looked for. -/
structure Sources where
  environment : Entries String String
  file : Dotenv.Known

/-- The sources with the text of a file of variables, if there is one. -/
def Sources.ofText (environment : Entries String String) (text : Option String) : Sources :=
  ⟨environment, text.elim [] (Dotenv.read environment)⟩

/-! ### Errors -/

/-- What is wrong with a setting. -/
inductive Cause where
  | notText
  | blank
  | notGroup

def Cause.kind : Cause → String
  | .notText => "string_type"
  | .blank => "value_error"
  | .notGroup => "model_type"

def Cause.message : Cause → String
  | .notText => "Input should be a valid string"
  | .blank => "Value error, value must not be blank"
  | .notGroup => "Input should be a valid dictionary or instance of TranslationIndexSettings"

/-- What is wrong with settings, each with the names that lead to it, in order. -/
abbrev Errors := List (List String × Cause)

/-- Why there are no settings. -/
inductive Problem where
  /-- Settings of a group cannot be used. -/
  | invalid (group : String) (errors : Errors)
  /-- The variable of a group cannot be read. -/
  | unreadable (source : String)

/-- The name of the variable and of the argument that hold the settings of the index. -/
def groupName : String := "translations"

def Problem.message : Problem → String
  | .invalid group _ => group
  | .unreadable source =>
    "error parsing value for field \"" ++ groupName ++ "\" from source \"" ++ source ++ "\""

/-! ### Reading -/

/-- The value of a setting. What does not come from an argument is a string. -/
def read {α : Type} (ofString : String → α) (arguments : Arguments α) (sources : Sources)
    (name default : String) : Except Cause α :=
  match arguments.get? (Text.ofString name) with
  | some (.text text) => .ok text
  | some .notText => .error .notText
  | none =>
    match sources.environment.get? name, (sources.file.get? name).join with
    | some text, _ => .ok (ofString text)
    | none, some text => .ok (ofString text)
    | none, none => .ok (ofString default)

/-- A value without the blanks around it; there must be something else. -/
def requireText (value : Text) : Except Cause Text :=
  let text := Text.trim value
  if text = [] then .error .blank else .ok text

/-- Two values, or everything that is wrong with them. -/
def both {α β : Type} (a : Except Errors α) (b : Except Errors β) : Except Errors (α × β) :=
  match a, b with
  | .ok a, .ok b => .ok (a, b)
  | .error e, .ok _ => .error e
  | .ok _, .error e => .error e
  | .error e, .error f => .error (e ++ f)

/-- A value, or what is wrong with it under a name. -/
def named {α : Type} (name : String) (value : Except Cause α) : Except Errors α :=
  value.mapError fun cause => [([name], cause)]

def readIndex (arguments : Arguments Text) (sources : Sources) : Except Errors (Text × Text) :=
  let localeName := "I18N_DEFAULT_LOCALE"
  let patternName := "I18N_LOCALE_FILE_PATTERN"
  let locale := read Text.ofString arguments sources localeName Phrasebook.defaultLocale
  let pattern := read Text.ofString arguments sources patternName Loader.defaultPattern
  both (named localeName (locale.bind requireText)) (named patternName (pattern.bind requireText))

/-- The settings of the index that a variable holds in JSON. A variable that holds no object gives
    none, but it has to be JSON. -/
def readGroup (source : String) (variableText : Option String) :
    Except Problem (Arguments Text) :=
  match variableText with
  | none => .ok []
  | some text =>
    match Json.ofString? text with
    | none => .error (.unreadable source)
    | some (.object members) => .ok <| members.map fun (name, value) =>
      match value with
      | .string text => (name, .text text)
      | _ => (name, .notText)
    | some _ => .ok []

/-- The settings of the index in the variables of all sources; those of the environment win. -/
def readGroups (sources : Sources) : Except Problem (Arguments Text) := do
  let fromEnvironment ← readGroup "EnvSettingsSource" (sources.environment.get? groupName)
  let fromFile ← readGroup "DotEnvSettingsSource" (sources.file.get? groupName).join
  return fromFile.insertAll fromEnvironment

def load (indexArguments : IndexArguments) (arguments : Arguments String) (sources : Sources) :
    Except Problem Settings := do
  let separate : Option (Text × Text) ←
    match indexArguments with
    | .separate given =>
      ((readIndex given sources).map some).mapError (.invalid "TranslationIndexSettings")
    | _ => pure none
  let groups ← readGroups sources
  let index : Except Errors (Text × Text) :=
    match separate, indexArguments with
    | some index, _ => .ok index
    | none, .nested given =>
      (readIndex (groups.insertAll given) sources).mapError fun errors =>
        errors.map fun (names, cause) => (groupName :: names, cause)
    | none, _ => .error [([groupName], .notGroup)]
  let own := both (named "PREFIX" (read id arguments sources "PREFIX" ""))
    (named "LOG_LEVEL" (read id arguments sources "LOG_LEVEL" "INFO"))
  let ((deployment, logLevel), (defaultLocale, filePattern)) ←
    (both own index).mapError (.invalid "Settings")
  return ⟨deployment, logLevel, defaultLocale, filePattern⟩

end Settings

end Phrasebook
