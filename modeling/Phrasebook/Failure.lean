import Phrasebook.Disk
import Phrasebook.Yaml.Fault

/-!
# Phrasebook.Failure

Why an operation was given up.

What a caller is expected to go on after is an `Outcome`, whatever its status. A failure is the
rest: the operation was asked for something that makes no sense, or met a text or a path that it has
no outcome for.
-/

namespace Phrasebook

/-- Why an operation was given up. -/
inductive Failure where
  /-- A number in a text is too large. -/
  | excessive (excess : Yaml.Excess)
  /-- A path is refused by the disk. -/
  | disk (refusal : DiskRefusal)
  | missingRoot (root : String)
  /-- A pattern has `**` as a part of a component. -/
  | misplacedDeepWildcard
  | absolutePattern
  | emptyPattern
  /-- A pattern has no components, and a slash at its end. -/
  | emptyDirectoryPattern
  | unknownStatus (name : String)
  /-- Nothing can be selected by a level that is not a number. -/
  | unknownLevel (level : String)
  /-- A level is neither a number nor a name; it is shown as it is. -/
  | unusableLevel (shown : String)
  /-- A way of making an outcome does not take a part. -/
  | unexpectedPart (maker part : String)
  /-- A way of making an outcome misses some parts. -/
  | missingParts (maker : String) (parts : List String)

/-- One name or two, each between quotes. -/
def enumerated (names : List String) : String :=
  " and ".intercalate (names.map Text.quoted)

def Failure.message : Failure → String
  | .excessive excess => excess.message
  | .disk refusal => refusal.message
  | .missingRoot root => "Translations root not found: " ++ root
  | .misplacedDeepWildcard => "Invalid pattern: '**' can only be an entire path component"
  | .absolutePattern => "Non-relative patterns are unsupported"
  | .emptyPattern => "tuple index out of range"
  | .emptyDirectoryPattern => "'_TerminatingSelector' object has no attribute 'select_from'"
  | .unknownStatus name => Text.quoted name ++ " is not a valid OperationStatus"
  | .unknownLevel level => "Unknown level: " ++ Text.quoted level
  | .unusableLevel shown => "Level not an integer or a valid string: " ++ shown
  | .unexpectedPart maker part =>
    "OperationResult." ++ maker ++ "() got an unexpected keyword argument " ++ Text.quoted part
  | .missingParts maker parts =>
    "OperationResult." ++ maker ++ "() missing " ++ toString parts.length ++
      " required positional argument" ++ (if parts.length = 1 then "" else "s") ++ ": " ++
      enumerated parts

end Phrasebook
