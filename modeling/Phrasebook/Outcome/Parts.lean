import Phrasebook.Failure
import Phrasebook.Outcome

/-!
# Phrasebook.Outcome.Parts

Outcomes made from named parts.

Every way of making an outcome takes certain parts and cannot do without some of them. A part that
it does not take is objected to before one that it misses.
-/

namespace Phrasebook.Outcome

inductive Maker where
  | success
  | error
  | transientError
  | permanentError
  | notFound
  deriving DecidableEq

namespace Maker

def name : Maker → String
  | .success => "success"
  | .error => "error"
  | .transientError => "transient_error"
  | .permanentError => "permanent_error"
  | .notFound => "not_found"

def ofName? (name : String) : Option Maker :=
  [success, error, transientError, permanentError, notFound].find? fun maker => maker.name = name

def parts : Maker → List String
  | .success => ["data", "message"]
  | .error => ["status", "message", "error_code", "data"]
  | .transientError | .permanentError => ["message", "error_code", "data"]
  | .notFound => ["message", "error_code"]

def required : Maker → List String
  | .success => []
  | .error => ["status", "message"]
  | .transientError | .permanentError | .notFound => ["message"]

def check (maker : Maker) (given : List String) : Except Failure Unit :=
  match given.find? fun part => !maker.parts.contains part,
    maker.required.filter fun part => !given.contains part with
  | some part, _ => .error (.unexpectedPart maker.name part)
  | none, [] => .ok ()
  | none, missing => .error (.missingParts maker.name missing)

end Maker

/-- The parts of an outcome, as far as they are given. -/
structure Parts (α : Type) where
  /-- The names of the parts that are given, even if they hold nothing. -/
  given : List String
  status : Option String
  message : Option String
  errorCode : Option String
  data : Option α

def namedStatus (name : Option String) : Except Failure Status :=
  match name with
  | none => .ok .success
  | some name =>
    match Status.ofName? name with
    | some status => .ok status
    | none => .error (.unknownStatus name)

def ofParts {α : Type} (maker : Maker) (parts : Parts α) : Except Failure (Outcome α) := do
  let status ← namedStatus parts.status
  maker.check parts.given
  let message := parts.message.getD ""
  return match maker with
    | .success =>
      match parts.message with
      | some message => .success parts.data message
      | none => .success parts.data
    | .error => .error status message parts.errorCode parts.data
    | .transientError => .transientError message parts.errorCode parts.data
    | .permanentError => .permanentError message parts.errorCode parts.data
    | .notFound => .notFound message parts.errorCode

end Phrasebook.Outcome
