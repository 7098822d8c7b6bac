/-!
# Phrasebook.Outcome

How an operation went.

An operation that a caller should go on after gives an outcome, which tells success from the ways of
not succeeding and may carry something. An operation that is given up altogether has a `Failure`.
-/

namespace Phrasebook

/-- What an outcome amounts to. -/
inductive Status where
  | success
  /-- A later attempt may succeed. -/
  | transientError
  /-- No attempt succeeds before the input has changed. -/
  | permanentError
  | notFound
  deriving DecidableEq

namespace Status

def name : Status → String
  | .success => "success"
  | .transientError => "transient_error"
  | .permanentError => "permanent_error"
  | .notFound => "not_found"

def ofName? : String → Option Status
  | "success" => some .success
  | "transient_error" => some .transientError
  | "permanent_error" => some .permanentError
  | "not_found" => some .notFound
  | _ => none

end Status

/-- How an operation went, in a few words, with what it carries. -/
structure Outcome (α : Type) where
  status : Status
  /-- The words, for people. -/
  message : String
  /-- The kind of error, for programs. -/
  errorCode : Option String
  data : Option α

namespace Outcome

variable {α : Type}

def isSuccess (outcome : Outcome α) : Bool :=
  outcome.status = .success

def success (data : Option α) (message : String := "ok") : Outcome α :=
  ⟨.success, message, none, data⟩

def error (status : Status) (message : String) (errorCode : Option String) (data : Option α) :
    Outcome α :=
  ⟨status, message, errorCode, data⟩

/-- A lack of success that a later attempt may mend. -/
def transientError (message : String) (errorCode : Option String) (data : Option α) : Outcome α :=
  error .transientError message errorCode data

/-- A lack of success that lasts until the input has changed. -/
def permanentError (message : String) (errorCode : Option String) (data : Option α) : Outcome α :=
  error .permanentError message errorCode data

def notFound (message : String) (errorCode : Option String) : Outcome α :=
  error .notFound message errorCode none

end Outcome

end Phrasebook
