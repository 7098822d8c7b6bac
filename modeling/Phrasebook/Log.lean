import Phrasebook.Entries
import Phrasebook.Text.CodePoint

/-!
# Phrasebook.Log

What the library reports about its work, and the context in which it does.

An entry has a level, the name of an event and fields. A block binds fields for everything that is
reported within it, and restores what they were when it is left: `Context.enter` and `Context.leave`
are the two halves of a block. A block belongs to a run of work with a correlation identifier, which
it is given, takes over from the block around it, or is issued afresh.

A computation that reports gives back its value together with its actions (`Logged`). Nothing it
computes depends on them.
-/

namespace Phrasebook.Log

inductive Level where
  | debug
  | info
  | warning
  | error
  deriving DecidableEq

def Level.name : Level → String
  | .debug => "debug"
  | .info => "info"
  | .warning => "warning"
  | .error => "error"

inductive Value where
  | null
  | text (text : Text)
  | count (n : Nat)
  | flag (b : Bool)
  | texts (texts : List String)
  /-- The correlation identifier that was issued as the given one in order. -/
  | issued (number : Nat)
  deriving DecidableEq

def Value.ofText? (text : Option Text) : Value :=
  text.elim .null .text

def Value.ofString? (string : Option String) : Value :=
  string.elim .null fun string => .text string

/-- Whether a value counts as none where an identifier is wanted. -/
def Value.isBlank : Value → Bool
  | .null => true
  | .text words => words.isEmpty
  | .count n => n == 0
  | .flag b => !b
  | .texts list => list.isEmpty
  | .issued _ => false

abbrev Fields := Entries String Value

structure Entry where
  level : Level
  event : String
  fields : Fields

/-! ### Blocks -/

/-- What a block binds. -/
structure Binding where
  /-- The identifier of the run of work, if it is given. -/
  correlationId : Option String := none
  scope : Option String := none
  sourceFile : Option String := none
  /-- Fields of any other names. -/
  others : Fields := []

/-- The fields that are bound at a time. -/
abbrev Context := Fields

/-- The fields that a block bound and what they were before it. -/
structure Frame where
  names : List String
  /-- The fields among them that were bound before. -/
  saved : Fields

namespace Context

/-- The correlation identifier of a context, if there is one and it is not empty. -/
def correlationId? (context : Context) : Option Value :=
  (context.get? "correlation_id").filter fun id => !id.isBlank

/-- The correlation identifier of a block that is given none, and how many have been issued by then:
    that of the context, or a new one. -/
def inheritId (context : Context) (issued : Nat) : Value × Nat :=
  match context.correlationId? with
  | some id => (id, issued)
  | none => (.issued issued, issued + 1)

/-- The correlation identifier of a block, and how many have been issued by then. An empty one
    counts as not given. -/
def chooseId (context : Context) (given : Option String) (issued : Nat) : Value × Nat :=
  match given with
  | none | some "" => inheritId context issued
  | some text => (.text text, issued)

/-- A field, unless it has no value. -/
def field? (name : String) (text : Option String) : Fields :=
  match text with
  | some text => [(name, .text text)]
  | none => []

/-- The fields of a block whose correlation identifier has been chosen. -/
def boundFields (binding : Binding) (id : Value) : Fields :=
  Entries.insertAll
    ([("correlation_id", id)] ++ field? "scope" binding.scope ++
      field? "source_file" binding.sourceFile)
    binding.others

/-- Enters a block: its fields are bound, and what they were is kept for leaving it. -/
def enter (context : Context) (binding : Binding) (issued : Nat) : Context × Frame × Nat :=
  let (id, issued) := chooseId context binding.correlationId issued
  let fields := boundFields binding id
  let names := fields.keys
  (context.insertAll fields, ⟨names, context.filter fun pair => names.contains pair.1⟩, issued)

/-- Leaves a block: the fields that it bound are what they were before it. -/
def leave (context : Context) (frame : Frame) : Context :=
  (context.without frame.names).insertAll frame.saved

end Context

/-! ### Actions -/

/-- What a computation does to the log. -/
inductive Action where
  | report (entry : Entry)
  | block (binding : Binding) (body : List Action)
  | clear

/-- A log: what is bound, how many identifiers have been issued, and what has been reported, last
    entry first. -/
structure Journal where
  context : Context
  issued : Nat
  entries : List Entry

/-- An entry with the fields of its context; its own fields win. -/
def Entry.within (entry : Entry) (context : Context) : Entry :=
  { entry with fields := Entries.insertAll context entry.fields }

namespace Journal

def empty : Journal := ⟨[], 0, []⟩

mutual

def act (journal : Journal) : Action → Journal
  | .report entry => { journal with entries := entry.within journal.context :: journal.entries }
  | .block binding body =>
    let (context, frame, issued) := journal.context.enter binding journal.issued
    let inside := actAll { journal with context := context, issued := issued } body
    { inside with context := inside.context.leave frame }
  | .clear => { journal with context := [] }

def actAll (journal : Journal) : List Action → Journal
  | [] => journal
  | action :: rest => actAll (act journal action) rest

end

end Journal

/-! ### A log that is driven from outside -/

/-- A step of a caller that opens and closes blocks by itself. -/
inductive Step where
  | enter (binding : Binding)
  /-- Closes the innermost block, whether or not its work was done. -/
  | leave
  | clear

/-- A context with the blocks that have been entered, innermost first. -/
structure Session where
  context : Context := []
  /-- What the blocks that are open bound. -/
  frames : List Frame := []
  issued : Nat := 0

/-- Takes a step. Leaving where no block was entered does nothing. -/
def Session.step (s : Session) : Step → Session
  | .enter binding =>
    let (context, frame, issued) := s.context.enter binding s.issued
    ⟨context, frame :: s.frames, issued⟩
  | .leave =>
    match s.frames with
    | [] => s
    | frame :: frames => { s with context := s.context.leave frame, frames := frames }
  | .clear => { s with context := [] }

end Phrasebook.Log

namespace Phrasebook

/-- A value together with what was done to the log on the way to it. -/
structure Logged (α : Type) where
  value : α
  /-- What was done to the log, in order. -/
  actions : List Log.Action

namespace Logged

variable {α β : Type}

def pure (value : α) : Logged α := ⟨value, []⟩

def bind (first : Logged α) (next : α → Logged β) : Logged β :=
  let second := next first.value
  ⟨second.value, first.actions ++ second.actions⟩

instance : Monad Logged where
  pure := Logged.pure
  bind := Logged.bind

def report (level : Log.Level) (event : String) (fields : Log.Fields) : Logged Unit :=
  ⟨(), [.report ⟨level, event, fields⟩]⟩

/-- Reports something in the name of a part of the library. -/
def reportFrom (component : String) (level : Log.Level) (event : String) (fields : Log.Fields) :
    Logged Unit :=
  report level event <|
    [("component", .text component),
      ("module_path", .text ("infrastructure.i18n_index." ++ component))] ++ fields

/-- Runs a computation within a block. -/
def within (binding : Log.Binding) (computation : Logged α) : Logged α :=
  ⟨computation.value, [.block binding computation.actions]⟩

/-! ### Values do not depend on the log -/

@[simp] theorem value_pure (value : α) : (Pure.pure value : Logged α).value = value := rfl

@[simp] theorem value_bind (first : Logged α) (next : α → Logged β) :
    (first >>= next).value = (next first.value).value := rfl

@[simp] theorem value_within (binding : Log.Binding) (computation : Logged α) :
    (within binding computation).value = computation.value := rfl

end Logged

end Phrasebook
