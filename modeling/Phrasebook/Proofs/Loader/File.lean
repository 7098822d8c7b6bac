import Phrasebook.Loader
import Phrasebook.Proofs.Disk.Selection
import Phrasebook.Proofs.Index.Run

/-!
# Phrasebook.Proofs.Loader.File

One text, one file and one part at a time: a call does all of what it is asked for, or nothing.

What a call amounts to is at most one change (`Call.change?`). A call that is given up, or ends without
success, is one that amounts to none, and it leaves the index as it was; any other call makes its
change (`call_does_all_or_nothing`). So nothing has been done to an index by the time that something
can go wrong with a file, its bytes or its text.
-/

namespace Phrasebook

/-! ### Results -/

/-- An operation was given up, or it ended without success. -/
def Unsuccessful (result : Except Failure (Outcome Index.Payload)) : Prop :=
  ∀ outcome, result = .ok outcome → outcome.isSuccess = false

namespace Index

/-- What merging a text reports depends on the text and the file it is from, not on the index. -/
theorem result_mergePart (index : Index) (scope text : String) (sourceFile : Option String) :
    (index.mergePart scope text sourceFile).value.2 =
      match (Document.parse text).value with
      | .ok document =>
        .ok (.success (some (.part (.ofPhrases document.toBranch.value (some document) sourceFile)))
          "merged")
      | .error (.unreadable error) =>
        .ok (.permanentError ("Failed to parse " ++ partName sourceFile ++ ": " ++ error.message)
          "yaml_parse_error" (some (.parseError error)))
      | .error (.excessive excess) => .error (.excessive excess) := by
  rw [mergePart, Logged.value_bind]
  cases (Document.parse text).value with
  | ok document => rfl
  | error fault => cases fault <;> rfl

/-- A text is merged with success exactly if it can be read. -/
theorem unsuccessful_mergePart_iff (index : Index) (scope text : String)
    (sourceFile : Option String) :
    Unsuccessful (index.mergePart scope text sourceFile).value.2 ↔
      ∀ document, (Document.parse text).value ≠ .ok document := by
  rw [result_mergePart, Unsuccessful]
  cases (Document.parse text).value with
  | ok document => simp [Outcome.isSuccess, Outcome.success]
  | error fault => cases fault <;> simp [Outcome.isSuccess, Outcome.permanentError, Outcome.error]

theorem putStore_of_find? {store : Store} {stores : List Store}
    (found : stores.find? (·.scope = store.scope) = some store) : putStore store stores = stores := by
  induction stores with
  | nil => cases found
  | cons other rest ih =>
    rw [List.find?_cons] at found
    rw [putStore]
    by_cases here : other.scope = store.scope
    · simp only [here, decide_true, Option.some.injEq] at found
      rw [if_pos here, found]
    · simp only [here, decide_false] at found
      rw [if_neg here, ih found]

theorem withStore_of_store? {index : Index} {scope : String} {store : Store}
    (found : index.store? scope = some store) : index.withStore store = index := by
  have named : store.scope = scope := by simpa using List.find?_some found
  rw [withStore, putStore_of_find? (named ▸ found)]

def registers (index : Index) (scope file : String) : Bool :=
  (index.store? scope).any fun store => store.parts.any (Store.isFrom file)

/-- A part is removed, and reported as removed, if there is one of the file. -/
theorem value_removePart (index : Index) (scope file : String) :
    (index.removePart scope file).value =
      if index.registers scope file then (index.apply (.remove scope file), true)
      else (index, false) := by
  rw [apply, removePart, registers]
  cases found : index.store? scope with
  | none => rfl
  | some store =>
    simp only [Logged.value_bind, Logged.value_pure, Store.removePart, Option.any_some]
    split
    next => rfl
    next => exact Prod.ext (withStore_of_store? found) rfl

end Index

namespace Loader

/-! ### Files -/

/-- The text of the file at the end of a path, if there is one and its bytes can be decoded. -/
def text? (disk : Disk) (path : Path) : Option String :=
  match disk.read path with
  | .ok bytes => (textOf bytes).toOption
  | .error _ => none

theorem text?_eq_some_iff {disk : Disk} {path : Path} {text : String} :
    text? disk path = some text ↔
      ∃ bytes, disk.read path = .ok bytes ∧ textOf bytes = .ok text := by
  rw [text?]
  cases disk.read path with
  | error e => simp
  | ok bytes => simp [toOption_eq_some_iff]

theorem value_loadFile_of_text? {disk : Disk} {path : Path} {text : String}
    (has : text? disk path = some text) (index : Index) (scope : String) :
    (loadFile disk index scope path).value = (index.mergePart scope text path.toString).value := by
  obtain ⟨bytes, read, decoded⟩ := text?_eq_some_iff.mp has
  simp only [loadFile, read, decoded, Logged.value_within]

/-- Loading a file without a text changes nothing and is no success. -/
theorem value_loadFile_of_no_text {disk : Disk} {path : Path} (missing : text? disk path = none)
    (index : Index) (scope : String) :
    (loadFile disk index scope path).value.1 = index ∧
      Unsuccessful (loadFile disk index scope path).value.2 := by
  rw [text?] at missing
  rw [loadFile]
  split
  next => exact ⟨rfl, fun outcome given => by cases given⟩
  next e => exact ⟨rfl, fun outcome given => by cases given; rfl⟩
  next bytes read =>
    cases decoded : textOf bytes with
    | error e => exact ⟨rfl, fun outcome given => by cases given; rfl⟩
    | ok text => simp [read, decoded, Except.toOption] at missing

/-! ### Calls -/

/-- A call that is about one part. -/
inductive Call where
  | mergePart (scope text : String) (sourceFile : Option String)
  | removePart (scope file : String)
  | loadFile (scope : String) (path : Path)
  | reloadFile (scope : String) (path : Path)

/-- How a call ends: with a result, or with telling whether there was something to take away. -/
inductive Ending where
  | ofResult (result : Except Failure (Outcome Index.Payload))
  | ofFlag (removed : Bool)

/-- A call was given up, ended without success, or found nothing to take away. -/
def Ending.Failed : Ending → Prop
  | .ofResult result => Unsuccessful result
  | .ofFlag removed => removed = false

/-- A change that registers a text, if the text can be read. -/
def registering? (scope text : String) (sourceFile : Option String) : Option Index.Change :=
  (Document.parse text).value.toOption.map fun _ => .mergeText scope text sourceFile

/-- A change that takes the part of a file away, if there is one. -/
def removing? (index : Index) (scope file : String) : Option Index.Change :=
  if index.registers scope file then some (.remove scope file) else none

/-- A change that registers the file at the end of a path, if it can be read. -/
def loading? (disk : Disk) (scope : String) (path : Path) : Option Index.Change :=
  (text? disk path).bind fun text => registering? scope text path.toString

namespace Call

/-- The index after a call, and how the call ended. -/
def perform (disk : Disk) (index : Index) : Call → Index × Ending
  | .mergePart scope text sourceFile =>
    (index.mergePart scope text sourceFile).value.map id .ofResult
  | .removePart scope file => (index.removePart scope file).value.map id .ofFlag
  | .loadFile scope path => (Loader.loadFile disk index scope path).value.map id .ofResult
  | .reloadFile scope path => (Loader.reloadFile disk index scope path).value.map id .ofResult

/-- What a call amounts to, if anything. A file that is gone is taken away. -/
def change? (disk : Disk) (index : Index) : Call → Option Index.Change
  | .mergePart scope text sourceFile => registering? scope text sourceFile
  | .removePart scope file => removing? index scope file
  | .loadFile scope path => loading? disk scope path
  | .reloadFile scope path =>
    if disk.refusesLength path then none
    else if disk.holds path then loading? disk scope path
    else removing? index scope path.toString

end Call

section Amounts

variable (disk : Disk) (index : Index) (scope : String)

/-- Merging a text amounts to one registration, or to nothing at all if it is no success. -/
theorem mergePart_amounts (text : String) (sourceFile : Option String) :
    (index.mergePart scope text sourceFile).value.1 =
        (registering? scope text sourceFile).elim index index.apply ∧
      (Unsuccessful (index.mergePart scope text sourceFile).value.2 ↔
        registering? scope text sourceFile = none) := by
  rw [Index.value_mergePart, Index.unsuccessful_mergePart_iff, registering?]
  cases read : (Document.parse text).value with
  | ok document =>
    refine ⟨?_, iff_of_false (fun refused => refused document rfl) (by simp [Except.toOption])⟩
    change _ = (index.mergePart scope text sourceFile).value.1
    rw [Index.value_mergePart, read]
  | error fault => exact ⟨rfl, iff_of_true (fun document => by simp) rfl⟩

theorem loadFile_amounts (path : Path) :
    (loadFile disk index scope path).value.1 = (loading? disk scope path).elim index index.apply ∧
      (Unsuccessful (loadFile disk index scope path).value.2 ↔ loading? disk scope path = none) := by
  rw [loading?]
  cases has : text? disk path with
  | none =>
    obtain ⟨same, unsuccessful⟩ := value_loadFile_of_no_text has index scope
    exact ⟨same, iff_of_true unsuccessful rfl⟩
  | some text =>
    rw [value_loadFile_of_text? has]
    exact mergePart_amounts index scope text path.toString

theorem removePart_amounts (file : String) :
    (index.removePart scope file).value.1 = (removing? index scope file).elim index index.apply ∧
      ((index.removePart scope file).value.2 = false ↔ removing? index scope file = none) := by
  rw [Index.value_removePart, removing?]
  split <;> simp

/-- Loading a file again amounts to a registration or a removal, or to nothing at all if it is no
    success. -/
theorem reloadFile_amounts (path : Path) :
    (reloadFile disk index scope path).value.1 =
        ((Call.reloadFile scope path).change? disk index).elim index index.apply ∧
      (Unsuccessful (reloadFile disk index scope path).value.2 ↔
        (Call.reloadFile scope path).change? disk index = none) := by
  rw [reloadFile, Call.change?]
  by_cases long : disk.refusesLength path
  · rw [if_pos long, if_pos long]
    exact ⟨rfl, iff_of_true (fun outcome given => by cases given) rfl⟩
  · rw [if_neg long, if_neg long]
    by_cases there : disk.holds path
    · rw [if_pos there, if_pos there]
      exact loadFile_amounts disk index scope path
    · -- The file is gone: whether its part was there decides how the call ends.
      obtain ⟨same, kept⟩ := removePart_amounts index scope path.toString
      rw [if_neg there, if_neg there, ← same, ← kept, Logged.value_bind]
      obtain ⟨after, removed⟩ := (index.removePart scope path.toString).value
      cases removed with
      | true => exact ⟨rfl, iff_of_false (fun refused => by cases refused _ rfl) (by simp)⟩
      | false => exact ⟨rfl, iff_of_true (fun outcome given => by cases given; rfl) rfl⟩

end Amounts

/-- A call that fails leaves the index as it was, and a call that does not fail makes the change that
    it amounts to. -/
theorem call_does_all_or_nothing (disk : Disk) (index : Index) (call : Call) :
    ((call.perform disk index).2.Failed → (call.perform disk index).1 = index) ∧
      (¬ (call.perform disk index).2.Failed → ∃ change, call.change? disk index = some change ∧
        (call.perform disk index).1 = index.apply change) := by
  have amounts : (call.perform disk index).1 = (call.change? disk index).elim index index.apply ∧
      ((call.perform disk index).2.Failed ↔ call.change? disk index = none) := by
    cases call with
    | mergePart scope text sourceFile => exact mergePart_amounts index scope text sourceFile
    | removePart scope file => exact removePart_amounts index scope file
    | loadFile scope path => exact loadFile_amounts disk index scope path
    | reloadFile scope path => exact reloadFile_amounts disk index scope path
  obtain ⟨same, failed⟩ := amounts
  rw [failed, same]
  cases call.change? disk index with
  | none => simp
  | some change => simp

end Loader

end Phrasebook
