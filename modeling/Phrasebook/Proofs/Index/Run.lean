import Phrasebook.Index
import Phrasebook.Proofs.Document.Phrases
import Phrasebook.Proofs.Store.History

/-!
# Phrasebook.Proofs.Index.Run

Indexes as runs of changes leave them.

A change to one scope does nothing to the store of another. So what stands under a scope is what a
store of its own would be after the changes that were meant for it, since the scope was last removed
(`storeOr_run`). What holds of a store after every run holds of the stores of an index, and besides,
a document in an index was read from a text, and comes with its own phrases (`Part.Faithful`).
-/

namespace Phrasebook

/-- A document beside the phrases of a part was read from a text, and these are its phrases. -/
def Part.Faithful (part : Part) : Prop :=
  ∀ document, part.document = some document →
    part.phrases = document.toBranch.value ∧ ∃ text, (Document.parse text).value = .ok document

namespace Index

inductive Change where
  | mergeText (scope text : String) (sourceFile : Option String)
  | mergeTree (scope : String) (phrases : Branch) (distinct : (Tree.branch phrases).Distinct)
      (sourceFile : Option String)
  | remove (scope file : String)
  | reset (scope : Option String)

def apply (index : Index) : Change → Index
  | .mergeText scope text sourceFile => (index.mergePart scope text sourceFile).value.1
  | .mergeTree scope phrases _ sourceFile => (index.mergeTree scope phrases sourceFile).value.1
  | .remove scope file => (index.removePart scope file).value.1
  | .reset scope => (index.reset scope).value

def run (defaultLocale : Text) (changes : List Change) : Index :=
  changes.foldl apply (empty defaultLocale)

/-! ### One scope -/

def Change.removes (scope : String) : Change → Bool
  | .reset target => target.all (· = scope)
  | _ => false

/-- What a change means for the store of a scope that it does not remove. A text that cannot be read
    means nothing. -/
def Change.within? (scope : String) : Change → Option Store.Change
  | .mergeText other text sourceFile =>
    if other = scope then
      match (Document.parse text).value with
      | .ok document =>
        some (.merge document.toBranch.value document.distinct_toBranch (some document) sourceFile)
      | .error _ => none
    else none
  | .mergeTree other phrases distinct sourceFile =>
    if other = scope then some (.merge phrases distinct none sourceFile) else none
  | .remove other file => if other = scope then some (.remove file) else none
  | .reset _ => none

/-- The changes to the store of a scope, since the scope was last removed. -/
def changesWithin (scope : String) (changes : List Change) : List Store.Change :=
  changes.foldl (fun own change =>
    if change.removes scope then [] else own ++ (change.within? scope).toList) []

/-- The store of a scope, or a new one. -/
def storeOr (index : Index) (scope : String) : Store :=
  (index.store? scope).getD (.empty scope index.defaultLocale)

theorem find?_putStore (store : Store) (stores : List Store) (scope : String) :
    (putStore store stores).find? (·.scope = scope) =
      if store.scope = scope then some store else stores.find? (·.scope = scope) := by
  induction stores with
  | nil => by_cases same : store.scope = scope <;> simp [putStore, same]
  | cons other rest ih =>
    rw [putStore]
    by_cases here : other.scope = store.scope
    · rw [if_pos here]
      by_cases same : store.scope = scope <;> simp [here, same]
    · rw [if_neg here, List.find?_cons, ih]
      by_cases found : other.scope = scope
      · have differ : store.scope ≠ scope := fun same => here (found.trans same.symm)
        simp [found, differ]
      · simp [found]

theorem storeOr_withStore (index : Index) (store : Store) (scope : String) :
    (index.withStore store).storeOr scope =
      if store.scope = scope then store else index.storeOr scope := by
  rw [storeOr, store?, withStore, find?_putStore]
  split <;> rfl

theorem scope_storeOr (index : Index) (scope : String) : (index.storeOr scope).scope = scope := by
  rw [storeOr]
  cases found : index.store? scope with
  | none => rfl
  | some store => simpa using List.find?_some found

/-- Merging phrases is one change of the store of the scope. -/
theorem value_mergePhrases (index : Index) (scope : String) (phrases : Branch)
    (distinct : (Tree.branch phrases).Distinct) (document : Option Document)
    (sourceFile : Option String) :
    (index.mergePhrases scope phrases document sourceFile).value.1 =
      index.withStore
        ((index.storeOr scope).apply (.merge phrases distinct document sourceFile)) := by
  have opened : (index.openStore scope).value = index.storeOr scope := by
    rw [openStore, storeOr]
    cases index.store? scope <;> rfl
  simp only [mergePhrases, Logged.value_bind, Logged.value_pure, opened]
  rfl

theorem value_mergePart (index : Index) (scope text : String) (sourceFile : Option String) :
    (index.mergePart scope text sourceFile).value.1 =
      match (Document.parse text).value with
      | .ok document =>
        index.withStore ((index.storeOr scope).apply
          (.merge document.toBranch.value document.distinct_toBranch (some document) sourceFile))
      | .error _ => index := by
  rw [mergePart, Logged.value_bind]
  cases (Document.parse text).value with
  | ok document =>
    simp only [Logged.value_bind, Logged.value_pure]
    exact value_mergePhrases index scope _ document.distinct_toBranch (some document) sourceFile
  | error fault => cases fault <;> rfl

theorem store?_reset (index : Index) (scope : String) (target : Option String) :
    (index.reset target).value.store? scope =
      if (Change.reset target).removes scope then none else index.store? scope := by
  change (index.stores.filter fun store => !target.all (store.scope = ·)).find? _ = _
  rw [List.find?_filter]
  cases target with
  | none => simp [Change.removes]
  | some other =>
    by_cases same : other = scope
    · simp [Change.removes, same]
    · have kept (store : Store) : ¬ store.scope = other ∧ store.scope = scope ↔
          store.scope = scope := and_iff_right_of_imp fun here => here ▸ Ne.symm same
      simp [Change.removes, same, store?, kept]

/-- After a change that takes a scope away its store is as good as empty. -/
theorem storeOr_apply_of_removes (index : Index) {change : Change} {scope : String}
    (removes : change.removes scope) :
    (index.apply change).storeOr scope = .empty scope index.defaultLocale := by
  cases change with
  | reset target =>
    rw [apply, storeOr, store?_reset, if_pos removes]
    rfl
  | _ => cases removes

theorem apply_remove (index : Index) (scope file : String) :
    index.apply (.remove scope file) =
      if (index.store? scope).isSome then
        index.withStore ((index.storeOr scope).apply (.remove file))
      else index := by
  rw [apply, removePart, storeOr]
  cases index.store? scope <;> rfl

theorem storeOr_apply_remove (index : Index) (other file scope : String) :
    (index.apply (.remove other file)).storeOr scope =
      if other = scope then (index.storeOr scope).apply (.remove file)
      else index.storeOr scope := by
  rw [apply_remove]
  cases found : index.store? other with
  | none =>
    rw [Option.isSome_none, if_neg Bool.false_ne_true]
    split
    next same =>
      -- Nothing can be taken out of a new store.
      rw [← same, storeOr, found]
      rfl
    next => rfl
  | some store =>
    rw [Option.isSome_some, if_pos rfl, storeOr_withStore, (Store.frame_apply _ _).1, scope_storeOr]
    split
    next same => rw [same]
    next => rfl

/-- A change that does not take a scope away acts on its store by what it means for the scope, and
    not at all if it means nothing. -/
theorem storeOr_apply_of_keeps (index : Index) {change : Change} {scope : String}
    (keeps : ¬ change.removes scope) :
    (index.apply change).storeOr scope =
      (change.within? scope).elim (index.storeOr scope) (index.storeOr scope).apply := by
  -- A part that is put into the store of another scope is not seen.
  have put (other : String) (own : Store.Change) :
      (index.withStore ((index.storeOr other).apply own)).storeOr scope =
        (if other = scope then some own else none).elim (index.storeOr scope)
          (index.storeOr scope).apply := by
    rw [storeOr_withStore, (Store.frame_apply _ _).1, scope_storeOr]
    by_cases same : other = scope <;> simp [same]
  cases change with
  | mergeText other text sourceFile =>
    simp only [apply, value_mergePart, Change.within?]
    cases (Document.parse text).value with
    | ok document => exact put other _
    | error fault => by_cases same : other = scope <;> simp [same]
  | mergeTree other phrases distinct sourceFile =>
    rw [apply, mergeTree, value_mergePhrases index other phrases distinct]
    exact put other _
  | remove other file =>
    rw [storeOr_apply_remove, Change.within?]
    split <;> rfl
  | reset target =>
    rw [apply, storeOr, store?_reset, if_neg keeps]
    rfl

theorem defaultLocale_apply (index : Index) (change : Change) :
    (index.apply change).defaultLocale = index.defaultLocale := by
  cases change with
  | mergeText scope text sourceFile =>
    rw [apply, value_mergePart]
    split <;> rfl
  | mergeTree scope phrases distinct sourceFile =>
    rw [apply, mergeTree, value_mergePhrases index scope phrases distinct]
    rfl
  | remove scope file =>
    rw [apply, removePart]
    split <;> rfl
  | reset target => rfl

theorem defaultLocale_run (defaultLocale : Text) (changes : List Change) :
    (run defaultLocale changes).defaultLocale = defaultLocale := by
  induction changes using List.reverseRecOn with
  | nil => rfl
  | append_singleton changes change ih =>
    rw [run, List.foldl_concat, defaultLocale_apply]
    exact ih

/-- The store of a scope is what the changes within the scope make of an empty one. -/
theorem storeOr_run (defaultLocale : Text) (changes : List Change) (scope : String) :
    (run defaultLocale changes).storeOr scope =
      .run scope defaultLocale (changesWithin scope changes) := by
  -- By induction on the changes; one that removes the scope makes both sides begin anew.
  induction changes using List.reverseRecOn with
  | nil => rfl
  | append_singleton changes change ih =>
    rw [run, List.foldl_concat, changesWithin, List.foldl_concat]
    change ((run defaultLocale changes).apply change).storeOr scope =
      .run scope defaultLocale (if change.removes scope then []
        else changesWithin scope changes ++ (change.within? scope).toList)
    split
    next removes =>
      rw [storeOr_apply_of_removes _ removes, defaultLocale_run]
      rfl
    next keeps =>
      rw [storeOr_apply_of_keeps _ keeps, ih]
      cases change.within? scope with
      | none => rw [Option.toList_none, List.append_nil]; rfl
      | some own => rw [Option.toList_some, Store.run, Store.run, List.foldl_concat]; rfl

/-! ### Parts of an index -/

theorem exists_change_of_mem_changesWithin {scope : String} {changes : List Change}
    {own : Store.Change} (member : own ∈ changesWithin scope changes) :
    ∃ change ∈ changes, change.within? scope = some own := by
  induction changes using List.reverseRecOn with
  | nil => cases member
  | append_singleton changes change ih =>
    rw [changesWithin, List.foldl_concat] at member
    split at member
    next => cases member
    next =>
      rcases List.mem_append.mp member with old | new
      · obtain ⟨earlier, inside, meant⟩ := ih old
        exact ⟨earlier, List.mem_append_left _ inside, meant⟩
      · exact ⟨change, by simp, Option.mem_toList.mp new⟩

/-- A part that is registered by a change has the phrases of its document, if it has one. -/
theorem Change.faithful_of_within? {change : Change} {scope : String} {own : Store.Change}
    (meant : change.within? scope = some own) {part : Part} (registers : own.part? = some part) :
    part.Faithful := by
  intro document held
  -- Only a text comes with a document, and then with the phrases of this document.
  cases change with
  | mergeText other text sourceFile =>
    rw [within?] at meant
    split at meant
    next =>
      split at meant
      next read parsed =>
        cases meant
        cases registers
        cases held
        exact ⟨rfl, text, parsed⟩
      next => cases meant
    next => cases meant
  | mergeTree other phrases distinct sourceFile =>
    rw [within?] at meant
    split at meant
    next =>
      cases meant
      cases registers
      cases held
    next => cases meant
  | remove other file =>
    rw [within?] at meant
    split at meant
    next =>
      cases meant
      cases registers
    next => cases meant
  | reset target => cases meant

/-- What is known of the store of a scope, whatever the index has been through. -/
structure Tidy (store : Store) : Prop where
  sound : store.Sound
  single : Store.OnePartPerFile store.parts
  faithful : ∀ part ∈ store.parts, part.Faithful

theorem tidy_of_store?_run {defaultLocale : Text} {changes : List Change} {scope : String}
    {store : Store} (found : (run defaultLocale changes).store? scope = some store) :
    Tidy store := by
  -- What holds of every run of a store holds of this one.
  have same : store = .run scope defaultLocale (changesWithin scope changes) := by
    rw [← storeOr_run, storeOr, found]
    rfl
  subst same
  obtain ⟨slots, holding, parts⟩ :=
    Store.exists_slots scope defaultLocale (changesWithin scope changes)
  refine ⟨Store.run_sound .., parts ▸ holding.onePartPerFile, fun part member => ?_⟩
  obtain ⟨own, inside, registers⟩ := Store.exists_change_of_mem_parts member
  obtain ⟨change, _, meant⟩ := exists_change_of_mem_changesWithin inside
  exact change.faithful_of_within? meant registers

end Index

end Phrasebook
