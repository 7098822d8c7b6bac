import Phrasebook.Proofs.Index.Run
import Phrasebook.Proofs.Store.Registration

/-!
# Phrasebook.Proofs.Index.Registration

Parts registered in a scope of an index.

Whatever a text or a file puts into a scope, what it comes to is that a part is registered there
(`register`). Several parts do together what registering them does to the parts of the scope, and the
rest of the index is as one registration leaves it (`registerAll_eq`).
-/

namespace Phrasebook

theorem Store.withParts_withParts (store : Store) (parts others : List Part) :
    (store.withParts parts).withParts others = store.withParts others := rfl

namespace Index

def part? (index : Index) (scope file : String) : Option Part :=
  (index.store? scope).bind (·.part? file)

def register (scope : String) (index : Index) (part : Part) : Index :=
  index.withStore
    ((index.storeOr scope).withParts (Store.register part (index.storeOr scope).parts))

def registerAll (scope : String) (index : Index) (new : List Part) : Index :=
  new.foldl (register scope) index

/-- A scope has some parts, and what is derived from them. -/
def HasParts (index : Index) (scope : String) (parts : List Part) : Prop :=
  ∃ store : Store, index.storeOr scope = store.withParts parts

theorem part?_eq (index : Index) (scope file : String) :
    index.part? scope file = (index.storeOr scope).part? file := by
  rw [part?, storeOr]
  cases index.store? scope <;> rfl

/-- Of two stores of one scope, the one that is put last stays. -/
theorem putStore_putStore {store other : Store} (same : other.scope = store.scope)
    (stores : List Store) :
    putStore store (putStore other stores) = putStore store stores := by
  induction stores with
  | nil => simp [putStore, same]
  | cons first rest ih =>
    by_cases here : first.scope = store.scope
    · simp [putStore, here, same]
    · simp [putStore, here, same, ih]

theorem withStore_withParts (index : Index) (store : Store) (parts others : List Part) :
    (index.withStore (store.withParts parts)).withStore (store.withParts others) =
      index.withStore (store.withParts others) := by
  have same : (store.withParts parts).scope = (store.withParts others).scope := rfl
  simp only [withStore, putStore_putStore same]

/-! ### One part -/

section One

variable (index : Index) (scope : String) (part : Part)

/-- Merging a text registers the part of its document, if the text has one. -/
theorem value_mergePart_eq (text : String) (sourceFile : Option String) :
    (index.mergePart scope text sourceFile).value.1 =
      (Document.parse text).value.toOption.elim index fun document =>
        index.register scope (.ofPhrases document.toBranch.value (some document) sourceFile) := by
  rw [value_mergePart]
  cases (Document.parse text).value <;> rfl

theorem storeOr_withParts (parts : List Part) :
    (index.withStore ((index.storeOr scope).withParts parts)).storeOr scope =
      (index.storeOr scope).withParts parts := by
  rw [storeOr_withStore]
  exact if_pos (scope_storeOr index scope)

theorem storeOr_register :
    (index.register scope part).storeOr scope =
      (index.storeOr scope).withParts (Store.register part (index.storeOr scope).parts) :=
  storeOr_withParts index scope _

theorem part?_register {own : String} (named : part.sourceFile = some own) (file : String) :
    (index.register scope part).part? scope file =
      if own = file then some part else index.part? scope file := by
  rw [part?_eq, part?_eq, storeOr_register]
  exact Store.find?_register named _ file

end One

theorem HasParts.register {index : Index} {scope : String} {parts : List Part}
    (has : index.HasParts scope parts) (part : Part) :
    (index.register scope part).HasParts scope (Store.register part parts) := by
  obtain ⟨store, same⟩ := has
  exact ⟨store, by rw [storeOr_register, same]; rfl⟩

/-! ### Several parts -/

theorem HasParts.registerAll {index : Index} {scope : String} {parts : List Part}
    (has : index.HasParts scope parts) (new : List Part) :
    (index.registerAll scope new).HasParts scope (Store.registerAll parts new) := by
  induction new generalizing index parts with
  | nil => exact has
  | cons part rest ih => exact ih (has.register part)

section Several

variable (index : Index) (scope : String) {new : List Part}

theorem parts_registerAll (new : List Part) :
    ((index.registerAll scope new).storeOr scope).parts =
      Store.registerAll (index.storeOr scope).parts new := by
  induction new generalizing index with
  | nil => rfl
  | cons part rest ih =>
    refine (ih (index.register scope part)).trans ?_
    rw [storeOr_register]
    rfl

/-- Each registration but the last is covered by the next one. -/
theorem registerAll_eq (some' : new ≠ []) :
    index.registerAll scope new =
      index.withStore
        ((index.storeOr scope).withParts (Store.registerAll (index.storeOr scope).parts new)) := by
  induction new generalizing index with
  | nil => exact absurd rfl some'
  | cons part rest ih =>
    cases rest with
    | nil => rfl
    | cons next rest =>
      have later := ih (index.register scope part) (List.cons_ne_nil _ _)
      rw [storeOr_register, Store.withParts_withParts, register, withStore_withParts] at later
      exact later

/-- Parts of different files that have been registered are not seen to be registered once more. -/
theorem registerAll_registerAll (named : ∀ part ∈ new, part.sourceFile.isSome)
    (distinct : Store.OnePartPerFile new) :
    (index.registerAll scope new).registerAll scope new = index.registerAll scope new := by
  cases new with
  | nil => rfl
  | cons part rest =>
    have some' := List.cons_ne_nil part rest
    rw [registerAll_eq _ _ some', registerAll_eq _ _ some', storeOr_withParts,
      Store.withParts_withParts, withStore_withParts]
    congr 2
    exact Store.registerAll_registerAll named distinct _

end Several

end Index

end Phrasebook
