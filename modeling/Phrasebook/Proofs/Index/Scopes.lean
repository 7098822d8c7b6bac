import Phrasebook.Proofs.Index.Run

/-!
# Phrasebook.Proofs.Index.Scopes

An index as a family of stores that know nothing of one another.

A scope is opened by the first change that registers something in it, and closed when it is removed;
opened again, it goes to the end of the list (`exists_openings`). While it is open its store is the
one that its own changes make (`storeOr_run`), whatever has happened to other scopes in between, and
while it is not, questions about it are answered as by a store without parts (`answer_of_closed`).
Questions take part in a session like changes, but leave no trace in it (`session_eq_run`).
-/

namespace Phrasebook

inductive Question where
  | phrase (key : Option Text) (locale : Text)
  | fullKey (fullKey : Text)
  | keysStartingWith (start : Text)
  | hasLocale (locale : Text)
  | fallbackLocale
  | definingPart (key : Option Text) (locale : Text)
  | valueRange (key : Option Text) (locale : Text) (file : String)
  | keyAt (file : String) (offset : Int)
  | definition (key : Option Text) (locale : Text)

inductive Answer where
  | text (text : Option Text)
  | keys (keys : List Text)
  | flag (b : Bool)
  | part (part : Option Part)
  | range (range : Option SourceRange)
  | place (place : Option (String × SourceRange))

/-- A question for a phrase names a segment of a key or of a locale. -/
def Question.Addressed : Question → Prop
  | .phrase key locale => Key.localeSegments key locale ≠ []
  | _ => True

/-- What a store answers. A definition is the place in the file of the first part with the key. -/
def Store.answer (store : Store) : Question → Answer
  | .phrase key locale => .text (store.phrase? key locale).value
  | .fullKey fullKey => .text (store.lookupKey? fullKey)
  | .keysStartingWith start => .keys (store.keysStartingWith start)
  | .hasLocale locale => .flag (store.hasLocale locale)
  | .fallbackLocale => .text (some store.fallbackLocale)
  | .definingPart key locale => .part (store.definingPart? key locale)
  | .valueRange key locale file => .range (store.valueRange? key locale file).value
  | .keyAt file offset => .text (store.keyAt? file offset)
  | .definition key locale =>
    .place <| ((store.definingPart? key locale).bind (·.sourceFile)).bind fun file =>
      (store.valueRange? key locale file).value.map fun range => (file, range)

theorem Store.definingPart?_empty (scope : String) (defaultLocale : Text) (key : Option Text)
    (locale : Text) : (Store.empty scope defaultLocale).definingPart? key locale = none := by
  rw [definingPart?]
  cases askedKey? key <;> rfl

/-- An empty store has no answer for any key that has a segment. -/
theorem Store.value_phrase?_empty (scope : String) (defaultLocale : Text) {key : Option Text}
    {locale : Text} (addressed : Key.localeSegments key locale ≠ []) :
    ((Store.empty scope defaultLocale).phrase? key locale).value = none := by
  -- Without a segment, the walk would end at the topmost mapping, which is listed.
  have nowhere : Tree.walk (.branch []) (Key.localeSegments key locale) 0 = none := by
    obtain ⟨first, rest, same⟩ := List.exists_cons_of_ne_nil addressed
    simp [same, Tree.walk, Tree.reach, Entries.get?]
  rw [phrase?]
  cases asked : askedKey? key with
  | none => rfl
  | some segments =>
    have same : key = some segments := by
      cases key with
      | none => cases asked
      | some text =>
        cases text with
        | nil => cases asked
        | cons c rest => exact asked
    subst same
    simp [empty, Entries.get?, nowhere]

namespace Index

def answer (index : Index) (scope : String) : Question → Answer
  | .phrase key locale => .text (index.phrase? scope key locale).value
  | .fullKey fullKey => .text (index.lookupKey? scope fullKey)
  | .keysStartingWith start => .keys (index.keysStartingWith scope start)
  | .hasLocale locale => .flag (index.hasLocale scope locale)
  | .fallbackLocale => .text (some (index.fallbackLocale scope))
  | .definingPart key locale => .part (index.definingPart? scope key locale)
  | .valueRange key locale file => .range (index.valueRange? scope key locale file).value
  | .keyAt file offset => .text (index.keyAt? scope file offset)
  | .definition key locale => .place (index.definition? scope key locale).value

/-! ### Answers -/

theorem answer_of_open {index : Index} {scope : String} {store : Store}
    (found : index.store? scope = some store) (question : Question) :
    index.answer scope question = store.answer question := by
  cases question with
  | definition key locale =>
    rw [answer, definition?, definingPart?, found, Store.answer, Option.bind_some]
    cases (store.definingPart? key locale).bind (·.sourceFile) with
    | none => rfl
    | some file =>
      rw [Option.bind_some, Logged.value_bind, Logged.value_pure, valueRange?, found]
  | _ => simp [answer, Store.answer, phrase?, lookupKey?, keysStartingWith, hasLocale,
      fallbackLocale, definingPart?, valueRange?, keyAt?, found]

/-- A scope that does not exist answers as an empty one would. -/
theorem answer_of_closed {index : Index} {scope : String} (closed : index.store? scope = none)
    {question : Question} (addressed : question.Addressed) :
    index.answer scope question = (Store.empty scope index.defaultLocale).answer question := by
  cases question with
  | phrase key locale =>
    rw [answer, phrase?, closed, Store.answer, Store.value_phrase?_empty scope _ addressed]
    rfl
  | definingPart key locale =>
    rw [answer, definingPart?, closed, Store.answer, Store.definingPart?_empty]
    rfl
  | definition key locale =>
    rw [answer, definition?, definingPart?, closed, Store.answer, Store.definingPart?_empty]
    rfl
  | valueRange key locale file =>
    rw [answer, valueRange?, closed]
    rfl
  -- The other questions ask for the store at once.
  | _ =>
    simp only [answer, lookupKey?, keysStartingWith, hasLocale, fallbackLocale, keyAt?, closed]
    rfl

/-! ### Sessions -/

/-- A step of work with an index. -/
inductive Step where
  | make (change : Change)
  | ask (scope : String) (question : Question)

def Step.change? : Step → Option Change
  | .make change => some change
  | .ask _ _ => none

/-- The index after a step, with the answer if the step is a question. -/
def perform (index : Index) : Step → Index × Option Answer
  | .make change => (index.apply change, none)
  | .ask scope question => (index, some (index.answer scope question))

def session (defaultLocale : Text) (steps : List Step) : Index :=
  steps.foldl (fun index step => (index.perform step).1) (empty defaultLocale)

/-- Questions have no part in what a session leads to. -/
theorem session_eq_run (defaultLocale : Text) (steps : List Step) :
    session defaultLocale steps = run defaultLocale (steps.filterMap Step.change?) := by
  rw [run, List.foldl_filterMap]
  refine congrArg (fun next => List.foldl next (empty defaultLocale) steps) ?_
  funext index step
  cases step <;> rfl

/-! ### Openings -/

/-- The scope in which a change registers something. A text that cannot be read registers nothing. -/
def Change.filled? : Change → Option String
  | .mergeText scope text _ =>
    match (Document.parse text).value with
    | .ok _ => some scope
    | .error _ => none
  | .mergeTree scope _ _ _ => some scope
  | _ => none

/-- Something is registered in a scope at a place of a history, and the scope has not been removed
    since. -/
def FillsAt (changes : List Change) (scope : String) (place : Nat) : Prop :=
  (∃ change, changes[place]? = some change ∧ change.filled? = some scope) ∧
    ∀ later change, place < later → changes[later]? = some change → ¬ change.removes scope

/-- A scope is opened at a place: nothing that was registered in it before is left. -/
def OpensAt (changes : List Change) (scope : String) (place : Nat) : Prop :=
  FillsAt changes scope place ∧ ∀ earlier, earlier < place → ¬ FillsAt changes scope earlier

theorem FillsAt.lt {changes : List Change} {scope : String} {place : Nat}
    (fills : FillsAt changes scope place) : place < changes.length := by
  obtain ⟨⟨change, at_place, _⟩, _⟩ := fills
  exact (List.getElem?_eq_some_iff.mp at_place).1

theorem Change.not_removes_of_filled? {change : Change} {scope : String}
    (filled : change.filled? = some scope) (other : String) : ¬ change.removes other := by
  cases change with
  | reset target => cases filled
  | _ => simp [removes]

section Concat

variable (changes : List Change) (change : Change) (scope : String)

/-- One more change leaves a place filled unless it takes the scope away, and may fill the last
    place itself. -/
theorem fillsAt_concat (place : Nat) :
    FillsAt (changes ++ [change]) scope place ↔
      FillsAt changes scope place ∧ ¬ change.removes scope ∨
        place = changes.length ∧ change.filled? = some scope := by
  constructor
  · rintro ⟨⟨filler, here, filled⟩, untouched⟩
    rw [Store.getElem?_concat] at here
    split at here
    next last =>
      cases here
      exact .inr ⟨last, filled⟩
    next =>
      have earlier : place < changes.length := (List.getElem?_eq_some_iff.mp here).1
      refine .inl ⟨⟨⟨filler, here, filled⟩, fun later other after there => ?_⟩, ?_⟩
      · have inside : later < changes.length := (List.getElem?_eq_some_iff.mp there).1
        refine untouched later other after ?_
        rw [Store.getElem?_concat, if_neg (Nat.ne_of_lt inside), there]
      · exact untouched changes.length change earlier (by rw [Store.getElem?_concat, if_pos rfl])
  · rintro (⟨⟨⟨filler, here, filled⟩, untouched⟩, stays⟩ | ⟨rfl, filled⟩)
    · have earlier : place < changes.length := (List.getElem?_eq_some_iff.mp here).1
      refine ⟨⟨filler, ?_, filled⟩, fun later other after there => ?_⟩
      · rw [Store.getElem?_concat, if_neg (Nat.ne_of_lt earlier), here]
      · rw [Store.getElem?_concat] at there
        split at there
        next =>
          cases there
          exact stays
        next => exact untouched later other after there
    · refine ⟨⟨change, by rw [Store.getElem?_concat, if_pos rfl], filled⟩, ?_⟩
      -- Nothing comes after the last change.
      intro later other after there
      rw [Store.getElem?_concat, if_neg (Nat.ne_of_gt after)] at there
      exact absurd (List.getElem?_eq_some_iff.mp there).1 (Nat.lt_asymm after)

/-- One more change closes the scopes that it removes, and opens the one that it registers something
    in unless this is open already. -/
theorem opensAt_concat (place : Nat) :
    OpensAt (changes ++ [change]) scope place ↔
      OpensAt changes scope place ∧ ¬ change.removes scope ∨
        place = changes.length ∧ change.filled? = some scope ∧
          ∀ earlier, ¬ FillsAt changes scope earlier := by
  simp only [OpensAt, fillsAt_concat]
  constructor
  · rintro ⟨⟨fills, stays⟩ | ⟨last, filled⟩, first⟩
    · refine .inl ⟨⟨fills, fun earlier before sooner => ?_⟩, stays⟩
      exact first earlier before (.inl ⟨sooner, stays⟩)
    · -- What is registered last leaves every earlier filling of the scope in force.
      have stays : ¬ change.removes scope := Change.not_removes_of_filled? filled scope
      refine .inr ⟨last, filled, fun earlier fills => ?_⟩
      exact first earlier (last ▸ fills.lt) (.inl ⟨fills, stays⟩)
  · rintro (⟨⟨fills, first⟩, stays⟩ | ⟨last, filled, unfilled⟩)
    · refine ⟨.inl ⟨fills, stays⟩, fun earlier before => ?_⟩
      rintro (⟨sooner, _⟩ | ⟨last, _⟩)
      · exact first earlier before sooner
      · exact absurd (last ▸ before) (Nat.lt_asymm fills.lt)
    · refine ⟨.inr ⟨last, filled⟩, fun earlier before => ?_⟩
      rintro (⟨fills, _⟩ | ⟨same, _⟩)
      · exact unfilled earlier fills
      · exact absurd (same.trans last.symm) (Nat.ne_of_lt before)

end Concat

theorem run_concat (defaultLocale : Text) (changes : List Change) (change : Change) :
    run defaultLocale (changes ++ [change]) = (run defaultLocale changes).apply change :=
  List.foldl_concat ..

/-! ### The list of scopes -/

theorem mem_scopes_iff (index : Index) (scope : String) :
    scope ∈ index.scopes ↔ (index.store? scope).isSome := by
  simp [scopes, store?, List.find?_isSome]

theorem scopes_withStore (index : Index) (store : Store) :
    (index.withStore store).scopes =
      if store.scope ∈ index.scopes then index.scopes else index.scopes ++ [store.scope] := by
  rw [scopes, scopes, withStore]
  induction index.stores with
  | nil => rfl
  | cons other rest ih =>
    rw [putStore, List.map_cons]
    by_cases same : other.scope = store.scope
    · simp [same]
    · rw [if_neg same, List.map_cons, ih]
      simp only [List.mem_cons, Ne.symm same, false_or, List.cons_append]
      split <;> rfl

/-- A change lets at most one scope come into being, after those that are there, or takes some
    away. -/
theorem scopes_apply (index : Index) (change : Change) :
    (index.apply change).scopes =
      match change.filled? with
      | some scope => if scope ∈ index.scopes then index.scopes else index.scopes ++ [scope]
      | none => index.scopes.filter (!change.removes ·) := by
  -- A part that is registered leaves the store of its scope under its scope.
  have put (scope : String) (own : Store.Change) :
      (index.withStore ((index.storeOr scope).apply own)).scopes =
        if scope ∈ index.scopes then index.scopes else index.scopes ++ [scope] := by
    rw [scopes_withStore, (Store.frame_apply _ _).1, scope_storeOr]
  cases change with
  | mergeText scope text sourceFile =>
    rw [apply, value_mergePart, Change.filled?]
    cases (Document.parse text).value with
    | ok document => exact put scope _
    | error fault => simp [Change.removes]
  | mergeTree scope phrases distinct sourceFile =>
    rw [apply, mergeTree, value_mergePhrases index scope phrases distinct]
    exact put scope _
  | remove scope file =>
    rw [apply_remove]
    cases found : index.store? scope with
    | none => simp [Change.filled?, Change.removes]
    | some store =>
      have listed : scope ∈ index.scopes := by
        rw [mem_scopes_iff, found, Option.isSome_some]
      rw [Option.isSome_some, if_pos rfl, put, if_pos listed]
      simp [Change.filled?, Change.removes]
  | reset target =>
    change (index.stores.filter fun store => !target.all (store.scope = ·)).map (·.scope) =
      (index.stores.map (·.scope)).filter fun scope => !target.all (· = scope)
    rw [List.filter_map]
    simp only [Function.comp_def, eq_comm]

/-- A scope exists if some change filled it and no later one took it away. -/
theorem mem_scopes_run_iff (defaultLocale : Text) (changes : List Change) (scope : String) :
    scope ∈ (run defaultLocale changes).scopes ↔ ∃ place, FillsAt changes scope place := by
  induction changes using List.reverseRecOn with
  | nil => simp [run, empty, scopes, FillsAt]
  | append_singleton changes change ih =>
    rw [run_concat, scopes_apply]
    simp only [fillsAt_concat]
    cases filled : change.filled? with
    | none => simp [ih]
    | some other =>
      -- A change that fills a scope takes none away.
      have keeps := Change.not_removes_of_filled? filled scope
      have either : (∃ place, FillsAt changes scope place ∧ ¬ change.removes scope ∨
          place = changes.length ∧ some other = some scope) ↔
          scope ∈ (run defaultLocale changes).scopes ∨ scope = other := by
        simp [keeps, exists_or, ih, eq_comm]
      rw [either]
      by_cases listed : other ∈ (run defaultLocale changes).scopes
      · simp only [if_pos listed]
        exact ⟨.inl, fun reached => reached.elim id fun same => same ▸ listed⟩
      · simp only [if_neg listed, List.mem_append, List.mem_singleton]

/-- The scopes of an index stand in the order in which they were opened, and no others are listed. -/
theorem exists_openings (defaultLocale : Text) (changes : List Change) :
    ∃ openings : List (Nat × String), openings.Pairwise (fun one other => one.1 < other.1) ∧
      (∀ place scope, (place, scope) ∈ openings ↔ OpensAt changes scope place) ∧
      openings.map (·.2) = (run defaultLocale changes).scopes := by
  induction changes using List.reverseRecOn with
  | nil => exact ⟨[], List.Pairwise.nil, by simp [OpensAt, FillsAt], rfl⟩
  | append_singleton changes change ih =>
    obtain ⟨openings, ascending, mem_iff, listed⟩ := ih
    rw [run_concat, scopes_apply]
    simp only [opensAt_concat]
    cases filled : change.filled? with
    | none =>
      -- A change that fills nothing only closes the openings of the scopes that it takes away.
      refine ⟨openings.filter fun opening => !change.removes opening.2, ascending.filter _, ?_, ?_⟩
      · simp [mem_iff]
      · rw [← listed, List.filter_map]
        rfl
    | some opened =>
      have keeps (scope : String) := Change.not_removes_of_filled? filled scope
      by_cases old : opened ∈ (run defaultLocale changes).scopes
      · refine ⟨openings, ascending, fun place scope => ?_, by simp only [if_pos old, listed]⟩
        -- A scope that exists has been filled before, so it is not opened again.
        obtain ⟨place', fills⟩ := (mem_scopes_run_iff defaultLocale changes opened).mp old
        rw [mem_iff]
        constructor
        · intro opens
          exact .inl ⟨opens, keeps scope⟩
        · rintro (⟨opens, _⟩ | ⟨_, same, unfilled⟩)
          · exact opens
          · cases same
            exact absurd fills (unfilled place')
      · have unfilled (place : Nat) : ¬ FillsAt changes opened place := fun fills =>
          old ((mem_scopes_run_iff defaultLocale changes opened).mpr ⟨place, fills⟩)
        -- A scope that does not exist is opened here, after all others.
        refine ⟨openings ++ [(changes.length, opened)], ?_, fun place scope => ?_, ?_⟩
        · rw [List.pairwise_append]
          refine ⟨ascending, List.pairwise_singleton _ _, fun opening member last single => ?_⟩
          rw [List.mem_singleton.mp single]
          exact ((mem_iff _ _).mp member).1.lt
        · rw [List.mem_append, mem_iff, List.mem_singleton, Prod.mk.injEq]
          constructor
          · rintro (opens | ⟨rfl, rfl⟩)
            · exact .inl ⟨opens, keeps scope⟩
            · exact .inr ⟨rfl, rfl, unfilled⟩
          · rintro (⟨opens, _⟩ | ⟨last, same, _⟩)
            · exact .inl opens
            · cases same
              exact .inr ⟨last, rfl⟩
        · simp only [if_neg old, List.map_append, listed, List.map_singleton]

/-- Whatever an index has been through, questions included: it is what its changes alone make of it;
    a scope exists exactly if something was registered in it since it was last removed; the store of
    a scope is what the changes meant for the scope make of a new store, and answers for it; the
    scopes are listed in the order in which they were opened; and about a scope that does not exist
    it answers what a store without parts does. -/
theorem session_isolates_scopes (defaultLocale : Text) (steps : List Step) :
    let index := session defaultLocale steps
    let changes := steps.filterMap Step.change?
    index = run defaultLocale changes ∧
      (∀ scope, (index.store? scope).isSome ↔ ∃ place, FillsAt changes scope place) ∧
      (∀ scope store, index.store? scope = some store →
        store = .run scope defaultLocale (changesWithin scope changes) ∧
          ∀ question, index.answer scope question = store.answer question) ∧
      (∃ openings : List (Nat × String), openings.Pairwise (fun one other => one.1 < other.1) ∧
        (∀ place scope, (place, scope) ∈ openings ↔ OpensAt changes scope place) ∧
        openings.map (·.2) = index.scopes) ∧
      ∀ scope question, index.store? scope = none → question.Addressed →
        index.answer scope question = (Store.empty scope defaultLocale).answer question := by
  intro index changes
  have same : index = run defaultLocale changes := session_eq_run defaultLocale steps
  rw [same]
  refine ⟨rfl, fun scope => ?_, fun scope store found => ⟨?_, answer_of_open found⟩,
    exists_openings defaultLocale changes, fun scope question closed addressed => ?_⟩
  · rw [← mem_scopes_iff, mem_scopes_run_iff]
  · rw [← storeOr_run, storeOr, found, Option.getD_some]
  · rw [answer_of_closed closed addressed, defaultLocale_run]

end Index

end Phrasebook
