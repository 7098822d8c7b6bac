import Mathlib.Data.List.Induction
import Phrasebook.Proofs.Tree.Overlay
import Phrasebook.Store

/-!
# Phrasebook.Proofs.Store.Run

Stores as runs of changes leave them.

Whatever has been merged, removed and reset, the merged phrases are those of the registered parts in
their order, and every lookup table is the flat view of its phrases (`run_sound`). What holds of a
store in general is derived from that, and not from its history.
-/

namespace Phrasebook

/-- A part whose phrases are a mapping, with their flat view beside them. -/
structure Part.Sound (part : Part) : Prop where
  distinct : (Tree.branch part.phrases).Distinct
  lookup_eq : part.lookup = Lookup.ofBranch part.phrases

namespace Store

/-- A change to a store. The phrases of a part are mappings, which name no key twice. -/
inductive Change where
  | merge (phrases : Branch) (distinct : (Tree.branch phrases).Distinct)
      (document : Option Document) (sourceFile : Option String)
  | remove (file : String)
  | reset

def apply (store : Store) : Change → Store
  | .merge phrases _ document sourceFile => (store.mergePart phrases document sourceFile).value.1
  | .remove file => (store.removePart file).value.1
  | .reset => store.reset.value

def run (scope : String) (defaultLocale : Text) (changes : List Change) : Store :=
  changes.foldl apply (empty scope defaultLocale)

/-- A store whose derived views are up to date. -/
structure Sound (store : Store) : Prop where
  parts_sound : ∀ part ∈ store.parts, part.Sound
  phrases_eq : store.phrases = mergeParts store.parts
  lookup_eq : store.lookup = Lookup.ofBranch store.phrases

theorem mergeParts_concat (parts : List Part) (part : Part) :
    mergeParts (parts ++ [part]) = Tree.merge (mergeParts parts) part.phrases := by
  simp [mergeParts]

/-- The merged tree has keys of a sort if the parts have, and if the sort is kept by adding keys. -/
theorem everyBranch_mergeParts {sort : List Text → Prop} (extensible : Tree.Extensible sort)
    (bare : sort []) {parts : List Part}
    (every : ∀ part ∈ parts, Tree.EveryBranch sort (.branch part.phrases)) :
    Tree.EveryBranch sort (.branch (mergeParts parts)) := by
  induction parts using List.reverseRecOn with
  | nil => exact .branch bare (by simp [mergeParts])
  | append_singleton parts part ih =>
    rw [mergeParts_concat]
    exact Tree.everyBranch_merge extensible (ih fun other member => every other (by simp [member]))
      (every part (by simp))

theorem distinct_mergeParts {parts : List Part} (sound : ∀ part ∈ parts, part.Sound) :
    (Tree.branch (mergeParts parts)).Distinct :=
  everyBranch_mergeParts Tree.extensible_nodup List.nodup_nil fun part member =>
    (sound part member).distinct

theorem Sound.distinct {store : Store} (sound : store.Sound) :
    (Tree.branch store.phrases).Distinct := by
  rw [sound.phrases_eq]
  exact distinct_mergeParts sound.parts_sound

/-! ### One change -/

theorem mem_register {part other : Part} {parts : List Part}
    (member : other ∈ register part parts) : other = part ∨ other ∈ parts := by
  induction parts with
  | nil => simpa [register] using member
  | cons first rest ih =>
    rw [register] at member
    split at member
    · rcases List.mem_cons.mp member with new | old
      · exact .inl new
      · exact .inr (List.mem_cons_of_mem _ old)
    · rcases List.mem_cons.mp member with rfl | later
      · exact .inr List.mem_cons_self
      · exact (ih later).imp_right (List.mem_cons_of_mem _)

theorem mem_of_mem_unregister {file : String} {part : Part} {parts : List Part}
    (member : part ∈ unregister file parts) : part ∈ parts := by
  induction parts with
  | nil => simp [unregister] at member
  | cons first rest ih =>
    rw [unregister] at member
    split at member
    · exact List.mem_cons_of_mem _ member
    · rcases List.mem_cons.mp member with rfl | later
      · exact List.mem_cons_self
      · exact List.mem_cons_of_mem _ (ih later)

theorem find?_register {part : Part} {file : String} (own : part.sourceFile = some file)
    (parts : List Part) (other : String) :
    (register part parts).find? (isFrom other) =
      if file = other then some part else parts.find? (isFrom other) := by
  induction parts with
  | nil => by_cases same : file = other <;> simp [register, isFrom, own, same]
  | cons first rest ih =>
    rw [register]
    by_cases here : first.sourceFile = some file
    · -- The part that is replaced is of the same file, so no other file loses anything.
      have replaced : part.sourceFile.any (fun file => isFrom file first) := by
        simp [own, isFrom, here]
      rw [if_pos replaced]
      by_cases same : file = other <;> simp [isFrom, own, here, same]
    · have kept : ¬ part.sourceFile.any (fun file => isFrom file first) := by
        simp [own, isFrom, here]
      rw [if_neg kept, List.find?_cons, ih]
      by_cases found : first.sourceFile = some other
      · have differ : file ≠ other := fun same => here (same ▸ found)
        simp [isFrom, found, differ]
      · simp [isFrom, found]

/-- A part that is left out makes no difference, nor does one that only replaces such a part. -/
theorem filter_register_of_dropped {kept : Part → Bool} {part : Part} (drops : ¬ kept part)
    {parts : List Part}
    (replaced : ∀ other ∈ parts, ∀ file, part.sourceFile = some file →
      other.sourceFile = some file → ¬ kept other) :
    (register part parts).filter kept = parts.filter kept := by
  induction parts with
  | nil => exact List.filter_cons_of_neg drops
  | cons other rest ih =>
    obtain ⟨first, replaced⟩ := List.forall_mem_cons.mp replaced
    rw [register]
    split
    next same =>
      obtain ⟨file, own, taken⟩ := Option.any_eq_true .. |>.mp same
      have gone := first file own (of_decide_eq_true taken)
      rw [List.filter_cons_of_neg drops, List.filter_cons_of_neg gone]
    next => rw [List.filter_cons, List.filter_cons, ih replaced]

theorem filter_unregister_of_dropped {kept : Part → Bool} {file : String} {parts : List Part}
    (removed : ∀ part ∈ parts, part.sourceFile = some file → ¬ kept part) :
    (unregister file parts).filter kept = parts.filter kept := by
  induction parts with
  | nil => rfl
  | cons part rest ih =>
    obtain ⟨first, removed⟩ := List.forall_mem_cons.mp removed
    rw [unregister]
    split
    next same => rw [List.filter_cons_of_neg (first (of_decide_eq_true same))]
    next => rw [List.filter_cons, List.filter_cons, ih removed]

theorem apply_merge (store : Store) (phrases : Branch) (distinct : (Tree.branch phrases).Distinct)
    (document : Option Document) (sourceFile : Option String) :
    store.apply (.merge phrases distinct document sourceFile) =
      store.withParts (register (.ofPhrases phrases document sourceFile) store.parts) := rfl

theorem apply_remove (store : Store) (file : String) :
    store.apply (.remove file) =
      if store.parts.any (isFrom file) then store.withParts (unregister file store.parts)
      else store := by
  rw [apply, removePart]
  split <;> rfl

theorem apply_reset (store : Store) : store.apply .reset = store.withParts [] := rfl

theorem frame_apply (store : Store) (change : Change) :
    (store.apply change).scope = store.scope ∧
      (store.apply change).defaultLocale = store.defaultLocale := by
  cases change with
  | merge phrases distinct document sourceFile => exact ⟨rfl, rfl⟩
  | remove file =>
    rw [apply_remove]
    split <;> exact ⟨rfl, rfl⟩
  | reset => exact ⟨rfl, rfl⟩

theorem sound_withParts (store : Store) {parts : List Part} (sound : ∀ part ∈ parts, part.Sound) :
    (store.withParts parts).Sound :=
  ⟨sound, rfl, rfl⟩

theorem Sound.apply {store : Store} (sound : store.Sound) (change : Change) :
    (store.apply change).Sound := by
  cases change with
  | merge phrases distinct document sourceFile =>
    rw [apply_merge]
    apply sound_withParts
    intro part member
    -- Only the new part has to be looked at; the others are sound already.
    rcases mem_register member with rfl | old
    · exact ⟨distinct, rfl⟩
    · exact sound.parts_sound part old
  | remove file =>
    rw [apply_remove]
    split
    · exact sound_withParts store fun part member =>
        sound.parts_sound part (mem_of_mem_unregister member)
    · exact sound
  | reset =>
    rw [apply_reset]
    exact sound_withParts store (by simp)

/-! ### Runs -/

theorem run_concat (scope : String) (defaultLocale : Text) (changes : List Change)
    (change : Change) :
    run scope defaultLocale (changes ++ [change]) =
      (run scope defaultLocale changes).apply change :=
  List.foldl_concat ..

theorem frame_run (scope : String) (defaultLocale : Text) (changes : List Change) :
    (run scope defaultLocale changes).scope = scope ∧
      (run scope defaultLocale changes).defaultLocale = defaultLocale := by
  induction changes using List.reverseRecOn with
  | nil => exact ⟨rfl, rfl⟩
  | append_singleton changes change ih =>
    obtain ⟨sameScope, sameLocale⟩ := frame_apply (run scope defaultLocale changes) change
    rw [run_concat]
    exact ⟨sameScope.trans ih.1, sameLocale.trans ih.2⟩

/-- Every run of changes leaves the derived views of a store up to date. -/
theorem run_sound (scope : String) (defaultLocale : Text) (changes : List Change) :
    (run scope defaultLocale changes).Sound := by
  induction changes using List.reverseRecOn with
  | nil => exact ⟨by simp [run, empty], rfl, rfl⟩
  | append_singleton changes change ih =>
    rw [run, List.foldl_append]
    exact ih.apply change

/-- Everything in a sound store is derived from its parts. -/
theorem Sound.eq_withParts {store : Store} (sound : store.Sound) :
    store = store.withParts store.parts := by
  rw [withParts, ← sound.phrases_eq, ← sound.lookup_eq]

/-- Runs that lead to the same parts lead to the same store. -/
theorem run_eq_of_parts {scope : String} {defaultLocale : Text} {one other : List Change}
    (same : (run scope defaultLocale one).parts = (run scope defaultLocale other).parts) :
    run scope defaultLocale one = run scope defaultLocale other := by
  obtain ⟨oneScope, oneLocale⟩ := frame_run scope defaultLocale one
  obtain ⟨otherScope, otherLocale⟩ := frame_run scope defaultLocale other
  rw [(run_sound scope defaultLocale one).eq_withParts,
    (run_sound scope defaultLocale other).eq_withParts]
  simp only [withParts, oneScope, oneLocale, otherScope, otherLocale, same]

end Store

end Phrasebook
