import Phrasebook.Proofs.Store.History

/-!
# Phrasebook.Proofs.Store.Removal

What a file leaves behind in a store when its part is taken away: nothing.

The two runs that are compared differ by all the changes to one file. Step by step, their stores have
the same parts up to those of the file (`parts_run_filter`), and a store is determined by its parts
(`run_eq_of_parts`). So taking the file away at the end is the same as never having known it, and a
part without phrases in its place says as little (`run_forgets_file`).
-/

namespace Phrasebook.Store

/-- A change is about the part of a file. A reset is about no file of its own. -/
def Change.concerns (file : String) : Change → Bool
  | .merge _ _ _ sourceFile => sourceFile = some file
  | .remove other => other = file
  | .reset => false

/-- The parts that do not come from a file. -/
def partsBut (file : String) (parts : List Part) : List Part :=
  parts.filter fun part => part.sourceFile ≠ some file

/-! ### The parts of other files -/

theorem partsBut_register_of_same {file : String} {part : Part}
    (named : part.sourceFile = some file) (parts : List Part) :
    partsBut file (register part parts) = partsBut file parts := by
  refine filter_register_of_dropped (by simp [named]) fun other _ own source same => ?_
  simp [same, ← source, named]

/-- Registering a part of another file can be done before or after leaving the file out. -/
theorem partsBut_register_of_other {file : String} {part : Part}
    (differs : part.sourceFile ≠ some file) (parts : List Part) :
    partsBut file (register part parts) = register part (partsBut file parts) := by
  induction parts with
  | nil => simp [register, partsBut, differs]
  | cons other rest ih =>
    rw [register]
    by_cases same : other.sourceFile = some file
    · -- The new part is not meant for the place of this one, which is left out on both sides.
      have passed : (part.sourceFile.any fun own => isFrom own other) = false := by
        cases source : part.sourceFile with
        | none => rfl
        | some own =>
          have unlike : file ≠ own := fun equal => differs (equal ▸ source)
          simp [isFrom, same, unlike]
      simpa [passed, partsBut, same] using ih
    · by_cases replaced : part.sourceFile.any fun own => isFrom own other
      · simp [partsBut, register, replaced, same, differs]
      · simpa [partsBut, register, replaced, same] using ih

theorem partsBut_of_onePartPerFile {file : String} {parts : List Part}
    (single : OnePartPerFile parts) : OnePartPerFile (partsBut file parts) :=
  single.filter _

/-- A change of the file leaves the parts of others as they are. -/
theorem partsBut_apply_of_concerns {file : String} {change : Change}
    (concerns : change.concerns file) {store : Store} (single : OnePartPerFile store.parts) :
    partsBut file (store.apply change).parts = partsBut file store.parts := by
  cases change with
  | merge phrases distinct document sourceFile =>
    have named : sourceFile = some file := of_decide_eq_true concerns
    exact partsBut_register_of_same named store.parts
  | remove other =>
    cases of_decide_eq_true concerns
    rw [parts_apply_remove store file single]
    simp [partsBut]
  | reset => cases concerns

/-- A change of anything else does the same with and without the part of the file. -/
theorem partsBut_apply_of_not_concerns {file : String} {change : Change}
    (aside : ¬ change.concerns file) {store other : Store} (single : OnePartPerFile store.parts)
    (same : other.parts = partsBut file store.parts) :
    (other.apply change).parts = partsBut file (store.apply change).parts := by
  cases change with
  | merge phrases distinct document sourceFile =>
    have differs : sourceFile ≠ some file := fun named => aside (decide_eq_true named)
    exact (congrArg _ same).trans (partsBut_register_of_other differs store.parts).symm
  | remove removed =>
    rw [parts_apply_remove store removed single, parts_apply_remove other removed, same]
    · exact List.filter_comm ..
    · exact same ▸ partsBut_of_onePartPerFile single
  | reset => rfl

/-- Leaving out all changes to a file leaves out its part, and nothing else. -/
theorem parts_run_filter (scope : String) (defaultLocale : Text) (changes : List Change)
    (file : String) :
    (run scope defaultLocale (changes.filter (!·.concerns file))).parts =
      partsBut file (run scope defaultLocale changes).parts := by
  induction changes using List.reverseRecOn with
  | nil => rfl
  | append_singleton changes change ih =>
    have single := onePartPerFile_run scope defaultLocale changes
    rw [List.filter_append, run_concat]
    by_cases concerns : change.concerns file
    · rw [partsBut_apply_of_concerns concerns single, ← ih]
      simp [concerns]
    · rw [← partsBut_apply_of_not_concerns concerns single ih, ← run_concat]
      simp [concerns]

/-! ### A part without phrases -/

theorem eq_of_mem_register {part other : Part} {file : String} (named : part.sourceFile = some file)
    {parts : List Part} (single : OnePartPerFile parts) (member : other ∈ register part parts)
    (same : other.sourceFile = some file) : other = part := by
  induction parts with
  | nil => simpa [register] using member
  | cons first rest ih =>
    obtain ⟨differ, single⟩ := List.pairwise_cons.mp single
    by_cases here : first.sourceFile = some file
    · simp only [register, named, Option.any_some, isFrom, here, decide_true, if_true,
        List.mem_cons] at member
      -- The part of the file is replaced here, and there is no other one.
      exact member.resolve_right fun later => differ other later file here same
    · simp only [register, named, Option.any_some, isFrom, here, decide_false, Bool.false_eq_true,
        if_false, List.mem_cons] at member
      rcases member with rfl | later
      · exact absurd same here
      · exact ih single later

theorem mergeParts_partsBut {file : String} {parts : List Part}
    (bare : ∀ part ∈ parts, part.sourceFile = some file → part.phrases = []) :
    mergeParts (partsBut file parts) = mergeParts parts := by
  induction parts using List.reverseRecOn with
  | nil => rfl
  | append_singleton parts part ih =>
    have before := ih fun other member => bare other (List.mem_append_left _ member)
    rw [mergeParts_concat, ← before]
    by_cases same : part.sourceFile = some file
    · have nothing := bare part (List.mem_append_right _ (List.mem_singleton_self part)) same
      simp [same, nothing, partsBut, Tree.merge]
    · have kept : partsBut file (parts ++ [part]) = partsBut file parts ++ [part] := by
        simp [partsBut, same]
      rw [kept, mergeParts_concat]

/-- Whatever a store has been through, taking the part of a file away leaves it as if nothing had
    ever been done about this file. A part without phrases for the file leaves the phrases of the
    store and their flat view so, down to the order of the keys. -/
theorem run_forgets_file (scope : String) (defaultLocale : Text) (changes : List Change)
    (file : String) :
    let unaware := run scope defaultLocale (changes.filter (!·.concerns file))
    run scope defaultLocale (changes ++ [.remove file]) = unaware ∧
      ∀ distinct document,
        let emptied := run scope defaultLocale
          (changes ++ [.merge [] distinct document (some file)])
        emptied.phrases = unaware.phrases ∧ emptied.lookup = unaware.lookup := by
  intro unaware
  have single := onePartPerFile_run scope defaultLocale changes
  have parts : unaware.parts = partsBut file (run scope defaultLocale changes).parts :=
    parts_run_filter scope defaultLocale changes file
  constructor
  · refine run_eq_of_parts ?_
    rw [run_concat, parts_apply_remove _ file single]
    exact parts.symm
  · intro distinct document emptied
    have made : emptied.parts = register (.ofPhrases [] document (some file))
        (run scope defaultLocale changes).parts :=
      congrArg Store.parts (run_concat scope defaultLocale changes _)
    -- Only the part of the file can have changed, and it has nothing to lay over the others.
    have others : partsBut file emptied.parts = unaware.parts := by
      rw [made, partsBut_register_of_same rfl, parts]
    have bare : ∀ part ∈ emptied.parts, part.sourceFile = some file → part.phrases = [] := by
      intro part member same
      rw [eq_of_mem_register rfl single (made ▸ member) same]
      rfl
    have phrases : emptied.phrases = unaware.phrases := by
      rw [(run_sound ..).phrases_eq, (run_sound ..).phrases_eq, ← mergeParts_partsBut bare, others]
    exact ⟨phrases, by rw [(run_sound ..).lookup_eq, (run_sound ..).lookup_eq, phrases]⟩

end Phrasebook.Store
