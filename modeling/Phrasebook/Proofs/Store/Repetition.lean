import Phrasebook.Proofs.Store.Registration
import Phrasebook.Proofs.Tree.Regrouping

/-!
# Phrasebook.Proofs.Store.Repetition

What happens when the same part is registered twice in a row.

A part of a file takes the place of the part that has just been registered for this file, which is
the same one, so nothing happens at all. A fragment is registered a second time; but the phrases that
it is laid over then have all of its own on top already, and stay as they are (`run_merge_twice`).
-/

namespace Phrasebook.Store

theorem register_register {part : Part} {file : String} (named : part.sourceFile = some file)
    (parts : List Part) : register part (register part parts) = register part parts := by
  have found : (register part parts).find? (isFrom file) = some part := by
    rw [find?_register named, if_pos rfl]
  exact register_of_find? named found

theorem register_fragment {part : Part} (bare : part.sourceFile = none) (parts : List Part) :
    register part parts = parts ++ [part] :=
  register_of_new fun other _ file named => by simp [bare] at named

/-- A part that is registered twice in a row leaves the phrases and the flat view that it leaves when
    it is registered once. A part of a file leaves the very same store; a fragment is there twice. -/
theorem run_merge_twice (scope : String) (defaultLocale : Text) (changes : List Change)
    {phrases : Branch} (distinct : (Tree.branch phrases).Distinct) (document : Option Document)
    (sourceFile : Option String) :
    let change : Change := .merge phrases distinct document sourceFile
    let once := (run scope defaultLocale changes).apply change
    let twice := once.apply change
    twice.phrases = once.phrases ∧ twice.lookup = once.lookup ∧
      (sourceFile.isSome → twice = once) ∧
      (sourceFile.isNone → twice.parts = once.parts ++ [.ofPhrases phrases document none]) := by
  intro change once twice
  have sound : (run scope defaultLocale changes).Sound := run_sound scope defaultLocale changes
  cases sourceFile with
  | some file =>
    -- The second part takes the place of the first one, which is the same.
    have same : twice = once := by
      change Store.withParts _ (register _ (register _ _)) = Store.withParts _ (register _ _)
      rw [register_register rfl]
      rfl
    exact ⟨by rw [same], by rw [same], fun _ => same, nofun⟩
  | none =>
    have parts : once.parts =
        (run scope defaultLocale changes).parts ++ [.ofPhrases phrases document none] :=
      register_fragment rfl _
    have parts' : twice.parts = once.parts ++ [.ofPhrases phrases document none] :=
      register_fragment rfl _
    -- A fragment comes last, and a tree that is merged twice in a row is merged once.
    have same : twice.phrases = once.phrases := by
      rw [((sound.apply change).apply change).phrases_eq, (sound.apply change).phrases_eq]
      change mergeParts twice.parts = mergeParts once.parts
      rw [parts', parts, mergeParts_concat, mergeParts_concat]
      exact Tree.merge_merge (distinct_mergeParts sound.parts_sound) distinct
    refine ⟨same, ?_, nofun, fun _ => parts'⟩
    rw [((sound.apply change).apply change).lookup_eq, (sound.apply change).lookup_eq]
    exact congrArg Lookup.ofBranch same

/-- A fragment makes a mapping of a phrase and a phrase of a mapping, and is registered again. -/
theorem run_merge_twice_of_fragment :
    let base : Change := .merge
      [("en", .branch [("a", .text "1"), ("b", .branch [("c", .text "2")])])] (by decide) none
      (some "base.yml")
    let phrases : Branch :=
      [("fr", .null), ("en", .branch [("b", .text "3"), ("a", .branch [("d", .null)])])]
    let fragment : Change := .merge phrases (by decide) none none
    let once := (run "app" "en" [base]).apply fragment
    let twice := once.apply fragment
    (Tree.branch phrases).Distinct ∧ twice.phrases = once.phrases ∧ twice.lookup = once.lookup ∧
      twice.parts = once.parts ++ [.ofPhrases phrases none none] := by
  intro base phrases fragment once twice
  have distinct : (Tree.branch phrases).Distinct := by decide
  obtain ⟨same, sameLookup, -, again⟩ := run_merge_twice "app" "en" [base] distinct none none
  exact ⟨distinct, same, sameLookup, again rfl⟩

end Phrasebook.Store
