import Phrasebook.Proofs.Lookup.Winner
import Phrasebook.Proofs.Store.Run

/-!
# Phrasebook.Proofs.Store.Answer

What a store answers to a key.

The answer is read off the merged phrases by looking at all spellings of the key at once
(`Answers`). It mentions neither the lookup table nor the order in which a walk tries its ways, and
it is the answer that every store gives (`run_phrase?_value_iff`).
-/

namespace Phrasebook.Store

open Phrasebook.Tree (IsPhrase IsBranch)

/-- The answer that a tree gives to the segments of a key. -/
inductive Answers (tree : Tree) (parts : List Text) : Option Text → Prop where
  /-- The phrase at the highest spelling that leads to one. -/
  | phrase {path : List Text} {phrase : Text}
      (highest : Key.Highest (tree.LeadsTo IsPhrase parts) path)
      (leads : tree.at? path = some (.text phrase)) : Answers tree parts (some phrase)
  /-- If no spelling leads to a phrase, the listing of the mapping at the highest one that leads to
      a mapping. -/
  | listing {path : List Text} {entries : List (Text × Tree)}
      (silent : ∀ path, ¬ tree.LeadsTo IsPhrase parts path)
      (highest : Key.Highest (tree.LeadsTo IsBranch parts) path)
      (leads : tree.at? path = some (.branch entries)) :
      Answers tree parts (some (Tree.listing entries))
  /-- If no spelling leads to either, nothing. -/
  | nothing (silent : ∀ path, ¬ tree.LeadsTo IsPhrase parts path)
      (bare : ∀ path, ¬ tree.LeadsTo IsBranch parts path) : Answers tree parts none

/-- A tree gives one answer. -/
theorem Answers.unique {tree : Tree} {parts : List Text} {first second : Option Text}
    (one : Answers tree parts first) (two : Answers tree parts second) : first = second := by
  -- Each way to answer denies that the paths exist that the ways above it answer from.
  cases one with
  | phrase highest leads =>
    cases two with
    | phrase highest' leads' =>
      rw [highest.unique highest', leads'] at leads
      cases leads
      rfl
    | listing silent => exact absurd highest.1 (silent _)
    | nothing silent => exact absurd highest.1 (silent _)
  | listing silent highest leads =>
    cases two with
    | phrase highest' => exact absurd highest'.1 (silent _)
    | listing _ highest' leads' =>
      rw [highest.unique highest', leads'] at leads
      cases leads
      rfl
    | nothing _ bare => exact absurd highest.1 (bare _)
  | nothing silent bare =>
    cases two with
    | phrase highest' => exact absurd highest'.1 (silent _)
    | listing _ highest' => exact absurd highest'.1 (bare _)
    | nothing => rfl

/-- The table is asked before the phrases are walked. -/
theorem phrase?_value (store : Store) {key : Text} (asked : key ≠ []) (locale : Text) :
    (store.phrase? (some key) locale).value =
      (store.lookup.get? (Key.join (Key.localeSegments (some key) locale))).or
        ((Tree.walk (.branch store.phrases) (Key.localeSegments (some key) locale) 0).bind
          textOf?) := by
  rw [phrase?, askedKey?_some asked]
  simp only
  cases store.lookup.get? (Key.join (Key.localeSegments (some key) locale)) <;> rfl

theorem phrase?_of_entry {store : Store} {key locale phrase : Text} (asked : key ≠ [])
    (found : store.lookup.get? (Key.join (Key.localeSegments (some key) locale)) = some phrase) :
    (store.phrase? (some key) locale).value = some phrase := by
  rw [phrase?_value store asked, found, Option.some_or]

/-- Where no spelling leads to a phrase, the answer is what the walk ends at. -/
theorem Answers.of_walk {tree : Tree} {parts : List Text}
    (segments : ∀ part ∈ parts, Key.IsSegment part)
    (silent : ∀ path, ¬ tree.LeadsTo IsPhrase parts path) :
    Answers tree parts ((tree.walk parts 0).bind textOf?) := by
  -- Without phrases, what a walk stops at are the mappings.
  have same (path : List Text) :
      tree.LeadsTo (· ≠ .null) parts path ↔ tree.LeadsTo IsBranch parts path := by
    constructor
    · rintro ⟨spelling, found, leads, present⟩
      cases found with
      | text phrase => exact absurd ⟨spelling, _, leads, phrase, rfl⟩ (silent path)
      | null => exact absurd rfl present
      | branch entries => exact ⟨spelling, _, leads, entries, rfl⟩
    · rintro ⟨spelling, _, leads, entries, rfl⟩
      exact ⟨spelling, _, leads, by simp⟩
  cases walked : tree.walk parts 0 with
  | none =>
    have nowhere := (Tree.walk_eq_none_iff parts tree).mp walked
    exact .nothing silent fun path leads => nowhere path ((same path).mpr leads)
  | some found =>
    obtain ⟨path, highest, leads⟩ := (Tree.walk_eq_some_iff segments tree found).mp walked
    rw [Key.Highest.congr same] at highest
    obtain ⟨_, _, again, entries, rfl⟩ := highest.1
    cases leads.symm.trans again
    exact .listing silent highest leads

/-- A store with its views up to date gives the answer of its phrases. -/
theorem Sound.answers {store : Store} (sound : store.Sound)
    (named : (Tree.branch store.phrases).Named) {key : Text} (asked : key ≠ []) (locale : Text) :
    Answers (.branch store.phrases) (Key.localeSegments (some key) locale)
      (store.phrase? (some key) locale).value := by
  have segments : ∀ part ∈ Key.localeSegments (some key) locale, Key.IsSegment part :=
    fun _ => Key.isSegment_of_mem_localeSegments
  have entry := Lookup.get?_ofBranch_join_iff sound.distinct named segments
  -- An entry of the table is the phrase of the answer; without one, no spelling leads to a phrase.
  rw [phrase?_value store asked, sound.lookup_eq]
  cases found : (Lookup.ofBranch store.phrases).get?
      (Key.join (Key.localeSegments (some key) locale)) with
  | some phrase =>
    obtain ⟨path, highest, leads⟩ := (entry phrase).mp found
    exact .phrase highest leads
  | none =>
    rw [Option.none_or]
    refine .of_walk segments fun path leads => ?_
    have has := Lookup.has_ofBranch_of_leadsTo sound.distinct segments leads
    rw [Entries.has, found] at has
    cases has

/-- Whatever a store has been through, its answer to a key is that of its merged phrases. -/
theorem run_phrase?_value_iff (scope : String) (defaultLocale : Text) (changes : List Change)
    (named : (Tree.branch (run scope defaultLocale changes).phrases).Named) (key locale : Text)
    (asked : key ≠ []) (answer : Option Text) :
    ((run scope defaultLocale changes).phrase? (some key) locale).value = answer ↔
      Answers (.branch (run scope defaultLocale changes).phrases)
        (Key.localeSegments (some key) locale) answer := by
  have given := (run_sound scope defaultLocale changes).answers named asked locale
  constructor
  · rintro rfl
    exact given
  · exact given.unique

/-- A null leaf at a flatter spelling stops nothing, and a mapping answers with a listing only where
    no spelling leads to a phrase. -/
theorem run_phrase?_value_of_two_parts :
    let changes : List Change :=
      [.merge [("en", .branch [("menu.file", .branch [("open", .text "Open"), ("close", .null)]),
          ("menu", .branch [("file", .branch [("close", .text "Close")])])])]
        (by decide) none (some "base.yml"),
      .merge [("en", .branch [("menu", .branch [("file", .branch [("close", .text "Shut")])])])]
        (by decide) none (some "more.yml")]
    let merged := Tree.branch (run "app" "en" changes).phrases
    merged.Named ∧
      Answers merged ["en", "menu", "file", "close"] (some (Text.ofString "Shut")) ∧
      Answers merged ["en", "menu", "file"] (some (Text.ofString "open: Open")) ∧
      Answers merged ["en", "menu", "edit"] none := by
  intro changes merged
  have named : merged.Named := by decide
  refine ⟨named, ?_, ?_, ?_⟩
  · exact (run_phrase?_value_iff "app" "en" changes named "menu.file.close" "en" (by decide)
      _).mp (by decide)
  · exact (run_phrase?_value_iff "app" "en" changes named "menu.file" "en" (by decide)
      _).mp (by decide)
  · exact (run_phrase?_value_iff "app" "en" changes named "menu.edit" "en" (by decide)
      _).mp (by decide)

end Phrasebook.Store
