import Mathlib.Data.List.Find
import Phrasebook.Proofs.Lookup.Winner
import Phrasebook.Proofs.Store.Run

/-!
# Phrasebook.Proofs.Store.Lookup

The lookup table beside a walk through the phrases.

A walk stops at the highest spelling that leads to a phrase or a mapping, the table holds the phrase
at the highest spelling that leads to a phrase. So they can only differ where a mapping is spelled
higher than every phrase, and a part that a walk finds a phrase in has an entry for it anyway.
-/

namespace Phrasebook.Store

variable {entries : Branch} {parts : List Text}

/-- A key at whose end the walk finds a phrase is in the table. -/
theorem has_of_walk (distinct : (Tree.branch entries).Distinct)
    (segments : ∀ part ∈ parts, Key.IsSegment part) {phrase : Text}
    (walked : (Tree.branch entries).walk parts 0 = some (.text phrase)) :
    (Lookup.ofBranch entries).has (Key.join parts) := by
  obtain ⟨path, highest, leads⟩ := (Tree.walk_eq_some_iff segments _ _).mp walked
  exact Lookup.has_ofBranch_of_leadsTo distinct segments ⟨highest.1.1, _, leads, phrase, rfl⟩

/-- The table of a part alone tells whether the part defines a key. -/
theorem definesKey_eq_has (segments : ∀ part ∈ parts, Key.IsSegment part) {part : Part}
    (sound : part.Sound) : definesKey parts part = part.lookup.has (Key.join parts) := by
  rw [definesKey, sound.lookup_eq]
  -- The second question is only asked when the table has no entry, and then it fails.
  cases walked : Tree.walk (.branch part.phrases) parts 0 with
  | none => simp
  | some reached =>
    cases reached with
    | text phrase => simp [has_of_walk sound.distinct segments walked]
    | null => simp
    | branch inner => simp

section Named

variable (distinct : (Tree.branch entries).Distinct) (named : (Tree.branch entries).Named)
  (segments : ∀ part ∈ parts, Key.IsSegment part)

include distinct named segments

/-- A phrase that a walk finds is the one in the table. -/
theorem get?_of_walk {phrase : Text}
    (walked : (Tree.branch entries).walk parts 0 = some (.text phrase)) :
    (Lookup.ofBranch entries).get? (Key.join parts) = some phrase := by
  obtain ⟨path, highest, leads⟩ := (Tree.walk_eq_some_iff segments _ _).mp walked
  rw [Lookup.get?_ofBranch_join_iff distinct named segments]
  refine ⟨path, ⟨⟨highest.1.1, _, leads, phrase, rfl⟩, ?_⟩, leads⟩
  -- What leads to a phrase leads to something, so nothing higher can be among the phrases.
  rintro other ⟨spelling, _, otherLeads, held, rfl⟩ differ
  exact highest.2 other ⟨spelling, _, otherLeads, by simp⟩ differ

/-- Where the table has a phrase, a walk finds it, or a mapping that is spelled higher. -/
theorem walk_of_get? {phrase : Text}
    (found : (Lookup.ofBranch entries).get? (Key.join parts) = some phrase) :
    (Tree.branch entries).walk parts 0 = some (.text phrase) ∨
      ∃ inner, (Tree.branch entries).walk parts 0 = some (.branch inner) := by
  obtain ⟨path, highest, leads⟩ :=
    (Lookup.get?_ofBranch_join_iff distinct named segments phrase).mp found
  cases walked : (Tree.branch entries).walk parts 0 with
  | none =>
    have nowhere := (Tree.walk_eq_none_iff parts _).mp walked path
    exact absurd ⟨highest.1.1, _, leads, by simp⟩ nowhere
  | some reached =>
    cases reached with
    | text held =>
      have same := get?_of_walk distinct named segments walked
      exact .inl (by rw [Option.some.inj (same.symm.trans found)])
    -- The walk does not end at a null leaf.
    | null =>
      obtain ⟨_, ⟨⟨_, _, leads, present⟩, _⟩, again⟩ :=
        (Tree.walk_eq_some_iff segments _ _).mp walked
      exact absurd (Option.some.inj (leads.symm.trans again)) present
    | branch inner => exact .inr ⟨inner, rfl⟩

end Named

/-- A phrase that a walk finds is in the table, and a phrase in the table is found by a walk unless
    that stops at a mapping. Therefore the part that defines a key is the first one whose table has
    the key. -/
theorem lookup_agrees_with_walk :
    (∀ (entries : Branch) (parts : List Text), (Tree.branch entries).Distinct →
      (Tree.branch entries).Named → (∀ part ∈ parts, Key.IsSegment part) → ∀ phrase,
        ((Tree.branch entries).walk parts 0 = some (.text phrase) →
          (Lookup.ofBranch entries).get? (Key.join parts) = some phrase) ∧
        ((Lookup.ofBranch entries).get? (Key.join parts) = some phrase →
          (Tree.branch entries).walk parts 0 = some (.text phrase) ∨
            ∃ inner, (Tree.branch entries).walk parts 0 = some (.branch inner))) ∧
    (∀ (store : Store) (key : Option Text) (locale : Text), (∀ part ∈ store.parts, part.Sound) →
      store.definingPart? key locale =
        (askedKey? key).bind fun key => store.parts.find? fun part =>
          part.lookup.has (Key.join (Key.localeSegments (some key) locale))) := by
  constructor
  · intro entries parts distinct named segments phrase
    exact ⟨get?_of_walk distinct named segments, walk_of_get? distinct named segments⟩
  · intro store key locale sound
    rw [definingPart?]
    cases askedKey? key with
    | none => rfl
    | some asked =>
      have segments : ∀ text ∈ Key.localeSegments (some asked) locale, Key.IsSegment text :=
        fun _ => Key.isSegment_of_mem_localeSegments
      exact List.find?_congr fun part member => definesKey_eq_has segments (sound part member)

/-- A mapping that is spelled flatter stops a walk, and hides nothing from the table. -/
theorem lookup_agrees_with_walk_behind_mapping :
    let entries : Branch :=
      [("a.b", .branch [("c", .text "inner")]), ("a", .branch [("b", .text "outer")])]
    let store := (empty "scope").withParts [.ofPhrases entries none none]
    (Tree.branch entries).walk ["a", "b", "c"] 0 = some (.text "inner") ∧
      (Lookup.ofBranch entries).get? (Key.join ["a", "b", "c"]) = some (Text.ofString "inner") ∧
      (Lookup.ofBranch entries).get? (Key.join ["a", "b"]) = some (Text.ofString "outer") ∧
      (∃ inner, (Tree.branch entries).walk ["a", "b"] 0 = some (.branch inner)) ∧
      store.definingPart? (some "b") "a" = some (.ofPhrases entries none none) := by
  intro entries store
  have distinct : (Tree.branch entries).Distinct := by decide
  have named : (Tree.branch entries).Named := by decide
  have outer := lookup_agrees_with_walk.1 entries ["a", "b"] distinct named (by decide) "outer"
  have inner := lookup_agrees_with_walk.1 entries ["a", "b", "c"] distinct named (by decide) "inner"
  have found : (Lookup.ofBranch entries).get? (Key.join ["a", "b"]) =
      some (Text.ofString "outer") := by decide
  refine ⟨rfl, inner.1 rfl, found, ?_, ?_⟩
  · rcases outer.2 found with walked | walked
    · cases walked
    · exact walked
  · have sound : ∀ part ∈ store.parts, part.Sound := by
      rintro part (_ | ⟨_, none⟩)
      · exact ⟨distinct, rfl⟩
      · cases none
    rw [lookup_agrees_with_walk.2 store (some "b") "a" sound]
    rfl

end Phrasebook.Store
