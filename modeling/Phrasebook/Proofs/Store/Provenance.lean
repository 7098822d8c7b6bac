import Phrasebook.Proofs.Store.Answer

/-!
# Phrasebook.Proofs.Store.Provenance

Which part the content of the merged phrases comes from.

Parts are laid over one another in their order, and what the merged phrases have at a path was
written by a part that no later part takes it from. A later part takes a leaf away by having
anything at the path or a leaf on the way to it; only the latter makes the place empty.

An entry of the merged table is such a leaf, so it has a part that it comes from
(`run_entry_has_source`). The link goes through paths and not through the tables of the parts: the
spelling that wins in the merged phrases need not be the one that wins in its own part.
-/

namespace Phrasebook.Store

open Phrasebook.Tree (leaf)

/-- What one tree laid over another has from the one or the other, merged parts have from one of
    them. -/
theorem mergeParts_iff (holds takes : Tree → Prop) (nothing : ¬ holds (.branch []))
    (step : ∀ newer older : Tree, newer.Distinct →
      (holds (newer.laidOver older) ↔ holds newer ∨ holds older ∧ ¬ takes newer))
    {parts : List Part} (sound : ∀ part ∈ parts, part.Sound) :
    holds (.branch (mergeParts parts)) ↔
      ∃ earlier part later, parts = earlier ++ part :: later ∧ holds (.branch part.phrases) ∧
        ∀ other ∈ later, ¬ takes (.branch other.phrases) := by
  -- The induction takes parts off at the end, where the newest one lies on top of all others.
  induction parts using List.reverseRecOn with
  | nil =>
    constructor
    · intro held
      exact absurd held nothing
    · rintro ⟨earlier, part, later, whole, _⟩
      simp at whole
  | append_singleton parts last ih =>
    have before : ∀ part ∈ parts, part.Sound := fun part member => sound part (by simp [member])
    have top := step (.branch last.phrases) (.branch (mergeParts parts))
      (sound last (by simp)).distinct
    rw [Tree.laidOver] at top
    rw [mergeParts_concat, top, ih before]
    constructor
    · rintro (written | ⟨⟨earlier, part, later, rfl, written, kept⟩, silent⟩)
      · exact ⟨parts, last, [], rfl, written, by simp⟩
      · refine ⟨earlier, part, later ++ [last], by simp, written, ?_⟩
        intro other member
        rcases List.mem_append.mp member with old | new
        · exact kept other old
        · rw [List.mem_singleton.mp new]
          exact silent
    · rintro ⟨earlier, part, later, whole, written, kept⟩
      -- The part is the last one, or the last one is among those that come after it.
      rcases List.eq_nil_or_concat later with rfl | ⟨init, final, rfl⟩
      · obtain ⟨_, same⟩ := List.append_inj' whole rfl
        cases same
        exact .inl written
      · rw [List.concat_eq_append, ← List.cons_append, ← List.append_assoc] at whole
        obtain ⟨rfl, same⟩ := List.append_inj' whole rfl
        cases same
        refine .inr ⟨⟨earlier, part, init, rfl, written, fun other member => ?_⟩, ?_⟩
        · exact kept other (by simp [member])
        · exact kept last (by simp)

/-- A leaf of merged parts is a leaf of one of them that no later part overrides. -/
theorem at?_mergeParts_leaf_iff {parts : List Part} (sound : ∀ part ∈ parts, part.Sound)
    (path : List Text) (content : Option Text) :
    (Tree.branch (mergeParts parts)).at? path = some (leaf content) ↔
      ∃ earlier part later, parts = earlier ++ part :: later ∧
        (Tree.branch part.phrases).at? path = some (leaf content) ∧
        ∀ other ∈ later, ¬ (Tree.branch other.phrases).Overrides path := by
  refine mergeParts_iff (fun tree => tree.at? path = some (leaf content)) (·.Overrides path)
    ?_ ?_ sound
  · cases path with
    | nil => simp [(Tree.leaf_ne_branch content _).symm]
    | cons key path => simp [Tree.at?_cons, Entries.get?]
  · intro newer older distinct
    exact Tree.at?_laidOver_leaf_iff distinct older path content

/-- Merged parts have something below a key exactly if one of them does and no later part cuts the
    place off. -/
theorem isSome_at?_mergeParts_iff {parts : List Part} (sound : ∀ part ∈ parts, part.Sound)
    (key : Text) (path : List Text) :
    ((Tree.branch (mergeParts parts)).at? (key :: path)).isSome ↔
      ∃ earlier part later, parts = earlier ++ part :: later ∧
        ((Tree.branch part.phrases).at? (key :: path)).isSome ∧
        ∀ other ∈ later, ¬ (Tree.branch other.phrases).CutsOff (key :: path) := by
  refine mergeParts_iff (fun tree => (tree.at? (key :: path)).isSome) (·.CutsOff (key :: path))
    ?_ ?_ sound
  · simp [Tree.at?_cons, Entries.get?]
  · intro newer older distinct
    exact Tree.isSome_at?_laidOver_iff distinct older (key :: path)

/-- A run leaves a leaf at a path exactly if some registered part has that leaf there and no part
    registered after it has anything at the path, or a leaf on the way to it. It leaves anything at
    all at a path exactly if some registered part has something there and no part registered after
    it has a leaf on the way. -/
theorem at?_run_iff (scope : String) (defaultLocale : Text) (changes : List Change) :
    (∀ (path : List Text) (content : Option Text),
      (Tree.branch (run scope defaultLocale changes).phrases).at? path = some (leaf content) ↔
        ∃ earlier part later,
          (run scope defaultLocale changes).parts = earlier ++ part :: later ∧
          (Tree.branch part.phrases).at? path = some (leaf content) ∧
          ∀ other ∈ later, ¬ (Tree.branch other.phrases).Overrides path) ∧
    (∀ (key : Text) (path : List Text),
      ((Tree.branch (run scope defaultLocale changes).phrases).at? (key :: path)).isSome ↔
        ∃ earlier part later,
          (run scope defaultLocale changes).parts = earlier ++ part :: later ∧
          ((Tree.branch part.phrases).at? (key :: path)).isSome ∧
          ∀ other ∈ later, ¬ (Tree.branch other.phrases).CutsOff (key :: path)) := by
  have sound := run_sound scope defaultLocale changes
  rw [sound.phrases_eq]
  exact ⟨at?_mergeParts_leaf_iff sound.parts_sound, isSome_at?_mergeParts_iff sound.parts_sound⟩

/-! ### Where the entries of the table come from -/

/-- What the table of a store has for a key is a phrase of some part, at a path that joins to the
    key, and that part has the key in its own table. -/
theorem Sound.exists_source {store : Store} (sound : store.Sound) {key phrase : Text}
    (found : store.lookup.get? key = some phrase) :
    ∃ part ∈ store.parts, (∃ path, (Tree.branch part.phrases).at? path = some (.text phrase) ∧
      Key.join path = key) ∧ part.lookup.has key := by
  -- From the table to a path of the merged tree, and along the path to a part: the part may have
  -- another phrase for the key in its table, at a spelling that is overridden in the merged tree.
  rw [sound.lookup_eq] at found
  obtain ⟨asked, path, leads, rfl⟩ := Lookup.exists_at?_of_get? sound.distinct found
  rw [sound.phrases_eq] at leads
  obtain ⟨earlier, part, later, whole, written, _⟩ :=
    (at?_mergeParts_leaf_iff sound.parts_sound path (some phrase)).mp leads
  have member : part ∈ store.parts := by simp [whole]
  have own := sound.parts_sound part member
  refine ⟨part, member, ⟨path, written, rfl⟩, ?_⟩
  rw [own.lookup_eq]
  exact Lookup.has_ofBranch_of_at? own.distinct written asked

/-- A key in the table of some part has a part that defines it. -/
theorem isSome_definingPart?_of_has {store : Store} {key locale : Text} (asked : key ≠ [])
    {part : Part} (member : part ∈ store.parts)
    (has : part.lookup.has (Key.join (Key.localeSegments (some key) locale))) :
    (store.definingPart? (some key) locale).isSome := by
  rw [definingPart?, askedKey?_some asked]
  refine List.find?_isSome.mpr ⟨part, member, ?_⟩
  rw [definesKey, has, Bool.true_or]

/-- Whatever a store has been through, every entry of its table is a phrase that some registered
    part has at a path that joins to the key, and the part has the key in its own table. So a key
    that is answered from the table has a part that defines it. -/
theorem run_entry_has_source (scope : String) (defaultLocale : Text) (changes : List Change) :
    let store := run scope defaultLocale changes
    (∀ key phrase, (key, phrase) ∈ store.lookup →
      ∃ part ∈ store.parts, (∃ path, (Tree.branch part.phrases).at? path = some (.text phrase) ∧
        Key.join path = key) ∧ part.lookup.has key) ∧
    ∀ key locale phrase, key ≠ [] →
      store.lookupKey? (Key.join (Key.localeSegments (some key) locale)) = some phrase →
        (store.phrase? (some key) locale).value = some phrase ∧
          (store.definingPart? (some key) locale).isSome := by
  intro store
  have sound : store.Sound := run_sound scope defaultLocale changes
  constructor
  · intro key phrase member
    have distinct : store.lookup.keys.Nodup := sound.lookup_eq ▸ Lookup.nodup_keys_ofBranch _
    exact sound.exists_source ((Entries.get?_eq_some_iff distinct key phrase).mpr member)
  · intro key locale phrase asked found
    obtain ⟨part, member, _, has⟩ := sound.exists_source found
    exact ⟨phrase?_of_entry asked found, isSome_definingPart?_of_has asked member has⟩

/-- A later part takes the flat spelling of a key away, and leaves the nested one, which is not the
    one that the first part has in its own table. -/
theorem run_entry_has_source_of_lesser_spelling :
    let base : Branch :=
      [("en", .branch [("menu.file", .text "File"), ("menu", .branch [("file", .text "Files")])])]
    let changes : List Change :=
      [.merge base (by decide) none (some "base.yml"),
        .merge [("en", .branch [("menu.file", .null)])] (by decide) none (some "more.yml")]
    let store := run "app" "en" changes
    (("en.menu.file", "Files") : Text × Text) ∈ store.lookup ∧
      (∃ part ∈ store.parts, (∃ path,
        (Tree.branch part.phrases).at? path = some (.text "Files") ∧
          Key.join path = "en.menu.file") ∧ part.lookup.has "en.menu.file") ∧
      (Lookup.ofBranch base).get? "en.menu.file" = some (Text.ofString "File") ∧
      (store.phrase? (some "menu.file") "en").value = some (Text.ofString "Files") ∧
      (store.definingPart? (some "menu.file") "en").isSome := by
  intro base changes store
  have member : (("en.menu.file", "Files") : Text × Text) ∈ store.lookup := by decide
  have found : store.lookupKey? (Key.join (Key.localeSegments (some "menu.file") "en")) =
      some (Text.ofString "Files") := by decide
  obtain ⟨sources, answers⟩ := run_entry_has_source "app" "en" changes
  exact ⟨member, sources _ _ member, by decide,
    answers "menu.file" "en" "Files" (by decide) found⟩

end Phrasebook.Store
