import Phrasebook.Proofs.Store.Answer
import Phrasebook.Proofs.Store.History
import Phrasebook.Proofs.Store.Provenance

/-!
# Phrasebook.Proofs.Store.Arrangement

When the order in which parts are registered does not matter.

Parts are laid over one another in their order, so a later one wins where two of them disagree.
Trees that never meet at a leaf do not disagree: whichever comes first, the merged phrases have the
same leaves (`at?_mergeParts_of_compatible`). Two files may still spell one key differently, and then it
is the spelling that decides and not the file. What is left of the order are the places of the keys
(`run_arrangement`).
-/

namespace Phrasebook

namespace Tree

/-- Two trees are compatible if at no path one of them has a leaf and the other has anything. -/
def Compatible (one other : Tree) : Prop :=
  ∀ path content, (one.at? path = some (leaf content) → other.at? path = none) ∧
    (other.at? path = some (leaf content) → one.at? path = none)

theorem Compatible.symm {one other : Tree} (compatible : one.Compatible other) :
    other.Compatible one :=
  fun path content => (compatible path content).symm

theorem at?_append (tree : Tree) (start rest : List Text) :
    tree.at? (start ++ rest) = (tree.at? start).bind fun found => found.at? rest := by
  induction start generalizing tree with
  | nil => rfl
  | cons key start ih =>
    rw [List.cons_append, at?_cons, at?_cons, Option.bind_assoc]
    exact Option.bind_congr fun child _ => ih child

/-- Where one of two compatible trees has a leaf, the other one takes nothing away. -/
theorem Compatible.not_overrides {one other : Tree} (compatible : one.Compatible other)
    {path : List Text} {content : Option Text} (leads : one.at? path = some (leaf content)) :
    ¬ other.Overrides path := by
  rintro (⟨value, there⟩ | ⟨start, held, before, _, cut⟩)
  · cases ((compatible path content).1 leads).symm.trans there
  · -- A leaf on the way stands where the first tree goes on.
    obtain ⟨rest, rfl⟩ := before
    rw [at?_append, (compatible start held).2 cut] at leads
    cases leads

mutual

/-- Whether two trees meet in mappings only. -/
def meetInBranches : Tree → Tree → Bool
  | .branch entries, .branch others => entriesMeetInBranches entries others
  | _, _ => false

/-- Whether some entries meet those of a branch in mappings only. -/
def entriesMeetInBranches : List (Text × Tree) → Branch → Bool
  | [], _ => true
  | (key, value) :: rest, others =>
    (others.get? key).all (meetInBranches value) && entriesMeetInBranches rest others

end

mutual

theorem compatible_of_meetInBranches : (one other : Tree) → meetInBranches one other →
    one.Compatible other
  | .branch entries, .branch others, meet => by
    rw [meetInBranches] at meet
    rintro (_ | ⟨key, path⟩) content
    · simp [(leaf_ne_branch content _).symm]
    · rw [at?_cons, at?_cons, child?_branch, child?_branch]
      cases inside : Entries.get? entries key with
      | none => simp
      | some child =>
        cases there : Entries.get? others key with
        | none => simp
        | some partner =>
          exact compatible_of_entriesMeetInBranches entries others meet _
            (Entries.mem_of_get? inside) partner there path content
  -- A leaf meets nothing.
  | .branch _, .text _, meet => by simp [meetInBranches] at meet
  | .branch _, .null, meet => by simp [meetInBranches] at meet
  | .text _, _, meet => by simp [meetInBranches] at meet
  | .null, _, meet => by simp [meetInBranches] at meet

theorem compatible_of_entriesMeetInBranches : (entries : List (Text × Tree)) → (others : Branch) →
    entriesMeetInBranches entries others → ∀ entry ∈ entries, ∀ partner,
      others.get? entry.1 = some partner → entry.2.Compatible partner
  | [], _, _ => by simp
  | (key, value) :: rest, others, meet => by
    rw [entriesMeetInBranches, Bool.and_eq_true] at meet
    intro entry member partner there
    rcases List.mem_cons.mp member with rfl | later
    · rw [there] at meet
      exact compatible_of_meetInBranches value partner meet.1
    · exact compatible_of_entriesMeetInBranches rest others meet.2 entry later partner there

end

end Tree

namespace Store

open Phrasebook.Tree (leaf)

/-! ### Parts that only add to one another -/

/-- Parts without a common file, whose trees are compatible and have tidy keys. -/
structure Arrangeable (parts : List Part) : Prop where
  single : OnePartPerFile parts
  compatible : parts.Pairwise fun one other =>
    (Tree.branch one.phrases).Compatible (.branch other.phrases)
  tidy : ∀ part ∈ parts, (Tree.branch part.phrases).Tidy

theorem OnePartPerFile.perm {parts others : List Part} (single : OnePartPerFile parts)
    (same : parts.Perm others) : OnePartPerFile others :=
  (same.pairwise_iff fun differ file named equal => differ file equal named).mp single

theorem Arrangeable.perm {parts others : List Part} (arrangeable : Arrangeable parts)
    (same : parts.Perm others) : Arrangeable others := by
  refine ⟨arrangeable.single.perm same, ?_, fun part member => ?_⟩
  · exact (same.pairwise_iff fun compatible => compatible.symm).mp arrangeable.compatible
  · exact arrangeable.tidy part (same.mem_iff.mpr member)

/-- A leaf of the merged tree of compatible parts is a leaf of one of them, and the other way
    round. -/
theorem at?_mergeParts_of_compatible {parts : List Part} (sound : ∀ part ∈ parts, part.Sound)
    (compatible : parts.Pairwise fun one other =>
      (Tree.branch one.phrases).Compatible (.branch other.phrases))
    (path : List Text) (content : Option Text) :
    (Tree.branch (mergeParts parts)).at? path = some (leaf content) ↔
      ∃ part ∈ parts, (Tree.branch part.phrases).at? path = some (leaf content) := by
  rw [at?_mergeParts_leaf_iff sound]
  constructor
  · rintro ⟨earlier, part, later, rfl, leads, _⟩
    exact ⟨part, by simp, leads⟩
  · rintro ⟨part, member, leads⟩
    obtain ⟨earlier, later, rfl⟩ := List.append_of_mem member
    refine ⟨earlier, part, later, rfl, leads, fun other behind => ?_⟩
    have together := (List.pairwise_cons.mp (List.pairwise_append.mp compatible).2.1).1 other behind
    exact together.not_overrides leads

theorem tidy_mergeParts {parts : List Part}
    (tidy : ∀ part ∈ parts, (Tree.branch part.phrases).Tidy) :
    (Tree.branch (mergeParts parts)).Tidy :=
  everyBranch_mergeParts (Tree.extensible_forall _) (by simp) tidy

/-- Arrangeable parts have one flat view, whatever their order. -/
theorem Arrangeable.get?_mergeParts {parts others : List Part} (arrangeable : Arrangeable parts)
    (sound : ∀ part ∈ parts, part.Sound) (same : parts.Perm others) (key : Text) :
    (Lookup.ofBranch (mergeParts parts)).get? key =
      (Lookup.ofBranch (mergeParts others)).get? key := by
  have sound' : ∀ part ∈ others, part.Sound := fun part member =>
    sound part (same.mem_iff.mpr member)
  have arrangeable' := arrangeable.perm same
  refine Lookup.get?_ofBranch_congr (distinct_mergeParts sound) (tidy_mergeParts arrangeable.tidy)
    (distinct_mergeParts sound') (tidy_mergeParts arrangeable'.tidy) (fun path phrase => ?_) key
  have here := at?_mergeParts_of_compatible sound arrangeable.compatible path (some phrase)
  have there := at?_mergeParts_of_compatible sound' arrangeable'.compatible path (some phrase)
  rw [leaf] at here there
  simp only [here, there, same.mem_iff]

/-! ### Runs that only register -/

/-- Where no file comes twice, parts are kept in the order in which they are registered. -/
theorem parts_run_of_registering (scope : String) (defaultLocale : Text) {changes : List Change}
    (registering : ∀ change ∈ changes, change.part?.isSome)
    (single : OnePartPerFile (changes.filterMap Change.part?)) :
    (run scope defaultLocale changes).parts = changes.filterMap Change.part? := by
  induction changes using List.reverseRecOn with
  | nil => rfl
  | append_singleton changes change ih =>
    rw [List.filterMap_append] at single
    obtain ⟨before, -, apart⟩ := List.pairwise_append.mp single
    have parts := ih (fun other member => registering other (by simp [member])) before
    rw [run_concat, List.filterMap_append]
    cases change with
    | merge phrases distinct document sourceFile =>
      rw [apply_merge, withParts, parts]
      -- The files of the parts before are other ones, so nothing is replaced.
      refine register_of_new fun other member file named same => ?_
      exact apart other member _ (by simp [Change.part?]) file same named
    | remove file => simpa [Change.part?] using registering (.remove file) (by simp)
    | reset => simpa [Change.part?] using registering .reset (by simp)

/-- Parts of different files, or of none, whose trees are compatible and have tidy keys, may be
    registered in any order: the flat view has the same entries, in another order perhaps, and a key
    that it answers in one store has the same answer in the other. -/
theorem run_arrangement (scope : String) (defaultLocale : Text) {changes others : List Change}
    (registering : ∀ change ∈ changes, change.part?.isSome)
    (arrangeable : Arrangeable (changes.filterMap Change.part?)) (same : changes.Perm others) :
    let one := run scope defaultLocale changes
    let other := run scope defaultLocale others
    one.lookup.Perm other.lookup ∧ (∀ key, one.lookupKey? key = other.lookupKey? key) ∧
      ∀ key locale phrase, key ≠ [] →
        one.lookupKey? (Key.join (Key.localeSegments (some key) locale)) = some phrase →
          (one.phrase? (some key) locale).value = some phrase ∧
            (other.phrase? (some key) locale).value = some phrase := by
  intro one other
  have sameParts := same.filterMap Change.part?
  have parts : one.parts = changes.filterMap Change.part? :=
    parts_run_of_registering scope defaultLocale registering arrangeable.single
  have parts' : other.parts = others.filterMap Change.part? :=
    parts_run_of_registering scope defaultLocale
      (fun change member => registering change (same.mem_iff.mpr member))
      (arrangeable.single.perm sameParts)
  have sound := run_sound scope defaultLocale changes
  have sound' := run_sound scope defaultLocale others
  -- Both flat views are those of their parts, and the parts are the same up to their order.
  have alike : ∀ key, one.lookup.get? key = other.lookup.get? key := by
    intro key
    rw [sound.lookup_eq, sound'.lookup_eq, sound.phrases_eq, sound'.phrases_eq, parts, parts']
    exact arrangeable.get?_mergeParts (parts ▸ sound.parts_sound) sameParts key
  refine ⟨Entries.perm_of_get? ?_ ?_ alike, alike, fun key locale phrase asked found => ?_⟩
  · exact sound.lookup_eq ▸ Lookup.nodup_keys_ofBranch _
  · exact sound'.lookup_eq ▸ Lookup.nodup_keys_ofBranch _
  · exact ⟨phrase?_of_entry asked found, phrase?_of_entry asked ((alike _).symm.trans found)⟩

/-- Two files and a fragment spell the same key in three ways. -/
theorem run_arrangement_of_three_spellings :
    let nested : Change := .merge
      [("en", .branch [("menu", .branch
        [("file", .branch [("open", .text "Open"), ("new", .null)])])])]
      (by decide) none (some "nested.yml")
    let flat : Change := .merge
      [("en", .branch [("menu.file", .branch [("open", .text "Open file")])])]
      (by decide) none (some "flat.yml")
    let fragment : Change := .merge
      [("en", .branch [("menu", .branch [("file.open", .text "Open a file")])])]
      (by decide) none none
    let one := run "app" "en" [nested, flat, fragment]
    let other := run "app" "en" [fragment, nested, flat]
    one.lookup.Perm other.lookup ∧
      (one.phrase? (some "menu.file.open") "en").value = some (Text.ofString "Open file") ∧
      (other.phrase? (some "menu.file.open") "en").value = some (Text.ofString "Open file") := by
  intro nested flat fragment one other
  have meet : ([nested, flat, fragment].filterMap Change.part?).Pairwise fun one other =>
      (Tree.branch one.phrases).meetInBranches (.branch other.phrases) := by decide
  have arrangeable : Arrangeable ([nested, flat, fragment].filterMap Change.part?) := by
    refine ⟨?_, meet.imp (Tree.compatible_of_meetInBranches _ _), by decide⟩
    simp [OnePartPerFile, nested, flat, fragment, Change.part?, Part.ofPhrases]
  -- The fragment comes first instead of last.
  have same : ([nested, flat] ++ [fragment]).Perm ([fragment] ++ [nested, flat]) :=
    List.perm_append_comm
  obtain ⟨entries, -, answers⟩ := run_arrangement "app" "en" (by decide) arrangeable same
  exact ⟨entries, answers "menu.file.open" "en" "Open file" (by decide) (by decide)⟩

end Store

end Phrasebook
