import Phrasebook.Proofs.Lookup.Winner

/-!
# Phrasebook.Proofs.Lookup.Flat

All of the flat view of a branch, whatever its keys are.

The keys come in the order in which the leaves first join to them, for a key keeps its place when a
later leaf takes it over. Under each key is the phrase of the leaf that wins it, and only one leaf
does (`ofBranch_lists_winners`).
-/

namespace Phrasebook.Lookup

/-! ### Keys -/

/-- Recording a leaf lists its key at the end, if the key is not empty and not there. -/
theorem keys_record (table : Entries Text Spelled) (leaf : List Text × Text) :
    (record table leaf).keys =
      if Key.join leaf.1 = [] ∨ Key.join leaf.1 ∈ table.keys then table.keys
      else table.keys ++ [Key.join leaf.1] := by
  by_cases empty : Key.join leaf.1 = []
  · simp [record, empty]
  · cases held : table.get? (Key.join leaf.1) with
    | none =>
      have new := (Entries.get?_eq_none_iff table _).mp held
      simp [record, empty, held, Entries.keys_insert, new]
    | some spelled =>
      have old : Key.join leaf.1 ∈ table.keys := by
        by_contra absent
        simp [(Entries.get?_eq_none_iff table _).mpr absent] at held
      -- Whether the leaf takes the key over or not, the key keeps its place.
      simp only [record, empty, held, old, if_false, false_or, if_true]
      split
      · rfl
      · rw [Entries.keys_insert, if_pos old]

theorem eraseDups_concat (keys : List Text) (key : Text) :
    (keys ++ [key]).eraseDups =
      if key ∈ keys then keys.eraseDups else keys.eraseDups ++ [key] := by
  rw [List.eraseDups_append]
  by_cases old : key ∈ keys <;> simp [List.removeAll, List.eraseDups_cons, old]

theorem keys_foldl_record (leaves : List (List Text × Text)) :
    Entries.keys (leaves.foldl record []) =
      ((leaves.map fun leaf => Key.join leaf.1).filter (· ≠ [])).eraseDups := by
  induction leaves using List.reverseRecOn with
  | nil => rfl
  | append_singleton leaves leaf ih =>
    rw [List.foldl_concat, keys_record, ih, List.map_append, List.filter_append]
    by_cases empty : Key.join leaf.1 = []
    · simp [empty]
    · have kept : ([leaf].map fun leaf => Key.join leaf.1).filter (· ≠ []) =
          [Key.join leaf.1] := by
        simp [empty]
      rw [kept, eraseDups_concat]
      simp only [empty, false_or, List.mem_eraseDups]

theorem keys_ofBranch (entries : Branch) :
    (ofBranch entries).keys =
      (((Tree.branchLeaves [] entries).map fun leaf => Key.join leaf.1).filter
        (· ≠ [])).eraseDups := by
  rw [← keys_foldl_record]
  simp [ofBranch, Entries.keys]

/-! ### Winners -/

/-- Of two leaves that win a key, neither stands further on than the other. -/
theorem eq_of_wins_both {one two : List Text × Text} {between after after' : List (List Text × Text)}
    {key : Text} (split : one :: after = between ++ two :: after')
    (joins : Key.join one.1 = key) (joins' : Key.join two.1 = key)
    (later : ∀ other ∈ after, Key.join other.1 = key → Key.rank other.1 < Key.rank one.1)
    (earlier : ∀ other ∈ between, Key.join other.1 = key → Key.rank other.1 ≤ Key.rank two.1) :
    one = two := by
  cases between with
  | nil => exact (List.cons.inj split).1
  | cons leaf between =>
    obtain ⟨rfl, rfl⟩ := List.cons.inj split
    have above := later two (by simp) joins'
    have atMost := earlier one (by simp) joins
    exact absurd atMost (not_le.mpr above)

theorem Wins.unique {leaves : List (List Text × Text)} {key : Text} {one two : List Text × Text}
    (first : Wins leaves key one) (second : Wins leaves key two) : one = two := by
  obtain ⟨before, after, rfl, joins, earlier, later⟩ := first
  obtain ⟨before', after', split, joins', earlier', later'⟩ := second
  -- One of the two stands first; the other is among the leaves behind it, or is the same.
  rcases List.append_eq_append_iff.mp split with ⟨between, rfl, rest⟩ | ⟨between, rfl, rest⟩
  · exact eq_of_wins_both rest joins joins' later fun other member =>
      earlier' other (List.mem_append_right _ member)
  · exact (eq_of_wins_both rest joins' joins later' fun other member =>
      earlier other (List.mem_append_right _ member)).symm

/-- The entry of a key is the phrase of the leaf that wins it. -/
theorem get?_ofBranch_eq_some_iff (entries : Branch) (key phrase : Text) :
    (ofBranch entries).get? key = some phrase ↔
      key ≠ [] ∧ ∃ path, Wins (Tree.branchLeaves [] entries) key (path, phrase) := by
  constructor
  · exact exists_wins_of_get?
  · rintro ⟨asked, path, wins⟩
    have has := (has_ofBranch_iff entries key).mpr ⟨asked, _, wins.mem, wins.join_eq⟩
    obtain ⟨held, found⟩ := Option.isSome_iff_exists.mp has
    obtain ⟨_, other, otherWins⟩ := exists_wins_of_get? found
    cases otherWins.unique wins
    exact found

/-- The flat view lists the keys that the phrases of a branch join to, each once, in the order in
    which they first do; under a key is the phrase of the highest spelling, and of several spellings
    of that rank the last one. -/
theorem ofBranch_lists_winners (entries : Branch) :
    let leaves := (Tree.branchPhrases entries).map fun (path, phrase) =>
      (path.filter (· ≠ []), phrase)
    (ofBranch entries).keys =
        ((leaves.map fun leaf => Key.join leaf.1).filter (· ≠ [])).eraseDups ∧
      ∀ key phrase, (ofBranch entries).get? key = some phrase ↔
        key ≠ [] ∧ ∃ path, Wins leaves key (path, phrase) := by
  intro leaves
  have listed : leaves = Tree.branchLeaves [] entries :=
    (Tree.branchLeaves_eq_map [] entries).symm
  rw [listed]
  exact ⟨keys_ofBranch entries, get?_ofBranch_eq_some_iff entries⟩

/-- A flatter spelling takes a key over and leaves it in its place; of two spellings of one rank the
    later one stays. -/
example :
    ofBranch [("en", .branch [("a", .branch [("b", .text "1")]), ("c", .text "2"),
      ("a.b", .text "3"), ([], .branch [("c", .text "4")])])] =
      ([("en.a.b", "3"), ("en.c", "4")] : Lookup) := by decide

end Phrasebook.Lookup
