import Mathlib.Data.List.Induction
import Phrasebook.Proofs.Tree.Path

/-!
# Phrasebook.Proofs.Lookup.Winner

Which leaf the entry of a key comes from.

Leaves are recorded one after the other. After every one of them the table holds, for each key, the
leaf of greatest rank among those that have joined to the key so far, and of several with that rank
the last one (`holds_foldl_record`). Where a key comes apart into segments and no branch has an
empty key, the entry is the phrase at the highest spelling that leads to one
(`get?_ofBranch_join_iff`).
-/

namespace Phrasebook.Lookup

/-- The leaf that wins a key: of the leaves that join to the key, the last one with the greatest
    rank. -/
def Wins (leaves : List (List Text × Text)) (key : Text) (leaf : List Text × Text) : Prop :=
  ∃ before after, leaves = before ++ leaf :: after ∧ Key.join leaf.1 = key ∧
    (∀ other ∈ before, Key.join other.1 = key → Key.rank other.1 ≤ Key.rank leaf.1) ∧
    (∀ other ∈ after, Key.join other.1 = key → Key.rank other.1 < Key.rank leaf.1)

/-- What a table that some leaves were recorded in holds under a key. -/
inductive Holds (leaves : List (List Text × Text)) (key : Text) : Option Spelled → Prop where
  | nothing (absent : key = [] ∨ ∀ leaf ∈ leaves, Key.join leaf.1 ≠ key) : Holds leaves key none
  | winner {leaf : List Text × Text} (asked : key ≠ []) (wins : Wins leaves key leaf) :
    Holds leaves key (some ⟨Key.rank leaf.1, leaf.2⟩)

namespace Wins

variable {leaves : List (List Text × Text)} {key : Text} {leaf other : List Text × Text}

theorem mem (wins : Wins leaves key leaf) : leaf ∈ leaves := by
  obtain ⟨before, after, rfl, _⟩ := wins
  simp

theorem join_eq (wins : Wins leaves key leaf) : Key.join leaf.1 = key := by
  obtain ⟨_, _, _, joins, _⟩ := wins
  exact joins

theorem rank_le (wins : Wins leaves key leaf) (member : other ∈ leaves)
    (joins : Key.join other.1 = key) : Key.rank other.1 ≤ Key.rank leaf.1 := by
  obtain ⟨before, after, rfl, _, earlier, later⟩ := wins
  rcases List.mem_append.mp member with front | back
  · exact earlier other front joins
  · rcases List.mem_cons.mp back with rfl | behind
    · exact le_refl _
    · exact le_of_lt (later other behind joins)

/-- A leaf of another key, or of a lower rank, takes nothing from the winner. -/
theorem append_of_lt (wins : Wins leaves key leaf)
    (lower : Key.join other.1 = key → Key.rank other.1 < Key.rank leaf.1) :
    Wins (leaves ++ [other]) key leaf := by
  obtain ⟨before, after, rfl, joins, earlier, later⟩ := wins
  refine ⟨before, after ++ [other], by simp, joins, earlier, ?_⟩
  intro third member
  rcases List.mem_append.mp member with old | new
  · exact later third old
  · rw [List.mem_singleton.mp new]
    exact lower

/-- A leaf that no earlier one outranks wins its key. -/
theorem append_self (joins : Key.join other.1 = key)
    (highest : ∀ leaf ∈ leaves, Key.join leaf.1 = key → Key.rank leaf.1 ≤ Key.rank other.1) :
    Wins (leaves ++ [other]) key other :=
  ⟨leaves, [], rfl, joins, highest, by simp⟩

end Wins

/-! ### Recording leaves -/

theorem get?_record_of_ne (table : Entries Text Spelled) (leaf : List Text × Text) {key : Text}
    (differ : key ≠ Key.join leaf.1) : (record table leaf).get? key = table.get? key := by
  simp only [record]
  split
  · rfl
  · split
    · split
      · rfl
      · exact Entries.get?_insert_of_ne table _ differ
    · exact Entries.get?_insert_of_ne table _ differ

/-- A leaf that is recorded takes its key unless a leaf of greater rank holds it. -/
theorem get?_record_self (table : Entries Text Spelled) (leaf : List Text × Text)
    (asked : Key.join leaf.1 ≠ []) :
    (record table leaf).get? (Key.join leaf.1) =
      match table.get? (Key.join leaf.1) with
      | some held =>
        if Key.rank leaf.1 < held.rank then some held else some ⟨Key.rank leaf.1, leaf.2⟩
      | none => some ⟨Key.rank leaf.1, leaf.2⟩ := by
  simp only [record, if_neg asked]
  cases held : table.get? (Key.join leaf.1) with
  | none => exact Entries.get?_insert_self table _ _
  | some spelled =>
    by_cases lower : Key.rank leaf.1 < spelled.rank
    · simp only [if_pos lower, held]
    · simp only [if_neg lower]
      exact Entries.get?_insert_self table _ _

/-- Recording one more leaf leaves every key with its winner. -/
theorem Holds.record {leaves : List (List Text × Text)} {table : Entries Text Spelled}
    {key : Text} (holds : Holds leaves key (table.get? key)) (leaf : List Text × Text) :
    Holds (leaves ++ [leaf]) key ((record table leaf).get? key) := by
  -- Only the entry of the leaf's own key is touched, and that only if the key is not empty.
  by_cases same : Key.join leaf.1 = key
  · by_cases asked : key = []
    · have unchanged : Lookup.record table leaf = table := by
        simp [Lookup.record, same, asked]
      rw [unchanged]
      generalize table.get? key = held at holds ⊢
      cases holds with
      | nothing _ => exact .nothing (.inl asked)
      | winner named _ => exact absurd asked named
    · subst same
      rw [get?_record_self table leaf asked]
      generalize table.get? (Key.join leaf.1) = held at holds
      cases holds with
      | nothing absent =>
        have first := absent.resolve_left asked
        exact .winner asked (.append_self rfl fun other member joins =>
          absurd joins (first other member))
      | @winner held _ wins =>
        by_cases lower : Key.rank leaf.1 < Key.rank held.1
        · simp only [if_pos lower]
          exact .winner asked (wins.append_of_lt fun _ => lower)
        · -- The new leaf is not below the winner so far, and so not below any other leaf.
          simp only [if_neg lower]
          exact .winner asked (.append_self rfl fun other member joins =>
            (wins.rank_le member joins).trans (not_lt.mp lower))
  · rw [get?_record_of_ne table leaf (Ne.symm same)]
    generalize table.get? key = held at holds
    cases holds with
    | nothing absent =>
      refine .nothing (absent.imp_right fun first other member => ?_)
      rcases List.mem_append.mp member with old | new
      · exact first other old
      · rw [List.mem_singleton.mp new]
        exact same
    | winner asked wins => exact .winner asked (wins.append_of_lt fun joins => absurd joins same)

/-- After a run over all leaves, every key has its winner. -/
theorem holds_foldl_record (leaves : List (List Text × Text)) (key : Text) :
    Holds leaves key (Entries.get? (leaves.foldl record []) key) := by
  induction leaves using List.reverseRecOn with
  | nil => exact .nothing (.inr (by simp))
  | append_singleton leaves leaf ih =>
    rw [List.foldl_append]
    exact ih.record leaf

theorem get?_record_congr {table other : Entries Text Spelled} {key : Text}
    (same : table.get? key = other.get? key) (leaf : List Text × Text) :
    (record table leaf).get? key = (record other leaf).get? key := by
  by_cases joins : key = Key.join leaf.1
  · by_cases asked : Key.join leaf.1 = []
    · simpa [record, asked] using same
    · subst joins
      rw [get?_record_self table leaf asked, get?_record_self other leaf asked, same]
  · rw [get?_record_of_ne table leaf joins, get?_record_of_ne other leaf joins, same]

/-- Leaves of other keys make no difference to a key. -/
theorem get?_foldl_record_filter (leaves : List (List Text × Text)) (key : Text) :
    Entries.get? (leaves.foldl record []) key =
      Entries.get? ((leaves.filter fun leaf => Key.join leaf.1 = key).foldl record []) key := by
  induction leaves using List.reverseRecOn with
  | nil => rfl
  | append_singleton leaves leaf ih =>
    rw [List.foldl_concat, List.filter_append]
    by_cases joins : Key.join leaf.1 = key
    · rw [List.filter_singleton, decide_eq_true joins, cond_true, List.foldl_concat]
      exact get?_record_congr ih leaf
    · rw [List.filter_singleton, decide_eq_false joins, cond_false, List.append_nil,
        get?_record_of_ne _ leaf (Ne.symm joins), ih]

/-! ### The flat view of a branch -/

theorem get?_ofBranch (entries : Branch) (key : Text) :
    (ofBranch entries).get? key =
      (Entries.get? ((Tree.branchLeaves [] entries).foldl record []) key).map (·.phrase) :=
  Entries.get?_map _ _ key

theorem nodup_keys_foldl_record {table : Entries Text Spelled} (distinct : table.keys.Nodup)
    (leaves : List (List Text × Text)) : (leaves.foldl record table).keys.Nodup := by
  induction leaves generalizing table with
  | nil => exact distinct
  | cons leaf rest ih =>
    refine ih ?_
    simp only [record]
    repeat' split
    all_goals first | exact distinct | exact Entries.nodup_keys_insert distinct _ _

theorem nodup_keys_ofBranch (entries : Branch) : (ofBranch entries).keys.Nodup := by
  have bare : (Entries.keys ([] : Entries Text Spelled)).Nodup := List.nodup_nil
  rw [ofBranch, Entries.keys, List.map_map]
  exact nodup_keys_foldl_record bare _

/-- The phrase under a key is that of the leaf that wins it. -/
theorem exists_wins_of_get? {entries : Branch} {key phrase : Text}
    (found : (ofBranch entries).get? key = some phrase) :
    key ≠ [] ∧ ∃ path, Wins (Tree.branchLeaves [] entries) key (path, phrase) := by
  rw [get?_ofBranch] at found
  have holds := holds_foldl_record (Tree.branchLeaves [] entries) key
  generalize Entries.get? ((Tree.branchLeaves [] entries).foldl record []) key = held at *
  cases holds with
  | nothing _ => simp at found
  | @winner leaf asked wins =>
    have same : leaf.2 = phrase := by simpa using found
    exact ⟨asked, leaf.1, same ▸ wins⟩

/-- A key is listed if it is not empty and some leaf joins to it. -/
theorem has_ofBranch_iff (entries : Branch) (key : Text) :
    (ofBranch entries).has key ↔
      key ≠ [] ∧ ∃ leaf ∈ Tree.branchLeaves [] entries, Key.join leaf.1 = key := by
  constructor
  · intro has
    obtain ⟨phrase, found⟩ := Option.isSome_iff_exists.mp has
    obtain ⟨asked, path, wins⟩ := exists_wins_of_get? found
    exact ⟨asked, _, wins.mem, wins.join_eq⟩
  · rintro ⟨asked, leaf, member, joins⟩
    rw [Entries.has, get?_ofBranch]
    have holds := holds_foldl_record (Tree.branchLeaves [] entries) key
    generalize Entries.get? ((Tree.branchLeaves [] entries).foldl record []) key = held at *
    cases holds with
    | nothing absent => exact absurd joins (absent.resolve_left asked leaf member)
    | winner _ _ => rfl

section Named

variable {entries : Branch} (distinct : (Tree.branch entries).Distinct)

include distinct

theorem mem_branchLeaves_of_at? {path : List Text} {phrase : Text}
    (full : ∀ key ∈ path, key ≠ []) (leads : (Tree.branch entries).at? path = some (.text phrase)) :
    (path, phrase) ∈ Tree.branchLeaves [] entries := by
  have kept : path.filter (· ≠ []) = path := by simpa [List.filter_eq_self] using full
  have leaf := (Tree.mem_leaves_iff distinct [] path phrase).mpr ⟨path, leads, by rw [kept]; rfl⟩
  rwa [Tree.leaves] at leaf

/-- What the flat view has for a key stands somewhere in the branch, at a path that joins to the key.
    -/
theorem exists_at?_of_get? {key phrase : Text} (found : (ofBranch entries).get? key = some phrase) :
    key ≠ [] ∧ ∃ path, (Tree.branch entries).at? path = some (.text phrase) ∧
      Key.join path = key := by
  obtain ⟨asked, _, wins⟩ := exists_wins_of_get? found
  have member := wins.mem
  rw [← Tree.leaves] at member
  obtain ⟨path, leads, rfl⟩ := (Tree.mem_leaves_iff distinct [] _ phrase).mp member
  refine ⟨asked, path, leads, ?_⟩
  rw [← wins.join_eq, List.nil_append, Key.join_filter]

theorem has_ofBranch_of_at? {path : List Text} {phrase : Text}
    (leads : (Tree.branch entries).at? path = some (.text phrase)) (asked : Key.join path ≠ []) :
    (ofBranch entries).has (Key.join path) := by
  have leaf := (Tree.mem_leaves_iff distinct [] _ phrase).mpr ⟨path, leads, rfl⟩
  rw [Tree.leaves] at leaf
  refine (has_ofBranch_iff entries _).mpr ⟨asked, _, leaf, ?_⟩
  rw [List.nil_append, Key.join_filter]

/-- A key has an entry if some spelling of its segments leads to a phrase. -/
theorem has_ofBranch_of_leadsTo {parts path : List Text}
    (segments : ∀ part ∈ parts, Key.IsSegment part)
    (leads : (Tree.branch entries).LeadsTo Tree.IsPhrase parts path) :
    (ofBranch entries).has (Key.join parts) := by
  obtain ⟨spelling, _, leads, phrase, rfl⟩ := leads
  obtain ⟨full, joins⟩ := (Key.isSpelling_iff segments path).mp spelling
  refine (has_ofBranch_iff entries _).mpr
    ⟨?_, _, mem_branchLeaves_of_at? distinct full leads, joins⟩
  rw [← joins]
  apply Key.join_ne_nil full
  rintro rfl
  simp at leads

variable (named : (Tree.branch entries).Named)

include named

/-- A leaf is the phrase at its path, unless a key on the way is empty. -/
theorem at?_of_mem_branchLeaves {path : List Text} {phrase : Text}
    (member : (path, phrase) ∈ Tree.branchLeaves [] entries) :
    (∀ key ∈ path, key ≠ []) ∧ (Tree.branch entries).at? path = some (.text phrase) := by
  rw [← Tree.leaves] at member
  obtain ⟨all, leads, rfl⟩ := (Tree.mem_leaves_iff distinct [] path phrase).mp member
  have full := named.of_at? leads
  have kept : all.filter (· ≠ []) = all := by simpa [List.filter_eq_self] using full
  rw [List.nil_append, kept]
  exact ⟨full, leads⟩

/-- The phrase under a key is at the highest of the paths that lead to one. -/
theorem highest_of_get? {parts : List Text} (segments : ∀ part ∈ parts, Key.IsSegment part)
    {phrase : Text} (found : (ofBranch entries).get? (Key.join parts) = some phrase) :
    ∃ path, Key.Highest ((Tree.branch entries).LeadsTo Tree.IsPhrase parts) path ∧
      (Tree.branch entries).at? path = some (.text phrase) := by
  obtain ⟨_, path, wins⟩ := exists_wins_of_get? found
  obtain ⟨full, leads⟩ := at?_of_mem_branchLeaves distinct named wins.mem
  have spelling := (Key.isSpelling_iff segments path).mpr ⟨full, wins.join_eq⟩
  refine ⟨path, ⟨⟨spelling, _, leads, phrase, rfl⟩, ?_⟩, leads⟩
  -- No leaf outranks the winner, and two spellings of the same segments never tie.
  rintro other ⟨otherSpelling, _, otherLeads, held, rfl⟩ differ
  obtain ⟨otherFull, joins⟩ := (Key.isSpelling_iff segments other).mp otherSpelling
  have bound := wins.rank_le (mem_branchLeaves_of_at? distinct otherFull otherLeads) joins
  exact (Key.rank_lt_or_gt segments otherSpelling spelling differ).resolve_right
    (not_lt.mpr bound)

/-- Where no branch has an empty key, the entry of a key that comes apart into segments is the
    phrase at the highest of their spellings that lead to one. -/
theorem get?_ofBranch_join_iff {parts : List Text} (segments : ∀ part ∈ parts, Key.IsSegment part)
    (phrase : Text) :
    (ofBranch entries).get? (Key.join parts) = some phrase ↔
      ∃ path, Key.Highest ((Tree.branch entries).LeadsTo Tree.IsPhrase parts) path ∧
        (Tree.branch entries).at? path = some (.text phrase) := by
  constructor
  · exact highest_of_get? distinct named segments
  · rintro ⟨path, highest, leads⟩
    have has := has_ofBranch_of_leadsTo distinct segments highest.1
    obtain ⟨held, found⟩ := Option.isSome_iff_exists.mp has
    obtain ⟨other, otherHighest, otherLeads⟩ := highest_of_get? distinct named segments found
    rw [highest.unique otherHighest, otherLeads] at leads
    cases leads
    exact found

end Named

section Tidy

variable {entries others : Branch} (distinct : (Tree.branch entries).Distinct)
  (tidy : (Tree.branch entries).Tidy)

include distinct tidy

/-- Tidy keys join to tidy keys. -/
theorem isTidy_of_get? {key phrase : Text} (found : (ofBranch entries).get? key = some phrase) :
    Key.IsTidy key := by
  obtain ⟨_, path, wins⟩ := exists_wins_of_get? found
  obtain ⟨full, leads⟩ := at?_of_mem_branchLeaves distinct tidy.named wins.mem
  rw [← wins.join_eq, Key.isTidy_join_iff full]
  exact fun part member => (tidy.of_at? leads part member).2

/-- Where all keys are tidy, the flat view does not depend on the order of the entries, but only on
    which phrases stand where. -/
theorem get?_ofBranch_congr (distinct' : (Tree.branch others).Distinct)
    (tidy' : (Tree.branch others).Tidy)
    (same : ∀ path phrase, (Tree.branch entries).at? path = some (.text phrase) ↔
      (Tree.branch others).at? path = some (.text phrase)) (key : Text) :
    (ofBranch entries).get? key = (ofBranch others).get? key := by
  refine Option.ext fun phrase => ?_
  by_cases clean : Key.IsTidy key
  · -- The spellings of the key that lead to a phrase are the same, and no two of them tie.
    have segments : ∀ part ∈ Key.split key, Key.IsSegment part :=
      fun _ => Key.isSegment_of_mem_split
    have leads (path : List Text) :
        (Tree.branch entries).LeadsTo Tree.IsPhrase (Key.split key) path ↔
          (Tree.branch others).LeadsTo Tree.IsPhrase (Key.split key) path := by
      refine and_congr_right fun _ => ?_
      constructor
      · rintro ⟨_, reached, held, rfl⟩
        exact ⟨_, (same path held).mp reached, held, rfl⟩
      · rintro ⟨_, reached, held, rfl⟩
        exact ⟨_, (same path held).mpr reached, held, rfl⟩
    rw [← clean, get?_ofBranch_join_iff distinct tidy.named segments,
      get?_ofBranch_join_iff distinct' tidy'.named segments]
    simp only [Key.Highest.congr leads, same]
  · -- A key that is not tidy has an entry in neither table.
    exact iff_of_false (fun found => clean (isTidy_of_get? distinct tidy found))
      fun found => clean (isTidy_of_get? distinct' tidy' found)

end Tidy

end Phrasebook.Lookup
