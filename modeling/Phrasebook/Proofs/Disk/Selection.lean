import Phrasebook.Disk.Pattern

/-!
# Phrasebook.Proofs.Disk.Selection

What a pattern selects below a root: files with that root, in the order of their components, and each
of them once (`fileUnder_of_mem_files`, `ordered_files`).
-/

namespace Phrasebook

theorem bind_eq_ok {α β : Type} {first : Except Failure α} {next : α → Except Failure β} {last : β} :
    first.bind next = .ok last ↔ ∃ value, first = .ok value ∧ next value = .ok last := by
  cases first <;> simp [Except.bind]

theorem map_eq_ok {α β : Type} {first : Except Failure α} {f : α → β} {last : β} :
    first.map f = .ok last ↔ ∃ value, first = .ok value ∧ last = f value := by
  cases first <;> simp [Except.map, eq_comm]

theorem toOption_eq_some_iff {ε α : Type} {result : Except ε α} {value : α} :
    result.toOption = some value ↔ result = .ok value := by
  cases result <;> simp [Except.toOption]

theorem eq_ok_of_toOption {α : Type} {result : Except Failure α} {value : α}
    (given : result.toOption = some value) : result = .ok value :=
  toOption_eq_some_iff.mp given

namespace Path

def Before (one other : Path) : Prop :=
  one.sortKey < other.sortKey

theorem sortKey_inj {one other : Path} (sameRoot : one.root = other.root)
    (same : one.sortKey = other.sortKey) : one = other := by
  rw [sortKey, sortKey, sameRoot] at same
  cases one
  cases other
  split at same <;> simp_all

theorem before_of_not_before {one other : Path} (sameRoot : one.root = other.root)
    (differ : one ≠ other) (notAfter : ¬ other.Before one) : one.Before other := by
  refine Classical.byContradiction fun notBefore => ?_
  have same : one.sortKey = other.sortKey :=
    List.le_antisymm (List.not_lt.mp notAfter) (List.not_lt.mp notBefore)
  exact differ (sortKey_inj sameRoot same)

theorem mem_insertSorted {path other : Path} {paths : List Path} :
    other ∈ insertSorted path paths ↔ other = path ∨ other ∈ paths := by
  induction paths with
  | nil => simp [insertSorted]
  | cons first rest ih =>
    rw [insertSorted]
    split
    next same => simp [same]
    next =>
      split
      next => simp
      next =>
        simp only [List.mem_cons, ih]
        exact or_left_comm

theorem sorted_cons (path : Path) (paths : List Path) :
    sorted (path :: paths) = insertSorted path (sorted paths) := rfl

theorem mem_sorted {path : Path} {paths : List Path} : path ∈ sorted paths ↔ path ∈ paths := by
  induction paths with
  | nil => simp [sorted]
  | cons first rest ih => rw [sorted_cons, mem_insertSorted, ih, List.mem_cons]

theorem ordered_insertSorted {path : Path} {paths : List Path} (ordered : paths.Pairwise Before)
    (sameRoot : ∀ other ∈ paths, other.root = path.root) :
    (insertSorted path paths).Pairwise Before := by
  induction paths with
  | nil => simp [insertSorted]
  | cons first rest ih =>
    obtain ⟨least, ordered'⟩ := List.pairwise_cons.mp ordered
    obtain ⟨rooted, sameRoot'⟩ := List.forall_mem_cons.mp sameRoot
    rw [insertSorted]
    split
    next => exact ordered
    next differ =>
      split
      next lower =>
        refine List.pairwise_cons.mpr ⟨?_, ordered⟩
        intro other member
        rcases List.mem_cons.mp member with rfl | later
        · exact lower
        · exact List.lt_trans lower (least other later)
      next notLower =>
        -- A path that is neither the first one nor lower goes into the rest.
        have higher : first.Before path := before_of_not_before rooted (Ne.symm differ) notLower
        refine List.pairwise_cons.mpr ⟨?_, ih ordered' sameRoot'⟩
        intro other member
        rcases mem_insertSorted.mp member with rfl | later
        · exact higher
        · exact least other later

theorem ordered_sorted {paths : List Path} {root : String}
    (sameRoot : ∀ path ∈ paths, path.root = root) : (sorted paths).Pairwise Before := by
  induction paths with
  | nil => exact List.Pairwise.nil
  | cons first rest ih =>
    obtain ⟨rooted, sameRoot'⟩ := List.forall_mem_cons.mp sameRoot
    rw [sorted_cons]
    apply ordered_insertSorted (ih sameRoot')
    intro other member
    rw [rooted, sameRoot' other (mem_sorted.mp member)]

end Path

namespace Pattern

/-- A file with a root. -/
def FileUnder (disk : Disk) (root : String) (path : Path) : Prop :=
  disk.isFile path ∧ path.root = root

/-- What is selected in several ways is what is selected in any of them. -/
theorem selectEach_eq_ok {α : Type} {select : α → Except Failure (List Path)} {ways : List α}
    {paths : List Path} (selected : selectEach select ways = .ok paths) :
    (∀ way ∈ ways, ∃ chosen, select way = .ok chosen) ∧
      ∀ path, path ∈ paths ↔ ∃ way ∈ ways, ∃ chosen, select way = .ok chosen ∧ path ∈ chosen := by
  induction ways generalizing paths with
  | nil =>
    cases selected
    simp
  | cons way rest ih =>
    obtain ⟨first, here, selected⟩ := bind_eq_ok.mp selected
    obtain ⟨more, later, both⟩ := bind_eq_ok.mp selected
    cases both
    obtain ⟨each, mem⟩ := ih later
    refine ⟨List.forall_mem_cons.mpr ⟨⟨first, here⟩, each⟩, fun path => ?_⟩
    simp [mem, here]

/-- A selection in several ways succeeds if it does in each. -/
theorem exists_selectEach {α : Type} {select : α → Except Failure (List Path)} {ways : List α}
    (each : ∀ way ∈ ways, ∃ chosen, select way = .ok chosen) :
    ∃ paths, selectEach select ways = .ok paths := by
  induction ways with
  | nil => exact ⟨[], rfl⟩
  | cons way rest ih =>
    obtain ⟨⟨first, here⟩, later⟩ := List.forall_mem_cons.mp each
    obtain ⟨more, further⟩ := ih later
    exact ⟨first ++ more, bind_eq_ok.mpr ⟨first, here, bind_eq_ok.mpr ⟨more, further, rfl⟩⟩⟩

theorem lookFor_eq_ok_iff {disk : Disk} {path : Path} {next : Except Failure (List Path)}
    {paths : List Path} :
    lookFor disk path next = .ok paths ↔ disk.refusesLength path = false ∧ next = .ok paths := by
  rw [lookFor]
  cases disk.refusesLength path <;> simp

/-- Whatever is selected leads to a file and has the root of the search. -/
theorem fileUnder_of_mem_select {disk : Disk} {parts : List PatternPart} {place : List String}
    {base : Path} {paths : List Path} (selected : select disk parts place base = .ok paths)
    {path : Path} (member : path ∈ paths) : FileUnder disk base.root path := by
  -- Along the pattern; a step only adds names to the path, so the root stays.
  induction parts generalizing place base paths path with
  | nil =>
    have same := (lookFor_eq_ok_iff.mp selected).2
    split at same
    next file =>
      cases same
      rw [List.mem_singleton.mp member]
      exact ⟨file, rfl⟩
    next =>
      cases same
      cases member
  | cons part rest ih =>
    cases part with
    | name name =>
      have same := (lookFor_eq_ok_iff.mp selected).2
      split at same
      next =>
        split at same
        next => exact ih same member
        next =>
          cases same
          cases member
      next =>
        cases same
        cases member
    | matching pieces =>
      obtain ⟨way, -, found, chosen, inside⟩ :=
        ((selectEach_eq_ok (lookFor_eq_ok_iff.mp selected).2).2 path).mp member
      exact ih chosen inside
    | deep =>
      obtain ⟨names, -, more, chosen, inside⟩ := ((selectEach_eq_ok selected).2 path).mp member
      obtain ⟨found, below, looked⟩ := bind_eq_ok.mp chosen
      cases (lookFor_eq_ok_iff.mp looked).2
      exact ih below inside
    | itself => exact ih selected member

/-- The files that a pattern finds are a selection that is sorted. -/
theorem exists_unsorted_files {disk : Disk} {pattern : Pattern} {root : Path} {paths : List Path}
    (found : pattern.files disk root = .ok paths) :
    ∃ selected, paths = Path.sorted selected ∧
      ∀ path ∈ selected, FileUnder disk root.root path := by
  rw [files] at found
  obtain ⟨selected, looked, rfl⟩ := map_eq_ok.mp found
  refine ⟨selected, rfl, ?_⟩
  intro path member
  have same := (lookFor_eq_ok_iff.mp looked).2
  split at same
  next => exact fileUnder_of_mem_select same member
  next =>
    cases same
    cases member

theorem fileUnder_of_mem_files {disk : Disk} {pattern : Pattern} {root : Path} {paths : List Path}
    (found : pattern.files disk root = .ok paths) {path : Path} (member : path ∈ paths) :
    FileUnder disk root.root path := by
  obtain ⟨selected, rfl, under⟩ := exists_unsorted_files found
  exact under path (Path.mem_sorted.mp member)

theorem ordered_files {disk : Disk} {pattern : Pattern} {root : Path} {paths : List Path}
    (found : pattern.files disk root = .ok paths) : paths.Pairwise Path.Before := by
  obtain ⟨selected, rfl, under⟩ := exists_unsorted_files found
  exact Path.ordered_sorted fun path member => (under path member).2

end Pattern

end Phrasebook
