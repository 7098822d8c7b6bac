import Mathlib.Data.Set.Function
import Phrasebook.Proofs.Key.Segments

/-!
# Phrasebook.Proofs.Key.RoundTrip

What is left of parts that are joined and split again, and of a key that is split and joined again.

Both ways drop what is empty and keep everything else. Parts come back as they were exactly if they
are segments, and a key does exactly if no dot of it stands at an end or beside another one
(`isTidy_iff_dots`).
-/

namespace Phrasebook.Key

/-! ### Parts -/

/-- Joining and splitting gives back exactly the lists of segments. -/
theorem split_join_eq_self_iff (parts : List Text) :
    split (join parts) = parts ↔ ∀ part ∈ parts, IsSegment part := by
  constructor
  · intro same part member
    rw [← same] at member
    exact isSegment_of_mem_split member
  · exact split_join_of_segments

theorem injOn_join : Set.InjOn join {parts | ∀ part ∈ parts, IsSegment part} := by
  have undone : Set.LeftInvOn split join {parts | ∀ part ∈ parts, IsSegment part} :=
    fun _ segments => split_join_of_segments segments
  exact undone.injOn

theorem isTidy_join_split (key : Text) : IsTidy (join (split key)) :=
  isTidy_join_of_segments fun _ => isSegment_of_mem_split

/-! ### Dots -/

/-- The first piece of a key is empty if nothing stands before the first dot. -/
theorem head?_splitOn_eq_nil_iff (key : Text) :
    (key.splitOn separator).head? = some [] ↔ key = [] ∨ key.head? = some separator := by
  cases key with
  | nil => simp
  | cons c rest =>
    rw [List.splitOn_cons_eq_if_modifyHead]
    by_cases dot : c = separator
    · simp [dot]
    · simp [dot]

theorem nil_mem_splitOn_iff_tail (key : Text) :
    [] ∈ key.splitOn separator ↔
      (key = [] ∨ key.head? = some separator) ∨ [] ∈ (key.splitOn separator).tail := by
  rw [← head?_splitOn_eq_nil_iff]
  cases key.splitOn separator with
  | nil => simp
  | cons piece more => simp [eq_comm]

theorem getLast?_cons_eq_separator_iff (c : CodePoint) (rest : Text) :
    (c :: rest).getLast? = some separator ↔
      rest = [] ∧ c = separator ∨ rest.getLast? = some separator := by
  cases rest with
  | nil => simp
  | cons next more => simp [List.getLast?_cons_cons]

theorem infix_dots_cons_iff (c : CodePoint) (rest : Text) :
    [separator, separator] <:+: c :: rest ↔
      c = separator ∧ rest.head? = some separator ∨ [separator, separator] <:+: rest := by
  rw [List.infix_cons_iff, List.cons_prefix_cons, eq_comm]
  cases rest with
  | nil => simp
  | cons next more => simp [List.cons_prefix_cons, eq_comm]

/-- A later piece is empty if nothing stands behind the dot that begins it: the key ends there, or
    another dot follows. -/
theorem nil_mem_tail_splitOn_iff (key : Text) :
    [] ∈ (key.splitOn separator).tail ↔
      key.getLast? = some separator ∨ [separator, separator] <:+: key := by
  induction key with
  | nil => simp
  | cons c rest ih =>
    rw [List.splitOn_cons_eq_if_modifyHead, getLast?_cons_eq_separator_iff, infix_dots_cons_iff]
    by_cases dot : c = separator
    · -- The pieces of the rest all come later, its first one included.
      rw [if_pos (beq_iff_eq.mpr dot), List.tail_cons, nil_mem_splitOn_iff_tail, ih]
      simp only [dot, and_true, true_and]
      tauto
    · rw [if_neg (mt beq_iff_eq.mp dot), List.tail_modifyHead, ih]
      simp only [dot, and_false, false_and, false_or]

/-- A key is tidy if it is empty, or has no dot at an end and no two dots side by side. -/
theorem isTidy_iff_dots (key : Text) :
    IsTidy key ↔ key = [] ∨ key.head? ≠ some separator ∧ key.getLast? ≠ some separator ∧
      ¬ [separator, separator] <:+: key := by
  rw [isTidy_iff, nil_mem_splitOn_iff_tail, nil_mem_tail_splitOn_iff]
  tauto

/-! ### Both ways -/

/-- Splitting a joined key gives what the parts split into, and gives back the parts exactly if they
    are segments, which therefore join to different keys. Joining what a key splits into gives a
    tidy key, which is the key itself exactly if that has no dot at either end and no two dots side
    by side, and a tidy key has tidy parts. -/
theorem join_split_round_trip (parts : List Text) (key : Text) :
    split (join parts) = parts.flatMap split ∧
      (split (join parts) = parts ↔ ∀ part ∈ parts, part ≠ [] ∧ separator ∉ part) ∧
      Set.InjOn join {parts | ∀ part ∈ parts, part ≠ [] ∧ separator ∉ part} ∧
      join (split (join (split key))) = join (split key) ∧
      (join (split key) = key ↔
        key = [] ∨ key.head? ≠ some separator ∧ key.getLast? ≠ some separator ∧
          ¬ [separator, separator] <:+: key) ∧
      ((∀ part ∈ parts, part ≠ []) → join (split (join parts)) = join parts →
        ∀ part ∈ parts, join (split part) = part) := by
  refine ⟨split_join parts, split_join_eq_self_iff parts, injOn_join, isTidy_join_split key,
    isTidy_iff_dots key, ?_⟩
  intro named tidy
  exact (isTidy_join_iff named).mp tidy

/-- Parts with inner dots join to a tidy key of more segments; a key with superfluous dots is tidied
    and has the segments of its tidy form. -/
theorem join_split_round_trip_of_dotted_parts :
    let parts : List Text := ["a.b", "c"]
    let key : Text := ".a..b."
    (∀ part ∈ parts, part ≠ []) ∧ join (split (join parts)) = join parts ∧
      (∀ part ∈ parts, join (split part) = part) ∧
      split (join parts) = (["a", "b", "c"] : List Text) ∧ split (join parts) ≠ parts ∧
      join (split key) = "a.b" ∧ join (split key) ≠ key := by
  intro parts key
  have laws := join_split_round_trip parts key
  have named : ∀ part ∈ parts, part ≠ [] := by decide
  have tidy : join (split (join parts)) = join parts := by decide
  refine ⟨named, tidy, laws.2.2.2.2.2 named tidy, ?_, ?_, rfl, ?_⟩
  · rw [laws.1]
    rfl
  · rw [Ne, laws.2.1]
    decide
  · rw [Ne, laws.2.2.2.2.1]
    decide

end Phrasebook.Key
