import Phrasebook.Key

/-!
# Phrasebook.Proofs.Key.Segments

How joining and splitting keys undo each other.

Splitting drops empty pieces and joining drops empty parts, so each is an inverse of the other only
where nothing is dropped: on lists of segments on one side, and on tidy keys on the other.
-/

namespace Phrasebook.Key

/-- A segment: a part of a key between two dots. -/
def IsSegment (text : Text) : Prop :=
  text ≠ [] ∧ separator ∉ text

instance : DecidablePred IsSegment := fun _ => inferInstanceAs (Decidable (_ ∧ _))

/-- A key is tidy if it is what its segments join to: it has no dot at either end and no two dots
    side by side. -/
def IsTidy (key : Text) : Prop :=
  join (split key) = key

instance : DecidablePred IsTidy := fun _ => inferInstanceAs (Decidable (_ = _))

/-! ### Pieces -/

theorem pieces_eq_splitOn (key : Text) : Text.pieces separator key = key.splitOn separator := by
  induction key with
  | nil => rfl
  | cons c rest ih =>
    rw [List.splitOn_cons_eq_if_modifyHead, ← ih]
    by_cases dot : c = separator
    · simp [Text.pieces, dot]
    · cases cut : Text.pieces separator rest with
      | nil => exact absurd cut (Text.pieces_ne_nil separator rest)
      | cons piece more => simp [Text.pieces, dot, cut]

/-- The segments of a key are the pieces between its dots that are not empty. -/
theorem split_eq_filter (key : Text) : split key = (key.splitOn separator).filter (· ≠ []) := by
  rw [split, pieces_eq_splitOn]

/-- A dot ends one segment and begins another; everything about splitting follows from this. -/
theorem split_append_separator (before after : Text) :
    split (before ++ separator :: after) = split before ++ split after := by
  simp only [split_eq_filter, List.splitOn_append_cons_self, List.filter_append]

@[simp] theorem split_nil : split [] = [] := rfl

theorem split_of_isSegment {text : Text} (segment : IsSegment text) : split text = [text] := by
  rw [split_eq_filter, List.splitOn_eq_singleton segment.2]
  simp [segment.1]

theorem isSegment_of_mem_split {key text : Text} (member : text ∈ split key) :
    IsSegment text := by
  rw [split, List.mem_filter] at member
  exact ⟨by simpa using member.2, Text.separator_not_mem_of_mem_pieces member.1⟩

/-! ### Joining -/

@[simp] theorem join_nil : join [] = [] := rfl

theorem join_filter (parts : List Text) : join (parts.filter (· ≠ [])) = join parts := by
  simp [join, List.filter_filter]

@[simp] theorem join_nil_cons (parts : List Text) : join ([] :: parts) = join parts := by
  simp [join]

/-- A part stands before the rest with a dot between them, unless nothing is left of the rest. -/
theorem join_cons {part : Text} (named : part ≠ []) (rest : List Text) :
    join (part :: rest) =
      if join rest = [] then part else part ++ separator :: join rest := by
  have first : (part :: rest).filter (· ≠ []) = part :: rest.filter (· ≠ []) :=
    List.filter_cons_of_pos (by simpa using named)
  rw [join, join, first]
  cases kept : rest.filter (· ≠ []) with
  | nil => simp
  | cons next more =>
    have nonempty : next ≠ [] := by
      have member : next ∈ rest.filter (· ≠ []) := kept ▸ List.mem_cons_self
      simpa using (List.mem_filter.mp member).2
    -- A first text that is not empty leaves something to put the dot before.
    have left : List.intercalate [separator] (next :: more) ≠ [] := by
      cases next with
      | nil => exact absurd rfl nonempty
      | cons c tail => cases more <;> simp [List.intercalate_cons_cons]
    simp [left, List.intercalate_cons_cons]

theorem join_eq_nil_iff (parts : List Text) : join parts = [] ↔ ∀ part ∈ parts, part = [] := by
  induction parts with
  | nil => simp
  | cons part rest ih =>
    by_cases empty : part = []
    · simp [empty, ih]
    · rw [join_cons empty]
      split <;> simp [empty]

theorem join_ne_nil {parts : List Text} (named : ∀ part ∈ parts, part ≠ [])
    (nonempty : parts ≠ []) : join parts ≠ [] := by
  rw [Ne, join_eq_nil_iff]
  obtain ⟨first, rest, rfl⟩ := List.exists_cons_of_ne_nil nonempty
  intro empty
  exact named first List.mem_cons_self (empty first List.mem_cons_self)

/-- The segments of a joined key are those of its parts, one after the other. -/
theorem split_join (parts : List Text) : split (join parts) = parts.flatMap split := by
  induction parts with
  | nil => rfl
  | cons part rest ih =>
    -- An empty part neither adds a dot nor a segment.
    by_cases empty : part = []
    · simp [empty, ih]
    · rw [join_cons empty, List.flatMap_cons, ← ih]
      split
      next nothing => simp [nothing]
      next => exact split_append_separator part (join rest)

theorem split_join_of_segments {parts : List Text} (segments : ∀ part ∈ parts, IsSegment part) :
    split (join parts) = parts := by
  rw [split_join]
  induction parts with
  | nil => rfl
  | cons part rest ih =>
    obtain ⟨segment, later⟩ := List.forall_mem_cons.mp segments
    rw [List.flatMap_cons, split_of_isSegment segment, ih later]
    rfl

theorem isSegment_of_mem_localeSegments {key : Option Text} {locale text : Text}
    (member : text ∈ localeSegments key locale) : IsSegment text := by
  rcases List.mem_append.mp member with inLocale | inKey
  · exact isSegment_of_mem_split inLocale
  · exact isSegment_of_mem_split inKey

/-! ### Tidy keys -/

theorem isTidy_join_of_segments {parts : List Text} (segments : ∀ part ∈ parts, IsSegment part) :
    IsTidy (join parts) := by
  rw [IsTidy, split_join_of_segments segments]

/-- A key is tidy if it is empty or none of the pieces between its dots is. -/
theorem isTidy_iff (key : Text) : IsTidy key ↔ key = [] ∨ [] ∉ key.splitOn separator := by
  constructor
  · intro tidy
    by_cases empty : split key = []
    · left
      rw [← tidy, empty, join_nil]
    · right
      have clean : ∀ piece ∈ split key, separator ∉ piece := fun piece member =>
        (isSegment_of_mem_split member).2
      have kept : (split key).filter (· ≠ []) = split key := by
        simp [split_eq_filter]
      -- The pieces of a tidy key are its segments, because cutting undoes joining on these.
      have pieces : key.splitOn separator = split key := by
        have joined := List.splitOn_intercalate separator clean empty
        rw [← kept, ← join, tidy] at joined
        exact joined.trans kept
      rw [pieces, split_eq_filter]
      simp
  · rintro (rfl | full)
    · rfl
    · have kept : split key = key.splitOn separator := by
        rw [split_eq_filter, List.filter_eq_self]
        intro piece member
        have named : piece ≠ [] := fun e => full (e ▸ member)
        simpa using named
      have again : (key.splitOn separator).filter (· ≠ []) = key.splitOn separator := by
        rw [← split_eq_filter, kept]
      rw [IsTidy, kept, join, again, List.intercalate_splitOn]

/-- A joined key has the pieces of its parts in their order. -/
theorem splitOn_join {parts : List Text} (named : ∀ part ∈ parts, part ≠ [])
    (nonempty : parts ≠ []) :
    (join parts).splitOn separator = parts.flatMap (·.splitOn separator) := by
  induction parts with
  | nil => exact absurd rfl nonempty
  | cons part rest ih =>
    obtain ⟨first, later⟩ := List.forall_mem_cons.mp named
    rw [join_cons first, List.flatMap_cons]
    by_cases last : rest = []
    · simp [last]
    · rw [if_neg (join_ne_nil later last), List.splitOn_append_cons_self, ih later last]

/-- A joined key is tidy exactly if each of its parts is. -/
theorem isTidy_join_iff {parts : List Text} (named : ∀ part ∈ parts, part ≠ []) :
    IsTidy (join parts) ↔ ∀ part ∈ parts, IsTidy part := by
  by_cases empty : parts = []
  · simp [empty, IsTidy]
  · have left := join_ne_nil named empty
    rw [isTidy_iff, splitOn_join named empty, List.mem_flatMap]
    constructor
    · rintro (nothing | full) part member
      · exact absurd nothing left
      · exact (isTidy_iff part).mpr (.inr fun piece => full ⟨part, member, piece⟩)
    · intro tidy
      right
      rintro ⟨part, member, piece⟩
      rcases (isTidy_iff part).mp (tidy part member) with nothing | full
      · exact named part member nothing
      · exact full piece

end Phrasebook.Key
