import Phrasebook.Proofs.Key.Spelling

/-!
# Phrasebook.Proofs.Key.Enumeration

The spellings of some segments, one after the other.

A search along `candidates` that nothing stops runs through `spellings`. These are the cuts in
descending order, each spelled out (`spellings_eq_map_cuts`), and cuts compare as the ranks of their
spellings do. So every spelling turns up once, the ranks go down from one to the next, and the rank
that decides between two spellings of a key decides as a search would (`spellings_by_rank`).
-/

namespace Phrasebook.Key

/-! ### Candidates in turn -/

theorem bounds_of_mem_candidates {parts : List Text} {start : Nat} {candidate : Text × Nat}
    (member : candidate ∈ candidates parts start) :
    start < candidate.2 ∧ candidate.2 ≤ parts.length := by
  obtain ⟨stop, inside, rfl⟩ := List.mem_map.mp member
  have bounds := List.mem_range'_1.mp (List.mem_reverse.mp inside)
  omega

/-- The spellings of the segments from a position on, in the order in which a search meets them:
    each candidate in turn, followed by every spelling of the segments that it leaves over. -/
def spellings (parts : List Text) (start : Nat) : List (List Text) :=
  if start = parts.length then [[]]
  else
    (candidates parts start).attach.flatMap fun candidate =>
      (spellings parts candidate.1.2).map (candidate.1.1 :: ·)
termination_by parts.length - start
decreasing_by
  have bounds := bounds_of_mem_candidates candidate.2
  omega

theorem spellings_length (parts : List Text) : spellings parts parts.length = [[]] := by
  rw [spellings, if_pos rfl]

/-- The spellings from a position on begin with each candidate in turn. -/
theorem spellings_of_ne {parts : List Text} {start : Nat} (short : start ≠ parts.length) :
    spellings parts start = (candidates parts start).flatMap fun candidate =>
      (spellings parts candidate.2).map (candidate.1 :: ·) := by
  rw [spellings, if_neg short]
  simp only [List.flatMap_subtype, List.unattach_attach]

/-- An enumeration along the candidates is one along the cuts. -/
theorem spellings_eq_map_cuts {parts : List Text} {depth start : Nat}
    (within : start ≤ parts.length) (enough : parts.length - start ≤ depth) :
    spellings parts start = (cuts parts.length depth start).map (spell parts start) := by
  induction depth generalizing start with
  | zero =>
    obtain rfl : start = parts.length := by omega
    rw [spellings_length, cuts_self]
    rfl
  | succ depth ih =>
    by_cases short : start = parts.length
    · subst short
      rw [spellings_length, cuts_self]
      rfl
    · rw [spellings_of_ne short, cuts_succ depth short, candidates, List.flatMap_map,
        List.map_flatMap]
      -- After each first stop the same holds of a later start, for which one level less is enough.
      refine List.flatMap_congr fun stop inside => ?_
      have bounds := List.mem_range'_1.mp (List.mem_reverse.mp inside)
      rw [ih (by omega) (by omega), List.map_map, List.map_map]
      rfl

theorem mem_spellings_iff (parts path : List Text) :
    path ∈ spellings parts 0 ↔ IsSpelling parts path := by
  have spelled := isSpelling_drop_iff (Nat.zero_le parts.length) path
  rw [List.drop_zero] at spelled
  rw [spellings_eq_map_cuts (Nat.zero_le _) (Nat.le_refl _), List.mem_map, spelled]
  exact exists_congr fun stops => and_congr_left' (mem_cuts_iff (Nat.le_refl _) stops)

/-! ### Ranks -/

section Segments

variable {parts : List Text} (segments : ∀ part ∈ parts, IsSegment part)
include segments

theorem rank_descends_spellings :
    (spellings parts 0).Pairwise fun earlier later => rank later < rank earlier := by
  rw [spellings_eq_map_cuts (Nat.zero_le _) (Nat.le_refl _), List.pairwise_map]
  refine (cuts_descending parts.length _ 0).imp_of_mem fun one two less => ?_
  have first := (mem_cuts_iff (Nat.le_refl _) _).mp one
  have second := (mem_cuts_iff (Nat.le_refl _) _).mp two
  exact (rank_spell_lt_iff segments second first).mpr less

/-- Of two cuts neither rank begins the other, unless they are the same: both ranks count the same
    segments, so where the shorter one ends, nothing is left for the longer one to count. -/
theorem eq_of_rank_isPrefix {start : Nat} {one two : List Nat} (first : Cut parts.length start one)
    (second : Cut parts.length start two)
    (begins : rank (spell parts start one) <+: rank (spell parts start two)) : one = two := by
  induction first generalizing two with
  | done => exact ((cut_self_iff _ two).mp second).symm
  | @group start stop stops forward rest ih =>
    cases second with
    | done => exact absurd rest.start_le (by omega)
    | @group _ stop' stops' forward' rest' =>
      rw [rank_spell_cons, rank_spell_cons, length_split_join_slice segments rest.start_le,
        length_split_join_slice segments rest'.start_le, List.cons_prefix_cons] at begins
      obtain ⟨counts, begins⟩ := begins
      obtain rfl : stop = stop' := by omega
      rw [ih rest' begins]

/-- The rank of a spelling is no beginning of the rank of another one. -/
theorem not_prefix_rank {one two : List Text} (first : IsSpelling parts one)
    (second : IsSpelling parts two) (differ : one ≠ two) : ¬ rank one <+: rank two := by
  obtain ⟨stops, cut, rfl⟩ := (isSpelling_drop_iff (Nat.zero_le _) one).mp first
  obtain ⟨stops', cut', rfl⟩ := (isSpelling_drop_iff (Nat.zero_le _) two).mp second
  intro begins
  exact differ (congrArg _ (eq_of_rank_isPrefix segments cut cut' begins))

end Segments

/-- A search along the candidates of some segments meets every spelling of them once, the highest
    rank first and each later one with a lower rank. Different spellings have different ranks, and
    none has a rank that begins the rank of another one. -/
theorem spellings_by_rank {parts : List Text} (segments : ∀ part ∈ parts, IsSegment part) :
    (∀ path, path ∈ spellings parts 0 ↔ IsSpelling parts path) ∧
      (spellings parts 0).Nodup ∧
      ((spellings parts 0).Pairwise fun earlier later => rank later < rank earlier) ∧
      ∀ one two, IsSpelling parts one → IsSpelling parts two → one ≠ two →
        rank one ≠ rank two ∧ ¬ rank one <+: rank two := by
  have descends := rank_descends_spellings segments
  refine ⟨mem_spellings_iff parts, ?_, descends, fun one two first second differ => ?_⟩
  · refine descends.imp fun less same => ?_
    exact List.lt_irrefl _ (same ▸ less)
  · have apart := not_prefix_rank segments first second differ
    exact ⟨fun same => apart (same ▸ List.prefix_refl _), apart⟩

/-- Two spellings of three segments that begin with the same key still differ in rank. -/
theorem spellings_by_rank_of_three_segments :
    let parts : List Text := ["en", "hello", "world"]
    let flat : List Text := ["en", "hello.world"]
    let nested : List Text := ["en", "hello", "world"]
    (∀ part ∈ parts, IsSegment part) ∧ IsSpelling parts flat ∧ IsSpelling parts nested ∧
      (spellings parts 0).Nodup ∧ flat ∈ spellings parts 0 ∧ nested ∈ spellings parts 0 ∧
      ¬ rank flat <+: rank nested ∧ ¬ rank nested <+: rank flat := by
  intro parts flat nested
  have segments : ∀ part ∈ parts, IsSegment part := by decide
  have first : IsSpelling parts flat := ⟨[["en"], ["hello", "world"]], rfl, by decide, rfl⟩
  have second : IsSpelling parts nested := ⟨[["en"], ["hello"], ["world"]], rfl, by decide, rfl⟩
  obtain ⟨listed, once, _, apart⟩ := spellings_by_rank segments
  exact ⟨segments, first, second, once, (listed flat).mpr first, (listed nested).mpr second,
    (apart flat nested first second (by decide)).2,
    (apart nested flat second first (by decide)).2⟩

example : spellings ["en", "hello", "world"] 0 =
    ([["en.hello.world"], ["en.hello", "world"], ["en", "hello.world"],
      ["en", "hello", "world"]] : List (List Text)) := by cbv

end Phrasebook.Key
