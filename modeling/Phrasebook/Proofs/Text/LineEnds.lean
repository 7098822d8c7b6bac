import Phrasebook.Text.Utf8

/-!
# Phrasebook.Proofs.Text.LineEnds

What one spelling for the ends of lines does to positions.

`\r\n` becomes one character, so a text may get shorter, and what stands behind such an end moves to
the front. Up to the first carriage return nothing moves (`take_unifyLineEnds`). Behind one, a place
still comes from a place: the text falls into pieces that become the parts of the unified text before,
within and after any range of it (`exists_pieces_of_unifyLineEnds`).
-/

namespace Phrasebook.Text

theorem unifyLineEnds_cons_of_ne {c : Char} (other : c ≠ '\r') (rest : List Char) :
    unifyLineEnds (c :: rest) = c :: unifyLineEnds rest := by
  rw [unifyLineEnds]
  · intro _ same _
    exact other same
  · exact other

theorem unifyLineEnds_cr_cons {rest : List Char} (alone : ∀ more, rest ≠ '\n' :: more) :
    unifyLineEnds ('\r' :: rest) = '\n' :: unifyLineEnds rest := by
  rw [unifyLineEnds]
  intro more same
  exact alone more same

/-- What comes before the first carriage return stays where it is. -/
theorem take_unifyLineEnds {chars : List Char} {size : Nat} (free : '\r' ∉ chars.take size) :
    (unifyLineEnds chars).take size = chars.take size := by
  induction chars generalizing size with
  | nil => rfl
  | cons c rest ih =>
    cases size with
    | zero => rfl
    | succ size =>
      rw [List.take_succ_cons, List.mem_cons, not_or] at free
      rw [unifyLineEnds_cons_of_ne (Ne.symm free.1), List.take_succ_cons, List.take_succ_cons,
        ih free.2]

/-- Where the unified text is cut, the text itself can be cut. -/
theorem exists_cut_of_unifyLineEnds (chars : List Char) (size : Nat) :
    ∃ before after, chars = before ++ after ∧
      unifyLineEnds before = (unifyLineEnds chars).take size ∧
      unifyLineEnds after = (unifyLineEnds chars).drop size := by
  -- One line end or one other character at a time; `\r\n` is never cut in two.
  induction chars using unifyLineEnds.induct generalizing size with
  | case1 => exact ⟨[], [], rfl, by simp [unifyLineEnds], by simp [unifyLineEnds]⟩
  | case2 rest ih =>
    cases size with
    | zero => exact ⟨[], _, rfl, rfl, rfl⟩
    | succ size =>
      obtain ⟨before, after, rfl, front, back⟩ := ih size
      refine ⟨'\r' :: '\n' :: before, after, rfl, ?_, ?_⟩
      · simp only [unifyLineEnds, List.take_succ_cons, front]
      · simp only [unifyLineEnds, List.drop_succ_cons, back]
  | case3 rest alone ih =>
    cases size with
    | zero => exact ⟨[], _, rfl, rfl, rfl⟩
    | succ size =>
      obtain ⟨before, after, rfl, front, back⟩ := ih size
      have still : ∀ more, before ≠ '\n' :: more := by
        rintro more rfl
        exact alone (more ++ after) rfl
      refine ⟨'\r' :: before, after, rfl, ?_, ?_⟩
      · rw [unifyLineEnds_cr_cons still, unifyLineEnds_cr_cons alone, List.take_succ_cons, front]
      · rw [unifyLineEnds_cr_cons alone, List.drop_succ_cons, back]
  | case4 c rest _ other ih =>
    cases size with
    | zero => exact ⟨[], _, rfl, rfl, rfl⟩
    | succ size =>
      obtain ⟨before, after, rfl, front, back⟩ := ih size
      refine ⟨c :: before, after, rfl, ?_, ?_⟩
      · rw [unifyLineEnds_cons_of_ne other, unifyLineEnds_cons_of_ne other, List.take_succ_cons,
          front]
      · rw [unifyLineEnds_cons_of_ne other, List.drop_succ_cons, back]

/-- A range of the unified text comes from a piece of the text. -/
theorem exists_pieces_of_unifyLineEnds (chars : List Char) {start stop : Nat} (le : start ≤ stop) :
    ∃ before inside after, chars = before ++ inside ++ after ∧
      unifyLineEnds before = (unifyLineEnds chars).take start ∧
      unifyLineEnds inside = ((unifyLineEnds chars).take stop).drop start ∧
      unifyLineEnds after = (unifyLineEnds chars).drop stop := by
  obtain ⟨front, after, rfl, upTo, behind⟩ := exists_cut_of_unifyLineEnds chars stop
  obtain ⟨before, inside, rfl, first, second⟩ := exists_cut_of_unifyLineEnds front start
  refine ⟨before, inside, after, rfl, ?_, ?_, behind⟩
  · rw [first, upTo, List.take_take, Nat.min_eq_left le]
  · rw [second, upTo]

/-- A line end of two characters moves what stands behind it to the front by one. -/
example : unifyLineEnds "a\r\nb\rc".toList = "a\nb\nc".toList := by decide

end Phrasebook.Text
