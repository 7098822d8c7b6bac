/-!
# Phrasebook.Text.Pieces

Texts, of characters or of code points, cut into pieces.
-/

namespace Phrasebook.Text

variable {α : Type} [DecidableEq α]

/-- Cuts a text at every occurrence of a separator. Pieces may be empty, and there is always one
    more of them than there are separators. -/
def pieces (separator : α) : List α → List (List α)
  | [] => [[]]
  | c :: rest =>
    if c = separator then [] :: pieces separator rest
    else
      match pieces separator rest with
      | [] => [[c]]
      | piece :: more => (c :: piece) :: more

theorem pieces_ne_nil (separator : α) (text : List α) : pieces separator text ≠ [] := by
  cases text with
  | nil => simp [pieces]
  | cons c rest =>
    by_cases h : c = separator
    · simp [pieces, h]
    · cases hp : pieces separator rest <;> simp [pieces, h, hp]

/-- No piece of a text holds what the text was cut at. -/
theorem separator_not_mem_of_mem_pieces {separator : α} {text piece : List α}
    (member : piece ∈ pieces separator text) : separator ∉ piece := by
  -- A separator begins a new piece, anything else goes to the front of the first one.
  induction text generalizing piece with
  | nil =>
    rw [List.mem_singleton.mp member]
    exact List.not_mem_nil
  | cons c rest ih =>
    rw [pieces] at member
    split at member
    next cut =>
      rcases List.mem_cons.mp member with rfl | later
      · exact List.not_mem_nil
      · exact ih later
    next kept =>
      split at member
      next none => exact absurd none (pieces_ne_nil separator rest)
      next first more cut =>
        rcases List.mem_cons.mp member with rfl | later
        · have clean : separator ∉ first := ih (cut ▸ List.mem_cons_self)
          exact List.not_mem_cons_of_ne_of_not_mem (fun same => kept same.symm) clean
        · exact ih (cut ▸ List.mem_cons_of_mem _ later)

end Phrasebook.Text
