import Mathlib.Order.Bounds.Image
import Phrasebook.Proofs.Tree.Path

/-!
# Phrasebook.Proofs.Tree.Walk

Where a walk along arbitrary texts ends, from any position on.

The texts need not be segments, so two cuts may join to the same keys, and ranks do not tell them
apart. The positions do: a walk ends where the greatest cut leads to, of all cuts that lead to a
phrase or a mapping (`walkFrom_ends_at_greatest_cut`). A position may be counted from the end; from
any other one `walk` is the same walk, so it ends there, too (`walk_ends_at_greatest_cut`).
-/

namespace Phrasebook

namespace Key

/-- Positions behind a base are cut as places are without it. -/
theorem cut_add_iff (base : Int) (count start : Nat) (stops : List Int) :
    Cut (base + count) (base + start) stops ↔
      ∃ places, Cut count start places ∧ shift base places = stops := by
  constructor
  · intro cut
    generalize low : base + (start : Int) = first at cut
    induction cut generalizing start with
    | done =>
      obtain rfl : start = count := by omega
      exact ⟨[], .done, rfl⟩
    | @group _ stop stops forward rest ih =>
      -- The cut goes up from a place behind the base, so every stop is one.
      obtain ⟨place, rfl⟩ : ∃ place : Nat, base + place = stop := ⟨(stop - base).toNat, by omega⟩
      obtain ⟨places, cut, rfl⟩ := ih place rfl
      exact ⟨place :: places, .group (by omega) cut, rfl⟩
  · rintro ⟨places, cut, rfl⟩
    induction cut with
    | done => exact .done
    | @group start stop stops forward _ ih =>
      have further : base + (start : Int) < base + stop := by omega
      exact .group further ih

theorem Cut.from_le {count start : Int} {stops : List Int} (cut : Cut count start stops) :
    start ≤ count := by
  induction cut with
  | done => exact le_refl _
  | group forward _ ih => omega

theorem strictMono_shift (base : Int) : StrictMono (shift base) := by
  intro one two less
  exact List.map_lt (fun _ _ lower => by omega) less

end Key

namespace Tree

variable {parts : List Text} {start : Int}

/-- A cut of some texts from a position on leads to a phrase or a mapping. -/
def Answers (tree : Tree) (parts : List Text) (start : Int) (stops : List Int) : Prop :=
  Key.Cut (parts.length : Int) start stops ∧
    ∃ found, tree.at? (Key.spellFrom parts start stops) = some found ∧ found ≠ .null

theorem isSome_bind_present?_iff (reached : Option Tree) :
    (reached.bind present?).isSome ↔ ∃ found, reached = some found ∧ found ≠ .null := by
  simp only [Option.isSome_iff_exists, bind_present?_eq_some_iff]

theorem walkFrom_of_lt (beyond : (parts.length : Int) < start) (tree : Tree) :
    tree.walkFrom parts start = none := by
  have nothing : ((parts.length : Int) - start).toNat = 0 := by omega
  have differ : start ≠ parts.length := by omega
  simp [walkFrom, nothing, reachFrom, differ]

theorem not_answers_of_lt (beyond : (parts.length : Int) < start) (tree : Tree)
    (stops : List Int) : ¬ tree.Answers parts start stops := by
  rintro ⟨cut, _⟩
  have within := cut.from_le
  omega

section Within

variable {count : Nat} (whole : start + (count : Int) = parts.length) (tree : Tree)

include whole

theorem walkFrom_eq_findSome? :
    tree.walkFrom parts start =
      (Key.cuts count count 0).findSome? fun places =>
        (tree.at? (Key.spellFrom parts start (Key.shift start places))).bind present? := by
  have left : ((parts.length : Int) - start).toNat = count := by omega
  have search := reachFrom_eq_findSome? whole count tree 0
  simpa [walkFrom, left] using search

/-- The cuts with an answer are those from zero, moved to the start. -/
theorem answers_eq_image :
    {stops | tree.Answers parts start stops} = Key.shift start ''
      {places | Key.Cut count 0 places ∧
        ((tree.at? (Key.spellFrom parts start (Key.shift start places))).bind present?).isSome} := by
  -- A search knows a cut by its places behind the start, an answer by its positions.
  ext stops
  have cut := Key.cut_add_iff start count 0 stops
  simp only [whole, Int.natCast_zero, Int.add_zero] at cut
  simp only [Answers, Set.mem_ofPred_eq, Set.mem_image, isSome_bind_present?_iff, cut]
  constructor
  · rintro ⟨⟨places, inside, rfl⟩, answers⟩
    exact ⟨places, ⟨inside, answers⟩, rfl⟩
  · rintro ⟨places, ⟨inside, answers⟩, rfl⟩
    exact ⟨⟨places, inside, rfl⟩, answers⟩

end Within

/-- The walk ends at what the greatest cut with an answer leads to. -/
theorem walkFrom_eq_some_iff (tree found : Tree) :
    tree.walkFrom parts start = some found ↔
      ∃ stops, IsGreatest {stops | tree.Answers parts start stops} stops ∧
        tree.at? (Key.spellFrom parts start stops) = some found := by
  rcases lt_or_ge (parts.length : Int) start with beyond | within
  · simp [walkFrom_of_lt beyond, not_answers_of_lt beyond, IsGreatest]
  · obtain ⟨count, whole⟩ : ∃ count : Nat, start + (count : Int) = parts.length :=
      ⟨((parts.length : Int) - start).toNat, by omega⟩
    rw [walkFrom_eq_findSome? whole, answers_eq_image whole,
      Key.findSome?_cuts_eq_some_iff (by omega)]
    -- A shift keeps the order of cuts, and with it the greatest.
    constructor
    · rintro ⟨places, greatest, answers⟩
      exact ⟨_, (Key.strictMono_shift start).map_isGreatest.mpr greatest,
        ((bind_present?_eq_some_iff _ _).mp answers).1⟩
    · rintro ⟨stops, greatest, leads⟩
      obtain ⟨places, ⟨_, loud⟩, rfl⟩ := greatest.1
      obtain ⟨reached, same, present⟩ := (isSome_bind_present?_iff _).mp loud
      obtain rfl : reached = found := Option.some.inj (same.symm.trans leads)
      exact ⟨places, (Key.strictMono_shift start).map_isGreatest.mp greatest,
        (bind_present?_eq_some_iff _ _).mpr ⟨leads, present⟩⟩

theorem isSome_walkFrom_iff (tree : Tree) :
    (tree.walkFrom parts start).isSome ↔ ∃ stops, tree.Answers parts start stops := by
  constructor
  · intro found
    obtain ⟨reached, walked⟩ := Option.isSome_iff_exists.mp found
    obtain ⟨stops, greatest, _⟩ := (walkFrom_eq_some_iff tree reached).mp walked
    exact ⟨stops, greatest.1⟩
  · rintro ⟨stops, answers⟩
    have within := answers.1.from_le
    -- A cut only exists from a start within the segments, so their distance is a natural number.
    obtain ⟨count, whole⟩ : ∃ count : Nat, start + (count : Int) = parts.length :=
      ⟨((parts.length : Int) - start).toNat, by omega⟩
    have member : stops ∈ {stops | tree.Answers parts start stops} := answers
    rw [answers_eq_image whole] at member
    obtain ⟨places, ⟨cut, loud⟩, rfl⟩ := member
    rw [walkFrom_eq_findSome? whole, List.findSome?_isSome_iff]
    exact ⟨places, (Key.mem_cuts_iff (by omega) places).mpr cut, loud⟩

/-- A walk from any position on finds something exactly if some cut of the texts from there on leads
    to a phrase or a mapping, and then it finds what the greatest such cut leads to. -/
theorem walkFrom_ends_at_greatest_cut (tree : Tree) (parts : List Text) (start : Int) :
    ((tree.walkFrom parts start).isSome ↔ ∃ stops, tree.Answers parts start stops) ∧
      ∀ found, tree.walkFrom parts start = some found ↔
        ∃ stops, IsGreatest {stops | tree.Answers parts start stops} stops ∧
          tree.at? (Key.spellFrom parts start stops) = some found :=
  ⟨isSome_walkFrom_iff tree, walkFrom_eq_some_iff tree⟩

/-- The longest key leads to a null leaf, so the walk goes on with a shorter one. -/
example :
    (Tree.branch [("a.b", .null), ("a", .branch [("b", .text "x")])]).walkFrom ["a", "b"] (-2) =
      some (.text "x") := rfl

/-- From a position that is not counted from the end, `walk` finds the same. -/
theorem walk_ends_at_greatest_cut (tree : Tree) (parts : List Text) (start : Nat) :
    ((tree.walk parts start).isSome ↔ ∃ stops, tree.Answers parts start stops) ∧
      ∀ found, tree.walk parts start = some found ↔
        ∃ stops, IsGreatest {stops | tree.Answers parts start stops} stops ∧
          tree.at? (Key.spellFrom parts start stops) = some found := by
  rw [← walkFrom_natCast]
  exact ⟨isSome_walkFrom_iff tree, walkFrom_eq_some_iff tree⟩

end Tree

end Phrasebook
