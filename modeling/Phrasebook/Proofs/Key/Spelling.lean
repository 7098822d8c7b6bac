import Mathlib.Data.List.Lex
import Mathlib.Order.Bounds.Basic
import Phrasebook.Proofs.Key.Segments

/-!
# Phrasebook.Proofs.Key.Spelling

The spellings of a key, and the order in which a search meets them.

Segments are cut into groups and every group is joined to one key. A cut is written down as the
positions at which its groups stop. A search along `candidates` runs through all cuts in descending
order (`cuts_descending`), so the first answer that it finds is the one at the greatest cut that has
one (`findSome?_cuts_eq_some_iff`). For proper segments the order of cuts is the order of ranks
(`rank_spell_lt_iff`), and the answer is the one at the highest spelling
(`findSome?_spellings_eq_some_iff`).
-/

namespace Phrasebook.Key

/-! ### Cuts -/

/-- A cut of the segments from a position on, by the positions at which its groups stop. -/
inductive Cut {Position : Type} [LT Position] (count : Position) :
    Position → List Position → Prop where
  | done : Cut count count []
  | group {start stop : Position} {stops : List Position} (forward : start < stop)
      (rest : Cut count stop stops) : Cut count start (stop :: stops)

/-- The cuts in the order in which a search meets them: the longest first group first. -/
def cuts (count depth start : Nat) : List (List Nat) :=
  if start = count then [[]]
  else
    match depth with
    | 0 => []
    | depth + 1 =>
      (List.range' (start + 1) (count - start)).reverse.flatMap fun stop =>
        (cuts count depth stop).map (stop :: ·)

theorem Cut.start_le {count start : Nat} {stops : List Nat} (cut : Cut count start stops) :
    start ≤ count := by
  induction cut with
  | done => exact Nat.le_refl _
  | group forward _ ih => omega

theorem cut_self_iff (count : Nat) (stops : List Nat) : Cut count count stops ↔ stops = [] := by
  constructor
  · rintro (_ | ⟨forward, rest⟩)
    · rfl
    · exact absurd rest.start_le (by omega)
  · rintro rfl
    exact .done

theorem cuts_self (count depth : Nat) : cuts count depth count = [[]] := by
  cases depth <;> simp [cuts]

theorem cuts_zero {count start : Nat} (short : start ≠ count) : cuts count 0 start = [] := by
  rw [cuts, if_neg short]

theorem cuts_succ {count start : Nat} (depth : Nat) (short : start ≠ count) :
    cuts count (depth + 1) start =
      (List.range' (start + 1) (count - start)).reverse.flatMap fun stop =>
        (cuts count depth stop).map (stop :: ·) := by
  rw [cuts, if_neg short]

theorem nil_not_mem_cuts {count start : Nat} (depth : Nat) (short : start ≠ count) :
    [] ∉ cuts count depth start := by
  cases depth with
  | zero => simp [cuts_zero short]
  | succ depth => simp [cuts_succ depth short]

theorem cuts_of_lt {count start : Nat} (depth : Nat) (beyond : count < start) :
    cuts count depth start = [] := by
  have short : start ≠ count := Nat.ne_of_gt beyond
  cases depth with
  | zero => exact cuts_zero short
  | succ depth =>
    have nothing : count - start = 0 := by omega
    simp [cuts_succ depth short, nothing]

/-- A depth of as many levels as there are segments left is enough to meet every cut. -/
theorem mem_cuts_iff {count depth start : Nat} (enough : count - start ≤ depth)
    (stops : List Nat) : stops ∈ cuts count depth start ↔ Cut count start stops := by
  -- A group takes at least one segment, so one unit of depth for each group is enough.
  induction depth generalizing start stops with
  | zero =>
    by_cases short : start = count
    · subst short
      rw [cuts_self, List.mem_singleton, cut_self_iff]
    · simp only [cuts_zero short, List.not_mem_nil, false_iff]
      intro cut
      exact short (Nat.le_antisymm cut.start_le (by omega))
  | succ depth ih =>
    by_cases short : start = count
    · subst short
      rw [cuts_self, List.mem_singleton, cut_self_iff]
    · simp only [cuts_succ depth short, List.mem_flatMap, List.mem_reverse, List.mem_range'_1,
        List.mem_map]
      constructor
      · rintro ⟨stop, bounds, rest, member, rfl⟩
        exact .group (by omega) ((ih (by omega) rest).mp member)
      · rintro (_ | ⟨forward, rest⟩)
        · exact absurd rfl short
        · have bound := rest.start_le
          exact ⟨_, by omega, _, (ih (by omega) _).mpr rest, rfl⟩

/-- A search meets the cuts in descending order. -/
theorem cuts_descending (count depth start : Nat) :
    (cuts count depth start).Pairwise fun earlier later => later < earlier := by
  induction depth generalizing start with
  | zero =>
    by_cases short : start = count
    · subst short
      simp [cuts_self]
    · simp [cuts_zero short]
  | succ depth ih =>
    by_cases short : start = count
    · subst short
      simp [cuts_self]
    · -- Cuts with the same first stop compare by their rest, any others by the first stop.
      rw [cuts_succ depth short, List.pairwise_flatMap]
      constructor
      · intro stop _
        rw [List.pairwise_map]
        exact (ih stop).imp fun less => List.cons_lt_cons_iff.mpr (.inr ⟨rfl, less⟩)
      · -- The first stops are tried from the greatest down.
        rw [List.pairwise_reverse]
        have ascending := List.pairwise_lt_range' (s := start + 1) (n := count - start) 1
        refine ascending.imp ?_
        intro stop further less cut longer other shorter
        obtain ⟨_, _, rfl⟩ := List.mem_map.mp longer
        obtain ⟨_, _, rfl⟩ := List.mem_map.mp shorter
        exact List.cons_lt_cons_iff.mpr (.inl less)

/-- A search along the cuts tries the stops of the first group, the furthest first, and behind each
    of them every cut of what is left. -/
theorem findSome?_cuts_succ {α : Type} {count start : Nat} (depth : Nat) (short : start ≠ count)
    (answer : List Nat → Option α) :
    (cuts count (depth + 1) start).findSome? answer =
      (List.range' (start + 1) (count - start)).reverse.findSome? fun stop =>
        (cuts count depth stop).findSome? fun stops => answer (stop :: stops) := by
  rw [cuts_succ depth short]
  generalize (List.range' (start + 1) (count - start)).reverse = order
  induction order with
  | nil => rfl
  | cons stop order ih =>
    rw [List.flatMap_cons, List.findSome?_append, ih, List.findSome?_map, List.findSome?_cons]
    simp only [Function.comp_def]
    cases (cuts count depth stop).findSome? fun stops => answer (stop :: stops) <;> rfl

theorem findSome?_cuts_eq_none_iff {α : Type} {count depth start : Nat}
    (enough : count - start ≤ depth) (answer : List Nat → Option α) :
    (cuts count depth start).findSome? answer = none ↔
      ∀ stops, Cut count start stops → answer stops = none := by
  simp only [List.findSome?_eq_none_iff, mem_cuts_iff enough]

/-- An answer that a search along the cuts finds is the one at the greatest cut that has any. -/
theorem greatest_of_findSome?_cuts {α : Type} {count depth start : Nat}
    (enough : count - start ≤ depth) {answer : List Nat → Option α} {found : α}
    (search : (cuts count depth start).findSome? answer = some found) :
    ∃ stops, IsGreatest {stops | Cut count start stops ∧ (answer stops).isSome} stops ∧
      answer stops = some found := by
  -- Cuts before the one with the answer are silent, and those after it are smaller.
  obtain ⟨before, stops, after, whole, answers, silent⟩ := List.findSome?_eq_some_iff.mp search
  have descending := cuts_descending count depth start
  rw [whole, List.pairwise_append, List.pairwise_cons] at descending
  have cut := (mem_cuts_iff enough stops).mp (by simp [whole])
  refine ⟨stops, ⟨⟨cut, by simp [answers]⟩, ?_⟩, answers⟩
  rintro other ⟨otherCut, loud⟩
  have member := (mem_cuts_iff enough other).mpr otherCut
  simp only [whole, List.mem_append, List.mem_cons] at member
  rcases member with earlier | rfl | later
  · simp [silent other earlier] at loud
  · exact le_refl _
  · exact le_of_lt (descending.2.1.1 other later)

/-- The first answer along the cuts is the one at the greatest cut that has an answer. -/
theorem findSome?_cuts_eq_some_iff {α : Type} {count depth start : Nat}
    (enough : count - start ≤ depth) (answer : List Nat → Option α) (found : α) :
    (cuts count depth start).findSome? answer = some found ↔
      ∃ stops, IsGreatest {stops | Cut count start stops ∧ (answer stops).isSome} stops ∧
        answer stops = some found := by
  constructor
  · exact greatest_of_findSome?_cuts enough
  · rintro ⟨stops, greatest, answers⟩
    cases search : (cuts count depth start).findSome? answer with
    | none =>
      have silent := (findSome?_cuts_eq_none_iff enough answer).mp search stops greatest.1.1
      simp [answers] at silent
    | some value =>
      obtain ⟨met, metGreatest, metAnswers⟩ := greatest_of_findSome?_cuts enough search
      rw [← metAnswers, metGreatest.unique greatest, answers]

/-! ### Spellings -/

/-- A path of keys spells some segments if each of its keys joins one group of a cut. -/
def IsSpelling (parts path : List Text) : Prop :=
  ∃ groups : List (List Text), groups.flatten = parts ∧ [] ∉ groups ∧ groups.map join = path

/-- The keys that the groups of a cut join to. -/
def spell (parts : List Text) (start : Nat) : List Nat → List Text
  | [] => []
  | stop :: stops => join ((parts.take stop).drop start) :: spell parts stop stops

/-- Of some paths, the one with the greatest rank, which no other one shares. -/
def Highest (among : List Text → Prop) (path : List Text) : Prop :=
  among path ∧ ∀ other, among other → other ≠ path → rank other < rank path

theorem Highest.unique {among : List Text → Prop} {first second : List Text}
    (one : Highest among first) (two : Highest among second) : first = second := by
  by_contra differ
  have below := two.2 first one.1 differ
  have above := one.2 second two.1 (Ne.symm differ)
  exact List.lt_asymm below above

theorem Highest.congr {among others : List Text → Prop} {path : List Text}
    (same : ∀ path, among path ↔ others path) : Highest among path ↔ Highest others path := by
  simp only [Highest, same]

/-- The spellings of the texts from a position on are what the cuts from there spell. -/
theorem isSpelling_drop_iff {parts : List Text} {start : Nat} (within : start ≤ parts.length)
    (path : List Text) :
    IsSpelling (parts.drop start) path ↔
      ∃ stops, Cut parts.length start stops ∧ spell parts start stops = path := by
  constructor
  · -- The positions at which the groups stop add up from their lengths.
    rintro ⟨groups, whole, full, rfl⟩
    induction groups generalizing start with
    | nil =>
      have last : parts.length ≤ start := List.drop_eq_nil_iff.mp whole.symm
      have same : start = parts.length := Nat.le_antisymm within last
      exact ⟨[], same ▸ .done, rfl⟩
    | cons group groups ih =>
      have nonempty : group ≠ [] := fun e => full (e ▸ List.mem_cons_self)
      have later : [] ∉ groups := fun e => full (List.mem_cons_of_mem _ e)
      rw [List.flatten_cons] at whole
      have size : group.length + groups.flatten.length = parts.length - start := by
        rw [← List.length_append, whole, List.length_drop]
      have rest : groups.flatten = parts.drop (start + group.length) := by
        rw [← List.drop_drop, ← whole, List.drop_left]
      have taken : (parts.take (start + group.length)).drop start = group := by
        rw [List.drop_take, Nat.add_sub_cancel_left, ← whole, List.take_left]
      have forward : 0 < group.length := List.length_pos_iff.mpr nonempty
      -- The rest of the segments begins where this group stops.
      obtain ⟨stops, cut, spelled⟩ := @ih (start + group.length) (by omega) rest later
      refine ⟨(start + group.length) :: stops, .group (by omega) cut, ?_⟩
      rw [spell, taken, spelled, List.map_cons]
  · -- The groups are the segments between one stop and the next.
    rintro ⟨stops, cut, rfl⟩
    induction cut with
    | done => exact ⟨[], by simp, by simp, rfl⟩
    | @group start stop stops forward rest ih =>
      have bound := rest.start_le
      obtain ⟨groups, whole, full, spelled⟩ := ih bound
      have size : (parts.take stop).length = stop := by
        rw [List.length_take, Nat.min_eq_left bound]
      refine ⟨(parts.take stop).drop start :: groups, ?_, ?_, ?_⟩
      · rw [List.flatten_cons, whole, ← List.drop_append_of_le_length (by omega),
          List.take_append_drop]
      · rw [List.mem_cons, not_or]
        refine ⟨fun empty => ?_, full⟩
        have short := List.drop_eq_nil_iff.mp empty.symm
        omega
      · rw [List.map_cons, spelled, spell]

/-- A search along the spellings tries the candidates in order, and behind each of them every
    spelling of the segments that it leaves over. -/
theorem findSome?_spellings_succ {α : Type} (parts : List Text) (depth : Nat) {start : Nat}
    (short : start ≠ parts.length) (answer : List Text → Option α) :
    ((cuts parts.length (depth + 1) start).findSome? fun stops =>
        answer (spell parts start stops)) =
      (candidates parts start).findSome? fun (key, next) =>
        (cuts parts.length depth next).findSome? fun stops =>
          answer (key :: spell parts next stops) := by
  rw [findSome?_cuts_succ depth short, candidates, List.findSome?_map]
  rfl

/-- What spells some segments is what joins to the same key without an empty part. -/
theorem isSpelling_iff {parts : List Text} (segments : ∀ part ∈ parts, IsSegment part)
    (path : List Text) :
    IsSpelling parts path ↔ (∀ part ∈ path, part ≠ []) ∧ join path = join parts := by
  constructor
  · rintro ⟨groups, whole, full, rfl⟩
    have inner : ∀ group ∈ groups, ∀ part ∈ group, IsSegment part := by
      intro group member part inside
      exact segments part (whole ▸ List.mem_flatten.mpr ⟨group, member, inside⟩)
    have named : ∀ part ∈ groups.map join, part ≠ [] := by
      intro part member
      obtain ⟨group, inside, rfl⟩ := List.mem_map.mp member
      exact join_ne_nil (fun part within => (inner group inside part within).1)
        fun e => full (e ▸ inside)
    -- A tidy key is determined by its segments, and both keys have the segments of the groups.
    have tidy : IsTidy (join (groups.map join)) := by
      rw [isTidy_join_iff named]
      intro part member
      obtain ⟨group, inside, rfl⟩ := List.mem_map.mp member
      exact isTidy_join_of_segments (inner group inside)
    have same : split (join (groups.map join)) = parts := by
      have each : ∀ group ∈ groups, split (join group) = group := fun group member =>
        split_join_of_segments (inner group member)
      rw [split_join, List.flatMap_map, List.flatMap_congr each, List.flatMap_id', whole]
    exact ⟨named, by rw [← tidy, same]⟩
  · -- The key of segments is tidy, hence so is every part of it, and splitting gives the groups.
    rintro ⟨named, same⟩
    have tidy : ∀ part ∈ path, IsTidy part := by
      rw [← isTidy_join_iff named, same]
      exact isTidy_join_of_segments segments
    refine ⟨path.map split, ?_, ?_, ?_⟩
    · rw [← List.flatMap_def, ← split_join, same, split_join_of_segments segments]
    · intro member
      obtain ⟨part, inside, empty⟩ := List.mem_map.mp member
      exact named part inside (by rw [← tidy part inside, empty, join_nil])
    · have same : path.map (join ∘ split) = path.map id := List.map_congr_left tidy
      rw [List.map_map, same, List.map_id]

/-! ### Positions counted from the end -/

/-- The segments between two positions, either of which may be counted from the end. -/
def slice (parts : List Text) (start stop : Int) : List Text :=
  (parts.take (before parts.length stop)).drop (before parts.length start)

/-- The keys that the groups of a cut join to, from a position on that may be negative. -/
def spellFrom (parts : List Text) (start : Int) : List Int → List Text
  | [] => []
  | stop :: stops => join (slice parts start stop) :: spellFrom parts stop stops

/-- The positions that lie some places behind a base. -/
def shift (base : Int) (places : List Nat) : List Int :=
  places.map fun (place : Nat) => base + place

@[simp] theorem shift_nil (base : Int) : shift base [] = [] := rfl

@[simp] theorem shift_cons (base : Int) (place : Nat) (places : List Nat) :
    shift base (place :: places) = (base + place) :: shift base places := rfl

theorem spellFrom_shift_zero (parts : List Text) (start : Nat) (stops : List Nat) :
    spellFrom parts start (shift 0 stops) = spell parts start stops := by
  induction stops generalizing start with
  | nil => rfl
  | cons stop stops ih => simp [spellFrom, spell, slice, before_natCast, ih]

/-- The candidates from a position on stop at each of the `count` positions behind a `base`, the last
    one first. -/
theorem candidatesFrom_eq_map {parts : List Text} {base : Int} {count : Nat}
    (whole : base + count = parts.length) (start : Nat) :
    candidatesFrom parts (base + start) =
      (List.range' (start + 1) (count - start)).reverse.map fun (stop : Nat) =>
        (join (slice parts (base + start) (base + stop)), base + stop) := by
  apply List.ext_getElem
  · simp [candidatesFrom]
    omega
  · intro i low high
    have bound : i < count - start := by simpa using high
    have stop : (parts.length : Int) - i = base + (start + 1 + (count - start - 1 - i) : Nat) := by
      omega
    simp [candidatesFrom, slice, stop]

/-! ### Ranks -/

/-- The rank of a spelling begins with the number of segments of its first component. -/
theorem rank_spell_cons (parts : List Text) (start stop : Nat) (stops : List Nat) :
    rank (spell parts start (stop :: stops)) =
      (split (join ((parts.take stop).drop start))).length :: rank (spell parts stop stops) := rfl

/-- A key that joins some segments counts them. -/
theorem length_split_join_slice {parts : List Text} (segments : ∀ part ∈ parts, IsSegment part)
    {stop : Nat} (bound : stop ≤ parts.length) (start : Nat) :
    (split (join ((parts.take stop).drop start))).length = stop - start := by
  rw [split_join_of_segments, List.length_drop, List.length_take, Nat.min_eq_left bound]
  intro part member
  exact segments part (List.mem_of_mem_take (List.mem_of_mem_drop member))

/-- Ranks of spellings compare as the cuts do that they come from. -/
theorem rank_spell_lt_iff {parts : List Text} (segments : ∀ part ∈ parts, IsSegment part)
    {start : Nat} {one two : List Nat} (first : Cut parts.length start one)
    (second : Cut parts.length start two) :
    rank (spell parts start one) < rank (spell parts start two) ↔ one < two := by
  induction first generalizing two with
  | done =>
    rw [(cut_self_iff _ two).mp second]
    simp [spell, rank]
  | @group start stop stops forward rest ih =>
    cases second with
    | done => exact absurd rest.start_le (by omega)
    | @group _ stop' stops' forward' rest' =>
      -- Two groups that begin at one place compare by length as they do by their stops.
      rw [rank_spell_cons, rank_spell_cons, length_split_join_slice segments rest.start_le,
        length_split_join_slice segments rest'.start_le, List.cons_lt_cons_iff,
        List.cons_lt_cons_iff]
      have less : stop - start < stop' - start ↔ stop < stop' := by omega
      have equal : stop - start = stop' - start ↔ stop = stop' := by omega
      rw [less, equal]
      refine or_congr Iff.rfl (and_congr_right ?_)
      rintro rfl
      exact ih rest'

/-- Of two different spellings of the same segments, one has the lower rank. -/
theorem rank_lt_or_gt {parts : List Text} (segments : ∀ part ∈ parts, IsSegment part)
    {one two : List Text} (first : IsSpelling parts one) (second : IsSpelling parts two)
    (differ : one ≠ two) : rank one < rank two ∨ rank two < rank one := by
  obtain ⟨stops, cut, rfl⟩ := (isSpelling_drop_iff (Nat.zero_le _) one).mp first
  obtain ⟨stops', cut', rfl⟩ := (isSpelling_drop_iff (Nat.zero_le _) two).mp second
  have stopsDiffer : stops ≠ stops' := by
    rintro rfl
    exact differ rfl
  rw [rank_spell_lt_iff segments cut cut', rank_spell_lt_iff segments cut' cut]
  exact lt_or_gt_of_ne stopsDiffer

/-- The first answer along the spellings of some segments is the one at the highest spelling that
    has an answer. -/
theorem findSome?_spellings_eq_some_iff {α : Type} {parts : List Text}
    (segments : ∀ part ∈ parts, IsSegment part) (answer : List Text → Option α) (found : α) :
    ((cuts parts.length parts.length 0).findSome? fun stops => answer (spell parts 0 stops)) =
        some found ↔
      ∃ path, Highest (fun path => IsSpelling parts path ∧ (answer path).isSome) path ∧
        answer path = some found := by
  have spelled (path : List Text) := isSpelling_drop_iff (Nat.zero_le parts.length) path
  rw [List.drop_zero] at spelled
  rw [findSome?_cuts_eq_some_iff (by omega)]
  constructor
  · rintro ⟨stops, ⟨⟨cut, loud⟩, greatest⟩, answers⟩
    refine ⟨spell parts 0 stops, ⟨⟨(spelled _).mpr ⟨stops, cut, rfl⟩, loud⟩, ?_⟩, answers⟩
    rintro other ⟨spelling, loud⟩ differ
    obtain ⟨stops', cut', rfl⟩ := (spelled other).mp spelling
    rw [rank_spell_lt_iff segments cut' cut]
    exact lt_of_le_of_ne (greatest ⟨cut', loud⟩) fun same => differ (same ▸ rfl)
  · rintro ⟨path, ⟨⟨spelling, loud⟩, highest⟩, answers⟩
    obtain ⟨stops, cut, rfl⟩ := (spelled path).mp spelling
    refine ⟨stops, ⟨⟨cut, loud⟩, ?_⟩, answers⟩
    rintro other ⟨cut', loud⟩
    refine le_of_not_gt fun above => ?_
    have higher := (rank_spell_lt_iff segments cut cut').mpr above
    -- Two cuts that spell the same path have equal ranks, so neither cut is below the other.
    by_cases same : spell parts 0 other = spell parts 0 stops
    · exact List.lt_irrefl _ (same ▸ higher)
    · exact List.lt_asymm higher (highest _ ⟨(spelled _).mpr ⟨other, cut', rfl⟩, loud⟩ same)

theorem findSome?_spellings_eq_none_iff {α : Type} (parts : List Text)
    (answer : List Text → Option α) :
    ((cuts parts.length parts.length 0).findSome? fun stops => answer (spell parts 0 stops)) =
        none ↔
      ∀ path, IsSpelling parts path → answer path = none := by
  have spelled (path : List Text) := isSpelling_drop_iff (Nat.zero_le parts.length) path
  rw [List.drop_zero] at spelled
  rw [findSome?_cuts_eq_none_iff (by omega)]
  constructor
  · intro silent path spelling
    obtain ⟨stops, cut, rfl⟩ := (spelled path).mp spelling
    exact silent stops cut
  · intro silent stops cut
    exact silent _ ((spelled _).mpr ⟨stops, cut, rfl⟩)

end Phrasebook.Key
