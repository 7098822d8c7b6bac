import Mathlib.Order.Nat
import Phrasebook.Proofs.Store.Run

/-!
# Phrasebook.Proofs.Store.History

Which parts a store holds, and in which order, read off the changes that it has been through.

Changes are named by their places in the history. A fragment keeps the place at which it was
registered. A file takes the place at which it was first registered since its part was last taken
away, and holds there what was registered for it last (`Holds`). The parts of a store are exactly
those that the history holds, by ascending places (`Slots`); that no file has two parts is a
consequence.
-/

namespace Phrasebook.Store

/-! ### Histories -/

def Change.part? : Change → Option Part
  | .merge phrases _ document sourceFile => some (.ofPhrases phrases document sourceFile)
  | _ => none

/-- A change takes the parts of a source away. Only a reset does so with fragments. -/
def Change.Drops (source : Option String) : Change → Prop
  | .merge .. => False
  | .remove file => source = some file
  | .reset => True

/-- The part that is registered at a place of a history. -/
def registered? (changes : List Change) (place : Nat) : Option Part :=
  changes[place]?.bind Change.part?

/-- A part of a file is registered at a place. -/
def RegistersAt (changes : List Change) (file : String) (place : Nat) : Prop :=
  ∃ part, registered? changes place = some part ∧ part.sourceFile = some file

/-- The parts of a source are taken away at a place. -/
def DropsAt (changes : List Change) (source : Option String) (place : Nat) : Prop :=
  ∃ change, changes[place]? = some change ∧ change.Drops source

/-- What is registered for a source at a place has not been taken away since. -/
def KeptSince (changes : List Change) (source : Option String) (place : Nat) : Prop :=
  ∀ later, place < later → ¬ DropsAt changes source later

/-- A file is registered at a place for the first time since its part was last taken away. -/
def FirstAt (changes : List Change) (file : String) (place : Nat) : Prop :=
  RegistersAt changes file place ∧ ∀ earlier, earlier < place → RegistersAt changes file earlier →
    ∃ between, earlier < between ∧ between < place ∧ DropsAt changes (some file) between

/-- A history holds a part at a place. -/
inductive Holds (changes : List Change) : Nat → Part → Prop where
  /-- A fragment, at the place at which it was registered. -/
  | fragment {place : Nat} {part : Part} (registered : registered? changes place = some part)
      (bare : part.sourceFile = none) (kept : KeptSince changes none place) :
      Holds changes place part
  /-- The part that was registered last for a file, at the place at which the file came first. -/
  | file {place latest : Nat} {part : Part} {file : String} (first : FirstAt changes file place)
      (kept : KeptSince changes (some file) place)
      (registered : registered? changes latest = some part)
      (named : part.sourceFile = some file)
      (final : ∀ later, latest < later → ¬ RegistersAt changes file later) :
      Holds changes place part

section Bounds

variable {changes : List Change}

theorem lt_of_registered? {place : Nat} {part : Part}
    (registered : registered? changes place = some part) : place < changes.length := by
  obtain ⟨change, at_place, _⟩ := Option.bind_eq_some_iff.mp registered
  exact (List.getElem?_eq_some_iff.mp at_place).1

theorem RegistersAt.lt {file : String} {place : Nat} (registers : RegistersAt changes file place) :
    place < changes.length := by
  obtain ⟨part, registered, _⟩ := registers
  exact lt_of_registered? registered

theorem DropsAt.lt {source : Option String} {place : Nat} (drops : DropsAt changes source place) :
    place < changes.length := by
  obtain ⟨change, at_place, _⟩ := drops
  exact (List.getElem?_eq_some_iff.mp at_place).1

/-- A change that registers a part takes none away. -/
theorem RegistersAt.not_dropsAt {file : String} {place : Nat}
    (registers : RegistersAt changes file place) (source : Option String) :
    ¬ DropsAt changes source place := by
  rintro ⟨change, at_place, drops⟩
  obtain ⟨part, registered, _⟩ := registers
  obtain ⟨same, at_same, gives⟩ := Option.bind_eq_some_iff.mp registered
  cases at_place.symm.trans at_same
  cases change with
  | merge phrases distinct document sourceFile => exact drops
  | remove other => cases gives
  | reset => cases gives

theorem FirstAt.unique {file : String} {one two : Nat} (first : FirstAt changes file one)
    (second : FirstAt changes file two) (keptOne : KeptSince changes (some file) one)
    (keptTwo : KeptSince changes (some file) two) : one = two := by
  -- Between two places of a file its part would have been taken away.
  rcases lt_trichotomy one two with below | same | above
  · obtain ⟨between, after, _, drops⟩ := second.2 one below first.1
    exact absurd drops (keptOne between after)
  · exact same
  · obtain ⟨between, after, _, drops⟩ := first.2 two above second.1
    exact absurd drops (keptTwo between after)

/-- A file with a registration that is kept was registered for a first time since. -/
theorem exists_firstAt {file : String} {place : Nat} (registers : RegistersAt changes file place)
    (kept : KeptSince changes (some file) place) :
    ∃ first, FirstAt changes file first ∧ KeptSince changes (some file) first := by
  classical
  -- The place of the file is the least one from which on it is kept.
  have somewhere : ∃ n, RegistersAt changes file n ∧ KeptSince changes (some file) n :=
    ⟨place, registers, kept⟩
  obtain ⟨firstRegisters, firstKept⟩ := Nat.find_spec somewhere
  refine ⟨Nat.find somewhere, ⟨firstRegisters, fun earlier below early => ?_⟩, firstKept⟩
  have lost : ¬ KeptSince changes (some file) earlier := fun keptEarly =>
    Nat.find_min somewhere below ⟨early, keptEarly⟩
  simp only [KeptSince, not_forall, not_not] at lost
  obtain ⟨later, after, drops⟩ := lost
  refine ⟨later, after, ?_, drops⟩
  -- Whatever took the file away did so before its place, since it is kept from there on.
  rcases lt_trichotomy later (Nat.find somewhere) with before | same | beyond
  · exact before
  · exact absurd (same ▸ drops) (firstRegisters.not_dropsAt _)
  · exact absurd drops (firstKept later beyond)

/-- At the place of the first registration the history holds a part of the file. -/
theorem FirstAt.exists_holds {file : String} {place : Nat} (first : FirstAt changes file place)
    (kept : KeptSince changes (some file) place) :
    ∃ part, Holds changes place part ∧ part.sourceFile = some file := by
  classical
  -- What the file holds was registered at the greatest of its places.
  obtain ⟨part, registered, named⟩ :=
    Nat.findGreatest_spec (P := RegistersAt changes file) first.1.lt.le first.1
  refine ⟨part, .file first kept registered named fun later beyond again => ?_, named⟩
  exact Nat.findGreatest_is_greatest beyond again.lt.le again

/-- A part with a file is held at the place where the file was first registered. -/
theorem Holds.firstAt {place : Nat} {part : Part} {file : String} (holds : Holds changes place part)
    (named : part.sourceFile = some file) :
    FirstAt changes file place ∧ KeptSince changes (some file) place := by
  cases holds with
  | fragment _ bare => cases bare.symm.trans named
  | file first kept _ own =>
    cases own.symm.trans named
    exact ⟨first, kept⟩

theorem Holds.lt {place : Nat} {part : Part} (holds : Holds changes place part) :
    place < changes.length := by
  cases holds with
  | fragment registered => exact lt_of_registered? registered
  | file first => exact first.1.lt

theorem Holds.unique {one two : Nat} {first second : Part} {file : String}
    (holds : Holds changes one first) (others : Holds changes two second)
    (named : first.sourceFile = some file) (same : second.sourceFile = some file) : one = two :=
  (holds.firstAt named).1.unique (others.firstAt same).1 (holds.firstAt named).2
    (others.firstAt same).2

end Bounds

/-! ### One more change -/

theorem getElem?_concat {α : Type} (events : List α) (event : α) (place : Nat) :
    (events ++ [event])[place]? =
      if place = events.length then some event else events[place]? := by
  rcases lt_trichotomy place events.length with inside | last | beyond
  · rw [List.getElem?_append_left inside, if_neg (Nat.ne_of_lt inside)]
  · rw [last, List.getElem?_concat_length, if_pos rfl]
  · have short : (events ++ [event]).length ≤ place := by
      rw [List.length_append, List.length_singleton]
      omega
    rw [List.getElem?_eq_none short, if_neg (Nat.ne_of_gt beyond),
      List.getElem?_eq_none beyond.le]

section Concat

variable (changes : List Change) (change : Change)

theorem registered?_concat (place : Nat) :
    registered? (changes ++ [change]) place =
      if place = changes.length then change.part? else registered? changes place := by
  rw [registered?, getElem?_concat]
  split <;> rfl

theorem registersAt_concat (file : String) (place : Nat) :
    RegistersAt (changes ++ [change]) file place ↔
      RegistersAt changes file place ∨
        place = changes.length ∧ ∃ part, change.part? = some part ∧ part.sourceFile = some file := by
  by_cases last : place = changes.length
  · have none_yet : ¬ RegistersAt changes file place := fun registers =>
      absurd registers.lt (by omega)
    rw [RegistersAt, registered?_concat, if_pos last]
    simp [last ▸ none_yet, last]
  · rw [RegistersAt, registered?_concat, if_neg last]
    simp [last, RegistersAt]

theorem dropsAt_concat (source : Option String) (place : Nat) :
    DropsAt (changes ++ [change]) source place ↔
      DropsAt changes source place ∨ place = changes.length ∧ change.Drops source := by
  by_cases last : place = changes.length
  · have none_yet : ¬ DropsAt changes source place := fun drops => absurd drops.lt (by omega)
    rw [DropsAt, getElem?_concat, if_pos last]
    simp [last ▸ none_yet, last]
  · rw [DropsAt, getElem?_concat, if_neg last]
    simp [last, DropsAt]

/-- What is kept stays kept unless the last change takes it away. -/
theorem keptSince_concat (source : Option String) {place : Nat} (before : place < changes.length) :
    KeptSince (changes ++ [change]) source place ↔
      KeptSince changes source place ∧ ¬ change.Drops source := by
  simp only [KeptSince, dropsAt_concat, not_or, not_and]
  constructor
  · intro kept
    exact ⟨fun later after => (kept later after).1, (kept _ before).2 rfl⟩
  · rintro ⟨kept, stays⟩ later after
    exact ⟨kept later after, fun _ => stays⟩

theorem keptSince_length (source : Option String) :
    KeptSince (changes ++ [change]) source changes.length := by
  intro later after drops
  have bound := drops.lt
  rw [List.length_append, List.length_singleton] at bound
  omega

/-- A file takes the next place exactly if all that was registered for it has been taken away. -/
theorem firstAt_concat (file : String) (place : Nat) :
    FirstAt (changes ++ [change]) file place ↔
      FirstAt changes file place ∨
        (place = changes.length ∧
          ∃ part, change.part? = some part ∧ part.sourceFile = some file) ∧
        ∀ earlier, RegistersAt changes file earlier → ¬ KeptSince changes (some file) earlier := by
  by_cases last : place = changes.length
  · subst last
    have none_yet : ¬ RegistersAt changes file changes.length := fun registers =>
      absurd registers.lt (by omega)
    have no_first : ¬ FirstAt changes file changes.length := fun first => none_yet first.1
    rw [or_iff_right no_first, FirstAt]
    simp only [registersAt_concat, none_yet, false_or, true_and]
    refine and_congr_right fun _ => ?_
    -- All drops lie before the new place, so the file is new there if no place of it is kept.
    constructor
    · intro dropped earlier early kept
      obtain ⟨between, after, below, drops⟩ := dropped earlier early.lt (.inl early)
      rw [dropsAt_concat] at drops
      rcases drops with drops | ⟨same, _⟩
      · exact kept between after drops
      · omega
    · rintro dropped earlier below (early | ⟨same, _⟩)
      · have lost := dropped earlier early
        simp only [KeptSince, not_forall, not_not] at lost
        obtain ⟨between, after, drops⟩ := lost
        exact ⟨between, after, drops.lt, (dropsAt_concat ..).mpr (.inl drops)⟩
      · omega
  · -- An earlier place does not see the new change, which comes after everything it looks at.
    simp only [last, false_and, or_false, FirstAt, registersAt_concat, dropsAt_concat]
    refine and_congr_right fun registers => forall_congr' fun earlier => ?_
    have bound := registers.lt
    constructor
    · intro dropped below early
      obtain ⟨between, after, before, drops | ⟨same, _⟩⟩ := dropped below (.inl early)
      · exact ⟨between, after, before, drops⟩
      · omega
    · rintro dropped below (early | ⟨same, _⟩)
      · obtain ⟨between, after, before, drops⟩ := dropped below early
        exact ⟨between, after, before, .inl drops⟩
      · omega

/-- A change that registers nothing leaves the parts held that it does not take away. -/
theorem holds_concat_of_drop (nothing : change.part? = none) (place : Nat) (part : Part) :
    Holds (changes ++ [change]) place part ↔
      Holds changes place part ∧ ¬ change.Drops part.sourceFile := by
  -- No place is added, so the two histories can differ only in what is kept.
  have same (place : Nat) : registered? (changes ++ [change]) place = registered? changes place := by
    rw [registered?_concat]
    split
    next last =>
      rw [nothing, last]
      exact (Option.eq_none_iff_forall_ne_some.mpr fun part registered =>
        absurd (lt_of_registered? registered) (by omega)).symm
    next => rfl
  have registers (file : String) (place : Nat) :
      RegistersAt (changes ++ [change]) file place ↔ RegistersAt changes file place := by
    rw [RegistersAt, RegistersAt, same]
  have first (file : String) (place : Nat) :
      FirstAt (changes ++ [change]) file place ↔ FirstAt changes file place := by
    simp [firstAt_concat, nothing]
  constructor
  · intro holds
    cases holds with
    | fragment registered bare kept =>
      rw [same] at registered
      rw [keptSince_concat _ _ _ (lt_of_registered? registered)] at kept
      exact ⟨.fragment registered bare kept.1, bare ▸ kept.2⟩
    | file firstAt kept registered named final =>
      rw [same] at registered
      rw [first] at firstAt
      rw [keptSince_concat _ _ _ firstAt.1.lt] at kept
      simp only [registers] at final
      exact ⟨.file firstAt kept.1 registered named final, named ▸ kept.2⟩
  · rintro ⟨holds, stays⟩
    cases holds with
    | fragment registered bare kept =>
      refine .fragment ((same place).trans registered) bare ?_
      rw [keptSince_concat _ _ _ (lt_of_registered? registered)]
      exact ⟨kept, bare ▸ stays⟩
    | file firstAt kept registered named final =>
      refine .file ((first _ _).mpr firstAt) ?_ ((same _).trans registered) named ?_
      · rw [keptSince_concat _ _ _ firstAt.1.lt]
        exact ⟨kept, named ▸ stays⟩
      · simpa only [registers] using final

section Register

variable {changes change} {new : Part} (registers : change.part? = some new)

include registers

theorem not_drops_of_part? (source : Option String) : ¬ change.Drops source := by
  cases change with
  | merge phrases distinct document sourceFile => exact id
  | remove file => cases registers
  | reset => cases registers

/-- Registering a part leaves those held that it does not replace. -/
theorem holds_concat_of_other {place : Nat} {part : Part}
    (other : part.sourceFile = new.sourceFile →
      part.sourceFile = none ∧ place ≠ changes.length) :
    Holds (changes ++ [change]) place part ↔ Holds changes place part := by
  -- Registering a part changes nothing about other files, nor about earlier fragments.
  have stays := not_drops_of_part? registers
  have differs {file : String} (named : part.sourceFile = some file) :
      new.sourceFile ≠ some file := by
    intro same
    cases named.symm.trans (other (named.trans same.symm)).1
  have same {file : String} (named : part.sourceFile = some file) (place : Nat) :
      RegistersAt (changes ++ [change]) file place ↔ RegistersAt changes file place := by
    simp [registersAt_concat, registers, differs named]
  constructor
  · intro holds
    cases holds with
    | fragment registered bare kept =>
      rw [registered?_concat] at registered
      split at registered
      next last =>
        cases registered.symm.trans registers
        exact absurd last (other rfl).2
      next =>
        rw [keptSince_concat _ _ _ (lt_of_registered? registered)] at kept
        exact .fragment registered bare kept.1
    | @file _ _ file first kept registered named final =>
      have old : FirstAt changes file place := by
        simpa [firstAt_concat, registers, differs named] using first
      rw [keptSince_concat _ _ _ old.1.lt] at kept
      rw [registered?_concat] at registered
      split at registered
      next =>
        cases registers.symm.trans registered
        exact absurd named (differs named)
      next => exact .file old kept.1 registered named (by simpa only [same named] using final)
  · intro holds
    cases holds with
    | @fragment _ registered bare kept =>
      have before := lt_of_registered? registered
      refine .fragment ?_ bare ?_
      · rw [registered?_concat, if_neg (Nat.ne_of_lt before)]
        exact registered
      · rw [keptSince_concat _ _ _ before]
        exact ⟨kept, stays _⟩
    | @file latest _ file first kept registered named final =>
      have still : registered? (changes ++ [change]) latest = some part := by
        rw [registered?_concat, if_neg (Nat.ne_of_lt (lt_of_registered? registered))]
        exact registered
      refine .file ((firstAt_concat ..).mpr (.inl first)) ?_ still named ?_
      · rw [keptSince_concat _ _ _ first.1.lt]
        exact ⟨kept, stays _⟩
      · simpa only [same named] using final

theorem holds_concat_length_iff_of_fragment (bare : new.sourceFile = none) {part : Part} :
    Holds (changes ++ [change]) changes.length part ↔ part = new := by
  have at_end : registered? (changes ++ [change]) changes.length = some new := by
    rw [registered?_concat, if_pos rfl, registers]
  constructor
  · intro holds
    cases holds with
    | fragment registered => exact (Option.some.inj (at_end.symm.trans registered)).symm
    | file first =>
      obtain ⟨⟨_, registered, own⟩, _⟩ := first
      cases at_end.symm.trans registered
      cases bare.symm.trans own
  · rintro rfl
    exact .fragment at_end bare (keptSince_length _ _ _)

/-- A part of a file is held at the place that its file has, or at the next one if it has none. -/
theorem holds_concat_iff_of_file {file : String} (named : new.sourceFile = some file) {place : Nat}
    {part : Part} (same : part.sourceFile = some file) :
    Holds (changes ++ [change]) place part ↔
      part = new ∧ ((∃ old, Holds changes place old ∧ old.sourceFile = some file) ∨
        place = changes.length ∧ ∀ first old, Holds changes first old →
          old.sourceFile ≠ some file) := by
  have stays := not_drops_of_part? registers
  have at_end : registered? (changes ++ [change]) changes.length = some new := by
    rw [registered?_concat, if_pos rfl, registers]
  constructor
  · intro holds
    cases holds with
    | fragment _ bare => cases bare.symm.trans same
    | @file latest _ own first kept registered owned final =>
      cases owned.symm.trans same
      have bound := lt_of_registered? registered
      rw [List.length_append, List.length_singleton] at bound
      -- The new part is the latest of its file, so no earlier one is held.
      have last : latest = changes.length := by
        by_contra differ
        exact final changes.length (by omega) ⟨new, at_end, named⟩
      cases at_end.symm.trans (last ▸ registered)
      refine ⟨rfl, ?_⟩
      rcases (firstAt_concat ..).mp first with old | ⟨⟨rfl, _⟩, dropped⟩
      · rw [keptSince_concat _ _ _ old.1.lt] at kept
        exact .inl (old.exists_holds kept.1)
      · refine .inr ⟨rfl, fun earlier old holds named => ?_⟩
        have ⟨oldFirst, oldKept⟩ := holds.firstAt named
        exact dropped earlier oldFirst.1 oldKept
  · rintro ⟨rfl, found⟩
    have final : ∀ later, changes.length < later →
        ¬ RegistersAt (changes ++ [change]) file later := by
      intro later beyond again
      have bound := again.lt
      rw [List.length_append, List.length_singleton] at bound
      omega
    rcases found with ⟨old, holds, own⟩ | ⟨rfl, none⟩
    -- A file that has a place keeps it.
    · have ⟨first, kept⟩ := holds.firstAt own
      refine .file ((firstAt_concat ..).mpr (.inl first)) ?_ at_end named final
      rw [keptSince_concat _ _ _ first.1.lt]
      exact ⟨kept, stays _⟩
    · refine .file ((firstAt_concat ..).mpr (.inr ⟨⟨rfl, part, registers, named⟩, ?_⟩))
        (keptSince_length _ _ _) at_end named final
      -- An earlier part that is kept would have a place, and so be held there.
      intro earlier early kept
      obtain ⟨first, firstAt, firstKept⟩ := exists_firstAt early kept
      obtain ⟨old, holds, own⟩ := firstAt.exists_holds firstKept
      exact none first old holds own

end Register

end Concat

/-! ### The parts of a store -/

def OnePartPerFile (parts : List Part) : Prop :=
  parts.Pairwise fun one other => ∀ file, one.sourceFile = some file → other.sourceFile ≠ some file

theorem register_of_new {part : Part} {parts : List Part}
    (new : ∀ other ∈ parts, ∀ file, part.sourceFile = some file → other.sourceFile ≠ some file) :
    register part parts = parts ++ [part] := by
  induction parts with
  | nil => rfl
  | cons other rest ih =>
    obtain ⟨first, later⟩ := List.forall_mem_cons.mp new
    have differs : (part.sourceFile.any fun file => isFrom file other) = false := by
      cases named : part.sourceFile with
      | none => rfl
      | some file => simp [isFrom, first file named]
    rw [register, differs, if_neg Bool.false_ne_true, ih later, List.cons_append]

/-- A part takes the place of the one of its file. -/
theorem register_of_old {part : Part} {file : String} (named : part.sourceFile = some file)
    {parts : List Part} (single : OnePartPerFile parts)
    (old : ∃ other ∈ parts, other.sourceFile = some file) :
    register part parts =
      parts.map fun other => if other.sourceFile = some file then part else other := by
  induction parts with
  | nil =>
    obtain ⟨other, member, _⟩ := old
    cases member
  | cons other rest ih =>
    obtain ⟨differ, single⟩ := List.pairwise_cons.mp single
    by_cases same : other.sourceFile = some file
    · -- No later part is of the file, so the rest stays.
      have untouched : (rest.map fun later =>
          if later.sourceFile = some file then part else later) = rest := by
        rw [List.map_congr_left fun later member => if_neg (differ later member file same),
          List.map_id']
      simp [register, named, isFrom, same, untouched]
    · have inside : ∃ other ∈ rest, other.sourceFile = some file := by
        obtain ⟨found, member, own⟩ := old
        rcases List.mem_cons.mp member with rfl | later
        · exact absurd own same
        · exact ⟨found, later, own⟩
      simp [register, named, isFrom, same, ih single inside]

theorem unregister_eq_filter (file : String) {parts : List Part} (single : OnePartPerFile parts) :
    unregister file parts = parts.filter fun part => part.sourceFile ≠ some file := by
  induction parts with
  | nil => rfl
  | cons part rest ih =>
    obtain ⟨differ, single⟩ := List.pairwise_cons.mp single
    by_cases same : part.sourceFile = some file
    · have untouched : (rest.filter fun later => later.sourceFile ≠ some file) = rest := by
        simpa [List.filter_eq_self] using fun later member => differ later member file same
      simpa [unregister, isFrom, same] using untouched.symm
    · simp [unregister, isFrom, same, ih single]

theorem parts_apply_remove (store : Store) (file : String) (single : OnePartPerFile store.parts) :
    (store.apply (.remove file)).parts =
      store.parts.filter fun part => part.sourceFile ≠ some file := by
  rw [apply_remove]
  split
  next => exact unregister_eq_filter file single
  next absent =>
    -- The store is left alone if the file has no part, and then nothing is filtered out either.
    rw [List.any_eq_true, not_exists] at absent
    refine (List.filter_eq_self.mpr fun part member => ?_).symm
    simpa [isFrom] using fun same => absent part ⟨member, by simpa [isFrom] using same⟩

/-- The parts that a history holds, each with its place, by ascending places. -/
structure Slots (changes : List Change) (slots : List (Nat × Part)) : Prop where
  ascending : slots.Pairwise fun one other => one.1 < other.1
  mem_iff : ∀ place part, (place, part) ∈ slots ↔ Holds changes place part

theorem Slots.onePartPerFile {changes : List Change} {slots : List (Nat × Part)}
    (holding : Slots changes slots) : OnePartPerFile (slots.map (·.2)) := by
  rw [OnePartPerFile, List.pairwise_map]
  -- Two parts of one file would be held at one place, but the places ascend.
  refine holding.ascending.imp_of_mem fun {one other} member otherMember below file named same => ?_
  have place := ((holding.mem_iff _ _).mp member).unique ((holding.mem_iff _ _).mp otherMember)
    named same
  omega

section Step

variable {changes : List Change} {slots : List (Nat × Part)} (holding : Slots changes slots)

include holding

/-- A change that registers nothing leaves the slots that stay. -/
theorem Slots.filter {change : Change} (nothing : change.part? = none) (stays : Part → Bool)
    (stays_iff : ∀ part, stays part ↔ ¬ change.Drops part.sourceFile) :
    Slots (changes ++ [change]) (slots.filter fun slot => stays slot.2) := by
  constructor
  · exact holding.ascending.filter _
  · intro place part
    rw [holds_concat_of_drop changes change nothing, List.mem_filter, holding.mem_iff, stays_iff]

/-- A part that replaces none has a slot at the end. -/
theorem Slots.append_new {change : Change} {new : Part} (registers : change.part? = some new)
    (absent : ∀ slot ∈ slots, ∀ file, new.sourceFile = some file →
      slot.2.sourceFile ≠ some file) :
    Slots (changes ++ [change]) (slots ++ [(changes.length, new)]) := by
  have before (place : Nat) (part : Part) (member : (place, part) ∈ slots) :
      place < changes.length := ((holding.mem_iff _ _).mp member).lt
  constructor
  · rw [List.pairwise_append]
    refine ⟨holding.ascending, List.pairwise_singleton _ _, fun slot member last single => ?_⟩
    rw [List.mem_singleton.mp single]
    exact before _ _ member
  · intro place part
    rw [List.mem_append, List.mem_singleton, Prod.mk.injEq, holding.mem_iff]
    cases source : new.sourceFile with
    | none =>
      by_cases last : place = changes.length
      · subst last
        have outside : ¬ Holds changes changes.length part := fun holds => absurd holds.lt (by omega)
        simp [holds_concat_length_iff_of_fragment registers source, outside]
      · rw [holds_concat_of_other registers fun same =>
          ⟨same.trans source, last⟩]
        simp [last]
    | some file =>
      by_cases same : part.sourceFile = some file
      · -- The history so far holds no part of the file, or there would be a slot with it.
        have unheld (place : Nat) (old : Part) (holds : Holds changes place old) :
            old.sourceFile ≠ some file :=
          absent _ ((holding.mem_iff _ _).mpr holds) file source
        rw [holds_concat_iff_of_file registers source same]
        constructor
        · rintro (holds | ⟨last, rfl⟩)
          · exact absurd same (unheld place part holds)
          · exact ⟨rfl, .inr ⟨last, unheld⟩⟩
        · rintro ⟨rfl, ⟨old, holds, own⟩ | ⟨last, _⟩⟩
          · exact absurd own (unheld place old holds)
          · exact .inr ⟨last, rfl⟩
      · rw [holds_concat_of_other registers fun equal =>
          absurd (equal.trans source) same]
        exact or_iff_left fun ⟨_, equal⟩ => same (equal ▸ source)

/-- A part that replaces one has the slot of that one. -/
theorem Slots.replace_old {change : Change} {new : Part} (registers : change.part? = some new)
    {file : String} (named : new.sourceFile = some file)
    (present : ∃ slot ∈ slots, slot.2.sourceFile = some file) :
    Slots (changes ++ [change])
      (slots.map fun slot =>
        (slot.1, if slot.2.sourceFile = some file then new else slot.2)) := by
  constructor
  · rw [List.pairwise_map]
    exact holding.ascending
  · intro place part
    -- The parts at a place are those of before, but for the new one in the stead of the old one.
    have member : (place, part) ∈ slots.map (fun slot =>
        (slot.1, if slot.2.sourceFile = some file then new else slot.2)) ↔
          ∃ old, Holds changes place old ∧
            (if old.sourceFile = some file then new else old) = part := by
      simp only [List.mem_map, Prod.exists, Prod.mk.injEq, holding.mem_iff]
      constructor
      · rintro ⟨_, old, holds, rfl, replaced⟩
        exact ⟨old, holds, replaced⟩
      · rintro ⟨old, holds, replaced⟩
        exact ⟨place, old, holds, rfl, replaced⟩
    rw [member]
    by_cases same : part.sourceFile = some file
    · rw [holds_concat_iff_of_file registers named same]
      -- The file has one slot, so it is not registered for the first time.
      obtain ⟨⟨held, owner⟩, inside, own⟩ := present
      have holds := (holding.mem_iff _ _).mp inside
      constructor
      · rintro ⟨old, here, replaced⟩
        split at replaced
        next owned => exact ⟨replaced.symm, .inl ⟨old, here, owned⟩⟩
        next other => exact absurd (replaced ▸ same) other
      · rintro ⟨rfl, ⟨old, here, owned⟩ | ⟨_, none⟩⟩
        · exact ⟨old, here, if_pos owned⟩
        · exact absurd own (none held owner holds)
    · rw [holds_concat_of_other registers fun equal =>
        absurd (equal.trans named) same]
      constructor
      · rintro ⟨old, here, replaced⟩
        split at replaced
        next => exact absurd (replaced ▸ named) same
        next => exact replaced ▸ here
      · intro here
        exact ⟨part, here, if_neg same⟩

end Step

/-- A run leaves the parts that its history holds, in the order of their places. -/
theorem exists_slots (scope : String) (defaultLocale : Text) (changes : List Change) :
    ∃ slots, Slots changes slots ∧
      slots.map (·.2) = (run scope defaultLocale changes).parts := by
  -- By induction on the history: every change does to the slots what it does to the parts.
  induction changes using List.reverseRecOn with
  | nil =>
    refine ⟨[], ⟨List.Pairwise.nil, fun place part => ?_⟩, rfl⟩
    have never : ¬ Holds [] place part := fun holds => absurd holds.lt (Nat.not_lt_zero place)
    simp [never]
  | append_singleton changes change ih =>
    obtain ⟨slots, holding, same⟩ := ih
    have single : OnePartPerFile (run scope defaultLocale changes).parts :=
      same ▸ holding.onePartPerFile
    rw [run, List.foldl_concat]
    change ∃ slots, _ ∧ _ = ((run scope defaultLocale changes).apply change).parts
    cases change with
    | merge phrases distinct document sourceFile =>
      rw [apply_merge]
      change ∃ slots, _ ∧ _ = register (.ofPhrases phrases document sourceFile) _
      rw [← same] at single ⊢
      by_cases old : ∃ file, sourceFile = some file ∧ ∃ slot ∈ slots, slot.2.sourceFile = some file
      · -- A file that has a part gets the new one in its place.
        obtain ⟨file, rfl, present⟩ := old
        refine ⟨_, holding.replace_old rfl rfl present, ?_⟩
        have among : ∃ other ∈ slots.map (·.2), other.sourceFile = some file := by
          obtain ⟨slot, member, own⟩ := present
          exact ⟨slot.2, List.mem_map_of_mem member, own⟩
        rw [register_of_old rfl single among, List.map_map, List.map_map]
        rfl
      · -- A fragment or a new file goes to the end.
        have absent : ∀ slot ∈ slots, ∀ file, sourceFile = some file →
            slot.2.sourceFile ≠ some file := fun slot member file named own =>
          old ⟨file, named, slot, member, own⟩
        refine ⟨_, holding.append_new rfl absent, ?_⟩
        rw [register_of_new (List.forall_mem_map.mpr absent), List.map_append]
        rfl
    | remove file =>
      refine ⟨_, holding.filter rfl (fun part => part.sourceFile ≠ some file) ?_, ?_⟩
      · simp [Change.Drops]
      · rw [parts_apply_remove _ _ single, ← same, List.filter_map]
        rfl
    | reset =>
      refine ⟨_, holding.filter rfl (fun _ => false) ?_, ?_⟩
      · simp [Change.Drops]
      · simp [apply_reset, withParts]

theorem onePartPerFile_run (scope : String) (defaultLocale : Text) (changes : List Change) :
    OnePartPerFile (run scope defaultLocale changes).parts := by
  obtain ⟨slots, holding, same⟩ := exists_slots scope defaultLocale changes
  exact same ▸ holding.onePartPerFile

theorem exists_change_of_mem_parts {scope : String} {defaultLocale : Text} {changes : List Change}
    {part : Part} (member : part ∈ (run scope defaultLocale changes).parts) :
    ∃ change ∈ changes, change.part? = some part := by
  obtain ⟨slots, holding, same⟩ := exists_slots scope defaultLocale changes
  rw [← same] at member
  obtain ⟨⟨place, held⟩, inside, rfl⟩ := List.mem_map.mp member
  have registered : ∃ place, registered? changes place = some held := by
    cases (holding.mem_iff place held).mp inside with
    | fragment registered => exact ⟨_, registered⟩
    | file _ _ registered => exact ⟨_, registered⟩
  obtain ⟨place, registered⟩ := registered
  obtain ⟨change, at_place, gives⟩ := Option.bind_eq_some_iff.mp registered
  exact ⟨change, List.mem_of_getElem? at_place, gives⟩

/-- Whatever a store has been through: no file has two parts; the parts are those that the history
    holds, in the order of their places; every part has the flat view of its phrases beside it; the
    phrases are those of the parts, laid over one another from the first one on; and their flat view
    is up to date. No mapping among the phrases names a key twice. -/
theorem run_parts_follow_history (scope : String) (defaultLocale : Text) (changes : List Change) :
    let store := run scope defaultLocale changes
    (store.parts.filterMap (·.sourceFile)).Nodup ∧
      (∃ slots, Slots changes slots ∧ slots.map (·.2) = store.parts) ∧
      (∀ part ∈ store.parts, part.lookup = Lookup.ofBranch part.phrases) ∧
      store.phrases = store.parts.foldl (fun merged part => Tree.merge merged part.phrases) [] ∧
      store.lookup = Lookup.ofBranch store.phrases ∧
      (Tree.branch store.phrases).Distinct := by
  intro store
  have sound := run_sound scope defaultLocale changes
  obtain ⟨slots, holding, same⟩ := exists_slots scope defaultLocale changes
  refine ⟨?_, ⟨slots, holding, same⟩, fun part member => (sound.parts_sound part member).lookup_eq,
    sound.phrases_eq, sound.lookup_eq, sound.distinct⟩
  have single : OnePartPerFile store.parts := same ▸ holding.onePartPerFile
  rw [List.Nodup, List.pairwise_filterMap]
  refine single.imp ?_
  rintro one other differ file named _ same rfl
  exact differ file named same

end Phrasebook.Store
