import Phrasebook.Proofs.Store.History

/-!
# Phrasebook.Proofs.Store.Registration

Several parts registered one after the other.

If they are of different files, none of them takes the place of another one. So all of them are there
in the end, and registering them once more does nothing (`registerAll_registerAll`). Where the parts
before were of different files too, it can be said at once which ones there are afterwards, and in
which order: an old part gives way to the new one of its file, and the other new ones come last
(`registerAll_eq_updated`).
-/

namespace Phrasebook.Store

def registerAll (parts new : List Part) : List Part :=
  new.foldl (fun parts part => register part parts) parts

/-- What stands in the place of a part when there are new ones: the new part of its file, if there is
    one. -/
def successor (new : List Part) (part : Part) : Part :=
  (part.sourceFile.bind fun file => new.find? (isFrom file)).getD part

/-- The parts with some new ones: a part gives way to the new part of its file, and the new parts
    whose files have none follow in their order. -/
def updated (parts new : List Part) : List Part :=
  parts.map (successor new) ++ new.filter (!isRegistered parts ·)

/-! ### One part -/

/-- A part that its file has already is not seen to be registered. -/
theorem register_of_find? {part : Part} {file : String} (named : part.sourceFile = some file)
    {parts : List Part} (found : parts.find? (isFrom file) = some part) :
    register part parts = parts := by
  induction parts with
  | nil => cases found
  | cons other rest ih =>
    rw [register, named, Option.any_some]
    by_cases here : isFrom file other
    · rw [List.find?_cons_of_pos here] at found
      rw [if_pos here, Option.some.inj found]
    · rw [List.find?_cons_of_neg here] at found
      rw [if_neg here, ih found]

theorem onePartPerFile_register (part : Part) {parts : List Part} (single : OnePartPerFile parts) :
    OnePartPerFile (register part parts) := by
  induction parts with
  | nil => exact List.pairwise_singleton _ _
  | cons other rest ih =>
    obtain ⟨differ, single⟩ := List.pairwise_cons.mp single
    rw [register]
    split
    next same =>
      obtain ⟨file, own, taken⟩ := Option.any_eq_true .. |>.mp same
      have sameFile : part.sourceFile = other.sourceFile := own.trans (of_decide_eq_true taken).symm
      exact List.pairwise_cons.mpr ⟨fun later member => sameFile ▸ differ later member, single⟩
    next apart =>
      -- What is left of the rest is of other files, and the new part does not belong here.
      refine List.pairwise_cons.mpr ⟨fun later member file named same => ?_, ih single⟩
      rcases mem_register member with rfl | old
      · exact apart (by simp [same, isFrom, named])
      · exact differ later old file named same

/-! ### Which parts there are -/

theorem successor_nil : successor [] = id := by
  funext part
  cases own : part.sourceFile <;> simp [successor, own]

section First

variable {part : Part} {file : String} (named : part.sourceFile = some file) {rest : List Part}

include named

theorem successor_cons (old : Part) :
    successor (part :: rest) old =
      if old.sourceFile = some file then part else successor rest old := by
  cases own : old.sourceFile with
  | none => simp [successor, own]
  | some other =>
    by_cases same : other = file
    · simp [successor, own, isFrom, named, same]
    · simp [successor, own, isFrom, named, same, Ne.symm same]

theorem isRegistered_iff {parts : List Part} :
    isRegistered parts part ↔ ∃ other ∈ parts, other.sourceFile = some file := by
  simp [isRegistered, named, isFrom]

variable (absent : ∀ later ∈ rest, later.sourceFile ≠ some file)

include absent

theorem successor_self : successor rest part = part := by
  have none : rest.find? (isFrom file) = none := by simpa [isFrom] using absent
  simp [successor, named, none]

/-- Registering a part of a known file first makes no difference to the update. -/
theorem updated_register_of_old {parts : List Part} (single : OnePartPerFile parts)
    (old : ∃ other ∈ parts, other.sourceFile = some file) :
    updated (register part parts) rest = updated parts (part :: rest) := by
  have registered := (isRegistered_iff named).mpr old
  -- The part of the file has the same successor whether it was replaced before or not.
  rw [register_of_old named single old, updated, updated, List.map_map,
    List.filter_cons_of_neg (by simpa using registered)]
  congr 1
  · refine List.map_congr_left fun other _ => ?_
    rw [successor_cons named, Function.comp_apply]
    split
    next => exact successor_self named absent
    next => rfl
  · -- The files that have parts are those that had parts before.
    refine List.filter_congr fun later _ => ?_
    have sources (own : String) :
        isFrom own ∘ (fun other => if other.sourceFile = some file then part else other) =
          isFrom own := by
      funext other
      by_cases same : other.sourceFile = some file <;> simp [isFrom, same, named]
    simp only [isRegistered, List.any_map, sources]

theorem updated_register_of_new {parts : List Part}
    (fresh : ∀ other ∈ parts, other.sourceFile ≠ some file) :
    updated (register part parts) rest = updated parts (part :: rest) := by
  have unregistered : ¬ isRegistered parts part := fun registered =>
    have ⟨other, member, same⟩ := (isRegistered_iff named).mp registered
    fresh other member same
  have last : register part parts = parts ++ [part] :=
    register_of_new fun other member own here same =>
      fresh other member (by rw [same, ← here, named])
  rw [last, updated, updated, List.map_append, List.map_singleton, successor_self named absent,
    List.filter_cons_of_pos (by simpa using unregistered), List.append_assoc,
    List.singleton_append]
  congr 1
  · refine List.map_congr_left fun other member => ?_
    rw [successor_cons named, if_neg (fresh other member)]
  · -- Those that are still to follow are of other files, so one more part is nothing to them.
    congr 1
    refine List.filter_congr fun later member => ?_
    have differ := absent later member
    cases own : later.sourceFile with
    | none => simp [isRegistered, own]
    | some other =>
      have apart : file ≠ other := fun same => differ (same ▸ own)
      simp [isRegistered, own, isFrom, named, apart]

/-- Whether a part is registered first or is the first of the new ones comes to the same. -/
theorem updated_register {parts : List Part} (single : OnePartPerFile parts) :
    updated (register part parts) rest = updated parts (part :: rest) := by
  by_cases old : ∃ other ∈ parts, other.sourceFile = some file
  · exact updated_register_of_old named absent single old
  · exact updated_register_of_new named absent fun other member same => old ⟨other, member, same⟩

end First

section New

variable {new : List Part} (named : ∀ part ∈ new, part.sourceFile.isSome)

include named

/-- Registering parts of different files one by one is one update. -/
theorem registerAll_eq_updated (distinct : OnePartPerFile new) {parts : List Part}
    (single : OnePartPerFile parts) : registerAll parts new = updated parts new := by
  induction new generalizing parts with
  | nil => simp [registerAll, updated, successor_nil]
  | cons part rest ih =>
    obtain ⟨here, named⟩ := List.forall_mem_cons.mp named
    obtain ⟨differ, distinct⟩ := List.pairwise_cons.mp distinct
    obtain ⟨file, own⟩ := Option.isSome_iff_exists.mp here
    rw [registerAll, List.foldl_cons]
    refine (ih named distinct (onePartPerFile_register part single)).trans ?_
    exact updated_register own (fun later member => differ later member file own) single

/-- New parts of different files are all there is if there was nothing before. -/
theorem registerAll_nil (distinct : OnePartPerFile new) : registerAll [] new = new :=
  (registerAll_eq_updated named distinct List.Pairwise.nil).trans
    (by simp [updated, isRegistered])

/-! ### Once more -/

theorem find?_registerAll_of_others {file : String}
    (others : ∀ part ∈ new, part.sourceFile ≠ some file) (parts : List Part) :
    (registerAll parts new).find? (isFrom file) = parts.find? (isFrom file) := by
  induction new generalizing parts with
  | nil => rfl
  | cons part rest ih =>
    obtain ⟨here, named⟩ := List.forall_mem_cons.mp named
    obtain ⟨differ, others⟩ := List.forall_mem_cons.mp others
    obtain ⟨own, owned⟩ := Option.isSome_iff_exists.mp here
    refine (ih named others _).trans ?_
    have apart : own ≠ file := fun same => differ (same ▸ owned)
    rw [find?_register owned, if_neg apart]

theorem find?_registerAll (distinct : OnePartPerFile new) {part : Part} (member : part ∈ new)
    {file : String} (own : part.sourceFile = some file) (parts : List Part) :
    (registerAll parts new).find? (isFrom file) = some part := by
  -- The part is registered when its turn comes, and none after it is of its file.
  induction new generalizing parts with
  | nil => cases member
  | cons first rest ih =>
    obtain ⟨_, namedRest⟩ := List.forall_mem_cons.mp named
    obtain ⟨differ, distinctRest⟩ := List.pairwise_cons.mp distinct
    rcases List.mem_cons.mp member with rfl | later
    · have others : ∀ later ∈ rest, later.sourceFile ≠ some file :=
        fun later inside => differ later inside file own
      refine (find?_registerAll_of_others namedRest others _).trans ?_
      rw [find?_register own, if_pos rfl]
    · exact ih namedRest distinctRest later _

/-- Registering parts that are held already changes nothing. -/
theorem registerAll_of_held {parts : List Part}
    (held : ∀ part ∈ new, ∀ file, part.sourceFile = some file →
      parts.find? (isFrom file) = some part) : registerAll parts new = parts := by
  induction new with
  | nil => rfl
  | cons part rest ih =>
    obtain ⟨here, named⟩ := List.forall_mem_cons.mp named
    obtain ⟨first, held⟩ := List.forall_mem_cons.mp held
    obtain ⟨file, own⟩ := Option.isSome_iff_exists.mp here
    rw [registerAll, List.foldl_cons, register_of_find? own (first file own)]
    exact ih named held

/-- Parts of different files that have been registered are not seen to be registered once more. -/
theorem registerAll_registerAll (distinct : OnePartPerFile new) (parts : List Part) :
    registerAll (registerAll parts new) new = registerAll parts new :=
  registerAll_of_held named fun _ member _ own => find?_registerAll named distinct member own parts

end New

end Phrasebook.Store
