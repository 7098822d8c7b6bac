import Mathlib.Data.List.Sort
import Phrasebook.Proofs.Disk.Edits
import Phrasebook.Proofs.Disk.Selection

/-!
# Phrasebook.Proofs.Disk.Reselection

What a pattern selects after files have changed: what it selected before, less the files that are
gone (`files_of_edited`).

Wildcards read the names that a directory lists, while a file is looked for under its whole path.
The two meet because a path that has been built along a pattern leads to the place that the search
is at, if it leads anywhere (`LeadsAt`). Only a last component can select a file, so what is lost
with a file is its own path and nothing else (`gone_of_missing`). And without a step of two dots in
the pattern, no two of the paths lead to the same place (`eq_of_same_place`).
-/

namespace Phrasebook

instance : Std.Irrefl Path.Before :=
  ⟨fun _ => List.lt_irrefl _⟩

instance : Std.Antisymm Path.Before :=
  ⟨fun _ _ before after => absurd (List.lt_trans before after) (List.lt_irrefl _)⟩

namespace Disk

/-! ### Paths along a search -/

/-- A path leads to a place, if it leads to anything. -/
def LeadsAt (disk : Disk) (base : Path) (place : List String) : Prop :=
  ∀ reached, disk.follow (startOf base) .directory base.parts = .ok reached → reached.1 = place

theorem leadsAt_of_find {disk : Disk} {path : Path} {reached : List String × DiskItem}
    (found : disk.find path = .ok reached) : disk.LeadsAt path reached.1 := by
  intro other followed
  rw [follow_of_find found] at followed
  cases followed
  rfl

/-- Without a step of two dots, names lead to where they say. -/
theorem place_of_follow {disk : Disk} {names place : List String} {item : DiskItem}
    {reached : List String × DiskItem} (dotless : ".." ∉ names)
    (followed : disk.follow place item names = .ok reached) : reached.1 = place ++ names := by
  induction names generalizing place item with
  | nil =>
    rw [follow] at followed
    cases followed
    simp
  | cons name rest ih =>
    obtain ⟨down, dotless⟩ := not_or.mp (dotless ∘ List.mem_cons.mpr)
    cases item with
    | file bytes => cases followed
    | directory =>
      -- Without two dots every step goes down, to a place with one more name.
      rw [follow, if_neg (Ne.symm down)] at followed
      split at followed
      next => cases followed
      split at followed
      next => cases followed
      next => simpa using ih dotless followed

/-- More names after a path lead that much further, if none of them is two dots. -/
theorem LeadsAt.append {disk : Disk} {base : Path} {place : List String}
    (leads : disk.LeadsAt base place) {names : List String} (dotless : ".." ∉ names) :
    disk.LeadsAt (base.append names) (place ++ names) := by
  intro reached followed
  -- The added names start from where the path leads.
  change disk.follow (startOf base) .directory (base.parts ++ names) = _ at followed
  rw [follow_append] at followed
  cases way : disk.follow (startOf base) .directory base.parts with
  | error e =>
    rw [way] at followed
    cases followed
  | ok found =>
    rw [way] at followed
    rw [place_of_follow dotless followed, leads found way]

/-! ### Directories after an edit -/

section Edited

variable {before after : Disk} (edited : Edited before after)

include edited

/-- A path to a place where nothing is left does not lead to a file. -/
theorem Edited.not_isFile_of_missing {path : Path} {place : List String}
    (leads : before.LeadsAt path place) (missing : after.item? place = none) :
    ¬ after.isFile path := by
  intro file
  obtain ⟨reached, old, new, found, -, there⟩ := edited.find_of_isFile file
  have same : reached = place := leads _ (follow_of_find found)
  rw [← same, there] at missing
  cases missing

variable (orderly : before.Orderly) (orderly' : after.Orderly)

include orderly orderly'

theorem Edited.mem_directoriesBelow_iff (place names : List String) :
    names ∈ after.directoriesBelow place ↔ names ∈ before.directoriesBelow place := by
  rw [Disk.mem_directoriesBelow_iff, Disk.mem_directoriesBelow_iff]
  refine or_congr_right (and_congr_right fun further => ?_)
  have below : place ++ names ≠ [] := by simp [further]
  rw [orderly'.mem_items_iff below, orderly.mem_items_iff below, edited.directory_iff]

/-- A child after an edit was a child of the same kind before. -/
theorem Edited.exists_child_before {place : List String} {name : String} {item : DiskItem}
    (child : (name, item) ∈ after.children place) :
    ∃ old, (name, old) ∈ before.children place ∧ old.isDirectory = item.isDirectory := by
  rw [mem_children_iff, orderly'.mem_items_iff (by simp)] at child
  obtain ⟨old, earlier, alike⟩ := edited.exists_before child.1
  refine ⟨old, ?_, alike⟩
  rw [mem_children_iff, orderly.mem_items_iff (by simp)]
  exact ⟨earlier, child.2⟩

theorem Edited.child_after {place : List String} {name : String} {item : DiskItem}
    (child : (name, item) ∈ before.children place) :
    (∃ new, (name, new) ∈ after.children place ∧ new.isDirectory = item.isDirectory) ∨
      after.item? (place ++ [name]) = none ∧ item.isDirectory = false := by
  rw [mem_children_iff, orderly.mem_items_iff (by simp)] at child
  refine (edited.after_of_before child.1).imp_left ?_
  rintro ⟨new, now, alike⟩
  refine ⟨new, ?_, alike⟩
  rw [mem_children_iff, orderly'.mem_items_iff (by simp)]
  exact ⟨now, child.2⟩

end Edited

end Disk

namespace Pattern

open Disk (Edited LeadsAt)

/-! ### Selections after an edit -/

/-- Some paths without those that do not lead to a file any more. -/
def IsLeft (after : Disk) (paths kept : List Path) : Prop :=
  ∀ path, path ∈ kept ↔ path ∈ paths ∧ after.isFile path

/-- What is left of several ways is left of all of them, if ways only get lost with their files. -/
theorem selectEach_isLeft {α : Type} {after : Disk}
    {select select' : α → Except Failure (List Path)}
    {ways ways' : List α} {paths : List Path} (selected : selectEach select ways = .ok paths)
    (kept : ∀ way' ∈ ways', ∃ way ∈ ways, ∀ chosen, select way = .ok chosen →
      ∃ left, select' way' = .ok left ∧ IsLeft after chosen left)
    (lost : ∀ way ∈ ways, ∀ chosen, select way = .ok chosen → ∀ path ∈ chosen, after.isFile path →
      ∃ way' ∈ ways', ∃ left, select' way' = .ok left ∧ path ∈ left) :
    ∃ left, selectEach select' ways' = .ok left ∧ IsLeft after paths left := by
  obtain ⟨each, mem⟩ := selectEach_eq_ok selected
  have each' : ∀ way' ∈ ways', ∃ left, select' way' = .ok left := by
    intro way' member
    obtain ⟨way, inside, carries⟩ := kept way' member
    obtain ⟨chosen, selects⟩ := each way inside
    obtain ⟨left, selects', -⟩ := carries chosen selects
    exact ⟨left, selects'⟩
  obtain ⟨left, selected'⟩ := exists_selectEach each'
  refine ⟨left, selected', fun path => ?_⟩
  -- What is selected in a way is left of an earlier way, and no way is lost with a file left in it.
  rw [(selectEach_eq_ok selected').2, mem]
  constructor
  · rintro ⟨way', member, left, selects', found⟩
    obtain ⟨way, inside, carries⟩ := kept way' member
    obtain ⟨chosen, selects⟩ := each way inside
    obtain ⟨left', again, isLeft⟩ := carries chosen selects
    rw [selects'] at again
    cases again
    obtain ⟨there, file⟩ := (isLeft path).mp found
    exact ⟨⟨way, inside, chosen, selects, there⟩, file⟩
  · rintro ⟨⟨way, inside, chosen, selects, found⟩, file⟩
    exact lost way inside chosen selects path found file

section Edited

variable {before after : Disk} (edited : Edited before after) (orderly : before.Orderly)
  (orderly' : after.Orderly)

include edited

/-- If what follows a path is left after an edit, it is also left with the path looked for first. -/
theorem exists_lookFor_of_edited {path : Path} {next next' : Except Failure (List Path)}
    {paths : List Path} (looked : lookFor before path next = .ok paths)
    (further : next = .ok paths → ∃ left, next' = .ok left ∧ IsLeft after paths left) :
    ∃ left, lookFor after path next' = .ok left ∧ IsLeft after paths left := by
  obtain ⟨short, given⟩ := lookFor_eq_ok_iff.mp looked
  obtain ⟨left, selects, isLeft⟩ := further given
  exact ⟨left, lookFor_eq_ok_iff.mpr ⟨by rw [edited.refusesLength_eq, short], selects⟩, isLeft⟩

theorem gone_of_missing {place : List String} {base : Path} (leads : before.LeadsAt base place)
    (missing : after.item? place = none) {paths : List Path}
    (selected : select before [] place base = .ok paths) : ∀ path ∈ paths, ¬ after.isFile path := by
  have single := (lookFor_eq_ok_iff.mp selected).2
  intro path member
  split at single
  next =>
    cases single
    rw [List.mem_singleton.mp member]
    exact edited.not_isFile_of_missing leads missing
  next =>
    cases single
    cases member

end Edited

/-- What some components lead to after an edit is left of what they led to before, from any place
    that the path so far leads to. -/
def Carries (before after : Disk) (parts : List PatternPart) : Prop :=
  ∀ place base paths, before.LeadsAt base place → select before parts place base = .ok paths →
    ∃ left, select after parts place base = .ok left ∧ IsLeft after paths left

section Carries

variable {before after : Disk} (edited : Edited before after)

include edited

theorem carries_nil : Carries before after [] := by
  intro place base paths leads selected
  refine exists_lookFor_of_edited edited selected fun single => ?_
  cases single
  refine ⟨if after.isFile base then [base] else [], rfl, fun path => ?_⟩
  by_cases file : after.isFile base
  · simp only [edited.isFile_before file, file, if_true, List.mem_singleton]
    exact ⟨fun same => ⟨same, same ▸ file⟩, fun both => both.1⟩
  · have nowhere : ∀ path ∈ (if before.isFile base then [base] else []), ¬ after.isFile path := by
      split <;> simp [file]
    simpa [file] using nowhere path

/-- A name carries what is left through an edit if the components after it do. -/
theorem Carries.name {rest : List PatternPart} (carries : Carries before after rest)
    (name : String) : Carries before after (.name name :: rest) := by
  intro place base paths leads selected
  rw [select] at selected ⊢
  refine exists_lookFor_of_edited edited selected fun given => ?_
  cases found : before.find (base.append [name]) with
  | error e =>
    obtain ⟨e', failed⟩ := edited.find_of_error found
    simp only [found] at given
    cases given
    exact ⟨[], by rw [failed], by simp [IsLeft]⟩
  | ok reached =>
    obtain ⟨below, item⟩ := reached
    have childLeads := Disk.leadsAt_of_find found
    simp only [found] at given
    -- The name leads where it led, unless it was that of a file that is gone.
    rcases edited.find_after found with ⟨new, now, alike⟩ | ⟨⟨e, failed⟩, missing, isFile⟩
    · simp only [now, alike]
      split at given
      next goesOn =>
        rw [if_pos goesOn]
        exact carries _ _ _ childLeads given
      next stops =>
        cases given
        exact ⟨[], by rw [if_neg stops], by simp [IsLeft]⟩
    · -- The name was that of a file, so what is lost is the file alone.
      refine ⟨[], by rw [failed], fun path => ?_⟩
      suffices gone : ∀ path ∈ paths, ¬ after.isFile path by simpa using gone path
      split at given
      next goesOn =>
        have atEnd : rest = [] := by simpa [isFile] using goesOn
        subst atEnd
        exact gone_of_missing edited childLeads missing given
      next =>
        cases given
        simp

variable (orderly : before.Orderly) (orderly' : after.Orderly)

include orderly orderly'

theorem Carries.matching {rest : List PatternPart} (carries : Carries before after rest)
    (pieces : List Wildcard) : Carries before after (.matching pieces :: rest) := by
  intro place base paths leads selected
  rw [select] at selected ⊢
  refine exists_lookFor_of_edited edited selected fun given => ?_
  -- What is listed is never called two dots, so its name leads right below the place.
  have childLeads {name : String} {item : DiskItem} (child : (name, item) ∈ before.children place) :
      before.LeadsAt (base.append [name]) (place ++ [name]) := by
    have dotless := orderly.dotless _ ((Disk.mem_children_iff ..).mp child)
    exact leads.append fun member => dotless (List.mem_append_right _ member)
  refine selectEach_isLeft given ?_ ?_
  · rintro ⟨name, new⟩ member
    obtain ⟨child, admitted⟩ := List.mem_filter.mp member
    obtain ⟨old, earlier, alike⟩ := edited.exists_child_before orderly orderly' child
    refine ⟨(name, old), List.mem_filter.mpr ⟨earlier, by simpa only [alike] using admitted⟩, ?_⟩
    exact fun chosen => carries _ _ _ (childLeads earlier)
  · rintro ⟨name, old⟩ member chosen chooses path inside file
    obtain ⟨child, admitted⟩ := List.mem_filter.mp member
    rcases edited.child_after orderly orderly' child with ⟨new, now, alike⟩ | ⟨missing, isFile⟩
    · obtain ⟨left, selects, isLeft⟩ := carries _ _ _ (childLeads child) chooses
      exact ⟨(name, new), List.mem_filter.mpr ⟨now, by simpa only [alike] using admitted⟩, left,
        selects, (isLeft path).mpr ⟨inside, file⟩⟩
    · -- Files are only matched by the last component.
      have atEnd : rest = [] := by simp_all
      subst atEnd
      exact absurd file (gone_of_missing edited (childLeads child) missing chooses path inside)

theorem Carries.deep {rest : List PatternPart} (carries : Carries before after rest) :
    Carries before after (.deep :: rest) := by
  intro place base paths leads selected
  rw [select] at selected ⊢
  have same := edited.mem_directoriesBelow_iff orderly orderly' place
  -- The directories are the same as before, so the ways through them go with one another.
  have carries' {names : List String} (listed : names ∈ before.directoriesBelow place)
      {chosen : List Path}
      (chooses : ((select before rest (place ++ names) (base.append names)).bind fun selected =>
        lookFor before (base.append names) (.ok selected)) = .ok chosen) :
      ∃ left, ((select after rest (place ++ names) (base.append names)).bind fun selected =>
        lookFor after (base.append names) (.ok selected)) = .ok left ∧
          IsLeft after chosen left := by
    have dotless : ".." ∉ names := by
      rcases (Disk.mem_directoriesBelow_iff ..).mp listed with rfl | ⟨-, member⟩
      · simp
      · exact fun inside => orderly.dotless _ member (List.mem_append_right _ inside)
    obtain ⟨found, below, looked⟩ := bind_eq_ok.mp chooses
    cases (lookFor_eq_ok_iff.mp looked).2
    obtain ⟨left, selects, isLeft⟩ := carries _ _ _ (leads.append dotless) below
    obtain ⟨left', looks, isLeft'⟩ :=
      exists_lookFor_of_edited edited looked fun _ => ⟨left, rfl, isLeft⟩
    exact ⟨left', bind_eq_ok.mpr ⟨left, selects, looks⟩, isLeft'⟩
  refine selectEach_isLeft selected (fun names listed => ?_) fun names listed => ?_
  · exact ⟨names, (same names).mp listed, fun chosen => carries' ((same names).mp listed)⟩
  · intro chosen chooses path member file
    obtain ⟨left, selects, isLeft⟩ := carries' listed chooses
    exact ⟨names, (same names).mpr listed, left, selects, (isLeft path).mpr ⟨member, file⟩⟩

/-- All components carry what is left through an edit. -/
theorem carries_of_edited (parts : List PatternPart) : Carries before after parts := by
  induction parts with
  | nil => exact carries_nil edited
  | cons part rest ih =>
    cases part with
    | name name => exact ih.name edited name
    | matching pieces => exact ih.matching edited orderly orderly' pieces
    | deep => exact ih.deep edited orderly orderly'
    | itself => exact ih

/-! ### Files after an edit -/

/-- After an edit, a pattern selects the files that it selected before and that are left. -/
theorem files_of_edited {pattern : Pattern} {root : Path} {paths : List Path}
    (found : pattern.files before root = .ok paths) :
    pattern.files after root = .ok (paths.filter after.isFile) := by
  have ordered := ordered_files found
  obtain ⟨selected, looked, rfl⟩ := map_eq_ok.mp found
  obtain ⟨left, found', isLeft⟩ : ∃ left, pattern.files after root = .ok (Path.sorted left) ∧
      IsLeft after selected left := by
    rw [files]
    suffices further : ∃ left, lookFor after root _ = .ok left ∧ IsLeft after selected left by
      obtain ⟨left, looks, isLeft⟩ := further
      exact ⟨left, map_eq_ok.mpr ⟨left, looks, rfl⟩, isLeft⟩
    refine exists_lookFor_of_edited edited looked fun given => ?_
    cases reached : before.find root with
    | error e =>
      obtain ⟨e', failed⟩ := edited.find_of_error reached
      simp only [reached] at given
      cases given
      exact ⟨[], by rw [failed], by simp [IsLeft]⟩
    | ok way =>
      obtain ⟨place, item⟩ := way
      simp only [reached] at given
      cases item with
      | directory =>
        rw [edited.find_of_directory reached]
        exact carries_of_edited edited orderly orderly' _ _ _ _ (Disk.leadsAt_of_find reached) given
      | file bytes =>
        cases given
        refine ⟨[], ?_, by simp [IsLeft]⟩
        rcases edited.find_after reached with ⟨new, now, alike⟩ | ⟨⟨e, failed⟩, -⟩
        · cases new with
          | directory => cases alike
          | file bytes => rw [now]
        · rw [failed]
  -- Both lists are in order, and the order leaves no choice.
  have same : Path.sorted left = (Path.sorted selected).filter after.isFile := by
    refine (ordered_files found').eq_of_mem_iff (ordered.filter _) fun path => ?_
    rw [Path.mem_sorted, isLeft, List.mem_filter, Path.mem_sorted]
  rw [found', same]

end Carries

/-! ### One path for each place -/

section Dotless

variable {disk : Disk} (orderly : disk.Orderly)

include orderly

/-- Components without a step of two dots add nothing to a path but names that lead down. -/
theorem exists_names_of_mem_select {parts : List PatternPart} (dotless : .name ".." ∉ parts)
    {place : List String} {base : Path} {paths : List Path}
    (selected : select disk parts place base = .ok paths) {path : Path} (member : path ∈ paths) :
    ∃ names, ".." ∉ names ∧ path = base.append names := by
  have further {base : Path} {names : List String} (down : ".." ∉ names)
      (below : ∃ more, ".." ∉ more ∧ path = (base.append names).append more) :
      ∃ names, ".." ∉ names ∧ path = base.append names := by
    obtain ⟨more, deeper, rfl⟩ := below
    exact ⟨names ++ more, by simp [down, deeper], by simp [Path.append]⟩
  induction parts generalizing place base paths with
  | nil =>
    have single := (lookFor_eq_ok_iff.mp selected).2
    split at single
    next =>
      cases single
      exact ⟨[], by simp, by simp [Path.append, List.mem_singleton.mp member]⟩
    next =>
      cases single
      cases member
  | cons part rest ih =>
    obtain ⟨first, later⟩ := not_or.mp (dotless ∘ List.mem_cons.mpr)
    cases part with
    | name name =>
      have down : ".." ∉ [name] := by simpa using first
      have given := (lookFor_eq_ok_iff.mp selected).2
      split at given
      next =>
        split at given
        next => exact further down (ih later given member)
        next =>
          cases given
          cases member
      next =>
        cases given
        cases member
    | matching pieces =>
      obtain ⟨⟨name, item⟩, matched, chosen, selects, inside⟩ :=
        ((selectEach_eq_ok (lookFor_eq_ok_iff.mp selected).2).2 path).mp member
      -- The names that a directory lists are never two dots.
      have listed := (Disk.mem_children_iff ..).mp (List.mem_filter.mp matched).1
      have down : ".." ∉ [name] := fun inside =>
        orderly.dotless _ listed (List.mem_append_right _ inside)
      exact further down (ih later selects inside)
    | deep =>
      obtain ⟨names, listed, chosen, selects, inside⟩ :=
        ((selectEach_eq_ok selected).2 path).mp member
      have down : ".." ∉ names := by
        rcases (Disk.mem_directoriesBelow_iff ..).mp listed with rfl | ⟨-, entry⟩
        · simp
        · exact fun inside => orderly.dotless _ entry (List.mem_append_right _ inside)
      obtain ⟨found, below, looked⟩ := bind_eq_ok.mp selects
      cases (lookFor_eq_ok_iff.mp looked).2
      exact further down (ih later below inside)
    | itself => exact ih later selected member

/-- A pattern without a step of two dots selects one path for each place. -/
theorem eq_of_same_place {pattern : Pattern} (dotless : .name ".." ∉ pattern.parts) {root : Path}
    {paths : List Path} (found : pattern.files disk root = .ok paths) {one other : Path}
    (member : one ∈ paths) (member' : other ∈ paths) {place : List String} {item item' : DiskItem}
    (leads : disk.find one = .ok (place, item)) (leads' : disk.find other = .ok (place, item')) :
    one = other := by
  obtain ⟨selected, looked, rfl⟩ := map_eq_ok.mp found
  rw [Path.mem_sorted] at member member'
  have given := (lookFor_eq_ok_iff.mp looked).2
  split at given
  next top reached =>
    obtain ⟨names, down, rfl⟩ := exists_names_of_mem_select orderly dotless given member
    obtain ⟨names', down', rfl⟩ := exists_names_of_mem_select orderly dotless given member'
    -- Both paths lead to the place of the root and their own names below it.
    have rooted := Disk.leadsAt_of_find reached
    have here : place = top ++ names := rooted.append down _ (Disk.follow_of_find leads)
    have there : place = top ++ names' := rooted.append down' _ (Disk.follow_of_find leads')
    rw [List.append_cancel_left (here.symm.trans there)]
  next =>
    cases given
    cases member

end Dotless

/-- A name among the components is one of the texts that they were read from. -/
theorem mem_of_name_mem_readParts {parts : List String} {read : List PatternPart}
    (given : readParts parts = .ok read) {name : String} (member : .name name ∈ read) :
    name ∈ parts := by
  induction parts generalizing read with
  | nil =>
    cases given
    cases member
  | cons part rest ih =>
    obtain ⟨first, here, given⟩ := bind_eq_ok.mp given
    obtain ⟨more, later, both⟩ := bind_eq_ok.mp given
    cases both
    rcases List.mem_cons.mp member with rfl | further
    · rw [readPart] at here
      -- Of the ways to read a part only the last one gives a name, and that is the part itself.
      split at here
      next => cases here
      split at here
      next => cases here
      split at here
      next => cases here
      next =>
        cases here
        exact List.mem_cons_self
    · exact List.mem_cons_of_mem _ (ih later further)

/-- The names in a pattern are components of its text. -/
theorem mem_of_name_mem_ofString {text : String} {pattern : Pattern}
    (read : Pattern.ofString text = .ok pattern) {name : String}
    (member : .name name ∈ pattern.parts) : name ∈ (Path.ofString text).parts := by
  rw [ofString] at read
  dsimp only at read
  split at read
  next => cases read
  split at read
  next => cases read
  next => cases read
  next =>
    obtain ⟨parts, given, same⟩ := bind_eq_ok.mp read
    cases same
    -- A closing slash adds no name.
    rcases List.mem_append.mp member with inside | closing
    · exact mem_of_name_mem_readParts given inside
    · split at closing <;> simp at closing

end Pattern

end Phrasebook
