import Mathlib.Data.List.Nodup
import Phrasebook.Proofs.Disk.Names

/-!
# Phrasebook.Proofs.Disk.Edits

Disks whose files change, while their directories stay.

What a path leads to after an edit is decided by the place that it led to before (`tracks_find`):
a directory is still there, and a file is there with the bytes that its place holds now, or is gone.
To write a file that is there, or to delete one, is an edit at its place and does nothing else
(`write_of_file`, `delete_of_file`).
-/

namespace Phrasebook.Disk

/-! ### Listed places -/

/-- Every item has a name, is listed once, and has no step of two dots on the way to it. -/
structure Orderly (disk : Disk) : Prop where
  proper : disk.Proper
  once : (disk.items.map (·.1)).Nodup
  dotless : ∀ item ∈ disk.items, ".." ∉ item.1

theorem Orderly.drop {disk : Disk} (orderly : disk.Orderly) (place : List String) :
    (disk.drop place).Orderly where
  proper := stable_proper.drop orderly.proper place
  once := orderly.once.sublist (List.filter_sublist.map _)
  dotless := fun item member => orderly.dotless item (List.mem_filter.mp member).1

/-- An orderly disk stays orderly when something is put under a name, if no step on the way there is
    two dots. -/
theorem Orderly.put {disk : Disk} (orderly : disk.Orderly) (place : List String) (name : String)
    (isName : IsName name) (dotless : ".." ∉ place ++ [name]) (new : DiskItem) :
    (disk.put (place ++ [name]) new).Orderly where
  proper := stable_proper.put orderly.proper place name isName dotless new
  once := by
    rw [Disk.put, List.map_append]
    -- What was listed at the place has been dropped before.
    refine List.nodup_append.mpr ⟨(orderly.drop _).once, List.nodup_singleton _, ?_⟩
    intro other member last single same
    obtain ⟨item, kept, rfl⟩ := List.mem_map.mp member
    rw [List.map_singleton, List.mem_singleton] at single
    exact of_decide_eq_true (List.mem_filter.mp kept).2 (same.trans single)
  dotless := by
    intro item member
    rcases List.mem_append.mp member with old | last
    · exact (orderly.drop _).dotless item old
    · rw [List.mem_singleton.mp last]
      exact dotless

theorem stable_orderly : Stable Orderly where
  empty := ⟨stable_proper.empty, List.nodup_nil, fun _ member => absurd member List.not_mem_nil⟩
  drop := Orderly.drop
  put := Orderly.put

theorem orderly_run (changes : List Change) : (run changes).Orderly :=
  stable_orderly.run changes

theorem item?_of_deep (disk : Disk) {place : List String} (deep : ¬ place <+: start) :
    disk.item? place = disk.items.lookup place := by
  rw [item?, if_neg (by rwa [List.isPrefixOf_iff_prefix])]

theorem item?_of_shallow (disk : Disk) {place : List String} (shallow : place <+: start) :
    disk.item? place = some .directory := by
  rw [item?, if_pos (by rwa [List.isPrefixOf_iff_prefix])]

theorem deep_of_file {disk : Disk} {place : List String} {bytes : List UInt8}
    (file : disk.item? place = some (.file bytes)) : ¬ place <+: start := by
  intro shallow
  rw [item?_of_shallow disk shallow] at file
  cases file

theorem lookup_of_mem {items : List (List String × DiskItem)} (once : (items.map (·.1)).Nodup)
    {place : List String} {item : DiskItem} (member : (place, item) ∈ items) :
    items.lookup place = some item := by
  obtain ⟨before, after, rfl⟩ := List.append_of_mem member
  refine List.lookup_eq_some_iff.mpr ⟨before, after, rfl, fun other earlier => ?_⟩
  rw [List.map_append] at once
  have differ := (List.nodup_append.mp once).2.2 other.1 (List.mem_map_of_mem earlier) place
    (by simp)
  simpa using differ.symm

/-- What is listed below a place is what is there, but for the directories that always are. -/
theorem Orderly.mem_items_iff {disk : Disk} (orderly : disk.Orderly) {place : List String}
    (below : place ≠ []) (item : DiskItem) :
    (place, item) ∈ disk.items ↔ disk.item? place = some item ∧ ¬ place <+: start := by
  constructor
  · intro member
    -- The directories that are always there have empty names, and no listed item has.
    have deep : ¬ place <+: start := by
      intro shallow
      have last := List.getLast_mem below
      have isName := orderly.proper (place, item) member _ (List.getLast?_eq_some_getLast below)
      have empty : place.getLast below = "" := by simpa [start] using shallow.subset last
      exact isName.1 empty
    exact ⟨(item?_of_deep disk deep).trans (lookup_of_mem orderly.once member), deep⟩
  · rintro ⟨there, deep⟩
    rw [item?_of_deep disk deep] at there
    obtain ⟨before, after, split, -⟩ := List.lookup_eq_some_iff.mp there
    rw [split]
    simp

/-- An item may be put where one is listed. -/
theorem Orderly.put_of_file {disk : Disk} (orderly : disk.Orderly) {place : List String}
    {old : List UInt8} (file : disk.item? place = some (.file old)) (new : DiskItem) :
    (disk.put place new).Orderly := by
  have deep := deep_of_file file
  have below : place ≠ [] := by
    rintro rfl
    exact deep List.nil_prefix
  -- What was listed there had a name, and the new item takes the name over.
  have listed := (orderly.mem_items_iff below _).mpr ⟨file, deep⟩
  have named := List.getLast?_eq_some_getLast below
  have split := List.dropLast_append_getLast below
  have dotless := orderly.dotless _ listed
  rw [← split] at dotless ⊢
  exact orderly.put _ _ (orderly.proper _ listed _ named) dotless new

theorem mem_children_iff (disk : Disk) (place : List String) (name : String) (item : DiskItem) :
    (name, item) ∈ disk.children place ↔ (place ++ [name], item) ∈ disk.items := by
  rw [children, List.mem_filterMap]
  constructor
  · rintro ⟨⟨other, held⟩, member, child⟩
    obtain ⟨last, named, found⟩ := Option.bind_eq_some_iff.mp child
    split at found
    next above =>
      cases found
      obtain ⟨front, rfl⟩ := List.getLast?_eq_some_iff.mp named
      rw [List.dropLast_concat] at above
      exact above ▸ member
    next => cases found
  · intro member
    exact ⟨_, member, by simp⟩

/-- The directories below a place are the place itself and every directory that is listed under
    it. -/
theorem mem_directoriesBelow_iff (disk : Disk) (place names : List String) :
    names ∈ disk.directoriesBelow place ↔
      names = [] ∨ names ≠ [] ∧ (place ++ names, .directory) ∈ disk.items := by
  rw [directoriesBelow, List.mem_cons, List.mem_filterMap]
  refine or_congr_right ?_
  constructor
  · rintro ⟨⟨other, item⟩, member, below⟩
    rw [Option.ite_none_right_eq_some] at below
    obtain ⟨inside, same⟩ := below
    simp only [Bool.and_eq_true, List.isPrefixOf_iff_prefix, decide_eq_true_eq] at inside
    obtain ⟨⟨isDirectory, rest, rfl⟩, differ⟩ := inside
    cases item with
    | directory => simp_all
    | file bytes => cases isDirectory
  · rintro ⟨further, member⟩
    exact ⟨_, member, by simp [DiskItem.isDirectory, further]⟩

/-! ### Single edits -/

section Edit

variable (disk : Disk) {place other : List String}

theorem lookup_cons_of_ne {listed : List String} (differ : other ≠ listed) (item : DiskItem)
    (rest : List (List String × DiskItem)) :
    List.lookup other ((listed, item) :: rest) = rest.lookup other := by
  rw [List.lookup_cons, beq_eq_false_iff_ne.mpr differ]

theorem lookup_drop (items : List (List String × DiskItem)) (differ : other ≠ place) :
    (items.filter fun (listed, _) => listed ≠ place).lookup other = items.lookup other := by
  induction items with
  | nil => rfl
  | cons item rest ih =>
    obtain ⟨listed, held⟩ := item
    by_cases same : listed = place
    · rw [List.filter_cons_of_neg (by simpa using same), ih, lookup_cons_of_ne (same ▸ differ)]
    · rw [List.filter_cons_of_pos (by simpa using same), List.lookup_cons, List.lookup_cons, ih]

theorem item?_drop_of_ne (differ : other ≠ place) :
    (disk.drop place).item? other = disk.item? other := by
  by_cases shallow : other <+: start
  · rw [item?_of_shallow _ shallow, item?_of_shallow _ shallow]
  · rw [item?_of_deep _ shallow, item?_of_deep _ shallow]
    exact lookup_drop disk.items differ

theorem item?_drop_self (deep : ¬ place <+: start) : (disk.drop place).item? place = none := by
  rw [item?_of_deep _ deep, List.lookup_eq_none_iff]
  intro item member
  have differ : item.1 ≠ place := of_decide_eq_true (List.mem_filter.mp member).2
  simpa using differ.symm

theorem item?_put_of_ne (differ : other ≠ place) (item : DiskItem) :
    (disk.put place item).item? other = disk.item? other := by
  rw [← item?_drop_of_ne disk differ]
  by_cases shallow : other <+: start
  · rw [item?_of_shallow _ shallow, item?_of_shallow _ shallow]
  · rw [item?_of_deep _ shallow, item?_of_deep _ shallow, put, List.lookup_append]
    rw [lookup_cons_of_ne differ, List.lookup_nil, Option.or_none]

theorem item?_put_self (deep : ¬ place <+: start) (item : DiskItem) :
    (disk.put place item).item? place = some item := by
  have gone := item?_drop_self disk deep
  rw [item?_of_deep _ deep] at gone
  rw [item?_of_deep _ deep, put, List.lookup_append, gone]
  simp

end Edit

/-! ### Edited disks -/

/-- A disk with the directories of another one and files where that one has files. -/
structure Edited (before after : Disk) : Prop where
  directory_iff : ∀ place,
    after.item? place = some .directory ↔ before.item? place = some .directory
  file : ∀ place bytes, after.item? place = some (.file bytes) →
    ∃ old, before.item? place = some (.file old)

theorem Edited.refl (disk : Disk) : Edited disk disk :=
  ⟨fun _ => Iff.rfl, fun _ bytes file => ⟨bytes, file⟩⟩

theorem Edited.trans {first second third : Disk} (one : Edited first second)
    (two : Edited second third) : Edited first third := by
  refine ⟨fun place => (two.directory_iff place).trans (one.directory_iff place), ?_⟩
  intro place bytes file
  obtain ⟨old, earlier⟩ := two.file place bytes file
  exact one.file place old earlier

/-- A disk that differs at the place of one file, and has no directory there, is an edited one. -/
theorem edited_of_file {before after : Disk} {place : List String} {old : List UInt8}
    (file : before.item? place = some (.file old)) (here : after.item? place ≠ some .directory)
    (elsewhere : ∀ other, other ≠ place → after.item? other = before.item? other) :
    Edited before after := by
  constructor
  · intro other
    by_cases same : other = place
    · subst same
      simp [here, file]
    · rw [elsewhere other same]
  · intro other bytes held
    by_cases same : other = place
    · exact ⟨old, same ▸ file⟩
    · exact ⟨bytes, elsewhere other same ▸ held⟩

/-- Where a path leads after an edit, by where it led before. -/
inductive Tracks (after : Disk) : Except DiskError (List String × DiskItem) →
    Except DiskError (List String × DiskItem) → Prop where
  | directory (place : List String) :
      Tracks after (.ok (place, .directory)) (.ok (place, .directory))
  | file {place : List String} (old : List UInt8) {new : List UInt8}
      (there : after.item? place = some (.file new)) :
      Tracks after (.ok (place, .file old)) (.ok (place, .file new))
  | gone {place : List String} (old : List UInt8) (missing : after.item? place = none) :
      Tracks after (.ok (place, .file old)) (.error .notFound)
  | refused {e e' : DiskError} (alike : e = .nameTooLong ↔ e' = .nameTooLong) :
      Tracks after (.error e) (.error e')

section Edited

variable {before after : Disk} (edited : Edited before after)

include edited

/-- What is at a place after an edit is of the kind that was there before. -/
theorem Edited.exists_before {place : List String} {item : DiskItem}
    (there : after.item? place = some item) :
    ∃ old, before.item? place = some old ∧ old.isDirectory = item.isDirectory := by
  cases item with
  | directory => exact ⟨.directory, (edited.directory_iff place).mp there, rfl⟩
  | file bytes =>
    obtain ⟨old, earlier⟩ := edited.file place bytes there
    exact ⟨.file old, earlier, rfl⟩

/-- What was at a place stays there in its kind, but for a file that is taken away. -/
theorem Edited.after_of_before {place : List String} {item : DiskItem}
    (there : before.item? place = some item) :
    (∃ new, after.item? place = some new ∧ new.isDirectory = item.isDirectory) ∨
      after.item? place = none ∧ item.isDirectory = false := by
  cases now : after.item? place with
  | some new =>
    obtain ⟨old, earlier, alike⟩ := edited.exists_before now
    rw [there] at earlier
    cases earlier
    exact .inl ⟨new, rfl, alike.symm⟩
  | none =>
    cases item with
    | directory => simp [(edited.directory_iff place).mpr there] at now
    | file bytes => exact .inr ⟨rfl, rfl⟩

theorem Edited.none_of_none {place : List String} (missing : before.item? place = none) :
    after.item? place = none := by
  cases now : after.item? place with
  | none => rfl
  | some item =>
    obtain ⟨old, earlier, -⟩ := edited.exists_before now
    rw [missing] at earlier
    cases earlier

/-- Names lead after an edit where they led before, or nowhere. -/
theorem Edited.tracks_follow (place names : List String) :
    Tracks after (before.follow place .directory names) (after.follow place .directory names) := by
  -- Along the names; only the last one can lead to a file, and then the way is at its end.
  induction names generalizing place with
  | nil => exact .directory place
  | cons name rest ih =>
    rw [follow, follow]
    split
    next => exact ih place.dropLast
    split
    next => exact .refused Iff.rfl
    cases there : before.item? (place ++ [name]) with
    | none =>
      rw [edited.none_of_none there]
      exact .refused Iff.rfl
    | some item =>
      rcases edited.after_of_before there with ⟨new, now, alike⟩ | ⟨missing, isFile⟩
      · rw [now]
        cases item with
        | directory =>
          cases new with
          | directory => exact ih (place ++ [name])
          | file bytes => cases alike
        | file old =>
          cases new with
          | directory => cases alike
          | file bytes =>
            cases rest with
            | nil => exact .file old now
            | cons next rest => exact .refused Iff.rfl
      · rw [missing]
        cases item with
        | directory => cases isFile
        | file old =>
          cases rest with
          | nil => exact .gone old missing
          | cons next rest => exact .refused (by simp)

theorem Edited.tracks_find (path : Path) : Tracks after (before.find path) (after.find path) := by
  rw [find, find]
  cases pathError? path with
  | some e => exact .refused Iff.rfl
  | none => exact edited.tracks_follow (startOf path) path.parts

theorem Edited.refusesLength_eq (path : Path) :
    after.refusesLength path = before.refusesLength path := by
  have tracks := edited.tracks_find path
  rw [refusesLength, refusesLength]
  generalize before.find path = first, after.find path = second at tracks
  cases tracks with
  | @refused e e' alike =>
    cases e <;> cases e' <;> simp_all
  | _ => rfl

theorem Edited.find_of_directory {path : Path} {place : List String}
    (found : before.find path = .ok (place, .directory)) :
    after.find path = .ok (place, .directory) := by
  have tracks := edited.tracks_find path
  rw [found] at tracks
  generalize after.find path = second at tracks
  cases tracks
  rfl

/-- A path to a file leads after an edit to what is left at its place. -/
theorem Edited.find_of_file {path : Path} {place : List String} {old : List UInt8}
    (found : before.find path = .ok (place, .file old)) :
    after.find path =
      match after.item? place with
      | some item => .ok (place, item)
      | none => .error .notFound := by
  have tracks := edited.tracks_find path
  rw [found] at tracks
  generalize after.find path = second at tracks ⊢
  cases tracks with
  | file _ there => rw [there]
  | gone _ missing => rw [missing]

theorem Edited.find_of_error {path : Path} {e : DiskError} (failed : before.find path = .error e) :
    ∃ e', after.find path = .error e' := by
  have tracks := edited.tracks_find path
  rw [failed] at tracks
  generalize after.find path = second at tracks
  cases tracks
  exact ⟨_, rfl⟩

theorem Edited.isDirectory {path : Path} (there : before.isDirectory path) :
    after.isDirectory path := by
  rw [Disk.isDirectory] at there
  split at there
  next place found => rw [Disk.isDirectory, edited.find_of_directory found]
  next => cases there

theorem Edited.find_after {path : Path} {place : List String} {item : DiskItem}
    (found : before.find path = .ok (place, item)) :
    (∃ new, after.find path = .ok (place, new) ∧ new.isDirectory = item.isDirectory) ∨
      (∃ e, after.find path = .error e) ∧ after.item? place = none ∧ item.isDirectory = false := by
  have tracks := edited.tracks_find path
  rw [found] at tracks
  generalize after.find path = second at tracks
  cases tracks with
  | directory place => exact .inl ⟨.directory, rfl, rfl⟩
  | file old there => exact .inl ⟨_, rfl, rfl⟩
  | gone old missing => exact .inr ⟨⟨_, rfl⟩, missing, rfl⟩

/-- A file that a path leads to was there before, at a place that still has a file. -/
theorem Edited.exists_find_before {path : Path} {place : List String} {item : DiskItem}
    (found : after.find path = .ok (place, item)) : ∃ old, before.find path = .ok (place, old) := by
  have tracks := edited.tracks_find path
  rw [found] at tracks
  generalize before.find path = first at tracks ⊢
  cases tracks with
  | directory => exact ⟨.directory, rfl⟩
  | file old there => exact ⟨.file old, rfl⟩

theorem Edited.find_of_isFile {path : Path} (file : after.isFile path) :
    ∃ place old new, before.find path = .ok (place, .file old) ∧
      after.find path = .ok (place, .file new) ∧ after.item? place = some (.file new) := by
  obtain ⟨place, new, found⟩ := exists_find_of_isFile file
  have tracks := edited.tracks_find path
  rw [found] at tracks
  generalize given : before.find path = first at tracks
  cases tracks with
  | file old there => exact ⟨place, old, new, rfl, found, there⟩

theorem Edited.isFile_before {path : Path} (file : after.isFile path) : before.isFile path := by
  obtain ⟨place, old, new, found, -⟩ := edited.find_of_isFile file
  rw [isFile, found]

end Edited

/-! ### Writing and deleting files that are there -/

section Follow

variable {disk : Disk}

/-- Following names and then more names is following all of them in one go. -/
theorem follow_append (disk : Disk) (place : List String) (item : DiskItem)
    (names rest : List String) :
    disk.follow place item (names ++ rest) =
      (disk.follow place item names).bind fun reached => disk.follow reached.1 reached.2 rest := by
  induction names generalizing place item with
  | nil => cases item <;> rfl
  | cons name names ih =>
    -- Only a directory is gone through, so a file on the way stops both sides alike.
    cases item with
    | file bytes => rfl
    | directory =>
      rw [List.cons_append, follow, follow]
      split
      next => exact ih _ _
      split
      next => rfl
      cases disk.item? (place ++ [name]) with
      | none => rfl
      | some item => exact ih _ _

/-- A file at the end of some names is what is at the place; going up only leads to directories. -/
theorem item?_of_follow_file {place names reached : List String} {bytes : List UInt8}
    (followed : disk.follow place .directory names = .ok (reached, .file bytes)) :
    disk.item? reached = some (.file bytes) := by
  induction names generalizing place with
  | nil => cases followed
  | cons name rest ih =>
    -- A file is met by its name, for a step up leads to a directory.
    rw [follow] at followed
    split at followed
    next => exact ih followed
    split at followed
    next => cases followed
    split at followed
    next => cases followed
    next item there =>
      cases item with
      | directory => exact ih followed
      | file held =>
        cases rest with
        | nil =>
          cases followed
          exact there
        | cons next rest => cases followed

theorem item?_of_find_file {path : Path} {place : List String} {bytes : List UInt8}
    (found : disk.find path = .ok (place, .file bytes)) : disk.item? place = some (.file bytes) :=
  item?_of_follow_file (follow_of_find found)

/-- The last step on the way to an item goes up, or to what is there under a name. -/
theorem exists_last_step {place names reached : List String} {name : String} {item : DiskItem}
    (followed : disk.follow place .directory (names ++ [name]) = .ok (reached, item)) :
    ∃ above, disk.follow place .directory names = .ok (above, .directory) ∧
      (name = ".." ∧ reached = above.dropLast ∧ item = .directory ∨
        name ≠ ".." ∧ ¬ maxNameBytes < name.utf8ByteSize ∧
          disk.item? (above ++ [name]) = some item ∧ reached = above ++ [name]) := by
  rw [follow_append] at followed
  cases way : disk.follow place .directory names with
  | error e => simp [way, Except.bind] at followed
  | ok found =>
    obtain ⟨above, held⟩ := found
    simp only [way, Except.bind] at followed
    cases held with
    | file bytes => cases followed
    | directory =>
      refine ⟨above, rfl, ?_⟩
      rw [follow] at followed
      split at followed
      next up =>
        rw [follow] at followed
        cases followed
        exact .inl ⟨up, rfl, rfl⟩
      next down =>
        split at followed
        next => cases followed
        next short =>
          split at followed
          next => cases followed
          next other there =>
            -- There is nothing left to follow, so what was found is what was reached.
            have ended : disk.follow (above ++ [name]) other [] = .ok (above ++ [name], other) := by
              cases other <;> rfl
            rw [ended] at followed
            cases followed
            exact .inr ⟨down, short, there, rfl⟩

/-- The text of a path goes on where that of the path above it ends. -/
theorem exists_intercalate_concat (names : List String) (name : String) :
    ∃ more, "/".intercalate (names ++ [name]) = "/".intercalate names ++ more := by
  by_cases top : names = []
  · exact ⟨name, by simp [top]⟩
  · refine ⟨"/" ++ name, ?_⟩
    rw [String.intercalate_append_of_ne_nil top (by simp), String.intercalate_singleton,
      String.append_assoc]

theorem pathError?_parent {path : Path} (fine : pathError? path = none) (below : path.parts ≠ []) :
    pathError? path.parent = none := by
  have split := List.dropLast_append_getLast below
  obtain ⟨more, longer⟩ := exists_intercalate_concat path.parts.dropLast (path.parts.getLast below)
  rw [split] at longer
  by_cases bare : path.root ++ "/".intercalate path.parts.dropLast = ""
  · -- What is above a single name is the starting place, which is written as a dot.
    have dot : path.parent.toString = "." := if_pos bare
    simp only [pathError?, dot]
    decide
  · -- The text above is the beginning of the text, so it is no longer and has no other characters.
    have above : path.parent.toString = path.root ++ "/".intercalate path.parts.dropLast :=
      if_neg bare
    have whole : path.toString = path.parent.toString ++ more := by
      rw [above, Path.toString, longer, ← String.append_assoc, if_neg]
      simp only [String.append_eq_empty_iff] at bare ⊢
      tauto
    simp only [pathError?, whole, String.toList_append, String.utf8ByteSize_append] at fine ⊢
    split at fine
    next => cases fine
    next clean =>
      split at fine
      next => cases fine
      next short =>
        rw [if_neg (by simp_all), if_neg (by omega)]

end Follow

section Attempts

variable {disk : Disk} {path : Path} {place : List String}

theorem pathError?_of_find {reached : List String × DiskItem}
    (found : disk.find path = .ok reached) : pathError? path = none := by
  rw [find] at found
  split at found
  next => cases found
  next fine => exact fine

theorem addDirectory_of_directory (found : disk.find path = .ok (place, .directory)) :
    disk.addDirectory path = .error .alreadyExists := by
  have followed := follow_of_find found
  rw [addDirectory, pathError?_of_find found]
  cases last : path.parts.getLast? with
  | none => rfl
  | some name =>
    obtain ⟨names, split⟩ := List.getLast?_eq_some_iff.mp last
    rw [split] at followed
    obtain ⟨above, way, step⟩ := exists_last_step followed
    rw [split, List.dropLast_concat, way]
    rcases step with ⟨up, -⟩ | ⟨down, short, there, -⟩
    · simp only [if_pos up]
    · simp only [if_neg down, if_neg short, there, Option.isSome_some, if_true]

theorem makeDirectory_of_directory (found : disk.find path = .ok (place, .directory)) :
    disk.makeDirectory path = ⟨disk, none⟩ := by
  have there := addDirectory_of_directory found
  have isDirectory : disk.isDirectory path := by rw [isDirectory, found]
  rw [makeDirectory, there, ensureDirectory, there]
  exact if_pos isDirectory

/-- A file that is there is written where it is. -/
theorem write_of_file {old : List UInt8} (found : disk.find path = .ok (place, .file old))
    (bytes : List UInt8) : disk.write path bytes = ⟨disk.put place (.file bytes), none⟩ := by
  have fine := pathError?_of_find found
  have followed := follow_of_find found
  have below : path.parts ≠ [] := by
    intro top
    rw [top, follow] at followed
    cases followed
  have last := List.getLast?_eq_some_getLast below
  obtain ⟨names, split⟩ := List.getLast?_eq_some_iff.mp last
  rw [split] at followed
  obtain ⟨above, way, step⟩ := exists_last_step followed
  rw [show names = path.parts.dropLast by rw [split, List.dropLast_concat]] at way
  -- The last step cannot go up, since it leads to a file.
  obtain ⟨down, short, there, rfl⟩ := step.resolve_left (by simp)
  -- The directory above is the one that the way goes through, so none is made.
  have parent : disk.find path.parent = .ok (above, .directory) := by
    rw [find, pathError?_parent fine below]
    exact way
  simp only [write, makeDirectory_of_directory parent, putFile, fine, last, way, if_neg down,
    if_neg short, there]

theorem delete_of_file {old : List UInt8} (found : disk.find path = .ok (place, .file old)) :
    disk.delete path = ⟨disk.drop place, none⟩ := by
  simp only [delete, found]

end Attempts

end Phrasebook.Disk
