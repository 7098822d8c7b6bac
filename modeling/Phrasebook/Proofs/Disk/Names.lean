import Mathlib.Data.List.Induction
import Phrasebook.Disk

/-!
# Phrasebook.Proofs.Disk.Names

The names of what is on a disk, and the texts of paths.

A name can stand between two slashes of a path: it is not empty, and no slash is in it. Where every
item has a name (`Disk.Proper`), which no change at a path read from a text can spoil (`proper_run`),
the text of a path to a file tells the path: two files below one root never have the same text
(`toString_inj_of_isFile`).
-/

namespace Phrasebook

/-- A text that can stand between two slashes of a path. -/
def IsName (name : String) : Prop :=
  name ≠ "" ∧ '/' ∉ name.toList

instance : DecidablePred IsName := fun _ => inferInstanceAs (Decidable (_ ∧ _))

/-! ### Texts of paths -/

namespace Path

def Named (path : Path) : Prop :=
  ∀ part ∈ path.parts, IsName part

theorem named_ofString (text : String) : (ofString text).Named := by
  intro part member
  obtain ⟨piece, kept⟩ := List.mem_filter.mp member
  obtain ⟨chars, cut, rfl⟩ := List.mem_map.mp piece
  have nonempty : String.ofList chars ≠ "" := by
    simp only [Bool.and_eq_true, decide_eq_true_eq] at kept
    exact kept.1
  refine ⟨nonempty, ?_⟩
  rw [String.toList_ofList]
  exact Text.separator_not_mem_of_mem_pieces cut

theorem Named.parent {path : Path} (named : path.Named) : path.parent.Named :=
  fun part member => named part ((List.dropLast_sublist _).subset member)

/-- A path whose text tells its components: there are some, and no slash is in them. -/
structure Legible (path : Path) : Prop where
  clean : ∀ part ∈ path.parts, '/' ∉ part.toList
  nonempty : path.parts ≠ []
  shown : path.root ++ "/".intercalate path.parts ≠ ""

theorem splitOn_intercalate {parts : List String} (clean : ∀ part ∈ parts, '/' ∉ part.toList)
    (nonempty : parts ≠ []) :
    ("/".intercalate parts).toList.splitOn '/' = parts.map String.toList := by
  rw [String.toList_intercalate]
  refine List.splitOn_intercalate '/' (fun chars member => ?_) (by simpa using nonempty)
  obtain ⟨part, inside, rfl⟩ := List.mem_map.mp member
  exact clean part inside

/-- Two legible paths of one root are the same if their texts are. -/
theorem Legible.toString_inj {one other : Path} (legible : one.Legible)
    (legible' : other.Legible) (sameRoot : one.root = other.root)
    (same : one.toString = other.toString) : one = other := by
  rw [Path.toString, Path.toString, if_neg legible.shown, if_neg legible'.shown, sameRoot] at same
  have joined : "/".intercalate one.parts = "/".intercalate other.parts := by
    simpa using same
  -- Cutting the text at its slashes gives the components back.
  have cut : one.parts.map String.toList = other.parts.map String.toList := by
    rw [← splitOn_intercalate legible.clean legible.nonempty, joined,
      splitOn_intercalate legible'.clean legible'.nonempty]
  have sameParts : one.parts = other.parts :=
    (List.map_inj_right fun _ _ => String.toList_inj.mp).mp cut
  cases one
  cases other
  simp_all

end Path

/-! ### Disks with names -/

namespace Disk

/-- Every item that is listed has a name. -/
def Proper (disk : Disk) : Prop :=
  ∀ item ∈ disk.items, ∀ name ∈ item.1.getLast?, IsName name

instance (disk : Disk) : Decidable disk.Proper :=
  inferInstanceAs (Decidable (∀ item ∈ disk.items, ∀ name ∈ item.1.getLast?, IsName name))

theorem Proper.isName_of_item? {disk : Disk} (proper : disk.Proper) {place : List String}
    {name : String} {item : DiskItem} (there : disk.item? (place ++ [name]) = some item)
    (deep : ¬ place ++ [name] <+: start) : IsName name := by
  rw [item?, if_neg (by rwa [List.isPrefixOf_iff_prefix])] at there
  obtain ⟨before, after, split, -⟩ := List.lookup_eq_some_iff.mp there
  exact proper (place ++ [name], item) (by simp [split]) name (by simp)

/-- Nothing is at a place whose last step holds a slash. -/
theorem Proper.clean_of_item? {disk : Disk} (proper : disk.Proper) {place : List String}
    {name : String} {item : DiskItem} (there : disk.item? (place ++ [name]) = some item) :
    '/' ∉ name.toList := by
  by_cases shallow : place ++ [name] <+: start
  · -- The directories that are always there have empty names.
    have member : name ∈ start := shallow.subset (by simp)
    have empty : name = "" := by simpa [start] using member
    simp [empty]
  · exact (proper.isName_of_item? there shallow).2

theorem Proper.clean_of_follow {disk : Disk} (proper : disk.Proper) {names place : List String}
    {item : DiskItem} {reached : List String × DiskItem}
    (followed : disk.follow place item names = .ok reached) :
    ∀ name ∈ names, '/' ∉ name.toList := by
  -- A step goes up, or to an item that is there under the name.
  induction names generalizing place item with
  | nil => exact fun name member => absurd member List.not_mem_nil
  | cons first rest ih =>
    cases item with
    | file bytes => cases followed
    | directory =>
      rw [follow] at followed
      split at followed
      next up =>
        have ups : '/' ∉ first.toList := by simp [up]
        exact List.forall_mem_cons.mpr ⟨ups, ih followed⟩
      next =>
        split at followed
        next => cases followed
        next =>
          split at followed
          next => cases followed
          next there => exact List.forall_mem_cons.mpr ⟨proper.clean_of_item? there, ih followed⟩

theorem exists_find_of_isFile {disk : Disk} {path : Path} (file : disk.isFile path) :
    ∃ place bytes, disk.find path = .ok (place, .file bytes) := by
  rw [isFile] at file
  split at file
  next place bytes found => exact ⟨place, bytes, found⟩
  next => cases file

theorem follow_of_find {disk : Disk} {path : Path} {reached : List String × DiskItem}
    (found : disk.find path = .ok reached) :
    disk.follow (startOf path) .directory path.parts = .ok reached := by
  rw [find] at found
  split at found
  next => cases found
  next => exact found

/-- A path that leads to a file is legible. -/
theorem Proper.legible_of_isFile {disk : Disk} (proper : disk.Proper) {path : Path}
    (file : disk.isFile path) : path.Legible := by
  obtain ⟨place, bytes, found⟩ := exists_find_of_isFile file
  have followed := follow_of_find found
  have clean := proper.clean_of_follow followed
  have nonempty : path.parts ≠ [] := by
    intro empty
    rw [empty, follow] at followed
    cases followed
  refine ⟨clean, nonempty, fun hidden => ?_⟩
  -- Only a single empty name has no text, and nothing at the start has an empty name.
  have parts : path.root = "" ∧ "/".intercalate path.parts = "" := by simpa using hidden
  have single : path.parts = [""] := by
    have cut := Path.splitOn_intercalate clean nonempty
    rw [parts.2] at cut
    obtain ⟨part, same, text⟩ := List.map_eq_singleton_iff.mp cut.symm
    rw [same, String.toList_eq_nil_iff.mp text]
  rw [single, startOf, if_pos parts.1, follow, if_neg (by decide), if_neg (by decide)] at followed
  split at followed
  next => cases followed
  next there => exact (proper.isName_of_item? there (by decide)).1 rfl

theorem Proper.toString_inj_of_isFile {disk : Disk} (proper : disk.Proper) {one other : Path}
    (file : disk.isFile one) (file' : disk.isFile other) (sameRoot : one.root = other.root)
    (same : one.toString = other.toString) : one = other :=
  (proper.legible_of_isFile file).toString_inj (proper.legible_of_isFile file') sameRoot same

/-! ### Changes -/

/-- The place that names lead to has no step of two dots, for following takes them back. -/
theorem dotless_of_follow {disk : Disk} {names place : List String} {item : DiskItem}
    {reached : List String × DiskItem} (dotless : ".." ∉ place)
    (followed : disk.follow place item names = .ok reached) : ".." ∉ reached.1 := by
  -- A step of two dots takes a name away, and any other step adds its own name.
  induction names generalizing place item with
  | nil =>
    rw [follow] at followed
    cases followed
    exact dotless
  | cons name rest ih =>
    cases item with
    | file bytes => cases followed
    | directory =>
      rw [follow] at followed
      split at followed
      next => exact ih (fun member => dotless ((List.dropLast_sublist _).subset member)) followed
      next down =>
        repeat' split at followed
        all_goals try cases followed
        refine ih (fun member => ?_) followed
        rcases List.mem_append.mp member with above | last
        · exact dotless above
        · exact down (List.mem_singleton.mp last).symm

theorem dotless_startOf (path : Path) : ".." ∉ startOf path := by
  rw [startOf]
  split <;> simp [start]

/-- A property of disks that stays when an item is taken away, or is put under a name. -/
structure Stable (good : Disk → Prop) : Prop where
  empty : good empty
  drop : ∀ {disk : Disk}, good disk → ∀ place, good (disk.drop place)
  put : ∀ {disk : Disk}, good disk → ∀ place name, IsName name → ".." ∉ place ++ [name] →
    ∀ item, good (disk.put (place ++ [name]) item)

namespace Stable

variable {good : Disk → Prop} (stable : Stable good) {disk : Disk} (held : good disk) {path : Path}

include stable held

/-- Putting something under a name, below a directory that names lead to, keeps the property. -/
theorem put_of_follow {names place : List String} {name : String}
    (followed : disk.follow (startOf path) .directory names = .ok (place, .directory))
    (isName : IsName name) (down : name ≠ "..") (item : DiskItem) :
    good (disk.put (place ++ [name]) item) := by
  refine stable.put held place name isName (fun member => ?_) item
  rcases List.mem_append.mp member with above | last
  · exact dotless_of_follow (dotless_startOf path) followed above
  · exact down (List.mem_singleton.mp last).symm

theorem delete (path : Path) : good (disk.delete path).disk := by
  simp only [Disk.delete]
  repeat' split
  all_goals first | exact held | exact stable.drop held _

variable (named : path.Named)

include named

theorem addDirectory {made : Disk} (added : disk.addDirectory path = .ok made) : good made := by
  -- Whatever does not fail puts one item under the last name of the path.
  rw [Disk.addDirectory] at added
  split at added
  next => cases added
  next => cases added
  next name none last =>
    have isName : IsName name := named name (List.mem_of_getLast? last)
    split at added
    next => cases added
    next => cases added
    next place followed =>
      repeat' split at added
      all_goals cases added
      exact stable.put_of_follow held followed isName ‹_› _

theorem putFile {made : Disk} {bytes : List UInt8} (put : disk.putFile path bytes = .ok made) :
    good made := by
  rw [Disk.putFile] at put
  split at put
  next => cases put
  next => cases put
  next name none last =>
    have isName : IsName name := named name (List.mem_of_getLast? last)
    split at put
    next => cases put
    next => cases put
    next place followed =>
      -- Whatever else is the case, no new disk is made.
      repeat' split at put
      all_goals cases put
      exact stable.put_of_follow held followed isName ‹_› _

theorem ensureDirectory : good (disk.ensureDirectory path).disk := by
  rw [Disk.ensureDirectory]
  split
  next made added => exact stable.addDirectory held named added
  next => split <;> exact held

theorem makeDirectory : good (disk.makeDirectory path).disk := by
  -- What is above is made first, and has a shorter path made of the same names.
  fun_induction Disk.makeDirectory disk path with
  | case1 => exact held
  | case2 path _ _ _ _ _ _ ih => exact ih named.parent
  | case3 path _ _ _ _ _ ih => exact stable.ensureDirectory (ih named.parent) named
  | case4 => exact stable.ensureDirectory held named

theorem write (bytes : List UInt8) : good (disk.write path bytes).disk := by
  have above : good (disk.makeDirectory path.parent).disk := stable.makeDirectory held named.parent
  rw [Disk.write]
  split
  next => exact above
  next =>
    split
    next made put => exact stable.putFile above named put
    next => exact above

end Stable

/-- A change to a disk, at a path that is read from a text. -/
inductive Change where
  | makeDirectory (path : String)
  | write (path : String) (bytes : List UInt8)
  | delete (path : String)

def apply (disk : Disk) : Change → Disk
  | .makeDirectory path => (disk.makeDirectory (.ofString path)).disk
  | .write path bytes => (disk.write (.ofString path) bytes).disk
  | .delete path => (disk.delete (.ofString path)).disk

def run (changes : List Change) : Disk :=
  changes.foldl apply empty

theorem Stable.apply {good : Disk → Prop} (stable : Stable good) {disk : Disk} (held : good disk)
    (change : Change) : good (disk.apply change) := by
  cases change with
  | makeDirectory path => exact stable.makeDirectory held (Path.named_ofString path)
  | write path bytes => exact stable.write held (Path.named_ofString path) bytes
  | delete path => exact stable.delete held (.ofString path)

theorem Stable.run {good : Disk → Prop} (stable : Stable good) (changes : List Change) :
    good (run changes) := by
  induction changes using List.reverseRecOn with
  | nil => exact stable.empty
  | append_singleton changes change ih =>
    rw [Disk.run, List.foldl_append]
    exact stable.apply ih change

theorem stable_proper : Stable Proper where
  empty := fun _ member => absurd member List.not_mem_nil
  drop := fun proper _ item member => proper item (List.mem_filter.mp member).1
  put := by
    intro disk proper place name isName _ new other member
    rcases List.mem_append.mp member with old | last
    · exact proper other (List.mem_filter.mp old).1
    · rw [List.mem_singleton.mp last, List.getLast?_concat]
      simpa using isName

theorem proper_run (changes : List Change) : (run changes).Proper :=
  stable_proper.run changes

end Disk

end Phrasebook
