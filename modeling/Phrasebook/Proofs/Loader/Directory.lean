import Mathlib.Data.List.Forall2
import Mathlib.Data.List.TakeWhile
import Phrasebook.Proofs.Disk.Names
import Phrasebook.Proofs.Disk.Selection
import Phrasebook.Proofs.Index.Registration
import Phrasebook.Proofs.Loader.File

/-!
# Phrasebook.Proofs.Loader.Directory

All files below a root.

The files are read in their order up to the first with a number that is too large. Each of them ends
as it would on its own, whatever the others hold and whatever the index held before, and those that
can be read are parts of the scope afterwards (`loadDirectory_reads_files`). A file with a number that
is too large gives the operation up, and what comes after it is not read
(`loadDirectory_stopped_by_escape`).
-/

namespace Phrasebook

namespace Loader

/-! ### One file -/

/-- The document of the file at the end of a path, if there is one that can be read. -/
def document? (disk : Disk) (path : Path) : Option Document :=
  (text? disk path).bind fun text => (Document.parse text).value.toOption

/-- The number in the file at the end of a path that is too large to be read, if that is what is
    met first. -/
def excess? (disk : Disk) (path : Path) : Option Yaml.Excess :=
  (text? disk path).bind fun text =>
    match (Document.parse text).value with
    | .error (.excessive excess) => some excess
    | _ => none

/-- The outcome of reading a file. No index and no scope has a part in it. -/
structure Reports (disk : Disk) (path : Path) (outcome : Outcome Index.Payload) : Prop where
  alone : ∀ index scope, (loadFile disk index scope path).value.2 = .ok outcome
  success_iff : outcome.isSuccess ↔ (document? disk path).isSome

section File

variable {disk : Disk} {path : Path}

/-- A file is given up only for a number in its text that is too large. -/
theorem parse_of_excess {excess : Yaml.Excess} (has : excess? disk path = some excess) :
    ∃ text, text? disk path = some text ∧
      (Document.parse text).value = .error (.excessive excess) := by
  obtain ⟨text, hasText, met⟩ := Option.bind_eq_some_iff.mp has
  split at met
  next read =>
    cases met
    exact ⟨text, hasText, read⟩
  next => cases met

theorem value_loadFile_of_excess {excess : Yaml.Excess} (has : excess? disk path = some excess)
    (index : Index) (scope : String) :
    (loadFile disk index scope path).value = (index, .error (.excessive excess)) := by
  obtain ⟨text, hasText, read⟩ := parse_of_excess has
  rw [value_loadFile_of_text? hasText]
  apply Prod.ext
  · rw [Index.value_mergePart, read]
  · rw [Index.result_mergePart, read]

theorem exists_reports (file : disk.isFile path) (bounded : excess? disk path = none) :
    ∃ outcome, Reports disk path outcome := by
  -- A file that is there has bytes, so what can be wrong is that they are no text, or their text no
  -- document.
  obtain ⟨place, bytes, found⟩ := Disk.exists_find_of_isFile file
  have read : disk.read path = .ok bytes := by rw [Disk.read, found]
  cases decoded : textOf bytes with
  | error e =>
    have missing : text? disk path = none := by simp [text?, read, decoded, Except.toOption]
    refine ⟨_, fun index scope => by simp only [loadFile, read, decoded]; rfl, ?_⟩
    simp [document?, missing, Outcome.isSuccess, Outcome.permanentError, Outcome.error]
  | ok text =>
    have has : text? disk path = some text := by simp [text?, read, decoded, Except.toOption]
    have result (index : Index) (scope : String) : (loadFile disk index scope path).value.2 =
        (index.mergePart scope text path.toString).value.2 := by rw [value_loadFile_of_text? has]
    simp only [Index.result_mergePart] at result
    rw [excess?, has, Option.bind_some] at bounded
    cases parsed : (Document.parse text).value with
    | ok document =>
      refine ⟨_, fun index scope => by simp only [result, parsed]; rfl, ?_⟩
      simp [document?, has, parsed, Except.toOption, Outcome.isSuccess, Outcome.success]
    | error fault =>
      cases fault with
      | unreadable error =>
        refine ⟨_, fun index scope => by simp only [result, parsed]; rfl, ?_⟩
        simp [document?, has, parsed, Except.toOption, Outcome.isSuccess, Outcome.permanentError,
          Outcome.error]
      | excessive excess => simp [parsed] at bounded

/-- The part that a document makes for a file. -/
def partOf (file : String) (document : Document) : Part :=
  .ofPhrases document.toBranch.value (some document) file

/-- To make the change that a file amounts to is to register the part of its document. -/
theorem loading_eq (index : Index) (scope : String) :
    (loading? disk scope path).elim index index.apply =
      (document? disk path).elim index fun document =>
        index.register scope (partOf path.toString document) := by
  rw [loading?, document?]
  cases text? disk path with
  | none => rfl
  | some text =>
    have same := Index.value_mergePart_eq index scope text path.toString
    rw [Option.bind_some, Option.bind_some, registering?]
    cases read : (Document.parse text).value with
    | error fault => rfl
    | ok document =>
      rw [read] at same
      exact same

/-- Loading a file leaves the part of its document under its path, and the parts of other files as
    they were. -/
theorem part?_loading (index : Index) (scope file : String) :
    ((loading? disk scope path).elim index index.apply).part? scope file =
      if path.toString = file then
        ((document? disk path).map (partOf file)).or (index.part? scope file)
      else index.part? scope file := by
  rw [loading_eq]
  cases document? disk path with
  | none => simp
  | some document =>
    rw [Option.elim_some, Index.part?_register _ _ _ rfl]
    split
    next same => rw [same, Option.map_some, Option.some_or]
    next => rfl

end File

/-! ### Parts of files -/

/-- The parts of files, each with the document that is held for it. -/
def partsOf (held : Path → Option Document) (files : List Path) : List Part :=
  files.filterMap fun path => (held path).map (partOf path.toString)

section PartsOf

variable {held : Path → Option Document} {files : List Path}

theorem mem_partsOf {path : Path} (member : path ∈ files) {document : Document}
    (holds : held path = some document) : partOf path.toString document ∈ partsOf held files :=
  List.mem_filterMap.mpr ⟨path, member, by rw [holds]; rfl⟩

theorem named_partsOf : ∀ part ∈ partsOf held files, part.sourceFile.isSome := by
  intro part member
  obtain ⟨path, -, own⟩ := List.mem_filterMap.mp member
  obtain ⟨document, -, rfl⟩ := Option.map_eq_some_iff.mp own
  rfl

theorem onePartPerFile_partsOf (distinct : (files.map Path.toString).Nodup)
    (held : Path → Option Document) : Store.OnePartPerFile (partsOf held files) := by
  refine List.pairwise_filterMap.mpr ((List.pairwise_map.mp distinct).imp ?_)
  intro one other differ part own part' own' file named named'
  obtain ⟨document, -, rfl⟩ := Option.map_eq_some_iff.mp own
  obtain ⟨document', -, rfl⟩ := Option.map_eq_some_iff.mp own'
  exact differ (Option.some.inj (named.trans named'.symm))

end PartsOf

/-! ### Files one after the other -/

/-- The files that are read: those before the first with a number that is too large. -/
def reached (disk : Disk) (files : List Path) : List Path :=
  files.takeWhile fun path => (excess? disk path).isNone

/-- The index after some files have been read into a scope. -/
def afterFiles (disk : Disk) (scope : String) (index : Index) (files : List Path) : Index :=
  files.foldl (fun index path => (loading? disk scope path).elim index index.apply) index

/-- How reading files ends: with the outcome of each, or with the first number that is too large. -/
structure Ends (disk : Disk) (files : List Path)
    (result : Except Failure (List (Outcome Index.Payload))) : Prop where
  complete : (∀ path ∈ files, excess? disk path = none) →
    ∃ outcomes, result = .ok outcomes ∧ List.Forall₂ (Reports disk) files outcomes
  stopped : ∀ excess, files.findSome? (excess? disk) = some excess →
    result = .error (.excessive excess)

section Files

variable {disk : Disk} {files : List Path}

theorem reached_of_bounded (bounded : ∀ path ∈ files, excess? disk path = none) :
    reached disk files = files :=
  List.takeWhile_eq_self_iff.mpr fun path member => by rw [bounded path member]; rfl

theorem ends_nil : Ends disk [] (.ok []) := by
  constructor
  · intro _
    exact ⟨[], rfl, .nil⟩
  · intro excess none
    cases none

theorem ends_cons_of_excess {path : Path} {excess : Yaml.Excess}
    (has : excess? disk path = some excess) (rest : List Path) :
    Ends disk (path :: rest) (.error (.excessive excess)) := by
  constructor
  · intro bounded
    rw [bounded path List.mem_cons_self] at has
    cases has
  · intro first found
    rw [List.findSome?_cons, has] at found
    cases found
    rfl

theorem Ends.cons {path : Path} {outcome : Outcome Index.Payload}
    (reports : Reports disk path outcome) (bounded : excess? disk path = none)
    {result : Except Failure (List (Outcome Index.Payload))} (ended : Ends disk files result) :
    Ends disk (path :: files) (result.map (outcome :: ·)) := by
  constructor
  · intro allBounded
    obtain ⟨outcomes, rfl, pairs⟩ :=
      ended.complete fun other member => allBounded other (List.mem_cons_of_mem _ member)
    exact ⟨outcome :: outcomes, rfl, .cons reports pairs⟩
  · intro excess found
    rw [List.findSome?_cons, bounded] at found
    rw [ended.stopped excess found]
    rfl

/-- Loading files reads them in order up to the first one that is given up, and has an outcome for
    each. -/
theorem loadFiles_reads (areFiles : ∀ path ∈ files, disk.isFile path) (index : Index)
    (scope : String) :
    (loadFiles disk scope files index).value.1 =
        afterFiles disk scope index (reached disk files) ∧
      Ends disk files (loadFiles disk scope files index).value.2 := by
  -- One file after the other; the index that the rest is read into may be any.
  induction files generalizing index with
  | nil => exact ⟨rfl, ends_nil⟩
  | cons path rest ih =>
    obtain ⟨isFile, areFiles⟩ := List.forall_mem_cons.mp areFiles
    rw [loadFiles, Logged.value_bind, reached, List.takeWhile_cons]
    cases has : excess? disk path with
    | some excess =>
      rw [value_loadFile_of_excess has]
      exact ⟨rfl, ends_cons_of_excess has rest⟩
    | none =>
      obtain ⟨outcome, reports⟩ := exists_reports isFile has
      have given : (loadFile disk index scope path).value =
          ((loading? disk scope path).elim index index.apply, .ok outcome) :=
        Prod.ext (loadFile_amounts disk index scope path).1 (reports.alone index scope)
      obtain ⟨later, ended⟩ := ih areFiles ((loading? disk scope path).elim index index.apply)
      simp only [given, Logged.value_bind, Logged.value_pure]
      exact ⟨later, ended.cons reports has⟩

/-- Loading files registers the parts of those that have a document, in order. -/
theorem afterFiles_eq (index : Index) (scope : String) :
    afterFiles disk scope index files = index.registerAll scope (partsOf (document? disk) files) := by
  induction files generalizing index with
  | nil => rfl
  | cons path rest ih =>
    rw [afterFiles, List.foldl_cons, loading_eq, partsOf, List.filterMap_cons]
    cases document? disk path with
    | none => exact ih index
    | some document => exact ih (index.register scope (partOf path.toString document))

/-- A file with a document has the part of this document after the loading. -/
theorem part?_afterFiles {scope : String} (distinct : (files.map Path.toString).Nodup)
    {path : Path} (member : path ∈ files) {document : Document}
    (has : document? disk path = some document) (index : Index) :
    (afterFiles disk scope index files).part? scope path.toString =
      some (partOf path.toString document) := by
  rw [afterFiles_eq, Index.part?_eq, Store.part?, Index.parts_registerAll]
  exact Store.find?_registerAll named_partsOf (onePartPerFile_partsOf distinct _)
    (mem_partsOf member has) rfl _

end Files

/-! ### Directories -/

section Directory

variable {loader : Loader} {disk : Disk} {root : Path} {files : List Path}

theorem findFiles_files (found : loader.findFiles disk root = .ok files) :
    ∃ pattern : Pattern, pattern.files disk root = .ok files := by
  obtain ⟨pattern, -, selected⟩ := bind_eq_ok.mp found
  exact ⟨pattern, selected⟩

/-- Loading a directory is loading the files that are found in it. -/
theorem value_loadDirectory (there : disk.isDirectory root)
    (found : loader.findFiles disk root = .ok files) (index : Index) (scope : String) :
    (loader.loadDirectory disk index scope root).value = (loadFiles disk scope files index).value := by
  have short : disk.refusesLength root = false := by
    rw [Disk.isDirectory] at there
    split at there
    next found => rw [Disk.refusesLength, found]
    next => cases there
  rw [loadDirectory, if_neg (by simp [short]), if_neg (by simp [there]), found]
  cases files with
  | nil => rfl
  | cons path rest =>
    simp only [Logged.value_within, Logged.value_bind]
    obtain ⟨after, result⟩ := (loadFiles disk scope (path :: rest) index).value
    cases result <;> rfl

theorem loadDirectory_amounts (there : disk.isDirectory root)
    (found : loader.findFiles disk root = .ok files) (index : Index) (scope : String) :
    (loader.loadDirectory disk index scope root).value.1 =
        afterFiles disk scope index (reached disk files) ∧
      Ends disk files (loader.loadDirectory disk index scope root).value.2 := by
  obtain ⟨pattern, selected⟩ := findFiles_files found
  have areFiles : ∀ path ∈ files, disk.isFile path :=
    fun path member => (Pattern.fileUnder_of_mem_files selected member).1
  rw [value_loadDirectory there found]
  exact loadFiles_reads areFiles index scope

theorem distinct_files (proper : disk.Proper) (found : loader.findFiles disk root = .ok files) :
    (files.map Path.toString).Nodup := by
  -- The order is strict, so these are different paths, and different paths have different texts.
  obtain ⟨pattern, selected⟩ := findFiles_files found
  refine List.pairwise_map.mpr ((Pattern.ordered_files selected).imp_of_mem ?_)
  intro one other member member' before same
  obtain ⟨isFile, rooted⟩ := Pattern.fileUnder_of_mem_files selected member
  obtain ⟨isFile', rooted'⟩ := Pattern.fileUnder_of_mem_files selected member'
  have equal := proper.toString_inj_of_isFile isFile isFile' (rooted.trans rooted'.symm) same
  exact List.lt_irrefl _ (equal ▸ before : other.Before other)

/-- The files below a root are read in their order, each once. Unless a number in one of them is too
    large, there is an outcome for every file, and it is that of the file on its own. A file that can
    be read is a part of the scope afterwards, if no number in it or in a file before it is too
    large, whatever else is wrong with the others. -/
theorem loadDirectory_reads_files (proper : disk.Proper) (there : disk.isDirectory root)
    (found : loader.findFiles disk root = .ok files) (index : Index) (scope : String) :
    files.Pairwise Path.Before ∧
      Ends disk files (loader.loadDirectory disk index scope root).value.2 ∧
      ∀ path ∈ reached disk files, ∀ document, document? disk path = some document →
        (loader.loadDirectory disk index scope root).value.1.part? scope path.toString =
          some (partOf path.toString document) := by
  obtain ⟨pattern, selected⟩ := findFiles_files found
  have areFiles : ∀ path ∈ files, disk.isFile path :=
    fun path member => (Pattern.fileUnder_of_mem_files selected member).1
  obtain ⟨after, ended⟩ := loadFiles_reads areFiles index scope
  rw [value_loadDirectory there found, after]
  refine ⟨Pattern.ordered_files selected, ended, ?_⟩
  intro path member document has
  have distinct : ((reached disk files).map Path.toString).Nodup :=
    (distinct_files proper found).sublist ((List.takeWhile_sublist _).map _)
  exact part?_afterFiles distinct member has index

/-- A file that is not UTF-8, one that is not YAML, and one that can be read. -/
theorem loadDirectory_reads_files_beside_broken_ones :
    let bytes (text : String) : List UInt8 := text.toList.map fun c => .ofNat c.toNat
    let root : Path := ⟨"", ["p"]⟩
    let files : List Path := [⟨"", ["p", "a.yml"]⟩, ⟨"", ["p", "b.yml"]⟩, ⟨"", ["p", "c.yml"]⟩]
    let disk : Disk := ⟨[(Disk.start ++ ["p"], .directory),
      (Disk.start ++ ["p", "c.yml"], .file (bytes "en: {k: v}")),
      (Disk.start ++ ["p", "a.yml"], .file [0xFF]),
      (Disk.start ++ ["p", "b.yml"], .file (bytes "en: ["))]⟩
    let loader : Loader := ⟨"*.yml"⟩
    let loaded := (loader.loadDirectory disk (.empty "en") "s" root).value
    disk.Proper ∧ disk.isDirectory root ∧ loader.findFiles disk root = .ok files ∧
      files.Pairwise Path.Before ∧
      (∃ outcomes, loaded.2 = .ok outcomes ∧ List.Forall₂ (Reports disk) files outcomes) ∧
      ∃ document, document? disk ⟨"", ["p", "c.yml"]⟩ = some document ∧
        loaded.1.part? "s" "p/c.yml" = some (partOf "p/c.yml" document) := by
  intro bytes root files disk loader loaded
  have proper : disk.Proper := by decide +kernel
  have there : disk.isDirectory root := by decide +kernel
  have found : loader.findFiles disk root = .ok files := eq_ok_of_toOption (by decide +kernel)
  obtain ⟨ordered, ended, registered⟩ :=
    loadDirectory_reads_files proper there found (.empty "en") "s"
  have bounded : ∀ path ∈ files, excess? disk path = none := by decide +kernel
  have last : ⟨"", ["p", "c.yml"]⟩ ∈ reached disk files := by decide +kernel
  have readable : (document? disk ⟨"", ["p", "c.yml"]⟩).isSome := by decide +kernel
  obtain ⟨document, has⟩ := Option.isSome_iff_exists.mp readable
  exact ⟨proper, there, found, ordered, ended.complete bounded, document, has,
    registered _ last document has⟩

/-- The code point of an escape in the first file is too large, so the second one is not read. -/
theorem loadDirectory_stopped_by_escape :
    let bytes (text : String) : List UInt8 := text.toList.map fun c => .ofNat c.toNat
    let root : Path := ⟨"", ["p"]⟩
    let first : Path := ⟨"", ["p", "a.yml"]⟩
    let second : Path := ⟨"", ["p", "b.yml"]⟩
    let disk : Disk := ⟨[(Disk.start ++ ["p"], .directory),
      (Disk.start ++ ["p", "a.yml"], .file (bytes "en: \"\\U00110000\"")),
      (Disk.start ++ ["p", "b.yml"], .file (bytes "en: {k: v}"))]⟩
    let loader : Loader := ⟨"*.yml"⟩
    let loaded := (loader.loadDirectory disk (.empty "en") "s" root).value
    disk.Proper ∧ disk.isDirectory root ∧
      (loader.findFiles disk root).toOption = some [first, second] ∧
      (loaded.2.mapError Failure.message).map List.length =
        .error "chr() arg not in range(0x110000)" ∧
      (document? disk second).isSome ∧ loaded.1.part? "s" second.toString = none := by
  decide +kernel

end Directory

end Loader

end Phrasebook
