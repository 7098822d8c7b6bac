import Phrasebook.Proofs.Loader.Reload

/-!
# Phrasebook.Proofs.Loader.Registration

What loading a directory makes of an index.

Which files are read does not depend on what the index holds. So to load a directory is to register
the parts of these files one after the other (`value_loadDirectory_eq`): a part takes the place of the
part of its file, if the scope has one, and comes last if it has none. Afterwards every file that was
read has its part, and so nothing is changed by loading the directory once more
(`loadDirectory_registers_parts`). It makes no difference whether the operation ended or was given up
on the way: the second time, it is given up at the same file.
-/

namespace Phrasebook.Loader

/-- A file has a document: its bytes can be decoded, and their text can be parsed. -/
def Reads (disk : Disk) (path : Path) (document : Document) : Prop :=
  ∃ bytes text, disk.read path = .ok bytes ∧ textOf bytes = .ok text ∧
    (Document.parse text).value = .ok document

theorem document?_eq_some_iff {disk : Disk} {path : Path} {document : Document} :
    document? disk path = some document ↔ Reads disk path document := by
  rw [document?, Option.bind_eq_some_iff]
  simp only [text?_eq_some_iff, toOption_eq_some_iff]
  constructor
  · rintro ⟨text, ⟨bytes, read, decoded⟩, parsed⟩
    exact ⟨bytes, text, read, decoded, parsed⟩
  · rintro ⟨bytes, text, read, decoded, parsed⟩
    exact ⟨text, ⟨bytes, read, decoded⟩, parsed⟩

/-- The parts that are registered when a directory is loaded: those of the files that are read. -/
def partsBelow (loader : Loader) (disk : Disk) (root : Path) : List Part :=
  if disk.isDirectory root then
    match loader.findFiles disk root with
    | .ok files => partsOf (document? disk) (reached disk files)
    | .error _ => []
  else []

section Directory

variable {loader : Loader} {disk : Disk} {root : Path} {files : List Path}

/-- The parts below a directory are those of the files that are found, up to the first one that is
    given up. -/
theorem partsBelow_of_found (there : disk.isDirectory root)
    (found : loader.findFiles disk root = .ok files) :
    loader.partsBelow disk root = partsOf (document? disk) (reached disk files) := by
  rw [partsBelow, if_pos there, found]

theorem named_partsBelow : ∀ part ∈ loader.partsBelow disk root, part.sourceFile.isSome := by
  rw [partsBelow]
  split
  · split
    · exact named_partsOf
    · nofun
  · nofun

theorem onePartPerFile_partsBelow (proper : disk.Proper) :
    Store.OnePartPerFile (loader.partsBelow disk root) := by
  rw [partsBelow]
  split
  · split
    next files found =>
      have distinct := distinct_files proper found
      exact onePartPerFile_partsOf (distinct.sublist ((List.takeWhile_sublist _).map _)) _
    next => exact List.Pairwise.nil
  · exact List.Pairwise.nil

/-- To load a directory is to register the parts of the files that are read, whatever the index holds
    and however the operation ends. -/
theorem value_loadDirectory_eq (index : Index) (scope : String) :
    (loader.loadDirectory disk index scope root).value.1 =
      index.registerAll scope (loader.partsBelow disk root) := by
  by_cases there : disk.isDirectory root
  · cases found : loader.findFiles disk root with
    | ok files =>
      rw [(loadDirectory_amounts there found index scope).1, afterFiles_eq,
        partsBelow_of_found there found]
    | error failure =>
      -- There are no files to read if looking for them was given up.
      rw [partsBelow, if_pos there, loadDirectory, found]
      split
      next => rfl
      next => rw [if_neg (by simp [there])]; rfl
  · rw [partsBelow, if_neg there, loadDirectory]
    split
    next => rfl
    next => rw [if_pos (by simpa using there)]; rfl

theorem exists_files_of_loads {index : Index} {scope : String}
    {outcomes : List (Outcome Index.Payload)}
    (loads : (loader.loadDirectory disk index scope root).value.2 = .ok outcomes) :
    ∃ files, loader.findFiles disk root = .ok files := by
  cases found : loader.findFiles disk root with
  | ok files => exact ⟨files, rfl⟩
  | error failure =>
    rw [loadDirectory, found] at loads
    split at loads
    next => cases loads
    split at loads
    next => cases loads
    next => cases loads

end Directory

/-- When a directory has been loaded, there is an outcome for every file that was found, in the order
    of the paths, and it is a success exactly if the bytes of the file can be decoded and their text
    can be parsed. The parts of the scope are those from before with the parts of these files
    registered one after the other. If no file had two parts, then a part of a file that could be read
    has given way to the new one, all others are as they were, and the parts of the files that had
    none follow in their order. Whether the operation has ended or was given up, loading the directory
    once more leaves the index as it is. -/
theorem loadDirectory_registers_parts (loader : Loader) {disk : Disk} (proper : disk.Proper)
    (index : Index) (scope : String) (root : Path) :
    let loaded := (loader.loadDirectory disk index scope root).value
    let parts := (index.storeOr scope).parts
    (∀ outcomes, loaded.2 = .ok outcomes → ∃ files, loader.findFiles disk root = .ok files ∧
      files.Pairwise Path.Before ∧
      List.Forall₂ (fun path outcome => outcome.isSuccess ↔ ∃ document, Reads disk path document)
        files outcomes ∧
      let new := partsOf (document? disk) files
      (loaded.1.storeOr scope).parts = Store.registerAll parts new ∧
        (Store.OnePartPerFile parts → (loaded.1.storeOr scope).parts = Store.updated parts new)) ∧
      (loader.loadDirectory disk loaded.1 scope root).value.1 = loaded.1 := by
  intro loaded parts
  constructor
  · intro outcomes loads
    have there := isDirectory_of_loads loads
    obtain ⟨files, found⟩ := exists_files_of_loads loads
    obtain ⟨bounded, pairs⟩ := reports_of_loads there found loads
    obtain ⟨pattern, selected⟩ := findFiles_files found
    have registered :
        (loaded.1.storeOr scope).parts = Store.registerAll parts (partsOf (document? disk) files) := by
      rw [show loaded.1 = _ from value_loadDirectory_eq index scope, Index.parts_registerAll,
        partsBelow_of_found there found, reached_of_bounded bounded]
    refine ⟨files, found, Pattern.ordered_files selected, pairs.imp ?_, registered, fun single => ?_⟩
    · intro path outcome reports
      rw [reports.success_iff, Option.isSome_iff_exists]
      simp only [document?_eq_some_iff]
    · rw [registered]
      exact Store.registerAll_eq_updated named_partsOf
        (onePartPerFile_partsOf (distinct_files proper found) _) single
  · -- A second time every part finds itself registered already.
    rw [value_loadDirectory_eq, show loaded.1 = _ from value_loadDirectory_eq index scope]
    exact Index.registerAll_registerAll _ _ named_partsBelow (onePartPerFile_partsBelow proper)

/-- Two of four files can be read. One of them has been a part before, between a fragment and the
    part of a file that has come to be broken; the other one is new. -/
theorem loadDirectory_registers_parts_between_others :
    let bytes (text : String) : List UInt8 := text.toList.map fun c => .ofNat c.toNat
    let root : Path := ⟨"", ["p"]⟩
    let disk : Disk := ⟨[(Disk.start ++ ["p"], .directory),
      (Disk.start ++ ["p", "a.yml"], .file (bytes "en: {k: a}")),
      (Disk.start ++ ["p", "b.yml"], .file [0xFF]),
      (Disk.start ++ ["p", "c.yml"], .file (bytes "en: [")),
      (Disk.start ++ ["p", "d.yml"], .file (bytes "en: {k: d}"))]⟩
    let index : Index := .run "en" [.mergeText "s" "fr: {}" none,
      .mergeText "s" "en: {k: old}" "p/d.yml", .mergeText "s" "en: {l: old}" "p/c.yml",
      .mergeText "s" "en: {m: v}" "q/d.yml"]
    let loader : Loader := ⟨"*.yml"⟩
    let loaded := (loader.loadDirectory disk index "s" root).value
    let parts := (loaded.1.storeOr "s").parts
    disk.Proper ∧ loaded.2.toOption.map (·.map (·.isSuccess)) = some [true, false, false, true] ∧
      parts.map (·.sourceFile) =
        [none, some "p/d.yml", some "p/c.yml", some "q/d.yml", some "p/a.yml"] ∧
      loaded.1.lookupKey? "s" "en.k" = some (Text.ofString "a") ∧
      (loader.loadDirectory disk loaded.1 "s" root).value.1 = loaded.1 := by
  intro bytes root disk index loader loaded parts
  have proper : disk.Proper := by decide +kernel
  obtain ⟨registered, again⟩ := loadDirectory_registers_parts loader proper index "s" root
  have ended : loaded.2.toOption.map (·.map (·.isSuccess)) = some [true, false, false, true] := by
    decide +kernel
  obtain ⟨outcomes, returned, -⟩ := Option.map_eq_some_iff.mp ended
  obtain ⟨files, found, -, -, -, all⟩ := registered outcomes (eq_ok_of_toOption returned)
  -- A run leaves at most one part for a file, so the new ones come in one update.
  have single : Store.OnePartPerFile (index.storeOr "s").parts := by
    rw [Index.storeOr_run]
    exact Store.onePartPerFile_run ..
  have same : files = [⟨"", ["p", "a.yml"]⟩, ⟨"", ["p", "b.yml"]⟩, ⟨"", ["p", "c.yml"]⟩,
      ⟨"", ["p", "d.yml"]⟩] :=
    Except.ok.inj (found.symm.trans (eq_ok_of_toOption (by decide +kernel)))
  refine ⟨proper, ended, ?_, by decide +kernel, again⟩
  rw [show parts = _ from all single, same]
  decide +kernel

end Phrasebook.Loader
