import Mathlib.Logic.Function.Basic
import Phrasebook.Proofs.Disk.Reselection
import Phrasebook.Proofs.Loader.Directory
import Phrasebook.Proofs.Store.History

/-!
# Phrasebook.Proofs.Loader.Reload

Reading changed files again, beside reading all files anew.

While a scope is kept up to date, it has the parts of the files that were loaded, in their order,
each with the document that its file held when it was last read (`partsOf`). A file that is read
again takes the place of its part, and a file that is gone takes its part with it, so the order
stays that of the paths. What a fresh load finds is the same paths, less those that are gone. So the
two end in the same parts (`reloads_amount_to_load`), provided that every path that leads to a changed
file is read again. A pattern without a step of two dots finds every file under one path, which is then
the only one to be read again (`Edit.isValid_iff_of_dotless`); a pattern with such a step may have
found a file under several (`reload_leaves_other_path_stale`).
-/

namespace Phrasebook

/-! ### Stores known by their parts -/

namespace Store

theorem unregister_of_absent {file : String} {parts : List Part}
    (absent : ∀ part ∈ parts, part.sourceFile ≠ some file) : unregister file parts = parts := by
  induction parts with
  | nil => rfl
  | cons part rest ih =>
    obtain ⟨differs, absent⟩ := List.forall_mem_cons.mp absent
    rw [unregister, if_neg (by simpa [isFrom] using differs), ih absent]

theorem apply_remove_withParts (store : Store) (parts : List Part) (file : String) :
    (store.withParts parts).apply (.remove file) = store.withParts (unregister file parts) := by
  rw [apply_remove]
  split
  next => rfl
  next absent =>
    rw [unregister_of_absent fun part member same => absent ?_]
    exact List.any_eq_true.mpr ⟨part, member, by simpa [isFrom] using same⟩

end Store

namespace Index

theorem hasParts_of_closed {index : Index} {scope : String} (closed : index.store? scope = none) :
    index.HasParts scope [] :=
  ⟨.empty scope index.defaultLocale, by rw [storeOr, closed]; rfl⟩

theorem HasParts.remove {index : Index} {scope : String} {parts : List Part}
    (has : index.HasParts scope parts) (file : String) :
    (index.apply (.remove scope file)).HasParts scope (Store.unregister file parts) := by
  obtain ⟨store, same⟩ := has
  exact ⟨store, by rw [storeOr_apply_remove, if_pos rfl, same, Store.apply_remove_withParts]⟩

/-- A scope with parts exists. -/
theorem HasParts.exists_store {index : Index} {scope : String} {parts : List Part}
    (has : index.HasParts scope parts) (some' : parts ≠ []) :
    ∃ store, index.store? scope = some store ∧ store.parts = parts ∧
      store.phrases = Store.mergeParts parts ∧
      store.lookup = Lookup.ofBranch (Store.mergeParts parts) := by
  obtain ⟨base, same⟩ := has
  rw [storeOr] at same
  cases found : index.store? scope with
  | none =>
    rw [found] at same
    exact absurd (congrArg Store.parts same).symm some'
  | some store =>
    rw [found, Option.getD_some] at same
    exact ⟨store, rfl, by rw [same]; rfl, by rw [same]; rfl, by rw [same]; rfl⟩

end Index

namespace Loader

/-! ### Parts of files -/

def documentOf? (bytes : List UInt8) : Option Document :=
  (textOf bytes).toOption.bind fun text => (Document.parse text).value.toOption

theorem document?_of_file {disk : Disk} {path : Path} {place : List String} {bytes : List UInt8}
    (found : disk.find path = .ok (place, .file bytes)) :
    document? disk path = documentOf? bytes := by
  rw [document?, text?, Disk.read, found]
  rfl

theorem document?_of_not_isFile {disk : Disk} {path : Path} (nowhere : ¬ disk.isFile path) :
    document? disk path = none := by
  rw [document?, text?, Disk.read]
  rw [Disk.isFile] at nowhere
  cases found : disk.find path with
  | error e => rfl
  | ok reached =>
    obtain ⟨place, item⟩ := reached
    cases item with
    | directory => rfl
    | file bytes => simp [found] at nowhere

section PartsOf

variable {held : Path → Option Document} {files : List Path}

theorem partsOf_congr {held' : Path → Option Document}
    (same : ∀ path ∈ files, held path = held' path) : partsOf held files = partsOf held' files :=
  List.filterMap_congr fun path member => by rw [same path member]

/-- Files without a document can be left out. -/
theorem partsOf_filter {kept : Path → Bool} (lost : ∀ path, ¬ kept path → held path = none) :
    partsOf held (files.filter kept) = partsOf held files := by
  rw [partsOf, List.filterMap_filter]
  refine List.filterMap_congr fun path _ => ?_
  by_cases keeps : kept path
  · simp [keeps]
  · simp [keeps, lost path keeps]

variable (distinct : (files.map Path.toString).Nodup)

include distinct

variable {path : Path} (member : path ∈ files)

include member

/-- Registering a new document of a file puts its part in the place of the old one. -/
theorem register_partsOf {old : Document} (holds : held path = some old) (new : Document) :
    Store.register (partOf path.toString new) (partsOf held files) =
      partsOf (Function.update held path (some new)) files := by
  rw [Store.register_of_old rfl (onePartPerFile_partsOf distinct held)
    ⟨_, mem_partsOf member holds, rfl⟩, partsOf, List.map_filterMap]
  -- Different paths of the list have different texts, so only the part of this one is replaced.
  refine List.filterMap_congr fun other inside => ?_
  by_cases same : other = path
  · subst same
    simp [holds, partOf, Part.ofPhrases]
  · have differ : other.toString ≠ path.toString := fun equal =>
      same (List.inj_on_of_nodup_map distinct inside member equal)
    rw [Function.update_of_ne same]
    cases held other <;> simp [partOf, Part.ofPhrases, differ]

/-- Taking away the part of a file leaves the parts of the others. -/
theorem unregister_partsOf (held : Path → Option Document) :
    Store.unregister path.toString (partsOf held files) =
      partsOf (Function.update held path none) files := by
  rw [Store.unregister_eq_filter _ (onePartPerFile_partsOf distinct held), partsOf,
    List.filter_filterMap]
  refine List.filterMap_congr fun other inside => ?_
  by_cases same : other = path
  · subst same
    cases held other <;> simp [partOf, Part.ofPhrases]
  · have differ : other.toString ≠ path.toString := fun equal =>
      same (List.inj_on_of_nodup_map distinct inside member equal)
    rw [Function.update_of_ne same]
    cases held other <;> simp [partOf, Part.ofPhrases, differ, Option.filter]

end PartsOf

/-! ### Reading files into a scope -/

section Reading

variable {disk : Disk} {index : Index} {scope : String} {parts : List Part}

theorem hasParts_loading (has : index.HasParts scope parts) {path : Path} {document : Document}
    (holds : document? disk path = some document) :
    ((loading? disk scope path).elim index index.apply).HasParts scope
      (Store.register (partOf path.toString document) parts) := by
  rw [loading_eq, holds]
  exact has.register _

/-- Files that are read into a scope without parts are all that it has. -/
theorem hasParts_afterFiles (has : index.HasParts scope []) {files : List Path}
    (distinct : (files.map Path.toString).Nodup) :
    (afterFiles disk scope index files).HasParts scope (partsOf (document? disk) files) := by
  have loaded := has.registerAll (partsOf (document? disk) files)
  rw [Store.registerAll_nil named_partsOf (onePartPerFile_partsOf distinct _)] at loaded
  rw [afterFiles_eq]
  exact loaded

/-- A path can be read again: it is not refused, and if there is anything at its end, that is a
    document. -/
structure Settled (disk : Disk) (path : Path) : Prop where
  short : disk.refusesLength path = false
  readable : disk.holds path → (document? disk path).isSome

variable {held : Path → Option Document} {files : List Path}
  (distinct : (files.map Path.toString).Nodup)

include distinct

/-- Loading a file again leaves a scope with the part of what is in the file now, or without one if
    the file is gone. -/
theorem hasParts_reloadFile (has : index.HasParts scope (partsOf held files)) {path : Path}
    (member : path ∈ files) (settled : Settled disk path)
    (gone : held path = none → document? disk path = none) :
    (reloadFile disk index scope path).value.1.HasParts scope
      (partsOf (Function.update held path (document? disk path)) files) := by
  rw [(reloadFile_amounts disk index scope path).1, Call.change?, if_neg (by simp [settled.short])]
  by_cases there : disk.holds path
  · -- The part has been there, or the new one would not find its place.
    rw [if_pos there]
    obtain ⟨new, holds⟩ := Option.isSome_iff_exists.mp (settled.readable there)
    cases before : held path with
    | none => simp [gone before] at holds
    | some old =>
      rw [holds, ← register_partsOf distinct member before]
      exact hasParts_loading has holds
  · have nothing : document? disk path = none := by
      refine document?_of_not_isFile fun file => there ?_
      obtain ⟨place, bytes, found⟩ := Disk.exists_find_of_isFile file
      rw [Disk.holds, found]
    rw [if_neg there, nothing, ← unregister_partsOf distinct member held,
      ← (removePart_amounts index scope path.toString).1]
    exact has.remove path.toString

/-- Reading paths again brings the parts of these paths up to date. -/
theorem hasParts_reloadFiles (has : index.HasParts scope (partsOf held files)) {again : List Path}
    (known : ∀ path ∈ again, path ∈ files) (settled : ∀ path ∈ again, Settled disk path)
    (gone : ∀ path ∈ again, held path = none → document? disk path = none) :
    (again.foldl (fun index path => (reloadFile disk index scope path).value.1) index).HasParts
      scope (partsOf (fun path => if path ∈ again then document? disk path else held path)
        files) := by
  -- One path after the other; what is held for the paths before it is up to date already.
  induction again generalizing index held with
  | nil => simpa using has
  | cons first rest ih =>
    obtain ⟨member, known⟩ := List.forall_mem_cons.mp known
    obtain ⟨ready, settled⟩ := List.forall_mem_cons.mp settled
    obtain ⟨firstGone, gone⟩ := List.forall_mem_cons.mp gone
    have step := hasParts_reloadFile distinct has member ready firstGone
    have later := ih step known settled fun path inside nothing => by
      by_cases same : path = first
      · simpa [same] using nothing
      · exact gone path inside (by simpa [same] using nothing)
    rw [List.foldl_cons]
    convert later using 3 with path
    by_cases same : path = first <;> simp [same]

end Reading

/-! ### Whole directories -/

section Directory

variable {loader : Loader} {disk : Disk} {root : Path} {files : List Path}

theorem excess?_of_document {path : Path} (readable : (document? disk path).isSome) :
    excess? disk path = none := by
  cases has : text? disk path with
  | none => rw [excess?, has, Option.bind_none]
  | some text =>
    rw [document?, has, Option.bind_some] at readable
    rw [excess?, has, Option.bind_some]
    cases given : (Document.parse text).value with
    | ok document => rfl
    | error fault => simp [given, Except.toOption] at readable

/-- All files have been loaded with success if all of them can be read. -/
theorem succeeded_iff {outcomes : List (Outcome Index.Payload)}
    (pairs : List.Forall₂ (Reports disk) files outcomes) :
    (∀ outcome ∈ outcomes, outcome.isSuccess) ↔ ∀ path ∈ files, (document? disk path).isSome := by
  induction pairs with
  | nil => simp
  | cons reports _ ih => rw [List.forall_mem_cons, List.forall_mem_cons, reports.success_iff, ih]

theorem isDirectory_of_loads {index : Index} {scope : String}
    {outcomes : List (Outcome Index.Payload)}
    (loads : (loader.loadDirectory disk index scope root).value.2 = .ok outcomes) :
    disk.isDirectory root := by
  rw [loadDirectory] at loads
  split at loads
  next => cases loads
  split at loads
  next => cases loads
  next there => simpa using there

variable (there : disk.isDirectory root) (found : loader.findFiles disk root = .ok files)
  {index : Index} {scope : String}

include there found

/-- Where files have been loaded, no number in them is too large, and they end as on their own. -/
theorem reports_of_loads {outcomes : List (Outcome Index.Payload)}
    (loads : (loader.loadDirectory disk index scope root).value.2 = .ok outcomes) :
    (∀ path ∈ files, excess? disk path = none) ∧ List.Forall₂ (Reports disk) files outcomes := by
  have ended := (loadDirectory_amounts there found index scope).2
  rw [loads] at ended
  have bounded : ∀ path ∈ files, excess? disk path = none := by
    cases met : files.findSome? (excess? disk) with
    | none => exact List.findSome?_eq_none_iff.mp met
    | some excess => cases ended.stopped excess met
  obtain ⟨own, same, pairs⟩ := ended.complete bounded
  cases same
  exact ⟨bounded, pairs⟩

theorem readable_of_loads {outcomes : List (Outcome Index.Payload)}
    (loads : (loader.loadDirectory disk index scope root).value.2 = .ok outcomes)
    (succeeded : ∀ outcome ∈ outcomes, outcome.isSuccess) :
    ∀ path ∈ files, (document? disk path).isSome :=
  (succeeded_iff (reports_of_loads there found loads).2).mp succeeded

/-- Files that can all be read are loaded with success, and are the parts of the scope. -/
theorem loads_of_readable (distinct : (files.map Path.toString).Nodup)
    (closed : index.store? scope = none)
    (readable : ∀ path ∈ files, (document? disk path).isSome) :
    (loader.loadDirectory disk index scope root).value.1.HasParts scope
        (partsOf (document? disk) files) ∧
      ∃ outcomes, (loader.loadDirectory disk index scope root).value.2 = .ok outcomes ∧
        ∀ outcome ∈ outcomes, outcome.isSuccess := by
  have bounded : ∀ path ∈ files, excess? disk path = none :=
    fun path member => excess?_of_document (readable path member)
  obtain ⟨after, ended⟩ := loadDirectory_amounts there found index scope
  constructor
  · rw [after, reached_of_bounded bounded]
    exact hasParts_afterFiles (Index.hasParts_of_closed closed) distinct
  · obtain ⟨outcomes, given, pairs⟩ := ended.complete bounded
    exact ⟨outcomes, given, (succeeded_iff pairs).mpr readable⟩

end Directory

/-! ### Edits -/

/-- A file is overwritten or deleted, and then some paths are read again. -/
structure Edit where
  /-- The path that the file is changed under. -/
  path : Path
  /-- The new bytes of the file, or nothing if it is deleted. -/
  bytes? : Option (List UInt8)
  /-- The paths that are read again, one after the other. -/
  again : List Path

/-- The disk after an edit. -/
def Edit.on (edit : Edit) (disk : Disk) : Disk :=
  match edit.bytes? with
  | some bytes => (disk.write edit.path bytes).disk
  | none => (disk.delete edit.path).disk

/-- The index after the paths of an edit have been read again. -/
def Edit.reload (edit : Edit) (scope : String) (disk : Disk) (index : Index) : Index :=
  edit.again.foldl (fun index path => (reloadFile (edit.on disk) index scope path).value.1) index

/-- The place that a path leads to, if it leads to anything. -/
def place? (disk : Disk) (path : Path) : Option (List String) :=
  (disk.find path).toOption.map (·.1)

theorem place?_eq_some_iff {disk : Disk} {path : Path} {place : List String} :
    place? disk path = some place ↔ ∃ item, disk.find path = .ok (place, item) := by
  rw [place?]
  cases disk.find path with
  | error e => simp [Except.toOption]
  | ok reached => cases reached; simp [Except.toOption]

/-- An edit of a file that was loaded and is still there. New bytes are the text of a document, and
    every path that was loaded and leads to the file is read again. -/
structure Edit.IsValid (edit : Edit) (files : List Path) (disk : Disk) : Prop where
  member : edit.path ∈ files
  there : disk.isFile edit.path
  readable : ∀ bytes ∈ edit.bytes?, (documentOf? bytes).isSome
  known : ∀ path ∈ edit.again, path ∈ files
  complete : ∀ path ∈ files, place? disk path = place? disk edit.path → path ∈ edit.again

instance (edit : Edit) (files : List Path) (disk : Disk) : Decidable (edit.IsValid files disk) :=
  decidable_of_iff (edit.path ∈ files ∧ disk.isFile edit.path ∧
      (∀ bytes ∈ edit.bytes?, (documentOf? bytes).isSome) ∧ (∀ path ∈ edit.again, path ∈ files) ∧
      ∀ path ∈ files, place? disk path = place? disk edit.path → path ∈ edit.again)
    ⟨fun ⟨member, there, readable, known, complete⟩ => ⟨member, there, readable, known, complete⟩,
      fun valid => ⟨valid.member, valid.there, valid.readable, valid.known, valid.complete⟩⟩

def diskAfter (disk : Disk) (edits : List Edit) : Disk :=
  edits.foldl (fun disk edit => edit.on disk) disk

def indexAfter (scope : String) : Disk → Index → List Edit → Index
  | _, index, [] => index
  | disk, index, edit :: rest =>
    indexAfter scope (edit.on disk) (edit.reload scope disk index) rest

/-- Every one of some edits is valid when its turn comes. -/
def AreValid (files : List Path) : Disk → List Edit → Prop
  | _, [] => True
  | disk, edit :: rest => edit.IsValid files disk ∧ AreValid files (edit.on disk) rest

instance decidableAreValid (files : List Path) :
    (disk : Disk) → (edits : List Edit) → Decidable (AreValid files disk edits)
  | _, [] => inferInstanceAs (Decidable True)
  | disk, edit :: rest =>
    have := decidableAreValid files (edit.on disk) rest
    inferInstanceAs (Decidable (edit.IsValid files disk ∧ AreValid files (edit.on disk) rest))

/-! ### What an edit does to the disk -/

/-- An item at a place was a file and is another one now, or gone, and nothing else has changed. -/
structure Effect (before after : Disk) (place : List String) (bytes? : Option (List UInt8)) :
    Prop where
  file : ∃ old, before.item? place = some (.file old)
  self : after.item? place = bytes?.map .file
  others : ∀ other, other ≠ place → after.item? other = before.item? other
  orderly : after.Orderly

theorem effect_of_write {disk : Disk} (orderly : disk.Orderly) {path : Path} {place : List String}
    {old : List UInt8} (found : disk.find path = .ok (place, .file old)) (bytes : List UInt8) :
    Effect disk (disk.write path bytes).disk place (some bytes) := by
  have file := Disk.item?_of_find_file found
  rw [Disk.write_of_file found]
  exact ⟨⟨old, file⟩, Disk.item?_put_self disk (Disk.deep_of_file file) _,
    fun other differ => Disk.item?_put_of_ne disk differ _, orderly.put_of_file file _⟩

theorem effect_of_delete {disk : Disk} (orderly : disk.Orderly) {path : Path} {place : List String}
    {old : List UInt8} (found : disk.find path = .ok (place, .file old)) :
    Effect disk (disk.delete path).disk place none := by
  have file := Disk.item?_of_find_file found
  rw [Disk.delete_of_file found]
  exact ⟨⟨old, file⟩, Disk.item?_drop_self disk (Disk.deep_of_file file),
    fun other differ => Disk.item?_drop_of_ne disk differ, orderly.drop place⟩

/-- An edit of a file that is there has an effect at the place of the file. -/
theorem Edit.exists_effect {edit : Edit} {disk : Disk} (orderly : disk.Orderly)
    (there : disk.isFile edit.path) :
    ∃ place, place? disk edit.path = some place ∧
      Effect disk (edit.on disk) place edit.bytes? := by
  obtain ⟨place, old, found⟩ := Disk.exists_find_of_isFile there
  refine ⟨place, place?_eq_some_iff.mpr ⟨_, found⟩, ?_⟩
  rw [Edit.on]
  split
  next bytes new => exact new ▸ effect_of_write orderly found bytes
  next gone => exact gone ▸ effect_of_delete orderly found

namespace Effect

variable {before after : Disk} {place : List String} {bytes? : Option (List UInt8)}
  (effect : Effect before after place bytes?)

include effect

theorem edited : Disk.Edited before after := by
  obtain ⟨old, file⟩ := effect.file
  refine Disk.edited_of_file file ?_ effect.others
  rw [effect.self]
  cases bytes? <;> simp

/-- A file whose place an edit is not about has the document that it had. -/
theorem document?_eq {path : Path} (elsewhere : place? before path ≠ some place) :
    document? after path = document? before path := by
  by_cases file : before.isFile path
  · obtain ⟨own, bytes, found⟩ := Disk.exists_find_of_isFile file
    have differ : own ≠ place := by
      rintro rfl
      exact elsewhere (place?_eq_some_iff.mpr ⟨_, found⟩)
    have found' := effect.edited.find_of_file found
    rw [effect.others own differ, Disk.item?_of_find_file found] at found'
    rw [document?_of_file found, document?_of_file found']
  · have gone : ¬ after.isFile path := fun there => file (effect.edited.isFile_before there)
    rw [document?_of_not_isFile file, document?_of_not_isFile gone]

/-- A file that is still there after its place was edited has one of the new bytes. -/
theorem exists_document? {path : Path} (here : place? before path = some place)
    (file : after.isFile path) :
    ∃ bytes, bytes? = some bytes ∧ document? after path = documentOf? bytes := by
  obtain ⟨own, old, new, found, found', there⟩ := effect.edited.find_of_isFile file
  rw [place?, found] at here
  have same : own = place := Option.some.inj here
  rw [same, effect.self] at there
  obtain ⟨bytes, given, equal⟩ := Option.map_eq_some_iff.mp there
  cases equal
  exact ⟨new, given, document?_of_file found'⟩

end Effect

/-! ### Keeping a scope up to date -/

/-- A scope is up to date: it has the parts of the files that were loaded, and those that are still
    there can be read. -/
structure UpToDate (first : Disk) (files : List Path) (scope : String) (disk : Disk)
    (index : Index) : Prop where
  orderly : disk.Orderly
  edited : Disk.Edited first disk
  readable : ∀ path ∈ files, disk.isFile path → (document? disk path).isSome
  parts : index.HasParts scope (partsOf (document? disk) files)

section UpToDate

variable {first : Disk} {files : List Path} {scope : String} {disk : Disk} {index : Index}
  (areFiles : ∀ path ∈ files, first.isFile path)

include areFiles

/-- What is still at the path of a loaded file is a file. -/
theorem isFile_of_holds (edited : Disk.Edited first disk) {path : Path} (member : path ∈ files)
    (holds : disk.holds path) : disk.isFile path := by
  obtain ⟨place, bytes, found⟩ := Disk.exists_find_of_isFile (areFiles path member)
  rw [Disk.holds] at holds
  rcases edited.find_after found with ⟨item, now, alike⟩ | ⟨⟨e, failed⟩, -⟩
  · cases item with
    | directory => cases alike
    | file bytes => rw [Disk.isFile, now]
  · simp [failed] at holds

theorem short_of_edited (edited : Disk.Edited first disk) {path : Path} (member : path ∈ files) :
    disk.refusesLength path = false := by
  obtain ⟨place, bytes, found⟩ := Disk.exists_find_of_isFile (areFiles path member)
  rw [edited.refusesLength_eq, Disk.refusesLength, found]

variable (distinct : (files.map Path.toString).Nodup)

include distinct

/-- Reading the paths again that lead to an edited file keeps a scope up to date. -/
theorem UpToDate.edit (current : UpToDate first files scope disk index) {edit : Edit}
    (valid : edit.IsValid files disk) :
    UpToDate first files scope (edit.on disk) (edit.reload scope disk index) := by
  obtain ⟨place, here, effect⟩ := Edit.exists_effect current.orderly valid.there
  have edited := current.edited.trans effect.edited
  have readable : ∀ path ∈ files, (edit.on disk).isFile path →
      (document? (edit.on disk) path).isSome := by
    intro path member file
    by_cases changed : place? disk path = some place
    · obtain ⟨bytes, new, holds⟩ := effect.exists_document? changed file
      exact holds ▸ valid.readable bytes new
    · rw [effect.document?_eq changed]
      exact current.readable path member (effect.edited.isFile_before file)
  refine ⟨effect.orderly, edited, readable, ?_⟩
  have settled : ∀ path ∈ edit.again, Settled (edit.on disk) path := by
    intro path inside
    have member := valid.known path inside
    exact ⟨short_of_edited areFiles edited member,
      fun holds => readable path member (isFile_of_holds areFiles edited member holds)⟩
  -- A file that was gone before is still gone.
  have gone : ∀ path ∈ edit.again, document? disk path = none →
      document? (edit.on disk) path = none := by
    intro path inside nothing
    refine document?_of_not_isFile fun file => ?_
    have held := current.readable path (valid.known path inside) (effect.edited.isFile_before file)
    rw [nothing] at held
    cases held
  have reloaded := hasParts_reloadFiles distinct current.parts valid.known settled gone
  rw [partsOf_congr] at reloaded
  · exact reloaded
  · -- Paths that are not read again lead elsewhere, so their documents are still the right ones.
    intro path member
    split
    next => rfl
    next apart =>
      refine (effect.document?_eq fun same => apart ?_).symm
      exact valid.complete path member (same.trans here.symm)

/-- A scope stays up to date through a series of valid edits. -/
theorem UpToDate.edits (current : UpToDate first files scope disk index) {edits : List Edit}
    (valid : AreValid files disk edits) :
    UpToDate first files scope (diskAfter disk edits) (indexAfter scope disk index edits) := by
  induction edits generalizing disk index with
  | nil => exact current
  | cons edit rest ih => exact ih (current.edit areFiles distinct valid.1) valid.2

end UpToDate

/-! ### Reloading and loading anew -/

/-- After an edit the files that are found are those of before that are still there. -/
theorem findFiles_of_edited {loader : Loader} {before after : Disk} {root : Path}
    {files : List Path} (edited : Disk.Edited before after) (orderly : before.Orderly)
    (orderly' : after.Orderly) (found : loader.findFiles before root = .ok files) :
    loader.findFiles after root = .ok (files.filter after.isFile) := by
  obtain ⟨pattern, read, selected⟩ := bind_eq_ok.mp found
  exact bind_eq_ok.mpr ⟨pattern, read, Pattern.files_of_edited edited orderly orderly' selected⟩

/-- A pattern without a step of two dots finds every file under one path. -/
theorem eq_of_place?_eq {loader : Loader} {disk : Disk} (orderly : disk.Orderly)
    (dotless : ".." ∉ (Path.ofString loader.pattern).parts) {root : Path} {files : List Path}
    (found : loader.findFiles disk root = .ok files) {one other : Path} (member : one ∈ files)
    (member' : other ∈ files) (same : place? disk one = place? disk other) : one = other := by
  obtain ⟨pattern, read, selected⟩ := bind_eq_ok.mp found
  have named : .name ".." ∉ pattern.parts := dotless ∘ Pattern.mem_of_name_mem_ofString read
  obtain ⟨place, bytes, here⟩ :=
    Disk.exists_find_of_isFile (Pattern.fileUnder_of_mem_files selected member).1
  obtain ⟨item, there⟩ :=
    place?_eq_some_iff.mp (same.symm.trans (place?_eq_some_iff.mpr ⟨_, here⟩))
  exact Pattern.eq_of_same_place orderly named selected member member' here there

/-- If the pattern has no step of two dots, an edit whose only path to be read again is its own is
    valid as soon as its file is there and its bytes can be read: no other path that was loaded leads
    to the file, then or later. -/
theorem Edit.isValid_iff_of_dotless {loader : Loader} {first : Disk} (orderly : first.Orderly)
    (dotless : ".." ∉ (Path.ofString loader.pattern).parts) {root : Path} {files : List Path}
    (found : loader.findFiles first root = .ok files) {disk : Disk}
    (edited : Disk.Edited first disk) {edit : Edit} (alone : edit.again = [edit.path]) :
    edit.IsValid files disk ↔ edit.path ∈ files ∧ disk.isFile edit.path ∧
      ∀ bytes ∈ edit.bytes?, (documentOf? bytes).isSome := by
  constructor
  · intro valid
    exact ⟨valid.member, valid.there, valid.readable⟩
  · rintro ⟨member, there, readable⟩
    refine ⟨member, there, readable, by simp [alone, member], fun path inside same => ?_⟩
    rw [alone, List.mem_singleton]
    -- Both paths lead to the file now, so they have led to it from the beginning.
    obtain ⟨place, _, _, earlier, now, _⟩ := edited.find_of_isFile there
    obtain ⟨item, led⟩ :=
      place?_eq_some_iff.mp (same.trans (place?_eq_some_iff.mpr ⟨_, now⟩))
    obtain ⟨old, before⟩ := edited.exists_find_before led
    have together : place? first path = place? first edit.path :=
      (place?_eq_some_iff.mpr ⟨_, before⟩).trans (place?_eq_some_iff.mpr ⟨_, earlier⟩).symm
    exact eq_of_place?_eq orderly dotless found inside member together

/-- A directory is loaded with success into a scope that was closed. Then files are overwritten and
    deleted, and after every change the paths that lead to the changed file are read again. As long
    as a file is left, the directory can be loaded anew with success, and what the scope has is what
    it has in a fresh index: the same parts in the same order, and the same phrases. -/
theorem reloads_amount_to_load (loader : Loader) (history : List Disk.Change) {index : Index}
    {scope : String} (closed : index.store? scope = none) {root : Path} {files : List Path}
    (found : loader.findFiles (Disk.run history) root = .ok files)
    {outcomes : List (Outcome Index.Payload)}
    (loads : (loader.loadDirectory (Disk.run history) index scope root).value.2 = .ok outcomes)
    (succeeded : ∀ outcome ∈ outcomes, outcome.isSuccess) {edits : List Edit}
    (valid : AreValid files (Disk.run history) edits)
    (left : ∃ path ∈ files, (diskAfter (Disk.run history) edits).isFile path)
    (defaultLocale : Text) :
    let loaded := (loader.loadDirectory (Disk.run history) index scope root).value.1
    let disk := diskAfter (Disk.run history) edits
    let fresh := (loader.loadDirectory disk (.empty defaultLocale) scope root).value
    (∃ outcomes, fresh.2 = .ok outcomes ∧ ∀ outcome ∈ outcomes, outcome.isSuccess) ∧
      ∃ one other, (indexAfter scope (Disk.run history) loaded edits).store? scope = some one ∧
        fresh.1.store? scope = some other ∧ one.parts = other.parts ∧
        one.phrases = other.phrases ∧ one.lookup = other.lookup := by
  intro loaded disk fresh
  have orderly := Disk.orderly_run history
  have distinct := distinct_files orderly.proper found
  have areFiles : ∀ path ∈ files, (Disk.run history).isFile path := by
    obtain ⟨pattern, selected⟩ := findFiles_files found
    exact fun path member => (Pattern.fileUnder_of_mem_files selected member).1
  have there := isDirectory_of_loads loads
  have readable := readable_of_loads there found loads succeeded
  -- The loaded scope is up to date, and stays so.
  have start : UpToDate (Disk.run history) files scope (Disk.run history) loaded :=
    ⟨orderly, .refl _, fun path member _ => readable path member,
      (loads_of_readable there found distinct closed readable).1⟩
  have current := start.edits areFiles distinct valid
  -- A fresh load finds the files that are left, and can read them.
  have freshFound := findFiles_of_edited current.edited orderly current.orderly found
  have freshReadable : ∀ path ∈ files.filter disk.isFile, (document? disk path).isSome := by
    intro path member
    obtain ⟨member, file⟩ := List.mem_filter.mp member
    exact current.readable path member file
  obtain ⟨parts, succeeds⟩ :
      fresh.1.HasParts scope (partsOf (document? disk) (files.filter disk.isFile)) ∧
        ∃ outcomes, fresh.2 = .ok outcomes ∧ ∀ outcome ∈ outcomes, outcome.isSuccess :=
    loads_of_readable (current.edited.isDirectory there) freshFound
      (distinct.sublist (List.filter_sublist.map _)) rfl freshReadable
  rw [partsOf_filter fun path gone => document?_of_not_isFile gone] at parts
  refine ⟨succeeds, ?_⟩
  have some' : partsOf (document? disk) files ≠ [] := by
    obtain ⟨path, member, file⟩ := left
    obtain ⟨document, holds⟩ := Option.isSome_iff_exists.mp (current.readable path member file)
    exact List.ne_nil_of_mem (mem_partsOf member holds)
  obtain ⟨one, opened, parts₁, phrases₁, lookup₁⟩ := current.parts.exists_store some'
  obtain ⟨other, opened', parts₂, phrases₂, lookup₂⟩ := parts.exists_store some'
  exact ⟨one, other, opened, opened', parts₁.trans parts₂.symm, phrases₁.trans phrases₂.symm,
    lookup₁.trans lookup₂.symm⟩

/-- Three files, of which the first is overwritten and the second one deleted. -/
theorem reloads_amount_to_load_of_three_files :
    let bytes (text : String) : List UInt8 := text.toList.map fun c => .ofNat c.toNat
    let history : List Disk.Change := [.write "p/c.yml" (bytes "en: {k: c}"),
      .write "p/a.yml" (bytes "en: {k: a, l: a}"), .write "p/b.yml" (bytes "en: {k: b}")]
    let root : Path := ⟨"", ["p"]⟩
    let a : Path := ⟨"", ["p", "a.yml"]⟩
    let b : Path := ⟨"", ["p", "b.yml"]⟩
    let c : Path := ⟨"", ["p", "c.yml"]⟩
    let edits : List Edit := [⟨a, some (bytes "en: {m: new}"), [a]⟩, ⟨b, none, [b]⟩]
    let loader : Loader := ⟨"*.yml"⟩
    let loaded := (loader.loadDirectory (Disk.run history) (.empty "en") "s" root).value.1
    let disk := diskAfter (Disk.run history) edits
    let fresh := (loader.loadDirectory disk (.empty "en") "s" root).value
    AreValid [a, b, c] (Disk.run history) edits ∧
      (∃ outcomes, fresh.2 = .ok outcomes ∧ ∀ outcome ∈ outcomes, outcome.isSuccess) ∧
      ∃ one other, (indexAfter "s" (Disk.run history) loaded edits).store? "s" = some one ∧
        fresh.1.store? "s" = some other ∧ one.parts = other.parts ∧
        one.phrases = other.phrases ∧ one.lookup = other.lookup := by
  intro bytes history root a b c edits loader loaded disk fresh
  have there : (Disk.run history).isDirectory root := by decide +kernel
  have found : loader.findFiles (Disk.run history) root = .ok [a, b, c] :=
    eq_ok_of_toOption (by decide +kernel)
  have readable : ∀ path ∈ [a, b, c], (document? (Disk.run history) path).isSome := by
    decide +kernel
  have closed : (Index.empty "en").store? "s" = none := rfl
  obtain ⟨-, outcomes, loads, succeeded⟩ := loads_of_readable there found
    (distinct_files (Disk.proper_run history) found) closed readable
  have valid : AreValid [a, b, c] (Disk.run history) edits := by decide +kernel
  have left : ∃ path ∈ [a, b, c], disk.isFile path := by decide +kernel
  exact ⟨valid, reloads_amount_to_load loader history closed found loads succeeded valid left "en"⟩

/-- A pattern with a step of two dots finds one file under two paths. The file is overwritten, and
    read again under the first of them only, which leaves the part of the second one as it was. -/
theorem reload_leaves_other_path_stale :
    let bytes (text : String) : List UInt8 := text.toList.map fun c => .ofNat c.toNat
    let history : List Disk.Change := [.makeDirectory "p/d", .makeDirectory "p/e",
      .write "p/c.yml" (bytes "en: {k: v}")]
    let root : Path := ⟨"", ["p"]⟩
    let one : Path := ⟨"", ["p", "d", "..", "c.yml"]⟩
    let other : Path := ⟨"", ["p", "e", "..", "c.yml"]⟩
    let edit : Edit := ⟨one, some (bytes "en: {k: w}"), [one]⟩
    let loader : Loader := ⟨"*/../*.yml"⟩
    let loaded := (loader.loadDirectory (Disk.run history) (.empty "en") "s" root).value
    let disk := edit.on (Disk.run history)
    let fresh := (loader.loadDirectory disk (.empty "en") "s" root).value
    (loader.findFiles (Disk.run history) root).toOption = some [one, other] ∧
      loaded.2.toOption.map (·.map (·.isSuccess)) = some [true, true] ∧
      fresh.2.toOption.map (·.map (·.isSuccess)) = some [true, true] ∧
      (edit.reload "s" (Disk.run history) loaded.1).lookupKey? "s" "en.k" =
        some (Text.ofString "v") ∧
      fresh.1.lookupKey? "s" "en.k" = some (Text.ofString "w") := by
  decide +kernel

end Loader

end Phrasebook
