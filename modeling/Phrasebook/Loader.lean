import Phrasebook.Disk.Pattern
import Phrasebook.Index

/-!
# Phrasebook.Loader

Files into an index.

Every file is a part of its own, known by its path. A file that cannot be read, decoded or
understood leaves the index as it was and the other files alone. What is reported about a file is
reported within a block that names the scope and the file.
-/

namespace Phrasebook

/-- Puts the files that a pattern selects into an index. -/
structure Loader where
  /-- Selects the files below the root of a scope. -/
  pattern : String

namespace Loader

def defaultPattern : String := "config/locales/**/*.yml"

/-- A loader with a pattern, or with the one that the settings give if the pattern is empty. -/
def ofPattern (pattern : Option String) (fallback : String := defaultPattern) : Loader :=
  match pattern with
  | none | some "" => ⟨fallback⟩
  | some pattern => ⟨pattern⟩

def findFiles (loader : Loader) (disk : Disk) (root : Path) : Except Failure (List Path) :=
  (Pattern.ofString loader.pattern).bind fun pattern => pattern.files disk root

/-- The text of bytes: strict UTF-8, with every line end as a line feed. -/
def textOf (bytes : List UInt8) : Except Text.Utf8.DecodeError String :=
  (Text.Utf8.decode bytes).map fun chars => String.ofList (Text.unifyLineEnds chars)

/-- Reads one file into a scope. The operation is given up for a path that no file can have. -/
def loadFile (disk : Disk) (index : Index) (scope : String) (path : Path) :
    Logged (Index × Except Failure (Outcome Index.Payload)) :=
  let file := path.toString
  match disk.read path with
  -- With a null character in it, the path is refused before there is any file to report on.
  | .error .nullCharacter => return (index, .error (.disk ⟨.nullCharacter, path⟩))
  | .error e => do
    let problem := e.message path
    Logged.report .error "translation_file_read_error"
      [("file", .text file), ("error", .text problem)]
    return (index, .ok (.transientError ("Failed to read " ++ file ++ ": " ++ problem)
      "file_read_error" none))
  | .ok bytes =>
    match textOf bytes with
    | .error e => do
      Logged.report .error "translation_file_decode_error"
        [("file", .text file), ("error", .text e.message)]
      return (index, .ok (.permanentError ("Failed to decode " ++ file ++ ": " ++ e.message)
        "file_decode_error" none))
    | .ok text =>
      Logged.within { scope := scope, sourceFile := file } (index.mergePart scope text file)

/-- Reads files into a scope, one after the other. What has been read before an operation is given
    up stays. -/
def loadFiles (disk : Disk) (scope : String) :
    List Path → Index → Logged (Index × Except Failure (List (Outcome Index.Payload)))
  | [], index => return (index, .ok [])
  | path :: rest, index => do
    let (index, result) ← loadFile disk index scope path
    match result with
    | .error failure => return (index, .error failure)
    | .ok outcome =>
      let (index, more) ← loadFiles disk scope rest index
      return (index, more.map (outcome :: ·))

/-- Reads every file below the root of a scope. The root has to be a directory. -/
def loadDirectory (loader : Loader) (disk : Disk) (index : Index) (scope : String) (root : Path) :
    Logged (Index × Except Failure (List (Outcome Index.Payload))) :=
  if disk.refusesLength root then return (index, .error (.disk ⟨.nameTooLong, root⟩))
  else if !disk.isDirectory root then return (index, .error (.missingRoot root.toString))
  else
    match loader.findFiles disk root with
    | .error failure => return (index, .error failure)
    | .ok [] => do
      Logged.report .warning "no_translation_files_found"
        [("scope", .text scope), ("root", .text root.toString), ("pattern", .text loader.pattern)]
      return (index, .ok [])
    | .ok files =>
      Logged.within { scope := scope } do
        let (index, results) ← loadFiles disk scope files index
        match results with
        -- A number that is too large ends the loading; the files before it stay loaded.
        | .error failure => return (index, .error failure)
        | .ok outcomes =>
          let failed := outcomes.filter fun outcome => !outcome.isSuccess
          Logged.report .info "loaded_translation_files"
            [("root", .text root.toString), ("file_count", .count files.length),
              ("failed_count", .count failed.length)]
          return (index, .ok outcomes)

/-- Reads a changed file again, or takes its part away if the file is gone. -/
def reloadFile (disk : Disk) (index : Index) (scope : String) (path : Path) :
    Logged (Index × Except Failure (Outcome Index.Payload)) :=
  let file := path.toString
  if disk.refusesLength path then return (index, .error (.disk ⟨.nameTooLong, path⟩))
  else if disk.holds path then do
    Logged.report .debug "reloading_translation_file" [("file", .text file)]
    loadFile disk index scope path
  else do
    let (index, removed) ← index.removePart scope file
    if removed then return (index, .ok (.success none "removed"))
    else
      return (index, .ok (.notFound ("No translations registered for " ++ file) "part_not_found"))

/-! ### A new index -/

def loadRoots (loader : Loader) (disk : Disk) :
    List (String × Path) → Index → Logged (Except Failure Index)
  | [], index => return .ok index
  | (scope, root) :: rest, index => do
    let (index, results) ← loader.loadDirectory disk index scope root
    match results with
    | .error failure => return .error failure
    | .ok _ => loadRoots loader disk rest index

/-- A new index, into which the roots of scopes are loaded if that is asked for. -/
def createIndex (disk : Disk) (roots : List (String × Path)) (defaultLocale : Option Text)
    (loader : Loader) (preload : Bool) : Logged (Except Failure Index) :=
  let index := Index.ofLocale defaultLocale
  if roots.isEmpty || !preload then do
    Logged.report .info "translation_index_created_lazy" [("scope_count", .count roots.length)]
    return .ok index
  else do
    match ← loader.loadRoots disk roots index with
    | .error failure => return .error failure
    | .ok index =>
      Logged.report .info "translation_index_created_with_preload"
        [("scopes", .texts index.scopes)]
      return .ok index

end Loader

end Phrasebook
