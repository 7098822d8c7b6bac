import Phrasebook.Disk.Path
import Phrasebook.Text.Utf8

/-!
# Phrasebook.Disk

Files and directories, as a value.

A place is given by the names that lead to it from the topmost directory. The directory that
relative paths start from and those around it are always there, under names that no path can give
(`start`); what else is there is listed. A place listed below another one implies nothing about it,
so writing a file also lists the directories on the way.

A path can name nothing, and it can be one that the disk refuses to look for, because it or one of
its names is too long or because it holds a null character. The questions `holds`, `isFile` and
`isDirectory` answer no in all these cases; `refusesLength` tells the paths that are too long.

There are no links, neither symbolic nor hard ones, so a file has one place only, and nothing is
refused for want of permission. The directory that relative paths start from has the empty text for a
name, as has the one above it. So a pattern that climbs out of it with two dots and comes back in by a
wildcard selects `..//d/x.yml`, where a disk would give the name that the directory has there.
-/

namespace Phrasebook

inductive DiskItem where
  | directory
  | file (bytes : List UInt8)

def DiskItem.isDirectory : DiskItem → Bool
  | .directory => true
  | .file _ => false

/-- Files and directories by the names that lead to them. -/
structure Disk where
  items : List (List String × DiskItem)

/-- Why nothing can be done at a path. -/
inductive DiskError where
  | notFound
  | alreadyExists
  | notDirectory
  | isDirectory
  | invalidArgument
  | busy
  | nameTooLong
  | notEmpty
  | nullCharacter
  deriving DecidableEq

def DiskError.message (e : DiskError) (path : Path) : String :=
  let naming (text : String) : String := text ++ Text.quoted path.toString
  match e with
  | .notFound => naming "[Errno 2] No such file or directory: "
  | .busy => naming "[Errno 16] Device or resource busy: "
  | .alreadyExists => naming "[Errno 17] File exists: "
  | .notDirectory => naming "[Errno 20] Not a directory: "
  | .isDirectory => naming "[Errno 21] Is a directory: "
  | .invalidArgument => naming "[Errno 22] Invalid argument: "
  | .nameTooLong => naming "[Errno 36] File name too long: "
  | .notEmpty => naming "[Errno 39] Directory not empty: "
  | .nullCharacter => "embedded null byte"

/-- An error with the path where it was met. -/
structure DiskRefusal where
  error : DiskError
  path : Path

def DiskRefusal.message (refusal : DiskRefusal) : String :=
  refusal.error.message refusal.path

namespace Disk

def empty : Disk := ⟨[]⟩

/-- The place that relative paths start from. -/
def start : List String := ["", ""]

def item? (disk : Disk) (place : List String) : Option DiskItem :=
  if place.isPrefixOf start then some .directory else disk.items.lookup place

/-- The disk without what is at a place. -/
def drop (disk : Disk) (place : List String) : Disk :=
  ⟨disk.items.filter fun (other, _) => other ≠ place⟩

/-- Lists an item at a place, in the stead of what was there. -/
def put (disk : Disk) (place : List String) (item : DiskItem) : Disk :=
  ⟨(disk.drop place).items ++ [(place, item)]⟩

/-! ### Following paths -/

def maxNameBytes : Nat := 255

def maxPathBytes : Nat := 4095

/-- What keeps a path from being looked for at all. -/
def pathError? (path : Path) : Option DiskError :=
  let text := path.toString
  if text.toList.contains '\x00' then some .nullCharacter
  else if maxPathBytes < text.utf8ByteSize then some .nameTooLong
  else none

/-- Follows names from a place, and gives the place that they lead to with what is there. Only a
    directory can be gone through. A step above the topmost directory leads nowhere else. -/
def follow (disk : Disk) (place : List String) (item : DiskItem) :
    List String → Except DiskError (List String × DiskItem)
  | [] => .ok (place, item)
  | name :: rest =>
    match item with
    | .file _ => .error .notDirectory
    | .directory =>
      if name = ".." then follow disk place.dropLast .directory rest
      else if maxNameBytes < name.utf8ByteSize then .error .nameTooLong
      else
        match disk.item? (place ++ [name]) with
        | none => .error .notFound
        | some item => follow disk (place ++ [name]) item rest

def startOf (path : Path) : List String :=
  if path.root = "" then start else []

/-- What is at the end of a path. -/
def find (disk : Disk) (path : Path) : Except DiskError (List String × DiskItem) :=
  match pathError? path with
  | some e => .error e
  | none => disk.follow (startOf path) .directory path.parts

def holds (disk : Disk) (path : Path) : Bool :=
  match disk.find path with
  | .ok _ => true
  | .error _ => false

def isFile (disk : Disk) (path : Path) : Bool :=
  match disk.find path with
  | .ok (_, .file _) => true
  | _ => false

def isDirectory (disk : Disk) (path : Path) : Bool :=
  match disk.find path with
  | .ok (_, .directory) => true
  | _ => false

/-- Whether a path is refused because it or one of its names is too long. -/
def refusesLength (disk : Disk) (path : Path) : Bool :=
  match disk.find path with
  | .error .nameTooLong => true
  | _ => false

def read (disk : Disk) (path : Path) : Except DiskError (List UInt8) :=
  match disk.find path with
  | .ok (_, .file bytes) => .ok bytes
  | .ok (_, .directory) => .error .isDirectory
  | .error e => .error e

/-- The items in the directory at a place, with their names. -/
def children (disk : Disk) (place : List String) : List (String × DiskItem) :=
  disk.items.filterMap fun (other, item) =>
    other.getLast?.bind fun name => if other.dropLast = place then some (name, item) else none

/-- The names that lead from a place to the directories at any depth below it, itself included. -/
def directoriesBelow (disk : Disk) (place : List String) : List (List String) :=
  [] :: disk.items.filterMap fun (other, item) =>
    if item.isDirectory && place.isPrefixOf other && place ≠ other then
      some (other.drop place.length)
    else none

/-! ### Changes -/

/-- A disk after an attempt to change it. An attempt that is refused may have done something before:
    the directories that it made on its way stay. -/
structure Attempt where
  disk : Disk
  /-- Why the attempt came to nothing, if it did. -/
  refusal : Option DiskRefusal

/-- The disk with one more directory, in a directory that is there. -/
def addDirectory (disk : Disk) (path : Path) : Except DiskError Disk :=
  match pathError? path, path.parts.getLast? with
  | some e, _ => .error e
  | none, none => .error .alreadyExists
  | none, some name =>
    match disk.follow (startOf path) .directory path.parts.dropLast with
    | .error e => .error e
    | .ok (_, .file _) => .error .notDirectory
    | .ok (place, .directory) =>
      if name = ".." then .error .alreadyExists
      else if maxNameBytes < name.utf8ByteSize then .error .nameTooLong
      else if (disk.item? (place ++ [name])).isSome then .error .alreadyExists
      else .ok (disk.put (place ++ [name]) .directory)

/-- The disk after one more directory has been asked for. It may be there already. -/
def ensureDirectory (disk : Disk) (path : Path) : Attempt :=
  match disk.addDirectory path with
  | .ok disk => ⟨disk, none⟩
  | .error e => if disk.isDirectory path then ⟨disk, none⟩ else ⟨disk, some ⟨e, path⟩⟩

/-- Makes the directory at a path. If the way to it leads nowhere, the directory above is made
    first, and then a step of two dots that the way holds leads out of a directory that is there. -/
def makeDirectory (disk : Disk) (path : Path) : Attempt :=
  match disk.addDirectory path with
  | .error .notFound =>
    if h : path.parts = [] then ⟨disk, some ⟨.notFound, path⟩⟩
    else
      have shorter : path.parent.parts.length < path.parts.length := by
        have := List.length_pos_iff.mpr h
        simp only [Path.parent, List.length_dropLast]
        omega
      -- The directories on the way are made before the last one.
      let above := disk.makeDirectory path.parent
      match above.refusal with
      | some _ => above
      | none => above.disk.ensureDirectory path
  | _ => disk.ensureDirectory path
termination_by path.parts.length

/-- The disk with bytes in the file at a path, in a directory that is there. -/
def putFile (disk : Disk) (path : Path) (bytes : List UInt8) : Except DiskError Disk :=
  match pathError? path, path.parts.getLast? with
  | some e, _ => .error e
  | none, none => .error .isDirectory
  | none, some name =>
    match disk.follow (startOf path) .directory path.parts.dropLast with
    | .error e => .error e
    | .ok (_, .file _) => .error .notDirectory
    | .ok (place, .directory) =>
      if name = ".." then .error .isDirectory
      else if maxNameBytes < name.utf8ByteSize then .error .nameTooLong
      else
        match disk.item? (place ++ [name]) with
        | some .directory => .error .isDirectory
        | _ => .ok (disk.put (place ++ [name]) (.file bytes))

/-- Writes the file at a path. The directory that it stands in is made first. -/
def write (disk : Disk) (path : Path) (bytes : List UInt8) : Attempt :=
  let above := disk.makeDirectory path.parent
  match above.refusal with
  | some _ => above
  | none =>
    match above.disk.putFile path bytes with
    | .ok disk => ⟨disk, none⟩
    | .error e => ⟨above.disk, some ⟨e, path⟩⟩

/-- Deletes the file or the empty directory at the end of a path. A directory is deleted under its
    name, so not where the path says `.` or `..`. -/
def delete (disk : Disk) (path : Path) : Attempt :=
  let refuse (e : DiskError) : Attempt := ⟨disk, some ⟨e, path⟩⟩
  match disk.find path with
  | .error e => refuse e
  | .ok (place, .file _) => ⟨disk.drop place, none⟩
  | .ok (place, .directory) =>
    match path.parts.getLast? with
    | none => refuse (if path.root = "" then .invalidArgument else .busy)
    | some name =>
      if name = ".." || !(disk.children place).isEmpty then refuse .notEmpty
      else ⟨disk.drop place, none⟩

end Disk

end Phrasebook
