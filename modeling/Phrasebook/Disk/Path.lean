import Phrasebook.Text.Pieces

/-!
# Phrasebook.Disk.Path

Paths, as lists of names.

A path is read without regard to repeated or trailing slashes and to components that are a single
dot; a component of two dots stays, because what it stands for depends on the disk. Paths are
ordered component by component, so that the files of a directory stand together.
-/

namespace Phrasebook

structure Path where
  /-- The slashes that an absolute path begins with; nothing for a relative one. -/
  root : String
  parts : List String
  deriving DecidableEq

namespace Path

def components (text : List Char) : List String :=
  ((Text.pieces '/' text).map String.ofList).filter fun part => part ≠ "" && part ≠ "."

/-- The path that a text stands for. Two slashes at the beginning are kept, any other number of them
    counts as one. -/
def ofString (text : String) : Path :=
  let chars := text.toList
  let slashes := (chars.takeWhile (· = '/')).length
  let root := if slashes = 0 then "" else if slashes = 2 then "//" else "/"
  ⟨root, components chars⟩

protected def toString (path : Path) : String :=
  let text := path.root ++ "/".intercalate path.parts
  if text = "" then "." else text

def append (path : Path) (names : List String) : Path :=
  { path with parts := path.parts ++ names }

def parent (path : Path) : Path :=
  { path with parts := path.parts.dropLast }

/-- The components together with the root, as they are compared. -/
def sortKey (path : Path) : List String :=
  if path.root = "" then path.parts else path.root :: path.parts

/-- Enters a path into a list in order, unless it is there. -/
def insertSorted (path : Path) : List Path → List Path
  | [] => [path]
  | other :: rest =>
    if path = other then other :: rest
    else if path.sortKey < other.sortKey then path :: other :: rest
    else other :: insertSorted path rest

/-- The paths in order, each once. -/
def sorted (paths : List Path) : List Path :=
  paths.foldr insertSorted []

end Path

end Phrasebook
