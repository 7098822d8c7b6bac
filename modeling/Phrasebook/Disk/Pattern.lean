import Phrasebook.Failure

/-!
# Phrasebook.Disk.Pattern

Patterns that select files below a root.

A pattern is a path whose components may hold wildcards: `*` for any characters, `?` for one
character, and a class in brackets for one of several characters or, with an exclamation mark, for
any other. The component `**` stands for directories at any depth, the root itself included. A
component without wildcards is a plain name.
-/

namespace Phrasebook

inductive ClassMember where
  | one (c : Char)
  | range (low high : Char)

inductive Wildcard where
  | literal (c : Char)
  | many
  | one
  /-- One character of a class, or one that is not of it. -/
  | oneOf (negated : Bool) (members : List ClassMember)

/-- A component of a pattern. -/
inductive PatternPart where
  | name (name : String)
  | matching (pieces : List Wildcard)
  /-- Directories at any depth. -/
  | deep
  /-- The directory itself, at the end of a pattern that selects directories only. -/
  | itself

namespace ClassMember

def accepts (c : Char) : ClassMember → Bool
  | .one d => c = d
  | .range low high => low ≤ c && c ≤ high

def isBackward : ClassMember → Bool
  | .one _ => false
  | .range low high => high < low

/-- The members that the text of a class lists. A hyphen between two characters makes a range of
    them. -/
def ofText : List Char → List ClassMember
  | low :: '-' :: high :: rest => .range low high :: ofText rest
  | c :: rest => .one c :: ofText rest
  | [] => []

end ClassMember

namespace Wildcard

/-- The text of a class up to its closing bracket, and what follows. A bracket that comes first does
    not close the class. -/
def classText? (text : List Char) : Option (List Char × List Char) :=
  let (mark, body) :=
    match text with
    | '!' :: rest => (['!'], rest)
    | _ => ([], text)
  let (first, body) :=
    match body with
    | ']' :: rest => ([']'], rest)
    | _ => ([], body)
  match body.dropWhile (· ≠ ']') with
  | [] => none
  | _ :: rest => some (mark ++ first ++ body.takeWhile (· ≠ ']'), rest)

/-- The class with a text. An exclamation mark that comes first makes no range. Ranges that run
    backwards are dropped, and it is what remains that decides whether an exclamation mark comes
    first and turns the class round. The range that it begins then falls apart. -/
def ofClass (text : List Char) : Wildcard :=
  let listed : List ClassMember :=
    match text with
    | '!' :: rest => .one '!' :: ClassMember.ofText rest
    | _ => ClassMember.ofText text
  match listed.filter (!·.isBackward) with
  | .one '!' :: rest => .oneOf true rest
  | .range '!' high :: rest => .oneOf true (.one '-' :: .one high :: rest)
  | members => .oneOf false members

/-- Reads the wildcards of a component. A bracket that is not closed stands for itself. Every turn
    takes a character. -/
def read : Nat → List Char → List Wildcard
  | 0, _ => []
  | _ + 1, [] => []
  | fuel + 1, '*' :: rest => .many :: read fuel rest
  | fuel + 1, '?' :: rest => .one :: read fuel rest
  | fuel + 1, '[' :: rest =>
    match classText? rest with
    | some (text, after) => ofClass text :: read fuel after
    | none => .literal '[' :: read fuel rest
  | fuel + 1, c :: rest => .literal c :: read fuel rest

def accepts (c : Char) : Wildcard → Bool
  | .literal d => c = d
  | .many => true
  | .one => true
  | .oneOf negated members => (members.any (·.accepts c)) != negated

/-- For each rest of a list, whether one of its elements is true. -/
def anyFollowing : List Bool → List Bool
  | [] => []
  | b :: rest =>
    let following := anyFollowing rest
    (b || following.headD false) :: following

/-- For each rest of a text, from the whole of it down to the empty one, whether it matches some
    wildcards from its beginning to its end. Every wildcard is looked at once for each rest, so many
    wildcards cost no more than their number. -/
def restsMatch : List Wildcard → List Char → List Bool
  | [], text => List.replicate text.length false ++ [true]
  | .many :: more, text => anyFollowing (restsMatch more text)
  | wildcard :: more, text =>
    List.zipWith (fun c matched => wildcard.accepts c && matched) text
      (restsMatch more text).tail ++ [false]

/-- Whether a text matches some wildcards from its beginning to its end. -/
def allMatch (wildcards : List Wildcard) (text : List Char) : Bool :=
  (restsMatch wildcards text).headD false

end Wildcard

structure Pattern where
  parts : List PatternPart

namespace Pattern

def holdsDeep : List Char → Bool
  | '*' :: '*' :: _ => true
  | _ :: rest => holdsDeep rest
  | [] => false

def readPart (part : String) : Except Failure PatternPart :=
  let chars := part.toList
  if part = "**" then .ok .deep
  else if holdsDeep chars then .error .misplacedDeepWildcard
  else if chars.any fun c => c = '*' || c = '?' || c = '[' then
    .ok (.matching (Wildcard.read chars.length chars))
  else .ok (.name part)

def readParts : List String → Except Failure (List PatternPart)
  | [] => .ok []
  | part :: rest => do
    let first ← readPart part
    let more ← readParts rest
    return first :: more

/-- Reads a pattern. It has to be relative and to have components. -/
def ofString (text : String) : Except Failure Pattern := do
  let path := Path.ofString text
  let closing := if text.toList.getLast? = some '/' then [PatternPart.itself] else []
  if path.root ≠ "" then throw .absolutePattern
  match path.parts, closing with
  | [], [] => throw .emptyPattern
  | [], _ => throw .emptyDirectoryPattern
  | parts, _ => return ⟨(← readParts parts) ++ closing⟩

/-! ### Selecting -/

/-- What is selected in several ways together. -/
def selectEach {α : Type} (select : α → Except Failure (List Path)) :
    List α → Except Failure (List Path)
  | [] => .ok []
  | way :: rest => do
    let first ← select way
    let more ← selectEach select rest
    return first ++ more

/-- Looks for a path before going on with it. A path that is too long to be looked for is
    refused. -/
def lookFor (disk : Disk) (path : Path) (next : Except Failure (List Path)) :
    Except Failure (List Path) :=
  if disk.refusesLength path then .error (.disk ⟨.nameTooLong, path⟩) else next

/-- The files that the components of a pattern lead to from a place, with a path to that place. A
    name is looked for under its path. A wildcard searches a directory, which tells the names in it
    and which of them are directories, so these are not looked for. What the last component leads to
    is looked for, to see whether it is a file. -/
def select (disk : Disk) : List PatternPart → List String → Path → Except Failure (List Path)
  | [], _, path => lookFor disk path (.ok (if disk.isFile path then [path] else []))
  | .itself :: rest, place, path => select disk rest place path
  | .name name :: rest, _, path =>
    let child := path.append [name]
    lookFor disk child <|
      match disk.find child with
      | .ok (below, item) =>
        if rest.isEmpty || item.isDirectory then select disk rest below child else .ok []
      | .error _ => .ok []
  | .matching pieces :: rest, place, path =>
    -- Only a directory can be gone through, but anything may stand at the end.
    let matched := (disk.children place).filter fun (name, item) =>
      Wildcard.allMatch pieces name.toList && (rest.isEmpty || item.isDirectory)
    lookFor disk path <|
      selectEach (fun (name, _) => select disk rest (place ++ [name]) (path.append [name])) matched
  | .deep :: rest, place, path =>
    selectEach (fun names =>
        let child := path.append names
        (select disk rest (place ++ names) child).bind fun selected =>
          lookFor disk child (.ok selected))
      (disk.directoriesBelow place)

/-- The files below a root that a pattern selects, in order. A root that is not a directory holds
    none. -/
def files (disk : Disk) (pattern : Pattern) (root : Path) : Except Failure (List Path) :=
  (lookFor disk root <|
    match disk.find root with
    | .ok (place, .directory) => select disk pattern.parts place root
    | _ => .ok []).map Path.sorted

end Pattern

end Phrasebook
