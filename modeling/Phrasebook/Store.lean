import Phrasebook.Document.Locate
import Phrasebook.Lookup

/-!
# Phrasebook.Store

The phrases of one scope, put together from parts.

A part is what one file contributes, or a fragment that comes from no file. Parts are laid over one
another in the order in which they were registered; a part that is registered again for its file
takes the place of the earlier one. The merged phrases and their lookup table are derived from the
parts after every change, so nothing of a part that is gone can be left behind.

Merging, flattening and walking go as deep as the phrases are nested. No limit on the depth of nested
calls is modelled.
-/

namespace Phrasebook

/-- What one file, or a fragment without a file, contributes to a scope. -/
structure Part where
  /-- The file; a fragment has none, and is never replaced. -/
  sourceFile : Option String
  phrases : Branch
  /-- The document that the phrases were read from, for questions about places. -/
  document : Option Document
  lookup : Lookup

def Part.ofPhrases (phrases : Branch) (document : Option Document) (sourceFile : Option String) :
    Part :=
  ⟨sourceFile, phrases, document, Lookup.ofBranch phrases⟩

/-- The locale that is fallen back on when nothing else is known. -/
def defaultLocale : String := "en"

structure Store where
  scope : String
  /-- The locale to fall back on when the scope has no phrases. -/
  defaultLocale : Text
  /-- The parts, in the order in which they were registered. -/
  parts : List Part
  /-- The phrases of all parts, later parts laid over earlier ones. -/
  phrases : Branch
  lookup : Lookup

namespace Store

def empty (scope : String) (defaultLocale : Text := Phrasebook.defaultLocale) : Store :=
  ⟨scope, defaultLocale, [], [], []⟩

/-- The phrases of some parts, later parts laid over earlier ones. -/
def mergeParts (parts : List Part) : Branch :=
  parts.foldl (fun merged part => Tree.merge merged part.phrases) []

/-- A store with other parts, and with what is derived from them. -/
def withParts (store : Store) (parts : List Part) : Store :=
  let phrases := mergeParts parts
  { store with parts := parts, phrases := phrases, lookup := Lookup.ofBranch phrases }

/-! ### Changes -/

def isFrom (file : String) (part : Part) : Bool :=
  part.sourceFile = some file

/-- Whether a part would take the place of another one. -/
def isRegistered (parts : List Part) (part : Part) : Bool :=
  part.sourceFile.any fun file => parts.any (isFrom file)

/-- Puts a part in the place of the part of its file, or at the end. -/
def register (part : Part) : List Part → List Part
  | [] => [part]
  | other :: rest =>
    if part.sourceFile.any fun file => isFrom file other then part :: rest
    else other :: register part rest

def unregister (file : String) : List Part → List Part
  | [] => []
  | part :: rest => if isFrom file part then rest else part :: unregister file rest

def report (level : Log.Level) (event : String) (fields : Log.Fields) : Logged Unit :=
  Logged.reportFrom "store" level event fields

/-- Derives everything from other parts, and reports it. -/
def rebuild (store : Store) (parts : List Part) : Logged Store := do
  let store := store.withParts parts
  report .debug "translation_scope_rebuilt"
    [("scope", .text store.scope), ("part_count", .count parts.length)]
  return store

def mergePart (store : Store) (phrases : Branch) (document : Option Document)
    (sourceFile : Option String) : Logged (Store × Part) := do
  let part := Part.ofPhrases phrases document sourceFile
  let replaced := isRegistered store.parts part
  let store ← store.rebuild (register part store.parts)
  report .info "translation_part_merged"
    [("scope", .text store.scope), ("source_file", .ofString? sourceFile),
      ("replaced", .flag replaced), ("part_count", .count store.parts.length),
      ("key_count", .count store.lookup.length)]
  return (store, part)

/-- Takes the part of a file away, if there is one, and tells whether there was. -/
def removePart (store : Store) (file : String) : Logged (Store × Bool) :=
  if store.parts.any (isFrom file) then do
    let store ← store.rebuild (unregister file store.parts)
    report .info "translation_part_removed"
      [("scope", .text store.scope), ("source_file", .text file)]
    return (store, true)
  else return (store, false)

def reset (store : Store) : Logged Store := do
  report .info "translation_scope_reset" [("scope", .text store.scope)]
  return { store with parts := [], phrases := [], lookup := [] }

/-! ### Questions -/

/-- A key that asks for something: an empty one does not. -/
def askedKey? : Option Text → Option Text
  | some [] => none
  | key => key

theorem askedKey?_some {key : Text} (asked : key ≠ []) : askedKey? (some key) = some key := by
  cases key with
  | nil => exact absurd rfl asked
  | cons c rest => rfl

/-- The text of a tree that a key leads to: a phrase, or a listing of the phrases in a mapping. -/
def textOf? : Tree → Option Text
  | .text phrase => some phrase
  | .branch entries => some (Tree.listing entries)
  | .null => none

/-- The phrase of a key under a locale. The lookup table is asked first; otherwise the phrases are
    walked, and a key that leads to a mapping answers with a listing of the phrases in it. -/
def phrase? (store : Store) (key : Option Text) (locale : Text) :
    Logged (Option Text) :=
  match askedKey? key with
  | none => return none
  | some key =>
    let parts := Key.localeSegments (some key) locale
    let fullKey := Key.join parts
    match store.lookup.get? fullKey with
    | some phrase => return some phrase
    | none => do
      let found := Tree.walk (.branch store.phrases) parts 0
      report .debug "translation_lookup"
        [("key", .text key), ("full_key", .text fullKey), ("found", .flag found.isSome)]
      return found.bind textOf?

/-- The phrase of a full key, exactly as it is written in the lookup table. -/
def lookupKey? (store : Store) (fullKey : Text) : Option Text :=
  store.lookup.get? fullKey

def keysStartingWith (store : Store) (start : Text) : List Text :=
  store.lookup.keys.filter start.isPrefixOf

def hasLocale (store : Store) (locale : Text) : Bool :=
  store.phrases.has locale

/-- The locale of the first phrase, or the default one. -/
def fallbackLocale (store : Store) : Text :=
  store.phrases.keys.headD store.defaultLocale

/-- Whether a part has a phrase for the segments of a key. -/
def definesKey (parts : List Text) (part : Part) : Bool :=
  part.lookup.has (Key.join parts) ||
    match Tree.walk (.branch part.phrases) parts 0 with
    | some (.text _) => true
    | _ => false

/-- The first part with a phrase for a key under a locale. -/
def definingPart? (store : Store) (key : Option Text) (locale : Text) : Option Part :=
  match askedKey? key with
  | none => none
  | some key => store.parts.find? (definesKey (Key.localeSegments (some key) locale))

def part? (store : Store) (file : String) : Option Part :=
  store.parts.find? (isFrom file)

/-- The document of a file, if the file was read from a text. -/
def document? (store : Store) (file : String) : Option Document :=
  (store.part? file).bind (·.document)

def valueRange? (store : Store) (key : Option Text) (locale : Text) (file : String) :
    Logged (Option SourceRange) :=
  match store.document? file with
  | none => return none
  | some document => document.findValueRange? key locale

def keyAt? (store : Store) (file : String) (offset : Int) : Option Text :=
  (store.document? file).bind fun document => document.keyAt? offset

end Store

end Phrasebook
