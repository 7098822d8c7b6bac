import Phrasebook.Document.Parse
import Phrasebook.Failure
import Phrasebook.Outcome
import Phrasebook.Store

/-!
# Phrasebook.Index

The stores of all scopes.

A scope comes into being with the first part that is merged into it, and goes with a reset. A scope
that does not exist answers every question as an empty one would. A text that cannot be read changes
nothing.

Texts, trees and keys may be nested to any depth. A limit on the depth of nested calls, at which a
change or a question would be given up, is not modelled.
-/

namespace Phrasebook

/-- The stores, in the order in which their scopes came into being. -/
structure Index where
  /-- The locale to fall back on in a scope without phrases. -/
  defaultLocale : Text
  stores : List Store

namespace Index

/-- What an outcome of merging a text carries. -/
inductive Payload where
  | part (part : Part)
  | parseError (error : Yaml.ParseError)

def empty (defaultLocale : Text) : Index :=
  ⟨defaultLocale, []⟩

/-- A new index with a locale to fall back on, or with the one that the settings give if that is
    empty. -/
def ofLocale (locale : Option Text) (fallback : Text := Phrasebook.defaultLocale) : Index :=
  match locale with
  | none | some [] => empty fallback
  | some locale => empty locale

def store? (index : Index) (scope : String) : Option Store :=
  index.stores.find? fun store => store.scope = scope

/-- Puts a store in the place of the one of its scope, or at the end. -/
def putStore (store : Store) : List Store → List Store
  | [] => [store]
  | other :: rest =>
    if other.scope = store.scope then store :: rest else other :: putStore store rest

def withStore (index : Index) (store : Store) : Index :=
  { index with stores := putStore store index.stores }

def report (level : Log.Level) (event : String) (fields : Log.Fields) : Logged Unit :=
  Logged.reportFrom "index" level event fields

/-! ### Changes -/

/-- The store of a scope, which comes into being if it does not exist. -/
def openStore (index : Index) (scope : String) : Logged Store :=
  match index.store? scope with
  | some store => return store
  | none => do
    report .debug "translation_scope_created" [("scope", .text scope)]
    return .empty scope index.defaultLocale

def mergePhrases (index : Index) (scope : String) (phrases : Branch) (document : Option Document)
    (sourceFile : Option String) : Logged (Index × Part) := do
  let store ← index.openStore scope
  let (store, part) ← store.mergePart phrases document sourceFile
  return (index.withStore store, part)

/-- What an error message calls a part: by its file, if it has one with a name. -/
def partName (sourceFile : Option String) : String :=
  match sourceFile with
  | none | some "" => "fragment"
  | some file => file

/-- Reads a text and registers its phrases in a scope. If a number in the text is too large, the
    operation is given up. -/
def mergePart (index : Index) (scope text : String) (sourceFile : Option String) :
    Logged (Index × Except Failure (Outcome Payload)) := do
  match ← Document.parse text with
  | .error (.excessive excess) => return (index, .error (.excessive excess))
  | .error (.unreadable error) =>
    report .warning "yaml_parse_error"
      [("scope", .text scope), ("source_file", .ofString? sourceFile),
        ("error", .text error.message)]
    let message := "Failed to parse " ++ partName sourceFile ++ ": " ++ error.message
    return (index, .ok (.permanentError message "yaml_parse_error" (some (.parseError error))))
  | .ok document =>
    let phrases ← document.toBranch
    let (index, part) ← index.mergePhrases scope phrases (some document) sourceFile
    return (index, .ok (.success (some (.part part)) "merged"))

/-- Registers a tree in a scope. It has no document, so questions about places do not see it. -/
def mergeTree (index : Index) (scope : String) (phrases : Branch) (sourceFile : Option String) :
    Logged (Index × Part) :=
  index.mergePhrases scope phrases none sourceFile

/-- Takes the part of a file out of a scope, if there is one, and tells whether there was. -/
def removePart (index : Index) (scope file : String) : Logged (Index × Bool) :=
  match index.store? scope with
  | none => return (index, false)
  | some store => do
    let (store, removed) ← store.removePart file
    return (index.withStore store, removed)

/-- Empties stores that are going away. -/
def resetStores : List Store → Logged Unit
  | [] => return ()
  | store :: rest => do
    let _ ← store.reset
    resetStores rest

/-- Removes one scope, or every scope. -/
def reset (index : Index) (scope : Option String) : Logged Index := do
  let isGone (store : Store) : Bool := scope.all (store.scope = ·)
  resetStores (index.stores.filter isGone)
  report .info "translation_index_reset" [("scope", .ofString? scope)]
  return { index with stores := index.stores.filter (!isGone ·) }

/-! ### Questions -/

def scopes (index : Index) : List String :=
  index.stores.map (·.scope)

def hasScope (index : Index) (scope : String) : Bool :=
  (index.store? scope).isSome

def phrase? (index : Index) (scope : String) (key : Option Text) (locale : Text) :
    Logged (Option Text) :=
  match index.store? scope with
  | none => return none
  | some store => store.phrase? key locale

def lookupKey? (index : Index) (scope : String) (fullKey : Text) : Option Text :=
  (index.store? scope).bind (·.lookupKey? fullKey)

def keysStartingWith (index : Index) (scope : String) (start : Text) : List Text :=
  (index.store? scope).elim [] (·.keysStartingWith start)

def hasLocale (index : Index) (scope : String) (locale : Text) : Bool :=
  (index.store? scope).any (·.hasLocale locale)

def fallbackLocale (index : Index) (scope : String) : Text :=
  (index.store? scope).elim index.defaultLocale (·.fallbackLocale)

/-- The first part with a phrase for a key under a locale. -/
def definingPart? (index : Index) (scope : String) (key : Option Text) (locale : Text) :
    Option Part :=
  (index.store? scope).bind (·.definingPart? key locale)

def valueRange? (index : Index) (scope : String) (key : Option Text) (locale : Text)
    (file : String) : Logged (Option SourceRange) :=
  match index.store? scope with
  | none => return none
  | some store => store.valueRange? key locale file

def keyAt? (index : Index) (scope file : String) (offset : Int) : Option Text :=
  (index.store? scope).bind (·.keyAt? file offset)

/-- The file that defines a key under a locale, and where its value stands there. -/
def definition? (index : Index) (scope : String) (key : Option Text) (locale : Text) :
    Logged (Option (String × SourceRange)) :=
  match (index.definingPart? scope key locale).bind (·.sourceFile) with
  | none => do
    report .debug "definition_not_found"
      [("scope", .text scope), ("key", .ofText? key), ("locale", .text locale)]
    return none
  | some file => do
    let range ← index.valueRange? scope key locale file
    return range.map fun range => (file, range)

end Index

end Phrasebook
