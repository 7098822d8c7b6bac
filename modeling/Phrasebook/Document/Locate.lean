import Phrasebook.Document
import Phrasebook.Key
import Phrasebook.Log

/-!
# Phrasebook.Document.Locate

Keys and places: where in a document the value of a key stands, and which key stands at an offset.

Both directions know that one key of a mapping may hold several segments. Looking for a key tries
the longest key first at every mapping and goes back where a way leads nowhere, as `Tree.walk` does.
Looking at an offset follows the first entry on each level whose range the offset is on.
-/

namespace Phrasebook.Document

def reportLocate (event : String) (fields : Log.Fields) : Logged Unit :=
  Logged.reportFrom "resolver" .debug event fields

/-- The first answer among some candidates; those after it are not tried. -/
def firstAnswer {α β : Type} (answer : α → Logged (Option β)) : List α → Logged (Option β)
  | [] => pure none
  | candidate :: rest => do
    match ← answer candidate with
    | some found => return some found
    | none => firstAnswer answer rest

/-- The scalar that the segments from `start` on lead to. A scalar answers only when no segment is
    left and when it takes up some of the text. Every mapping uses up a segment, so `depth` bounds
    the way by the number of segments that are left. -/
def resolve (parts : List Text) (depth : Nat) (entries : List (Pair Node)) (start : Nat) :
    Logged (Option Scalar) :=
  match depth with
  | 0 => pure none
  | depth + 1 =>
    firstAnswer (fun ((key, next) : Text × Nat) =>
      match (findPair? entries key).map Pair.value with
      | none => pure none
      | some (.scalar s) =>
        -- Only at the end of the key is there a value, and one without text is not pointed at.
        pure (if next = parts.length && s.range.start < s.range.stop then some s else none)
      | some (.mapping _ inner) =>
        -- A mapping at the end of the key is no value; another cut may still end at one.
        if next < parts.length then resolve parts depth inner next else pure none
      | some node => do
        reportLocate "unsupported_value_node" [("key", .text key), ("kind", .text node.kind)]
        return none)
      (Key.candidates parts start)

def findValueRange? (document : Document) (key : Option Text) (locale : Text) :
    Logged (Option SourceRange) :=
  match key with
  | none | some [] => pure none
  | some key =>
    match document.root with
    | some (.mapping _ (entry :: entries)) => do
      let parts := Key.localeSegments (some key) locale
      match ← resolve parts parts.length (entry :: entries) 0 with
      | some s => return some s.range
      | none =>
        reportLocate "key_not_located_in_document" [("key", .text key), ("locale", .text locale)]
        return none
    | _ => do
      reportLocate "yaml_document_has_no_items" []
      return none

mutual

/-- The keys of the entries at an offset, from the topmost one down to the innermost. -/
def keysAt (offset : Int) : Node → List Text
  | .mapping _ entries => pairKeysAt offset entries
  | _ => []

/-- The keys at an offset in the first entry that the offset is on. -/
def pairKeysAt (offset : Int) : List (Pair Node) → List Text
  | [] => []
  | ⟨range, key, value⟩ :: rest =>
    if range.contains offset then key.value :: keysAt offset value else pairKeysAt offset rest

end

/-- The dotted key of the innermost entry at an offset, if it has one. -/
def keyAt? (document : Document) (offset : Int) : Option Text :=
  match Key.join (document.root.elim [] (keysAt offset)) with
  | [] => none
  | key => some key

end Phrasebook.Document
