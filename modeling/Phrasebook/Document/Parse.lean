import Phrasebook.Document.OfGraph
import Phrasebook.Log
import Phrasebook.Yaml.Graph.OfTokens
import Phrasebook.Yaml.Lexer

/-!
# Phrasebook.Document.Parse

From a text to its document.
-/

namespace Phrasebook.Document

open Yaml (Fault Graph TokenStream)

def isAcceptable (c : Char) : Bool :=
  c = '\t' || c = '\n' || c = '\r' || c = '\x85' || (' ' ≤ c && c ≤ '~') ||
    ('\xa0' ≤ c && c ≤ '\ufffd') || 0x10000 ≤ c.toNat

/-- The first character that a text must not hold, with its offset. -/
def unacceptableFrom (index : Nat) : List Char → Option (Char × Nat)
  | [] => none
  | c :: rest => if isAcceptable c then unacceptableFrom (index + 1) rest else some (c, index)

/-- The nodes of a text, if it holds a document. -/
def readGraph? (text : List Char) : Except Fault (Option Graph) :=
  match unacceptableFrom 0 text with
  | some (c, index) => .error (.unreadable (.unacceptable c index))
  | none => Graph.ofTokens? (.ofText text)

def reportSkipped : List Nat → Logged Unit
  | [] => pure ()
  | line :: rest => do
    Logged.reportFrom "parser" .debug "skipped_complex_mapping_key" [("line", .count line)]
    reportSkipped rest

def parse (text : String) : Logged (Except Fault Document) :=
  match readGraph? text.toList with
  | .error fault => pure (.error fault)
  | .ok none => pure (.ok ⟨text, none⟩)
  | .ok (some graph) =>
    let (result, skipped) := ofGraph graph
    do
      reportSkipped skipped
      match result with
      | .error error => return .error (.unreadable error)
      | .ok root => return .ok ⟨text, some root⟩

end Phrasebook.Document
