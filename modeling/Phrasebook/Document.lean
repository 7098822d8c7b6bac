import Phrasebook.Log
import Phrasebook.Tree
import Phrasebook.Yaml.Token

/-!
# Phrasebook.Document

Documents: the nodes of a text with the ranges that they take up in it, and the phrases that are left
when the positions are forgotten.

A range runs from its start up to, but not including, its stop. An offset counts as on a range also
when it is the stop, so that a cursor right after a word still is on the word.

A node is a scalar, a mapping or a sequence. An entry of a mapping stands only in its mapping and is
never the value of another entry: reading a text builds no such value, so there is neither a
constructor for it nor a tree that it would become.

Among the phrases, a scalar becomes its text, or a null leaf. A sequence becomes a branch with the
positions of its items as keys. Where a mapping repeats a key, the last value stands at the place of
the first.
-/

namespace Phrasebook

/-- A range of a text, in characters. An offset before the text is negative. -/
structure SourceRange where
  start : Int
  /-- The offset after the last character. -/
  stop : Int
  deriving DecidableEq

namespace SourceRange

/-- Whether an offset is on a range, its stop included. -/
def contains (range : SourceRange) (offset : Int) : Bool :=
  range.start ≤ offset && offset ≤ range.stop

def union (a b : SourceRange) : SourceRange :=
  ⟨min a.start b.start, max a.stop b.stop⟩

end SourceRange

structure Scalar where
  /-- Where it stands, with its quotes and properties. -/
  range : SourceRange
  /-- Its text, without quotes and escapes. -/
  value : Text
  style : Yaml.Style
  /-- Whether it says that there is no value. -/
  isNull : Bool
  deriving DecidableEq

structure Pair (Value : Type) where
  /-- Where it stands, from its key to the end of its value. -/
  range : SourceRange
  key : Scalar
  value : Value

inductive Node where
  | scalar (scalar : Scalar)
  /-- A mapping; the same key may occur in several entries. -/
  | mapping (range : SourceRange) (entries : List (Pair Node))
  | sequence (range : SourceRange) (items : List Node)

namespace Node

def range : Node → SourceRange
  | .scalar s => s.range
  | .mapping range _ => range
  | .sequence range _ => range

/-- What a node is called in reports. -/
def kind : Node → String
  | .scalar _ => "scalar"
  | .mapping _ _ => "mapping"
  | .sequence _ _ => "sequence"

end Node

/-- The first entry with a key. -/
def findPair? (entries : List (Pair Node)) (key : Text) : Option (Pair Node) :=
  entries.find? fun pair => pair.key.value = key

/-- A text with its topmost node, if it has one. -/
structure Document where
  /-- The text that was read; ranges are offsets into it. -/
  text : String
  root : Option Node

/-- The characters of a document in a range. A range that goes beyond the text is cut off. -/
def Document.slice (document : Document) (range : SourceRange) : String :=
  String.ofList ((document.text.toList.take range.stop.toNat).drop range.start.toNat)

/-! ### Phrases -/

mutual

def Node.toTree : Node → Tree
  | .scalar s => if s.isNull then .null else .text s.value
  | .mapping _ entries => .branch (pairsToBranch [] entries)
  | .sequence _ items => .branch (itemsToBranch 0 items)

/-- A branch with the entries of a mapping entered into it. -/
def pairsToBranch (branch : Branch) : List (Pair Node) → Branch
  | [] => branch
  | ⟨_, key, value⟩ :: rest => pairsToBranch (branch.insert key.value value.toTree) rest

/-- The branch of the items of a sequence, with keys from a position on. -/
def itemsToBranch (position : Nat) : List Node → Branch
  | [] => []
  | item :: rest =>
    (Text.ofString (toString position), item.toTree) :: itemsToBranch (position + 1) rest

end

/-- The phrases of a document. A document whose topmost node is not a mapping has none. -/
def Document.toBranch (document : Document) : Logged Branch :=
  match document.root with
  | none => pure []
  | some (.mapping _ entries) => pure (pairsToBranch [] entries)
  | some root => do
    Logged.reportFrom "parser" .warning "invalid_yaml_format"
      [("expected", .text "mapping"), ("found", .text root.kind)]
    return []

end Phrasebook
