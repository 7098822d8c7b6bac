import Phrasebook.Yaml.Token

/-!
# Phrasebook.Yaml.Graph

The nodes of a document and what they are made of.

An alias adds no node: it names the node of its anchor again. So a node may occur in several places,
and a collection may even occur within itself; which is why the nodes refer to one another by
number.
-/

namespace Phrasebook.Yaml

/-- A node of a document, with the positions where it starts and stops. -/
inductive Vertex where
  /-- A scalar. It is null if it says that there is no value. -/
  | scalar (start stop : Mark) (value : Text) (style : Style) (isNull : Bool)
  | sequence (start stop : Mark) (items : List Nat)
  /-- A mapping, as pairs of key and value nodes. -/
  | mapping (start stop : Mark) (entries : List (Nat × Nat))

def Vertex.start : Vertex → Mark
  | .scalar start _ _ _ _ => start
  | .sequence start _ _ => start
  | .mapping start _ _ => start

structure Graph where
  /-- The nodes, by number. -/
  vertices : Array Vertex
  root : Nat

namespace Graph

def nullTag : String := "tag:yaml.org,2002:null"

/-- Whether the value of an untagged plain scalar says that there is none. The words may have a line
    feed after them. -/
def isNullWord (value : Text) : Bool :=
  ["", "~", "null", "Null", "NULL", "~\n", "null\n", "Null\n", "NULL\n"].any fun word =>
    value = Text.ofString word

/-- Whether a scalar is null. A tag decides, unless it is `!`; without one, only the value of a
    plain scalar does. -/
def isNull (tag : Option String) (style : Style) (value : Text) : Bool :=
  match tag with
  | none => style = .plain && isNullWord value
  | some tag => tag = nullTag || (tag = "!" && isNullWord value)

end Graph

end Phrasebook.Yaml
