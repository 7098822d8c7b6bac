import Phrasebook.Document
import Phrasebook.Yaml.Fault
import Phrasebook.Yaml.Graph

/-!
# Phrasebook.Document.OfGraph

From the nodes of a text, which may be shared, to a tree with ranges.

Every alias becomes a full copy of its node, which keeps the range of the node it stands for. A node
is built once and remembered, so shared nodes cost nothing. A collection that contains itself has no
tree; it is found by keeping the nodes that are being built. Entries whose key is not a scalar are
left out, and their lines are noted.

Nodes may be nested to any depth: a limit on the depth of nested calls, at which building would be
given up, is not modelled.
-/

namespace Phrasebook.Document

open Yaml (Graph Mark ParseError Vertex)

def rangeOf (start stop : Mark) : SourceRange :=
  ⟨start.index, stop.index⟩

/-- How far the tree has been built. -/
structure Building where
  built : Array (Option Node)
  /-- The lines, from one, of the keys that were left out, last one first. -/
  skipped : List Nat

/-- A step of building the tree. What was noted before an error is kept. -/
abbrev Builder := ExceptT ParseError (StateM Building)

namespace Builder

def remember (number : Nat) (node : Node) : Builder Node := do
  modify fun s => { s with built := s.built.setIfInBounds number (some node) }
  return node

def items (visit : Nat → Builder Node) : List Nat → Builder (List Node)
  | [] => return []
  | number :: rest => do
    let item ← visit number
    let more ← items visit rest
    return item :: more

/-- The entries of a mapping, without those whose key is not a scalar. -/
def pairs (graph : Graph) (visit : Nat → Builder Node) :
    List (Nat × Nat) → Builder (List (Pair Node))
  | [] => return []
  | (key, value) :: rest => do
    match graph.vertices[key]? with
    | some (.scalar start stop text style isNull) =>
      let key : Scalar := ⟨rangeOf start stop, text, style, isNull⟩
      let value ← visit value
      let more ← pairs graph visit rest
      return ⟨key.range.union value.range, key, value⟩ :: more
    | other =>
      let line := other.elim 0 (·.start.line)
      modify fun s => { s with skipped := (line + 1) :: s.skipped }
      pairs graph visit rest

/-- The tree of a node. The nodes around it are `active`; there are no more of them than the graph
    has, which bounds the depth. A number that no node has is refused like a cycle. -/
def node (graph : Graph) (depth : Nat) (active : List Nat) (number : Nat) : Builder Node := do
  match (← get).built[number]?.join, graph.vertices[number]? with
  | some known, _ => return known
  | none, none => throw (.recursiveAlias ⟨0, 0, 0⟩)
  | none, some vertex =>
    -- The open nodes differ, so there are never more levels than nodes.
    match depth with
    | 0 => throw (.recursiveAlias vertex.start)
    | depth + 1 =>
      if active.contains number then throw (.recursiveAlias vertex.start)
      match vertex with
      | .scalar start stop value style isNull =>
        remember number (.scalar ⟨rangeOf start stop, value, style, isNull⟩)
      | .sequence start stop numbers =>
        let items ← items (node graph depth (number :: active)) numbers
        let last := items.getLast?.elim (stop.index : Int) (·.range.stop)
        remember number (.sequence ⟨start.index, last⟩ items)
      | .mapping start stop entries =>
        let pairs ← pairs graph (node graph depth (number :: active)) entries
        let last := pairs.getLast?.elim (stop.index : Int) (·.range.stop)
        remember number (.mapping ⟨start.index, last⟩ pairs)

end Builder

/-- The tree of a graph, with the lines of the keys that were left out. -/
def ofGraph (graph : Graph) : Except ParseError Node × List Nat :=
  let size := graph.vertices.size
  let (result, s) := (Builder.node graph (size + 1) [] graph.root).run.run
    ⟨Array.replicate size none, []⟩
  (result, s.skipped.reverse)

end Phrasebook.Document
