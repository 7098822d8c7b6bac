import Mathlib
import Phrasebook.Proofs.Document.Building

/-!
# Phrasebook.Proofs.Document.Cycle

Graphs that contain themselves.

Following the items of sequences and the values of mappings, one may come back to where one was. Such
a node has no tree, and building stops with the node that it meets a second time on its way. Nodes on
the way are different ones, so there are no more of them than the graph has, and the bound on the
depth is never reached (`node_succ_depth`). Everything else has a tree, and building and unfolding
agree on it: a node that merely occurs in several places is no cycle, and a cycle that goes through
the key of an entry that is left out is none either.
-/

namespace Phrasebook.Document

open Relation (ReflTransGen TransGen)
open Yaml (Graph Mark ParseError Vertex)

/-- A node that can be reached from the topmost one contains itself. -/
def InCycle (graph : Graph) (number : Nat) : Prop :=
  ReflTransGen (HasChild graph) graph.root number ∧ TransGen (HasChild graph) number number

/-- The topmost node exists, and so does whatever a node is made of. -/
structure Closed (graph : Graph) : Prop where
  root : graph.root < graph.vertices.size
  child : ∀ number child, HasChild graph number child → child < graph.vertices.size

variable {graph : Graph}

/-- Only nodes that exist are made of anything. -/
theorem closed_iff : Closed graph ↔ graph.root < graph.vertices.size ∧
    ∀ number < graph.vertices.size, ∀ child ∈ children graph number,
      child < graph.vertices.size := by
  constructor
  · intro closed
    exact ⟨closed.root, fun number _ child => closed.child number child⟩
  · rintro ⟨root, each⟩
    refine ⟨root, fun number child inside => ?_⟩
    cases Nat.lt_or_ge number graph.vertices.size with
    | inl known => exact each number known child inside
    | inr beyond =>
      rw [HasChild, children, Array.getElem?_eq_none beyond] at inside
      cases inside

instance : Decidable (Closed graph) :=
  decidable_of_iff' _ closed_iff

theorem Closed.exists_vertex (closed : Closed graph) {number : Nat}
    (reached : ReflTransGen (HasChild graph) graph.root number) :
    ∃ vertex, graph.vertices[number]? = some vertex := by
  have inside : number < graph.vertices.size := by
    cases reached with
    | refl => exact closed.root
    | tail _ last => exact closed.child _ _ last
  exact ⟨_, Array.getElem?_eq_getElem inside⟩

/-! ### The bound on the depth -/

/-- Where there is a level of depth for every node that is left, a further one changes nothing. -/
theorem node_succ_depth {depth : Nat} {active : List Nat} (roomy : Roomy graph depth active) :
    Builder.node graph (depth + 1) active = Builder.node graph depth active := by
  induction depth generalizing active with
  | zero => exact absurd rfl roomy.depth_ne_zero
  | succ depth ih =>
    funext number
    refine ExceptT.ext (StateT.ext fun s => ?_)
    cases built : s.built[number]?.join with
    | some held => exact (run_node_of_built built).trans (run_node_of_built built).symm
    | none =>
      cases here : graph.vertices[number]? with
      | none => rw [run_node_of_missing built here, run_node_of_missing built here]
      | some vertex =>
        -- Only a node that is not open is gone into, and there is room for that.
        by_cases outside : number ∈ active
        · rw [run_node_of_active built here outside, run_node_of_active built here outside]
        · obtain ⟨less, same, inner⟩ := roomy.inside outside here
          obtain rfl : depth = less := Nat.succ.inj same
          rw [run_node_of_vertex built here outside, run_node_of_vertex built here outside, ih inner]

/-! ### Graphs -/

/-- Building the tree of a graph with a bound on the depth. -/
def ofGraphWithin (graph : Graph) (depth : Nat) : Except ParseError Node × List Nat :=
  let (result, s) := (Builder.node graph depth [] graph.root).run.run
    ⟨Array.replicate graph.vertices.size none, []⟩
  (result, s.skipped.reverse)

/-- More levels than there are nodes make no difference. -/
theorem ofGraphWithin_eq {depth : Nat} (enough : graph.vertices.size < depth) :
    ofGraphWithin graph depth = ofGraph graph := by
  induction enough with
  | refl => rfl
  | @step depth enough ih =>
    rw [← ih, ofGraphWithin, node_succ_depth (roomy_nothing graph enough)]
    rfl

/-- Where all nodes exist, building fails only at a node that contains itself. -/
theorem inCycle_of_error (closed : Closed graph) {error : ParseError}
    (failed : (ofGraph graph).1 = .error error) :
    ∃ number vertex, InCycle graph number ∧ graph.vertices[number]? = some vertex ∧
      error = .recursiveAlias vertex.start := by
  rcases ofGraph_yields graph with ⟨_, _, built, _⟩ | ⟨_, _, same, stuck⟩
  · rw [built] at failed
    cases failed
  · rw [same] at failed
    cases failed
    cases stuck with
    | missing reached absent =>
      obtain ⟨vertex, here⟩ := closed.exists_vertex reached
      cases here.symm.trans absent
    | again reached here met =>
      -- No node is around the topmost one.
      rcases met with around | cycle
      · cases around
      · exact ⟨_, _, ⟨reached, cycle⟩, here, rfl⟩

/-- Building the tree of a graph comes to an end, however deep it is allowed to go. It fails exactly
    if a node that is reached contains itself, with the place of such a node; and otherwise it gives
    the tree that the graph unfolds to. -/
theorem ofGraph_fails_iff_cycle (closed : Closed graph) :
    (∀ depth, graph.vertices.size < depth → ofGraphWithin graph depth = ofGraph graph) ∧
    ((∃ error, (ofGraph graph).1 = .error error) ↔ ∃ number, InCycle graph number) ∧
    (∀ error, (ofGraph graph).1 = .error error →
      ∃ number vertex, InCycle graph number ∧ graph.vertices[number]? = some vertex ∧
        error = .recursiveAlias vertex.start) ∧
    ∀ tree, (ofGraph graph).1 = .ok tree ↔ Unfolds graph graph.root tree := by
  have gives (tree : Node) : (ofGraph graph).1 = .ok tree ↔ Unfolds graph graph.root tree := by
    constructor
    · intro built
      exact unfolds_of_ofGraph (Prod.ext built rfl)
    · intro unfolds
      obtain ⟨skipped, built⟩ := ofGraph_eq_of_unfolds unfolds
      rw [built]
  refine ⟨fun depth enough => ofGraphWithin_eq enough, ⟨?_, ?_⟩, fun error => inCycle_of_error closed,
    gives⟩
  · rintro ⟨error, failed⟩
    obtain ⟨number, vertex, cycle, -⟩ := inCycle_of_error closed failed
    exact ⟨number, cycle⟩
  · rintro ⟨number, reached, cycle⟩
    cases result : (ofGraph graph).1 with
    | error error => exact ⟨error, rfl⟩
    | ok tree =>
      -- A tree would unfold the root and with it all that the root reaches.
      obtain ⟨_, below⟩ := ((gives tree).mp result).exists_of_reached reached
      exact absurd cycle below.not_transGen_self

/-- The text `&a {? [*a] : x, y: [&b z, *b]}`: the mapping contains itself in the key of an entry that
    is left out, and the node `z` twice. The sequence `&a [{y: *a}]` contains itself. -/
theorem ofGraph_fails_iff_cycle_of_shared_nodes :
    let mark (index : Nat) : Mark := ⟨index, 0, index⟩
    let word (start stop : Nat) (value : Text) : Vertex :=
      .scalar (mark start) (mark stop) value .plain false
    let knot : Graph :=
      ⟨#[.mapping (mark 0) (mark 30) [(1, 2), (3, 4)], .sequence (mark 6) (mark 10) [0],
        word 13 14 "x", word 16 17 "y", .sequence (mark 19) (mark 29) [5, 5], word 20 24 "z"], 0⟩
    let ring : Graph :=
      ⟨#[.sequence (mark 0) (mark 12) [1], .mapping (mark 4) (mark 11) [(2, 0)], word 5 6 "y"], 0⟩
    let z : Node := .scalar ⟨⟨20, 24⟩, "z", .plain, false⟩
    let tree : Node := .mapping ⟨0, 24⟩
      [⟨⟨16, 24⟩, ⟨⟨16, 17⟩, "y", .plain, false⟩, .sequence ⟨19, 24⟩ [z, z]⟩]
    Closed knot ∧ Unfolds knot 0 tree ∧ (¬ ∃ number, InCycle knot number) ∧
      Closed ring ∧ (∃ number, InCycle ring number) ∧ ofGraphWithin ring 100 = ofGraph ring := by
  intro mark word knot ring z tree
  have whole : Closed knot := by decide
  have ringWhole : Closed ring := by decide
  obtain ⟨-, fails, -, gives⟩ := ofGraph_fails_iff_cycle whole
  obtain ⟨bounded, ringFails, -⟩ := ofGraph_fails_iff_cycle ringWhole
  have built : (ofGraph knot).1 = .ok tree := by cbv
  have refused : (ofGraph ring).1 = .error (.recursiveAlias (mark 0)) := by cbv
  refine ⟨whole, (gives tree).mp built, fun cycle => ?_, ringWhole, ringFails.mp ⟨_, refused⟩,
    bounded 100 (by decide)⟩
  obtain ⟨error, failed⟩ := fails.mpr cycle
  cases failed.symm.trans built

end Phrasebook.Document
