import Mathlib.Data.List.Perm.Subperm
import Phrasebook.Proofs.Document.Unfold

/-!
# Phrasebook.Proofs.Document.Building

Building the tree of a graph beside unfolding the graph.

A step of building gives what unfolding gives, and remembers nothing else, or it fails for a reason;
`Yields` says both of a step. Building a node fails only if one comes from it to a node that does not
exist or that is met again on the way (`yields_node`). Neither happens where unfolding comes to an
end, so building gives the tree that a graph unfolds to (`ofGraph_eq_of_unfolds`) and no other one
(`unfolds_of_ofGraph`).
-/

namespace Phrasebook.Document

open Relation (ReflTransGen TransGen)
open Yaml (Graph Mark ParseError Vertex)

variable {graph : Graph}

/-! ### Steps -/

/-- What is remembered of a node is its tree. -/
def Remembers (graph : Graph) (s : Building) : Prop :=
  ∀ number tree, s.built[number]?.join = some tree → Unfolds graph number tree

/-- A step of building gives a right value and leaves only trees of the graph remembered, or it fails
    for a reason. -/
def Yields {α : Type} (graph : Graph) (step : Builder α) (right : α → Prop)
    (reason : ParseError → Prop) : Prop :=
  ∀ s, Remembers graph s →
    (∃ value t, step.run.run s = (.ok value, t) ∧ right value ∧ Remembers graph t) ∨
      ∃ error t, step.run.run s = (.error error, t) ∧ reason error

section Steps

variable {α β : Type} {reason : ParseError → Prop}

theorem Yields.pure {right : α → Prop} {value : α} (holds : right value) :
    Yields graph (Pure.pure value) right reason :=
  fun s known => .inl ⟨value, s, rfl, holds, known⟩

/-- A step that yields what the next one needs yields, with it, what that one yields. -/
theorem Yields.bind {step : Builder α} {next : α → Builder β} {between : α → Prop}
    {right : β → Prop} (first : Yields graph step between reason)
    (second : ∀ value, between value → Yields graph (next value) right reason) :
    Yields graph (step >>= next) right reason := by
  intro s known
  rw [ExceptT.run_bind, StateT.run_bind]
  rcases first s known with ⟨value, t, ran, holds, known⟩ | ⟨error, t, ran, because⟩
  · rw [ran]
    exact second value holds t known
  · rw [ran]
    exact .inr ⟨error, t, rfl, because⟩

/-- A reason for stopping can be replaced by one that it implies. -/
theorem Yields.imp_reason {step : Builder α} {right : α → Prop} {closer : ParseError → Prop}
    (yields : Yields graph step right closer) (further : ∀ error, closer error → reason error) :
    Yields graph step right reason := by
  intro s known
  rcases yields s known with given | ⟨error, t, ran, because⟩
  · exact .inl given
  · exact .inr ⟨error, t, ran, further error because⟩

/-- Remembering the tree of a node yields that tree, and leaves only right trees remembered. -/
theorem yields_remember {number : Nat} {tree : Node} (unfolds : Unfolds graph number tree) :
    Yields graph (Builder.remember number tree) (Unfolds graph number) reason := by
  intro s known
  refine .inl ⟨tree, _, rfl, unfolds, fun other found held => ?_⟩
  change (s.built.setIfInBounds number (some tree))[other]?.join = some found at held
  rw [Array.getElem?_setIfInBounds] at held
  -- The place of the node holds its tree, unless there is no such place; all others are as before.
  split at held
  next same =>
    split at held
    next =>
      cases held
      exact same ▸ unfolds
    next => cases held
  next => exact known other found held

theorem yields_items {visit : Nat → Builder Node} {numbers : List Nat}
    (each : ∀ number ∈ numbers, Yields graph (visit number) (Unfolds graph number) reason) :
    Yields graph (Builder.items visit numbers) (List.Forall₂ (Unfolds graph) numbers) reason := by
  induction numbers with
  | nil => exact .pure .nil
  | cons number rest ih =>
    obtain ⟨first, later⟩ := List.forall_mem_cons.mp each
    refine first.bind fun item unfolds => (ih later).bind fun more others => .pure ?_
    exact .cons unfolds others

theorem keyed_cons_of_scalar {key : Nat} {s : Scalar} (scalar : scalarOf? graph key = some s)
    (value : Nat) (rest : List (Nat × Nat)) :
    keyed graph ((key, value) :: rest) = (s, value) :: keyed graph rest := by
  simp [keyed, scalar]

theorem keyed_cons_of_none {key : Nat} (complex : scalarOf? graph key = none) (value : Nat)
    (rest : List (Nat × Nat)) : keyed graph ((key, value) :: rest) = keyed graph rest := by
  simp [keyed, complex]

theorem pairs_cons_of_scalar {key : Nat} {s : Scalar} (scalar : scalarOf? graph key = some s)
    (visit : Nat → Builder Node) (value : Nat) (rest : List (Nat × Nat)) :
    Builder.pairs graph visit ((key, value) :: rest) = do
      let tree ← visit value
      let more ← Builder.pairs graph visit rest
      return entryOf s tree :: more := by
  rw [scalarOf?] at scalar
  split at scalar
  next vertex =>
    cases scalar
    rw [Builder.pairs, vertex]
    rfl
  · cases scalar

/-- An entry with a complex key is noted as left out, and its value is not built. -/
theorem pairs_cons_of_none {key : Nat} (complex : scalarOf? graph key = none)
    (visit : Nat → Builder Node) (value : Nat) (rest : List (Nat × Nat)) :
    ∃ line, Builder.pairs graph visit ((key, value) :: rest) = (do
      modify fun s => { s with skipped := line :: s.skipped }
      Builder.pairs graph visit rest) := by
  -- The line is that of the key, or the first one if there is no such node.
  rw [scalarOf?] at complex
  rw [Builder.pairs]
  split at complex
  · cases complex
  next other =>
    cases vertex : graph.vertices[key]? with
    | none => exact ⟨_, rfl⟩
    | some v =>
      cases v with
      | scalar start stop text style isNull => exact absurd vertex (other _ _ _ _ _)
      | sequence start stop numbers => exact ⟨_, rfl⟩
      | mapping start stop inner => exact ⟨_, rfl⟩

/-- The entries with complex keys are left out, whatever their values are. -/
theorem yields_pairs {visit : Nat → Builder Node} {entries : List (Nat × Nat)}
    (each : ∀ entry ∈ keyed graph entries,
      Yields graph (visit entry.2) (Unfolds graph entry.2) reason) :
    Yields graph (Builder.pairs graph visit entries)
      (List.Forall₂ (Becomes (Unfolds graph)) (keyed graph entries)) reason := by
  induction entries with
  | nil => exact .pure .nil
  | cons entry rest ih =>
    obtain ⟨key, value⟩ := entry
    cases scalar : scalarOf? graph key with
    | none =>
      rw [keyed_cons_of_none scalar] at each ⊢
      obtain ⟨line, passed⟩ := pairs_cons_of_none scalar visit value rest
      -- A note of the line of a complex key touches none of the trees that are remembered.
      have notes : Yields graph
          (modify fun s => { s with skipped := line :: s.skipped } : Builder Unit)
          (fun _ => True) reason :=
        fun s known => .inl ⟨(), _, rfl, trivial, known⟩
      exact passed ▸ notes.bind fun _ _ => ih each
    | some s =>
      rw [keyed_cons_of_scalar scalar] at each ⊢
      rw [pairs_cons_of_scalar scalar]
      obtain ⟨first, later⟩ := List.forall_mem_cons.mp each
      refine first.bind fun tree unfolds => (ih later).bind fun more others => .pure ?_
      exact .cons ⟨tree, unfolds, rfl⟩ others

end Steps

/-! ### Nodes -/

theorem run_get_bind {α : Type} (next : Building → Builder α) (s : Building) :
    (get >>= next : Builder α).run.run s = (next s).run.run s := rfl

theorem run_node_of_built {depth : Nat} {active : List Nat} {number : Nat} {known : Node}
    {s : Building} (built : s.built[number]?.join = some known) :
    (Builder.node graph depth active number).run.run s = (.ok known, s) := by
  rw [Builder.node, run_get_bind, built]
  rfl

/-- A node that is met for the first time is built from what it is made of, and then remembered. -/
theorem run_node_of_vertex {depth : Nat} {active : List Nat} {number : Nat} {vertex : Vertex}
    {s : Building} (fresh : s.built[number]?.join = none)
    (here : graph.vertices[number]? = some vertex) (outside : number ∉ active) :
    (Builder.node graph (depth + 1) active number).run.run s =
      StateT.run (ExceptT.run (match vertex with
      | .scalar start stop value style isNull =>
        Builder.remember number (.scalar ⟨rangeOf start stop, value, style, isNull⟩)
      | .sequence start stop numbers => do
        let items ← Builder.items (Builder.node graph depth (number :: active)) numbers
        Builder.remember number (sequenceOf start stop items)
      | .mapping start stop entries => do
        let pairs ← Builder.pairs graph (Builder.node graph depth (number :: active)) entries
        Builder.remember number (mappingOf start stop pairs))) s := by
  rw [Builder.node, run_get_bind, fresh, here]
  have absent : active.contains number = false := by simpa using outside
  simp only [absent]
  cases vertex <;> rfl

theorem run_node_of_missing {depth : Nat} {active : List Nat} {number : Nat} {s : Building}
    (fresh : s.built[number]?.join = none) (missing : graph.vertices[number]? = none) :
    (Builder.node graph depth active number).run.run s =
      (.error (.recursiveAlias ⟨0, 0, 0⟩), s) := by
  rw [Builder.node, run_get_bind, fresh, missing]
  rfl

theorem run_node_of_active {depth : Nat} {active : List Nat} {number : Nat} {vertex : Vertex}
    {s : Building} (fresh : s.built[number]?.join = none)
    (here : graph.vertices[number]? = some vertex) (inside : number ∈ active) :
    (Builder.node graph (depth + 1) active number).run.run s =
      (.error (.recursiveAlias vertex.start), s) := by
  rw [Builder.node, run_get_bind, fresh, here]
  have inside : active.contains number = true := by simpa using inside
  simp only [inside]
  rfl

/-- Different numbers below a bound are at most as many. -/
theorem length_le_of_nodup {numbers : List Nat} {bound : Nat} (distinct : numbers.Nodup)
    (below : ∀ number ∈ numbers, number < bound) : numbers.length ≤ bound := by
  have subset : numbers ⊆ List.range bound := fun number member =>
    List.mem_range.mpr (below number member)
  simpa using (List.subperm_of_subset distinct subset).length_le

/-- The nodes around the next one are different nodes of the graph, and there is a level of depth for
    every node that they leave. -/
structure Roomy (graph : Graph) (depth : Nat) (active : List Nat) : Prop where
  distinct : active.Nodup
  known : ∀ other ∈ active, other < graph.vertices.size
  enough : graph.vertices.size < active.length + depth

/-- Going into a node that is not open uses up one of the levels left. -/
theorem Roomy.inside {depth number : Nat} {active : List Nat} (roomy : Roomy graph depth active)
    (outside : number ∉ active) {vertex : Vertex} (here : graph.vertices[number]? = some vertex) :
    ∃ less, depth = less + 1 ∧ Roomy graph less (number :: active) := by
  have inside : number < graph.vertices.size := (Array.getElem?_eq_some_iff.mp here).1
  have distinct : (number :: active).Nodup := List.nodup_cons.mpr ⟨outside, roomy.distinct⟩
  have known : ∀ other ∈ number :: active, other < graph.vertices.size :=
    List.forall_mem_cons.mpr ⟨inside, roomy.known⟩
  have room := length_le_of_nodup distinct known
  have enough := roomy.enough
  rw [List.length_cons] at room
  exact ⟨depth - 1, by omega, distinct, known, by rw [List.length_cons]; omega⟩

theorem roomy_nothing (graph : Graph) {depth : Nat} (enough : graph.vertices.size < depth) :
    Roomy graph depth [] :=
  ⟨List.nodup_nil, by simp, by simpa using enough⟩

theorem Roomy.depth_ne_zero {depth : Nat} {active : List Nat} (roomy : Roomy graph depth active) :
    depth ≠ 0 := by
  have room := length_le_of_nodup roomy.distinct roomy.known
  have enough := roomy.enough
  omega

/-- Why a node has no tree: one comes from it to a node that does not exist, or to one that is around
    it or contains itself. The error tells where that node starts. -/
inductive Stuck (graph : Graph) (active : List Nat) (number : Nat) : ParseError → Prop
  | missing {other : Nat} (reached : ReflTransGen (HasChild graph) number other)
      (absent : graph.vertices[other]? = none) :
      Stuck graph active number (.recursiveAlias ⟨0, 0, 0⟩)
  | again {other : Nat} {vertex : Vertex} (reached : ReflTransGen (HasChild graph) number other)
      (here : graph.vertices[other]? = some vertex)
      (met : other ∈ active ∨ TransGen (HasChild graph) other other) :
      Stuck graph active number (.recursiveAlias vertex.start)

theorem Stuck.of_child {active : List Nat} {number child : Nat} {error : ParseError}
    (inside : HasChild graph number child) (stuck : Stuck graph (number :: active) child error) :
    Stuck graph active number error := by
  cases stuck with
  | missing reached absent => exact .missing (reached.head inside) absent
  | again reached here met =>
    refine .again (reached.head inside) here ?_
    rcases met with around | cycle
    · -- Coming back to the node itself closes a cycle.
      rcases List.mem_cons.mp around with rfl | further
      · exact .inr (.head' inside reached)
      · exact .inl further
    · exact .inr cycle

/-- Building a node gives its tree, or the node is stuck. -/
theorem yields_node {depth : Nat} {active : List Nat} (roomy : Roomy graph depth active)
    (number : Nat) :
    Yields graph (Builder.node graph depth active number) (Unfolds graph number)
      (Stuck graph active number) := by
  -- By induction on the depth that is left, which there is enough of.
  induction depth generalizing active number with
  | zero => exact absurd rfl roomy.depth_ne_zero
  | succ depth ih =>
    intro s known
    cases built : s.built[number]?.join with
    | some held => exact .inl ⟨held, s, run_node_of_built built, known number held built, known⟩
    | none =>
      cases here : graph.vertices[number]? with
      | none => exact .inr ⟨_, s, run_node_of_missing built here, .missing .refl here⟩
      | some vertex =>
        by_cases outside : number ∈ active
        · exact .inr
            ⟨_, s, run_node_of_active built here outside, .again .refl here (.inl outside)⟩
        · obtain ⟨less, same, inner⟩ := roomy.inside outside here
          obtain rfl : depth = less := Nat.succ.inj same
          have below (child : Nat) (member : child ∈ children graph number) :=
            (ih inner child).imp_reason fun error => Stuck.of_child member
          rw [run_node_of_vertex built here outside]
          cases vertex with
          | scalar start stop value style isNull => exact yields_remember (.scalar here) s known
          | sequence start stop numbers =>
            rw [children_sequence here] at below
            exact ((yields_items below).bind fun _ each =>
              yields_remember (.sequence here each)) s known
          | mapping start stop entries =>
            rw [children_mapping here] at below
            have values := fun entry (member : entry ∈ keyed graph entries) =>
              below entry.2 (List.mem_map_of_mem member)
            exact ((yields_pairs values).bind fun _ each =>
              yields_remember (.mapping here each)) s known

/-! ### Graphs -/

theorem remembers_nothing (graph : Graph) :
    Remembers graph ⟨Array.replicate graph.vertices.size none, []⟩ := by
  intro number held remembered
  rw [Array.getElem?_replicate] at remembered
  split at remembered <;> cases remembered

/-- Building gives the tree that the graph unfolds to, or the topmost node is stuck. -/
theorem ofGraph_yields (graph : Graph) :
    (∃ tree skipped, ofGraph graph = (.ok tree, skipped) ∧ Unfolds graph graph.root tree) ∨
      ∃ error skipped, ofGraph graph = (.error error, skipped) ∧ Stuck graph [] graph.root error := by
  rw [ofGraph]
  rcases yields_node (roomy_nothing graph (Nat.lt_succ_self _)) graph.root _
    (remembers_nothing graph) with ⟨tree, t, ran, unfolds, _⟩ | ⟨error, t, ran, stuck⟩
  · exact .inl ⟨tree, t.skipped.reverse, by simp only [ran], unfolds⟩
  · exact .inr ⟨error, t.skipped.reverse, by simp only [ran], stuck⟩

theorem Unfolds.not_stuck {number : Nat} {tree : Node} (unfolds : Unfolds graph number tree)
    (error : ParseError) : ¬ Stuck graph [] number error := by
  intro stuck
  cases stuck with
  | missing reached absent =>
    obtain ⟨_, below⟩ := unfolds.exists_of_reached reached
    obtain ⟨vertex, here⟩ := below.exists_vertex
    cases here.symm.trans absent
  | again reached here met =>
    obtain ⟨_, below⟩ := unfolds.exists_of_reached reached
    rcases met with around | cycle
    · cases around
    · exact below.not_transGen_self cycle

/-- The tree that a graph unfolds to is the one that is built. -/
theorem ofGraph_eq_of_unfolds {tree : Node} (unfolds : Unfolds graph graph.root tree) :
    ∃ skipped, ofGraph graph = (.ok tree, skipped) := by
  rcases ofGraph_yields graph with ⟨other, skipped, built, same⟩ | ⟨error, _, _, stuck⟩
  · exact ⟨skipped, same.unique unfolds ▸ built⟩
  · exact absurd stuck (unfolds.not_stuck error)

/-- A tree that is built is the one that the graph unfolds to. -/
theorem unfolds_of_ofGraph {tree : Node} {skipped : List Nat}
    (built : ofGraph graph = (.ok tree, skipped)) : Unfolds graph graph.root tree := by
  rcases ofGraph_yields graph with ⟨_, _, same, unfolds⟩ | ⟨_, _, failed, _⟩
  · cases same.symm.trans built
    exact unfolds
  · cases failed.symm.trans built

end Phrasebook.Document
