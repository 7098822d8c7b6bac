import Mathlib.Data.List.Forall2
import Mathlib.Logic.Relation
import Phrasebook.Document.OfGraph

/-!
# Phrasebook.Proofs.Document.Unfold

The tree that a graph unfolds to.

`treeWithin?` goes down to a depth and remembers nothing, so a node that occurs twice is unfolded twice.
A node unfolds to a tree if that comes to an end within some depth. Whatever such a node is made of
has a tree that is less deep (`exists_lesser_depth`), so the node does not contain itself.
-/

namespace Phrasebook.Document

open Relation (ReflTransGen TransGen)
open Yaml (Graph Mark)

/-! ### Unfolding -/

/-- The scalar that a node of a graph becomes, if it is one. -/
def scalarOf? (graph : Graph) (number : Nat) : Option Scalar :=
  match graph.vertices[number]? with
  | some (.scalar start stop value style isNull) => some ⟨rangeOf start stop, value, style, isNull⟩
  | _ => none

/-- The entries of a mapping whose keys are scalars. -/
def keyed (graph : Graph) (entries : List (Nat × Nat)) : List (Scalar × Nat) :=
  entries.filterMap fun (key, value) => (scalarOf? graph key).map fun key => (key, value)

/-- An entry stands from its key to the end of its value. -/
def entryOf (key : Scalar) (value : Node) : Pair Node :=
  ⟨key.range.union value.range, key, value⟩

/-- An entry of a graph becomes an entry of a tree, with what its value becomes. -/
def Becomes (related : Nat → Node → Prop) (entry : Scalar × Nat) (pair : Pair Node) : Prop :=
  ∃ value, related entry.2 value ∧ entryOf entry.1 value = pair

/-- A sequence stops where its last item does. -/
def sequenceOf (start stop : Mark) (items : List Node) : Node :=
  .sequence ⟨start.index, items.getLast?.elim (stop.index : Int) (·.range.stop)⟩ items

/-- A mapping stops where its last entry does. -/
def mappingOf (start stop : Mark) (entries : List (Pair Node)) : Node :=
  .mapping ⟨start.index, entries.getLast?.elim (stop.index : Int) (·.range.stop)⟩ entries

/-- The tree of a node, if it is no deeper than a bound. -/
def treeWithin? (graph : Graph) : Nat → Nat → Option Node
  | 0, _ => none
  | depth + 1, number =>
    match graph.vertices[number]? with
    | none => none
    | some (.scalar start stop value style isNull) =>
      some (.scalar ⟨rangeOf start stop, value, style, isNull⟩)
    | some (.sequence start stop numbers) =>
      (numbers.mapM (treeWithin? graph depth)).map (sequenceOf start stop)
    | some (.mapping start stop entries) =>
      ((keyed graph entries).mapM fun (key, value) =>
        (treeWithin? graph depth value).map (entryOf key)).map (mappingOf start stop)

/-- A node unfolds to a tree. -/
def Unfolds (graph : Graph) (number : Nat) (tree : Node) : Prop :=
  ∃ depth, treeWithin? graph depth number = some tree

theorem mapM_eq_some_iff {α β : Type} (f : α → Option β) (xs : List α) (ys : List β) :
    xs.mapM f = some ys ↔ List.Forall₂ (fun x y => f x = some y) xs ys := by
  induction xs generalizing ys with
  | nil => cases ys <;> simp
  | cons x xs ih =>
    rw [List.mapM_cons]
    cases first : f x with
    | none => cases ys <;> simp [first]
    | some y =>
      cases rest : xs.mapM f with
      | none => cases ys <;> simp [first, ← ih, rest]
      | some more => cases ys <;> simp [first, ← ih, rest]

variable {graph : Graph}

theorem treeWithin?_succ {depth number : Nat} {tree : Node}
    (ends : treeWithin? graph depth number = some tree) :
    treeWithin? graph (depth + 1) number = some tree := by
  -- A greater depth changes nothing about a tree that has come to an end.
  induction depth generalizing number tree with
  | zero => cases ends
  | succ depth ih =>
    rw [treeWithin?] at ends ⊢
    cases vertex : graph.vertices[number]? with
    | none => simp [vertex] at ends
    | some v =>
      rw [vertex] at ends
      cases v with
      | scalar start stop value style isNull => exact ends
      | sequence start stop numbers =>
        obtain ⟨items, inner, rfl⟩ := Option.map_eq_some_iff.mp ends
        rw [mapM_eq_some_iff] at inner
        have deeper := (mapM_eq_some_iff ..).mpr (inner.imp fun _ _ => ih)
        exact Option.map_eq_some_iff.mpr ⟨items, deeper, rfl⟩
      | mapping start stop entries =>
        obtain ⟨pairs, inner, rfl⟩ := Option.map_eq_some_iff.mp ends
        rw [mapM_eq_some_iff] at inner
        have deeper := (mapM_eq_some_iff ..).mpr (inner.imp fun entry pair inside => by
          obtain ⟨value, below, same⟩ := Option.map_eq_some_iff.mp inside
          exact Option.map_eq_some_iff.mpr ⟨value, ih below, same⟩)
        exact Option.map_eq_some_iff.mpr ⟨pairs, deeper, rfl⟩

theorem treeWithin?_mono {depth further number : Nat} {tree : Node} (le : depth ≤ further)
    (ends : treeWithin? graph depth number = some tree) :
    treeWithin? graph further number = some tree := by
  induction le with
  | refl => exact ends
  | step _ ih => exact treeWithin?_succ ih

theorem Unfolds.unique {number : Nat} {one two : Node} (first : Unfolds graph number one)
    (second : Unfolds graph number two) : one = two := by
  obtain ⟨depth, first⟩ := first
  obtain ⟨further, second⟩ := second
  rcases Nat.le_total depth further with le | le
  · exact Option.some.inj ((treeWithin?_mono le first).symm.trans second)
  · exact Option.some.inj (first.symm.trans (treeWithin?_mono le second))

/-- Depths that suffice one by one have a common depth that suffices for all. -/
theorem exists_common_depth {α β : Type} (within : Nat → α → β → Prop)
    (mono : ∀ {depth further x y}, depth ≤ further → within depth x y → within further x y)
    {xs : List α} {ys : List β} (each : List.Forall₂ (fun x y => ∃ depth, within depth x y) xs ys) :
    ∃ depth, List.Forall₂ (within depth) xs ys := by
  -- The greatest of the depths is enough for all.
  induction each with
  | nil => exact ⟨0, .nil⟩
  | cons first _ ih =>
    obtain ⟨depth, first⟩ := first
    obtain ⟨further, rest⟩ := ih
    refine ⟨max depth further, .cons (mono (Nat.le_max_left ..) first) ?_⟩
    exact rest.imp fun _ _ => mono (Nat.le_max_right ..)

theorem Unfolds.scalar {number : Nat} {start stop : Mark} {value : Text} {style : Yaml.Style}
    {isNull : Bool} (here : graph.vertices[number]? = some (.scalar start stop value style isNull)) :
    Unfolds graph number (.scalar ⟨rangeOf start stop, value, style, isNull⟩) :=
  ⟨1, by rw [treeWithin?, here]⟩

theorem Unfolds.sequence {number : Nat} {start stop : Mark} {numbers : List Nat}
    (here : graph.vertices[number]? = some (.sequence start stop numbers)) {items : List Node}
    (each : List.Forall₂ (Unfolds graph) numbers items) :
    Unfolds graph number (sequenceOf start stop items) := by
  obtain ⟨depth, inner⟩ := exists_common_depth
    (fun depth child tree => treeWithin? graph depth child = some tree) treeWithin?_mono each
  refine ⟨depth + 1, ?_⟩
  rw [treeWithin?, here]
  exact Option.map_eq_some_iff.mpr ⟨items, (mapM_eq_some_iff ..).mpr inner, rfl⟩

theorem Unfolds.mapping {number : Nat} {start stop : Mark} {entries : List (Nat × Nat)}
    (here : graph.vertices[number]? = some (.mapping start stop entries)) {pairs : List (Pair Node)}
    (each : List.Forall₂ (Becomes (Unfolds graph)) (keyed graph entries) pairs) :
    Unfolds graph number (mappingOf start stop pairs) := by
  obtain ⟨depth, inner⟩ := exists_common_depth (fun depth (entry : Scalar × Nat) pair =>
      (treeWithin? graph depth entry.2).map (entryOf entry.1) = some pair)
    (fun le ends => by
      obtain ⟨value, below, same⟩ := Option.map_eq_some_iff.mp ends
      exact Option.map_eq_some_iff.mpr ⟨value, treeWithin?_mono le below, same⟩)
    (each.imp fun entry pair unfolds => by
      obtain ⟨value, ⟨depth, below⟩, same⟩ := unfolds
      exact ⟨depth, Option.map_eq_some_iff.mpr ⟨value, below, same⟩⟩)
  refine ⟨depth + 1, ?_⟩
  rw [treeWithin?, here]
  exact Option.map_eq_some_iff.mpr ⟨pairs, (mapM_eq_some_iff ..).mpr inner, rfl⟩

/-- A tree is unfolded from a scalar, from the items of a sequence or from the entries of a mapping. -/
theorem Unfolds.inv {number : Nat} {tree : Node} (unfolds : Unfolds graph number tree) :
    (∃ s, scalarOf? graph number = some s ∧ tree = .scalar s) ∨
      (∃ start stop numbers items,
        graph.vertices[number]? = some (.sequence start stop numbers) ∧
        List.Forall₂ (Unfolds graph) numbers items ∧ tree = sequenceOf start stop items) ∨
      ∃ start stop entries pairs,
        graph.vertices[number]? = some (.mapping start stop entries) ∧
        List.Forall₂ (Becomes (Unfolds graph)) (keyed graph entries) pairs ∧
        tree = mappingOf start stop pairs := by
  -- No tree is reached without a level, and with one the node is taken apart.
  obtain ⟨_ | depth, ends⟩ := unfolds
  · cases ends
  rw [treeWithin?] at ends
  split at ends
  · cases ends
  next vertex =>
    cases ends
    exact .inl ⟨_, by rw [scalarOf?, vertex], rfl⟩
  next vertex =>
    obtain ⟨items, each, rfl⟩ := Option.map_eq_some_iff.mp ends
    have each := (mapM_eq_some_iff ..).mp each
    exact .inr (.inl ⟨_, _, _, items, vertex, each.imp fun _ _ below => ⟨depth, below⟩, rfl⟩)
  next vertex =>
    obtain ⟨pairs, each, rfl⟩ := Option.map_eq_some_iff.mp ends
    have each := (mapM_eq_some_iff ..).mp each
    refine .inr (.inr ⟨_, _, _, pairs, vertex, each.imp fun entry pair inner => ?_, rfl⟩)
    obtain ⟨value, below, same⟩ := Option.map_eq_some_iff.mp inner
    exact ⟨value, ⟨depth, below⟩, same⟩

theorem exists_left_of_forall₂ {α β : Type} {related : α → β → Prop} {xs : List α} {ys : List β}
    (each : List.Forall₂ related xs ys) {y : β} (member : y ∈ ys) : ∃ x ∈ xs, related x y := by
  induction each with
  | nil => cases member
  | cons first rest ih =>
    rcases List.mem_cons.mp member with rfl | later
    · exact ⟨_, List.mem_cons_self, first⟩
    · obtain ⟨x, inside, holds⟩ := ih later
      exact ⟨x, List.mem_cons_of_mem _ inside, holds⟩

/-- An entry of a tree is unfolded from an entry of the graph. -/
theorem Unfolds.exists_entry {number : Nat} {range : SourceRange} {pairs : List (Pair Node)}
    (unfolds : Unfolds graph number (.mapping range pairs)) {pair : Pair Node}
    (member : pair ∈ pairs) :
    ∃ start stop entries key value, graph.vertices[number]? = some (.mapping start stop entries) ∧
      (key, value) ∈ entries ∧ scalarOf? graph key = some pair.key ∧
      Unfolds graph value pair.value := by
  rcases unfolds.inv with
    ⟨_, _, ⟨⟩⟩ | ⟨_, _, _, _, _, _, ⟨⟩⟩ | ⟨start, stop, entries, _, here, each, ⟨⟩⟩
  obtain ⟨_, kept, _, below, rfl⟩ := exists_left_of_forall₂ each member
  obtain ⟨⟨key, value⟩, inside, made⟩ := List.mem_filterMap.mp kept
  obtain ⟨s, scalar, rfl⟩ := Option.map_eq_some_iff.mp made
  exact ⟨start, stop, entries, key, value, here, inside, scalar, below⟩

/-! ### What a node is made of -/

/-- The nodes that the tree of a node is made of: the items of a sequence, and the values of the
    entries whose keys are scalars. -/
def children (graph : Graph) (number : Nat) : List Nat :=
  match graph.vertices[number]? with
  | some (.sequence _ _ items) => items
  | some (.mapping _ _ entries) => (keyed graph entries).map (·.2)
  | _ => []

def HasChild (graph : Graph) (number child : Nat) : Prop :=
  child ∈ children graph number

theorem children_sequence {number : Nat} {start stop : Mark} {items : List Nat}
    (here : graph.vertices[number]? = some (.sequence start stop items)) :
    children graph number = items := by
  rw [children, here]

theorem children_mapping {number : Nat} {start stop : Mark} {entries : List (Nat × Nat)}
    (here : graph.vertices[number]? = some (.mapping start stop entries)) :
    children graph number = (keyed graph entries).map (·.2) := by
  rw [children, here]

/-- A child of a node whose tree is no deeper than a bound has a tree that is less deep. -/
theorem isSome_treeWithin?_of_hasChild {depth number child : Nat}
    (ends : (treeWithin? graph (depth + 1) number).isSome) (inside : HasChild graph number child) :
    (treeWithin? graph depth child).isSome := by
  obtain ⟨tree, ends⟩ := Option.isSome_iff_exists.mp ends
  rw [treeWithin?] at ends
  rw [HasChild, children] at inside
  split at ends
  next vertex => simp [vertex] at inside
  next vertex => simp [vertex] at inside
  next start stop items vertex =>
    simp only [vertex] at inside
    obtain ⟨trees, each, -⟩ := Option.map_eq_some_iff.mp ends
    -- The place of a child among the items is that of its tree among the trees.
    obtain ⟨index, within, rfl⟩ := List.getElem_of_mem inside
    have item := ((mapM_eq_some_iff ..).mp each).get within
      (((mapM_eq_some_iff ..).mp each).length_eq ▸ within)
    exact Option.isSome_iff_exists.mpr ⟨_, item⟩
  next start stop entries vertex =>
    simp only [vertex] at inside
    obtain ⟨entry, member, rfl⟩ := List.mem_map.mp inside
    obtain ⟨pairs, each, -⟩ := Option.map_eq_some_iff.mp ends
    -- As above, but only entries with a scalar key have a tree.
    obtain ⟨index, within, rfl⟩ := List.getElem_of_mem member
    have pair := ((mapM_eq_some_iff ..).mp each).get within
      (((mapM_eq_some_iff ..).mp each).length_eq ▸ within)
    obtain ⟨value, below, -⟩ := Option.map_eq_some_iff.mp pair
    exact Option.isSome_iff_exists.mpr ⟨value, below⟩

/-- A node that another one leads to is reached with levels to spare. -/
theorem exists_lesser_depth {depth number other : Nat}
    (ends : (treeWithin? graph depth number).isSome)
    (leads : TransGen (HasChild graph) number other) :
    ∃ less < depth, (treeWithin? graph less other).isSome := by
  have step {depth number child : Nat} (ends : (treeWithin? graph depth number).isSome)
      (inside : HasChild graph number child) :
      ∃ less < depth, (treeWithin? graph less child).isSome := by
    cases depth with
    | zero => cases ends
    | succ depth => exact ⟨depth, Nat.lt_succ_self depth, isSome_treeWithin?_of_hasChild ends inside⟩
  induction leads with
  | single inside => exact step ends inside
  | tail _ inside ih =>
    obtain ⟨less, lt, ends⟩ := ih
    obtain ⟨least, further, ends⟩ := step ends inside
    exact ⟨least, Nat.lt_trans further lt, ends⟩

/-- A node that unfolds to a tree is nowhere below itself. -/
theorem Unfolds.not_transGen_self {number : Nat} {tree : Node}
    (unfolds : Unfolds graph number tree) : ¬ TransGen (HasChild graph) number number := by
  obtain ⟨depth, ends⟩ := unfolds
  replace ends := Option.isSome_iff_exists.mpr ⟨tree, ends⟩
  -- Around a cycle the depth would go down forever.
  induction depth using Nat.strongRecOn with
  | ind depth ih =>
    intro cycle
    obtain ⟨less, lt, lesser⟩ := exists_lesser_depth ends cycle
    exact ih less lt lesser cycle

/-- Whatever can be reached from a node that unfolds to a tree unfolds to one, too. -/
theorem Unfolds.exists_of_reached {number other : Nat} {tree : Node}
    (unfolds : Unfolds graph number tree) (reached : ReflTransGen (HasChild graph) number other) :
    ∃ inner, Unfolds graph other inner := by
  rcases Relation.reflTransGen_iff_eq_or_transGen.mp reached with rfl | leads
  · exact ⟨tree, unfolds⟩
  · obtain ⟨depth, ends⟩ := unfolds
    obtain ⟨less, -, lesser⟩ := exists_lesser_depth (Option.isSome_iff_exists.mpr ⟨tree, ends⟩) leads
    obtain ⟨inner, lesser⟩ := Option.isSome_iff_exists.mp lesser
    exact ⟨inner, less, lesser⟩

theorem Unfolds.exists_vertex {number : Nat} {tree : Node} (unfolds : Unfolds graph number tree) :
    ∃ vertex, graph.vertices[number]? = some vertex := by
  obtain ⟨_ | depth, ends⟩ := unfolds
  · cases ends
  · cases here : graph.vertices[number]? with
    | none => simp [treeWithin?, here] at ends
    | some vertex => exact ⟨vertex, rfl⟩

end Phrasebook.Document
