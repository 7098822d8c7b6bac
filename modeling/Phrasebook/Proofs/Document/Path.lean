import Phrasebook.Document
import Phrasebook.Proofs.Tree.Path

/-!
# Phrasebook.Proofs.Document.Path

What stands in a document at the end of a path of exact keys, beside what stands there in its tree.

Where every mapping names its keys once, giving up the positions changes nothing about paths: the
tree has at a path the tree of the node at the path (`at?_toTree`).
-/

namespace Phrasebook

/-- Whether a range takes up none of the text. -/
def SourceRange.IsEmpty (range : SourceRange) : Prop :=
  range.stop ≤ range.start

instance : DecidablePred SourceRange.IsEmpty := fun _ => inferInstanceAs (Decidable (_ ≤ _))

namespace Node

/-- The value of the first entry with a key. -/
def child? : Node → Text → Option Node
  | .mapping _ entries, key => (findPair? entries key).map Pair.value
  | _, _ => none

/-- What stands at the end of a path of exact keys. -/
def at? (node : Node) : List Text → Option Node
  | [] => some node
  | key :: path => (node.child? key).bind fun child => child.at? path

@[simp] theorem at?_nil (node : Node) : node.at? [] = some node := rfl

theorem at?_cons (node : Node) (key : Text) (path : List Text) :
    node.at? (key :: path) = (node.child? key).bind fun child => child.at? path := rfl

@[simp] theorem child?_scalar (s : Scalar) (key : Text) : child? (.scalar s) key = none := rfl

@[simp] theorem child?_sequence (range : SourceRange) (items : List Node) (key : Text) :
    child? (.sequence range items) key = none := rfl

/-- A node without sequences in which every mapping has different keys, none of them empty, and a
    scalar says that there is no value exactly if it takes up none of the text. -/
inductive Regular : Node → Prop where
  | scalar {s : Scalar} (null_iff : s.isNull ↔ s.range.IsEmpty) : Regular (.scalar s)
  | mapping (range : SourceRange) {entries : List (Pair Node)}
      (distinct : (entries.map (·.key.value)).Nodup)
      (named : [] ∉ entries.map (·.key.value))
      (below : ∀ entry ∈ entries, Regular entry.value) : Regular (.mapping range entries)

theorem Regular.of_child? {node child : Node} {key : Text} (regular : node.Regular)
    (found : node.child? key = some child) : child.Regular := by
  cases regular with
  | scalar null_iff => simp at found
  | mapping range distinct named below =>
    obtain ⟨entry, located, rfl⟩ := Option.map_eq_some_iff.mp found
    exact below entry (List.mem_of_find?_eq_some located)

theorem Regular.of_at? {node found : Node} {path : List Text} (regular : node.Regular)
    (leads : node.at? path = some found) : found.Regular := by
  induction path generalizing node with
  | nil =>
    cases leads
    exact regular
  | cons key path ih =>
    obtain ⟨child, inside, further⟩ := Option.bind_eq_some_iff.mp leads
    exact ih (regular.of_child? inside) further

/-! ### Giving up the positions -/

/-- Entries with new keys go to the end of a branch. -/
theorem pairsToBranch_eq_append {branch : Branch} {entries : List (Pair Node)}
    (distinct : (entries.map (·.key.value)).Nodup)
    (new : ∀ entry ∈ entries, entry.key.value ∉ branch.keys) :
    pairsToBranch branch entries =
      branch ++ entries.map fun entry => (entry.key.value, entry.value.toTree) := by
  induction entries generalizing branch with
  | nil => simp [pairsToBranch]
  | cons entry rest ih =>
    obtain ⟨range, key, value⟩ := entry
    obtain ⟨absent, distinct⟩ := List.nodup_cons.mp distinct
    obtain ⟨first, later⟩ := List.forall_mem_cons.mp new
    rw [pairsToBranch, Entries.insert_eq_append first, ih distinct, List.map_cons,
      List.append_assoc, List.singleton_append]
    intro other member
    have differ : other.key.value ≠ key.value := fun e =>
      absent (List.mem_map.mpr ⟨other, member, e⟩)
    simpa [Entries.keys, differ] using later other member

theorem toTree_mapping {entries : List (Pair Node)} (distinct : (entries.map (·.key.value)).Nodup)
    (range : SourceRange) :
    toTree (.mapping range entries) =
      .branch (entries.map fun entry => (entry.key.value, entry.value.toTree)) := by
  rw [toTree, pairsToBranch_eq_append distinct (by simp [Entries.keys]), List.nil_append]

theorem get?_map_toTree (entries : List (Pair Node)) (key : Text) :
    Entries.get? (entries.map fun entry => (entry.key.value, entry.value.toTree)) key =
      ((findPair? entries key).map Pair.value).map toTree := by
  induction entries with
  | nil => rfl
  | cons entry rest ih =>
    by_cases same : entry.key.value = key
    · simp [Entries.get?, findPair?, same]
    · simpa [Entries.get?, findPair?, same] using ih

/-- The tree has under a key the tree of what the node has under the key. -/
theorem child?_toTree {node : Node} (regular : node.Regular) (key : Text) :
    node.toTree.child? key = (node.child? key).map toTree := by
  cases regular with
  | @scalar s null_iff => cases silent : s.isNull <;> simp [toTree, silent]
  | mapping range distinct named below =>
    rw [toTree_mapping distinct, Tree.child?_branch, get?_map_toTree]
    rfl

/-- The tree has at a path the tree of what the node has at the path. -/
theorem at?_toTree {node : Node} (regular : node.Regular) (path : List Text) :
    node.toTree.at? path = (node.at? path).map toTree := by
  induction path generalizing node with
  | nil => rfl
  | cons key path ih =>
    rw [at?_cons, Tree.at?_cons, child?_toTree regular]
    cases inside : node.child? key with
    | none => rfl
    | some child => exact ih (regular.of_child? inside)

/-- Whatever holds of all keys that are neither repeated nor empty holds of every branch of the
    tree of a regular node. -/
theorem Regular.everyBranch {sort : List Text → Prop} (holds : ∀ keys : List Text,
    keys.Nodup → [] ∉ keys → sort keys) {node : Node} (regular : node.Regular) :
    node.toTree.EveryBranch sort := by
  -- A regular mapping keeps its keys, so whatever different non-empty keys have carries over.
  induction regular with
  | @scalar s null_iff =>
    cases silent : s.isNull
    · simpa [toTree, silent] using .text s.value
    · simpa [toTree, silent] using .null
  | @mapping range entries distinct named below ih =>
    rw [toTree_mapping distinct]
    constructor
    · have keys : Entries.keys (entries.map fun entry => (entry.key.value, entry.value.toTree)) =
          entries.map (·.key.value) := by
        simp [Entries.keys]
      rw [keys]
      exact holds _ distinct named
    · intro pair member
      obtain ⟨entry, inside, rfl⟩ := List.mem_map.mp member
      exact ih entry inside

end Node

end Phrasebook
