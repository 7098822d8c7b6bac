import Phrasebook.Proofs.Document.Layout
import Phrasebook.Proofs.Document.Phrases

/-!
# Phrasebook.Proofs.Document.Descent

The way down to an offset, seen from the keys that it collects.

The way goes by ranges, which may overlap. Where every mapping has different keys, the keys that it
collects lead back to the node that it ends at (`at?_keysAt`), and in the tree to the tree of that
node. So a key that is copied at a phrase is a key of the flat view (`keyAt?_known_at_phrase`).
-/

namespace Phrasebook

namespace Node

/-- Every mapping in a node has different keys. -/
inductive DistinctKeys : Node → Prop where
  | scalar (s : Scalar) : DistinctKeys (.scalar s)
  | mapping (range : SourceRange) {entries : List (Pair Node)}
      (distinct : (entries.map (·.key.value)).Nodup)
      (below : ∀ entry ∈ entries, DistinctKeys entry.value) : DistinctKeys (.mapping range entries)
  | sequence (range : SourceRange) {items : List Node}
      (below : ∀ item ∈ items, DistinctKeys item) : DistinctKeys (.sequence range items)

theorem findPair?_of_nodup {entries : List (Pair Node)}
    (distinct : (entries.map (·.key.value)).Nodup) {entry : Pair Node} (member : entry ∈ entries) :
    findPair? entries entry.key.value = some entry ∧
      findPair? entries.reverse entry.key.value = some entry :=
  findPair?_of_once (filter_eq_of_nodup distinct member)

/-- What stands in a node at the end of a path stands in its tree there, too. -/
theorem DistinctKeys.at?_toTree {node found : Node} {path : List Text}
    (distinct : node.DistinctKeys) (leads : node.at? path = some found) :
    node.toTree.at? path = some found.toTree := by
  induction path generalizing node with
  | nil =>
    cases leads
    rfl
  | cons key path ih =>
    obtain ⟨child, inside, further⟩ := Option.bind_eq_some_iff.mp leads
    cases distinct with
    | scalar s => cases inside
    | sequence range below => cases inside
    | @mapping range entries distinct below =>
      obtain ⟨entry, first, rfl⟩ := Option.map_eq_some_iff.mp inside
      have member := List.mem_of_find?_eq_some first
      obtain rfl : entry.key.value = key := by simpa using List.find?_some first
      -- The tree keeps the last entry with the key, and there is no other one.
      have last := (findPair?_of_nodup distinct member).2
      rw [Tree.at?_cons, child?_toTree_mapping, last]
      exact ih (below entry member) further

end Node

namespace Document

/-- Every mapping in a document has different keys. -/
def DistinctKeys (document : Document) : Prop :=
  ∀ root, document.root = some root → root.DistinctKeys

mutual

/-- The node that the way down to an offset ends at: it goes on as long as there is a mapping with an
    entry that the offset is on. -/
def nodeAt (offset : Int) : Node → Node
  | .mapping range entries => (pairNodeAt? offset entries).getD (.mapping range entries)
  | node => node

/-- The node that the way ends at in the first entry that the offset is on. -/
def pairNodeAt? (offset : Int) : List (Pair Node) → Option Node
  | [] => none
  | ⟨range, _, value⟩ :: rest =>
    if range.contains offset then some (nodeAt offset value) else pairNodeAt? offset rest

end

/-- The node at an offset is looked for in the first entry whose range has the offset. -/
theorem pairNodeAt?_eq (offset : Int) (entries : List (Pair Node)) :
    pairNodeAt? offset entries =
      (entries.find? (·.range.contains offset)).map fun entry => nodeAt offset entry.value := by
  induction entries with
  | nil => rfl
  | cons entry rest ih =>
    by_cases on : entry.range.contains offset <;> simp [pairNodeAt?, on, ih]

/-- The keys on the way down to an offset lead to the node that the way ends at. -/
theorem at?_keysAt {node : Node} (distinct : node.DistinctKeys) (offset : Int) :
    node.at? (keysAt offset node) = some (nodeAt offset node) := by
  induction distinct with
  | scalar s => simp [keysAt, nodeAt]
  | sequence range below => simp [keysAt, nodeAt]
  | @mapping range entries distinct below ih =>
    rw [keysAt, nodeAt, pairKeysAt_eq, pairNodeAt?_eq]
    cases on : entries.find? (·.range.contains offset) with
    | none => rfl
    | some entry =>
      have member := List.mem_of_find?_eq_some on
      have first := (Node.findPair?_of_nodup distinct member).1
      rw [Option.elim_some, Node.at?_cons, Node.child?, first]
      exact ih entry member

/-- The key that is copied joins the keys on the way to the offset. -/
theorem keyAt?_eq_some {document : Document} {root : Node} (top : document.root = some root)
    {offset : Int} {key : Text} (copied : document.keyAt? offset = some key) :
    Key.join (keysAt offset root) = key ∧ key ≠ [] := by
  rw [keyAt?, top, Option.elim_some] at copied
  split at copied
  next => cases copied
  next joined named =>
    cases copied
    exact ⟨rfl, named⟩

/-- The key at an offset is a key of the flat view, if the way down to the offset ends at a
    phrase. -/
theorem keyAt?_known_at_phrase {document : Document} (distinct : document.DistinctKeys)
    {offset : Int} {s : Scalar} (ends : document.root.map (nodeAt offset) = some (.scalar s))
    (loud : s.isNull = false) {key : Text} (copied : document.keyAt? offset = some key) :
    (Lookup.ofBranch document.toBranch.value).has key := by
  obtain ⟨root, top, last⟩ := Option.map_eq_some_iff.mp ends
  obtain ⟨rfl, asked⟩ := keyAt?_eq_some top copied
  have leads := (distinct root top).at?_toTree (at?_keysAt (distinct root top) offset)
  have phrase : (Node.scalar s).toTree = .text s.value := by simp [Node.toTree, loud]
  rw [last, phrase] at leads
  cases root with
  | scalar t => simp [keysAt] at asked
  | sequence range items => simp [nodeAt] at last
  | mapping range entries =>
    rw [← branch_toBranch top] at leads
    exact Lookup.has_ofBranch_of_at? document.distinct_toBranch leads asked

/-- The ranges of `m` and `n`, which stands for the same node, overlap, and the phrase stands below an
    empty key. -/
theorem keyAt?_known_at_phrase_below_empty_key :
    let text : String := "en:\n  m: &q\n    d: w\n  n: *q\n  l: [y]\n  \"\":\n    a..b: x\n"
    let word (start stop : Int) (value : Text) : Scalar := ⟨⟨start, stop⟩, value, .plain, false⟩
    let empty : Scalar := ⟨⟨40, 42⟩, [], .doubleQuoted, false⟩
    let shared : Node := .mapping ⟨9, 20⟩ [⟨⟨16, 20⟩, word 16 17 "d", .scalar (word 19 20 "w")⟩]
    let listed : Node := .sequence ⟨34, 36⟩ [.scalar (word 35 36 "y")]
    let inner : Node := .mapping ⟨48, 55⟩
      [⟨⟨48, 55⟩, word 48 52 "a..b", .scalar (word 54 55 "x")⟩]
    let root : Node := .mapping ⟨0, 55⟩ [⟨⟨0, 55⟩, word 0 2 "en", .mapping ⟨6, 55⟩
      [⟨⟨6, 20⟩, word 6 7 "m", shared⟩, ⟨⟨9, 24⟩, word 23 24 "n", shared⟩,
        ⟨⟨31, 36⟩, word 31 32 "l", listed⟩, ⟨⟨40, 55⟩, empty, inner⟩]⟩]
    let document : Document := ⟨text, some root⟩
    document.DistinctKeys ∧ document.root.map (nodeAt 54) = some (.scalar (word 54 55 "x")) ∧
      document.keyAt? 54 = some "en.a..b" ∧
      (Lookup.ofBranch document.toBranch.value).has "en.a..b" := by
  intro text word empty shared listed inner root document
  have sharedKeys : shared.DistinctKeys :=
    .mapping _ (by decide) (List.forall_mem_singleton.mpr (.scalar _))
  have listedKeys : listed.DistinctKeys := .sequence _ (List.forall_mem_singleton.mpr (.scalar _))
  have innerKeys : inner.DistinctKeys :=
    .mapping _ (by decide) (List.forall_mem_singleton.mpr (.scalar _))
  have rootKeys : root.DistinctKeys := by
    refine .mapping _ (by decide) (List.forall_mem_singleton.mpr (.mapping _ (by decide) ?_))
    simp only [List.forall_mem_cons, List.not_mem_nil, false_imp_iff, implies_true, and_true]
    exact ⟨sharedKeys, sharedKeys, listedKeys, innerKeys⟩
  have distinct : document.DistinctKeys := by
    rintro _ ⟨⟩
    exact rootKeys
  have ends : document.root.map (nodeAt 54) = some (.scalar (word 54 55 "x")) := rfl
  have copied : document.keyAt? 54 = some "en.a..b" := rfl
  exact ⟨distinct, ends, copied, keyAt?_known_at_phrase distinct ends rfl copied⟩

end Document

end Phrasebook
