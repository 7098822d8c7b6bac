import Phrasebook.Proofs.Document.Locate
import Phrasebook.Proofs.Tree.Overlay

/-!
# Phrasebook.Proofs.Document.Phrases

The phrases of a document, whatever it holds: keys that are written twice or not at all, sequences,
nulls.

The search in a document follows the first of several equal keys and enters mappings only; the tree
keeps the last of them and has the items of a sequence under their numbers. A written null answers
the search, but is no phrase. So the scalar that the search finds for a key need not have the value
that the flat view has for it. It does (`value_eq_of_findValueRange?`) if it is not null and every
scalar that could stand for the key is reached in one way only (`Document.Unambiguous`). In a regular
document all scalars are, and none that is found is null (`value_eq_of_regular`).
-/

namespace Phrasebook

/-! ### Keys of the tree -/

/-- No two positions of a sequence give the same key. -/
theorem ofString_toString_injective :
    Function.Injective fun number : Nat => Text.ofString (toString number) := by
  intro one two same
  have digits := congrArg String.toList (Text.ofString_inj.mp same)
  rw [Nat.toString_eq_repr, Nat.toString_eq_repr, Nat.toList_repr, Nat.toList_repr] at digits
  rw [← Nat.ofDigitChars_ten_toDigits (n := one), digits, Nat.ofDigitChars_ten_toDigits]

theorem itemsToBranch_eq_map (position : Nat) (items : List Node) :
    itemsToBranch position items =
      (items.zipIdx position).map fun (item, number) =>
        (Text.ofString (toString number), item.toTree) := by
  induction items generalizing position with
  | nil => rfl
  | cons item rest ih => rw [itemsToBranch, ih, List.zipIdx_cons, List.map_cons]

theorem nodup_keys_itemsToBranch (position : Nat) (items : List Node) :
    (Entries.keys (itemsToBranch position items)).Nodup := by
  have keys : Entries.keys (itemsToBranch position items) =
      ((items.zipIdx position).map (·.2)).map fun number => Text.ofString (toString number) := by
    rw [itemsToBranch_eq_map, Entries.keys, List.map_map, List.map_map]
    rfl
  rw [keys, List.zipIdx_map_snd]
  exact List.Nodup.map ofString_toString_injective List.nodup_range'

mutual

theorem Node.distinct_toTree : (node : Node) → node.toTree.Distinct
  | .scalar s => by
    rw [Node.toTree]
    split
    · exact .null
    · exact .text s.value
  | .mapping _ entries => by
    rw [Node.toTree]
    have empty : (Tree.branch []).Distinct := .branch List.nodup_nil (by simp)
    exact distinct_pairsToBranch empty entries
  | .sequence _ items => by
    rw [Node.toTree]
    exact .branch (nodup_keys_itemsToBranch 0 items) (distinct_itemsToBranch 0 items)

theorem distinct_pairsToBranch {branch : Branch} (distinct : (Tree.branch branch).Distinct) :
    (entries : List (Pair Node)) → (Tree.branch (pairsToBranch branch entries)).Distinct
  | [] => by
    rw [pairsToBranch]
    exact distinct
  | ⟨_, key, value⟩ :: rest => by
    rw [pairsToBranch]
    exact distinct_pairsToBranch
      (Tree.distinct_insert distinct key.value (Node.distinct_toTree value)) rest

theorem distinct_itemsToBranch (position : Nat) :
    (items : List Node) → ∀ entry ∈ itemsToBranch position items, entry.2.Distinct
  | [] => by simp [itemsToBranch]
  | item :: rest => by
    rw [itemsToBranch]
    exact List.forall_mem_cons.mpr
      ⟨Node.distinct_toTree item, distinct_itemsToBranch (position + 1) rest⟩

end

theorem Document.distinct_toBranch (document : Document) :
    (Tree.branch document.toBranch.value).Distinct := by
  have empty : (Tree.branch []).Distinct := .branch List.nodup_nil (by simp)
  rw [value_toBranch]
  split
  · exact distinct_pairsToBranch empty _
  · exact empty

/-! ### Scalars of a document -/

/-- The tree under a key is that of the last entry with the key, or what was there before. -/
theorem get?_pairsToBranch (branch : Branch) (entries : List (Pair Node)) (key : Text) :
    (pairsToBranch branch entries).get? key =
      ((findPair? entries.reverse key).map (·.value.toTree)).or (branch.get? key) := by
  -- An entry takes the place of an earlier one with the same key, so the last one is found.
  induction entries generalizing branch with
  | nil => simp [pairsToBranch, findPair?]
  | cons entry rest ih =>
    obtain ⟨range, written, value⟩ := entry
    rw [pairsToBranch, ih, findPair?, findPair?, List.reverse_cons, List.find?_append]
    by_cases same : written.value = key
    · subst same
      rw [Entries.get?_insert_self]
      cases rest.reverse.find? _ <;> simp
    · rw [Entries.get?_insert_of_ne _ _ (Ne.symm same)]
      cases rest.reverse.find? _ <;> simp [same]

mutual

/-- The scalars of a node, keys and values alike. -/
def Node.scalars : Node → List Scalar
  | .scalar s => [s]
  | .mapping _ entries => pairScalars entries
  | .sequence _ items => itemScalars items

def pairScalars : List (Pair Node) → List Scalar
  | [] => []
  | ⟨_, key, value⟩ :: rest => key :: (value.scalars ++ pairScalars rest)

def itemScalars : List Node → List Scalar
  | [] => []
  | item :: rest => item.scalars ++ itemScalars rest

end

def Document.scalars (document : Document) : List Scalar :=
  document.root.elim [] Node.scalars

theorem mem_pairScalars {s : Scalar} {entries : List (Pair Node)} {entry : Pair Node}
    (member : entry ∈ entries) (inside : s ∈ entry.value.scalars) : s ∈ pairScalars entries := by
  induction entries with
  | nil => cases member
  | cons first rest ih =>
    rw [pairScalars]
    rcases List.mem_cons.mp member with rfl | later
    · exact List.mem_cons_of_mem _ (List.mem_append_left _ inside)
    · exact List.mem_cons_of_mem _ (List.mem_append_right _ (ih later))

theorem mem_itemScalars {s : Scalar} {items : List Node} {item : Node} (member : item ∈ items)
    (inside : s ∈ item.scalars) : s ∈ itemScalars items := by
  induction items with
  | nil => cases member
  | cons first rest ih =>
    rw [itemScalars]
    rcases List.mem_cons.mp member with rfl | later
    · exact List.mem_append_left _ inside
    · exact List.mem_append_right _ (ih later)

namespace Node

theorem child?_toTree_mapping (range : SourceRange) (entries : List (Pair Node)) (key : Text) :
    (mapping range entries).toTree.child? key =
      (findPair? entries.reverse key).map (·.value.toTree) := by
  rw [toTree, Tree.child?_branch, get?_pairsToBranch]
  simp [Entries.get?]

/-- A child of the tree of a sequence is the tree of the item at the position that its key gives. -/
theorem exists_item_of_child?_toTree {range : SourceRange} {items : List Node} {key : Text}
    {tree : Tree} (found : (sequence range items).toTree.child? key = some tree) :
    ∃ (position : Nat) (item : Node), items[position]? = some item ∧
      Text.ofString (toString position) = key ∧ item.toTree = tree := by
  rw [toTree, Tree.child?_branch, itemsToBranch_eq_map] at found
  obtain ⟨⟨item, position⟩, member, same⟩ := List.mem_map.mp (Entries.mem_of_get? found)
  obtain ⟨named, value⟩ := Prod.mk.inj same
  exact ⟨position, item, List.mem_zipIdx_iff_getElem?.mp member, named, value⟩

/-- A scalar occurs in a node at a path of keys, repeated or not, and of positions in sequences. -/
inductive Occurs (s : Scalar) : List Text → Node → Prop where
  | here : Occurs s [] (.scalar s)
  | entry (range : SourceRange) {entries : List (Pair Node)} {entry : Pair Node}
      {path : List Text} (member : entry ∈ entries) (below : Occurs s path entry.value) :
      Occurs s (entry.key.value :: path) (.mapping range entries)
  | item (range : SourceRange) {items : List Node} {position : Nat} {item : Node}
      {path : List Text} (held : items[position]? = some item) (below : Occurs s path item) :
      Occurs s (Text.ofString (toString position) :: path) (.sequence range items)

theorem Occurs.mem_scalars {s : Scalar} {path : List Text} {node : Node}
    (occurs : Occurs s path node) : s ∈ node.scalars := by
  induction occurs with
  | here =>
    rw [scalars]
    exact List.mem_singleton.mpr rfl
  | entry range member below ih =>
    rw [scalars]
    exact mem_pairScalars member ih
  | item range held below ih =>
    rw [scalars]
    exact mem_itemScalars (List.mem_of_getElem? held) ih

/-- A scalar occurs in a node below mappings only, and each of their keys on the way to it is
    written, and written once. -/
inductive OccursPlainly (s : Scalar) : List Text → Node → Prop where
  | here : OccursPlainly s [] (.scalar s)
  | entry (range : SourceRange) {entries : List (Pair Node)} {entry : Pair Node}
      {path : List Text} (once : entries.filter (·.key.value = entry.key.value) = [entry])
      (named : entry.key.value ≠ []) (below : OccursPlainly s path entry.value) :
      OccursPlainly s (entry.key.value :: path) (.mapping range entries)

theorem filter_eq_of_nodup {entries : List (Pair Node)}
    (distinct : (entries.map (·.key.value)).Nodup) {entry : Pair Node} (member : entry ∈ entries) :
    entries.filter (·.key.value = entry.key.value) = [entry] := by
  induction entries with
  | nil => cases member
  | cons first rest ih =>
    obtain ⟨fresh, distinct⟩ := List.nodup_cons.mp distinct
    have other {later : Pair Node} (inside : later ∈ rest) : first.key.value ≠ later.key.value :=
      fun same => fresh (List.mem_map.mpr ⟨later, inside, same.symm⟩)
    rcases List.mem_cons.mp member with rfl | later
    · have none : rest.filter (·.key.value = entry.key.value) = [] :=
        List.filter_eq_nil_iff.mpr fun later inside => by simpa using Ne.symm (other inside)
      rw [List.filter_cons_of_pos (by simp), none]
    · rw [List.filter_cons_of_neg (by simpa using other later), ih distinct later]

theorem Occurs.plainly {s : Scalar} {path : List Text} {node : Node} (occurs : Occurs s path node)
    (regular : node.Regular) : OccursPlainly s path node := by
  induction occurs with
  | here => exact .here
  | @entry range entries entry path member below ih =>
    cases regular with
    | mapping _ distinct named inner =>
      have key : entry.key.value ∈ entries.map (·.key.value) := List.mem_map_of_mem member
      exact .entry range (filter_eq_of_nodup distinct member) (fun empty => named (empty ▸ key))
        (ih (inner entry member))
  | item range held below ih => cases regular

/-- A phrase of the tree is the text of a scalar that occurs at its path. -/
theorem exists_occurs_of_at?_toTree {node : Node} {path : List Text} {phrase : Text}
    (leads : node.toTree.at? path = some (.text phrase)) :
    ∃ s, Occurs s path node ∧ s.isNull = false ∧ s.value = phrase := by
  -- Along the path; at each step the last entry with the key, or the item with the number.
  induction path generalizing node with
  | nil =>
    rw [Tree.at?_nil, Option.some.injEq] at leads
    cases node with
    | scalar s =>
      cases null : s.isNull with
      | true => simp [toTree, null] at leads
      | false =>
        have same : s.value = phrase := by simpa [toTree, null] using leads
        exact ⟨s, .here, null, same⟩
    | mapping range entries => simp [toTree] at leads
    | sequence range items => simp [toTree] at leads
  | cons key path ih =>
    obtain ⟨tree, inside, further⟩ := Option.bind_eq_some_iff.mp (Tree.at?_cons .. ▸ leads)
    cases node with
    | scalar s =>
      rw [toTree] at inside
      split at inside <;> simp at inside
    | mapping range entries =>
      rw [child?_toTree_mapping] at inside
      obtain ⟨entry, last, rfl⟩ := Option.map_eq_some_iff.mp inside
      obtain ⟨s, occurs, loud, same⟩ := ih further
      have member := List.mem_reverse.mp (List.mem_of_find?_eq_some last)
      have named : entry.key.value = key := by simpa using List.find?_some last
      exact ⟨s, named ▸ .entry range member occurs, loud, same⟩
    | sequence range items =>
      obtain ⟨position, item, held, rfl, rfl⟩ := exists_item_of_child?_toTree inside
      obtain ⟨s, occurs, loud, same⟩ := ih further
      exact ⟨s, .item range held occurs, loud, same⟩

theorem occurs_of_at? {node : Node} {path : List Text} {s : Scalar}
    (leads : node.at? path = some (.scalar s)) : Occurs s path node := by
  induction path generalizing node with
  | nil =>
    cases leads
    exact .here
  | cons key path ih =>
    obtain ⟨child, inside, further⟩ := Option.bind_eq_some_iff.mp leads
    cases node with
    | scalar other => cases inside
    | sequence range items => cases inside
    | mapping range entries =>
      obtain ⟨entry, located, rfl⟩ := Option.map_eq_some_iff.mp inside
      have named : entry.key.value = key := by simpa using List.find?_some located
      exact named ▸ .entry range (List.mem_of_find?_eq_some located) (ih further)

theorem findPair?_of_once {entries : List (Pair Node)} {entry : Pair Node}
    (once : entries.filter (·.key.value = entry.key.value) = [entry]) :
    findPair? entries entry.key.value = some entry ∧
      findPair? entries.reverse entry.key.value = some entry := by
  constructor
  · rw [findPair?, ← List.head?_filter, once]
    rfl
  · rw [findPair?, ← List.head?_filter, List.filter_reverse, once]
    rfl

/-- A scalar that occurs plainly is what its path leads to, in the node and in the tree. -/
theorem OccursPlainly.at? {s : Scalar} {path : List Text} {node : Node}
    (occurs : OccursPlainly s path node) :
    (∀ key ∈ path, key ≠ []) ∧ node.at? path = some (.scalar s) ∧
      (s.isNull = false → node.toTree.at? path = some (.text s.value)) := by
  induction occurs with
  | here =>
    refine ⟨by simp, rfl, fun loud => ?_⟩
    simp [toTree, loud]
  | @entry range entries entry path once named below ih =>
    obtain ⟨full, leads, phrase⟩ := ih
    -- The only entry with the key is the first one as well as the last.
    obtain ⟨first, last⟩ := findPair?_of_once once
    refine ⟨List.forall_mem_cons.mpr ⟨named, full⟩, ?_, fun loud => ?_⟩
    · rw [at?_cons, child?, first]
      exact leads
    · rw [Tree.at?_cons, child?_toTree_mapping, last]
      exact phrase loud

end Node

namespace Document

/-- Every scalar of a document that is not null takes up some of the text. -/
def Visible (document : Document) : Prop :=
  ∀ root, document.root = some root → ∀ path s, Node.Occurs s path root → s.isNull = false →
    ¬ s.range.IsEmpty

/-- Whatever spells the key of a path, as long as it is not outranked by the path and not null,
    plainly occurs in a document. -/
def Unambiguous (document : Document) (path : List Text) : Prop :=
  ∀ root, document.root = some root → ∀ other s, Node.Occurs s other root → s.isNull = false →
    Key.join other = Key.join path → Key.rank path ≤ Key.rank (other.filter (· ≠ [])) →
    Node.OccursPlainly s other root

theorem mem_scalars_of_at? (document : Document) {path : List Text} {s : Scalar}
    (leads : document.at? path = some (.scalar s)) : s ∈ document.scalars := by
  obtain ⟨root, top, leads⟩ := Option.bind_eq_some_iff.mp leads
  rw [scalars, top]
  exact (Node.occurs_of_at? leads).mem_scalars

/-- In a regular document no path is ambiguous. -/
theorem unambiguous_of_regular {document : Document} {root : Node}
    (top : document.root = some root) (regular : root.Regular) (path : List Text) :
    document.Unambiguous path := by
  intro other same _ s occurs _ _ _
  cases top.symm.trans same
  exact occurs.plainly regular

/-- The phrase that the table has for a key is the value of a scalar, which no scalar that plainly
    occurs under the key outranks. -/
theorem exists_occurs_of_lookup {document : Document} {root : Node}
    (top : document.root = some root) {key phrase : Text}
    (held : (Lookup.ofBranch document.toBranch.value).get? key = some phrase) :
    ∃ path s, Node.Occurs s path root ∧ s.isNull = false ∧ s.value = phrase ∧
      Key.join path = key ∧ ∀ other t, Node.OccursPlainly t other root → t.isNull = false →
        Key.join other = key → Key.rank other ≤ Key.rank (path.filter (· ≠ [])) := by
  -- The winner among the leaves comes from a path of the tree, less its empty keys.
  have distinct := document.distinct_toBranch
  obtain ⟨_, winner, wins⟩ := Lookup.exists_wins_of_get? held
  have member := wins.mem
  have bound {other : List Text} {text : Text} (named : ∀ part ∈ other, part ≠ [])
      (leads : (Tree.branch document.toBranch.value).at? other = some (.text text))
      (joins : Key.join other = key) : Key.rank other ≤ Key.rank winner :=
    wins.rank_le (Lookup.mem_branchLeaves_of_at? distinct named leads) joins
  rw [← Tree.leaves, Tree.mem_leaves_iff distinct] at member
  obtain ⟨path, leads, same⟩ := member
  rw [List.nil_append] at same
  have joins : Key.join path = key := by
    rw [← wins.join_eq, same]
    simp [Key.join, List.filter_filter]
  cases root with
  | scalar s =>
    rw [value_toBranch, top] at held
    cases held
  | sequence whole items =>
    rw [value_toBranch, top] at held
    cases held
  | mapping whole entries =>
    have tree := branch_toBranch top
    obtain ⟨s, occurs, loud, value⟩ := Node.exists_occurs_of_at?_toTree (tree ▸ leads)
    refine ⟨path, s, occurs, loud, value, joins, fun other t plain loud otherJoins => ?_⟩
    obtain ⟨named, _, inTree⟩ := plain.at?
    exact same ▸ bound named (tree ▸ inTree loud) otherJoins

/-- The scalar that is found for a key has the value that the table has for the key, if it is not
    null and no other scalar could be meant. -/
theorem value_eq_of_findValueRange? {document : Document} (visible : document.Visible)
    {key locale : Text} (asked : key ≠ []) {range : SourceRange}
    (found : (document.findValueRange? (some key) locale).value = some range) {phrase : Text}
    (held : (Lookup.ofBranch document.toBranch.value).get?
      (Key.join (Key.localeSegments (some key) locale)) = some phrase) :
    ∃ path s, document.at? path = some (.scalar s) ∧ s.range = range ∧
      Key.join path = Key.join (Key.localeSegments (some key) locale) ∧
      (s.isNull = false → document.Unambiguous path → s.value = phrase) := by
  have segments : ∀ part ∈ Key.localeSegments (some key) locale, Key.IsSegment part :=
    fun _ => Key.isSegment_of_mem_localeSegments
  obtain ⟨whole, entries, path, s, top, leads, same, highest⟩ :=
    exists_highest_of_findValueRange? asked found
  obtain ⟨named, joins⟩ := (Key.isSpelling_iff segments path).mp highest.1.1
  refine ⟨path, s, by rw [at?, top, Option.bind_some, leads], same, joins, fun loud clear => ?_⟩
  replace clear := clear _ top
  have kept : path.filter (· ≠ []) = path := by simpa [List.filter_eq_self] using named
  have plain := clear path s (Node.occurs_of_at? leads) loud rfl (by rw [kept])
  -- The winner of the table is a scalar that the one found does not outrank, so it occurs plainly.
  obtain ⟨winner, t, occurs, winnerLoud, rfl, winnerJoins, bound⟩ := exists_occurs_of_lookup top held
  have atLeast := bound path s plain loud joins
  have winnerPlain := clear winner t occurs winnerLoud (winnerJoins.trans joins.symm) atLeast
  obtain ⟨winnerNamed, winnerLeads, _⟩ := winnerPlain.at?
  have unchanged : winner.filter (· ≠ []) = winner := by
    simpa [List.filter_eq_self] using winnerNamed
  rw [unchanged] at atLeast
  by_cases differ : winner = path
  · subst differ
    cases leads.symm.trans winnerLeads
    rfl
  · -- The search could have found the winner, so it would not have gone for less.
    have spelling := (Key.isSpelling_iff segments winner).mpr ⟨winnerNamed, winnerJoins⟩
    have shown : ((Node.mapping whole entries).at? winner).bind Node.shown? = some t := by
      rw [winnerLeads]
      exact (Node.shown?_eq_some_iff _ t).mpr ⟨rfl, visible _ top winner t occurs winnerLoud⟩
    have below := highest.2 winner ⟨spelling, by rw [shown]; rfl⟩ differ
    exact absurd atLeast (not_le.mpr below)

/-- A range that is found takes up some of the text. -/
theorem not_isEmpty_of_findValueRange? {document : Document} {key locale : Text} (asked : key ≠ [])
    {range : SourceRange}
    (found : (document.findValueRange? (some key) locale).value = some range) : ¬ range.IsEmpty := by
  obtain ⟨whole, entries, path, s, _, leads, rfl, highest⟩ :=
    exists_highest_of_findValueRange? asked found
  obtain ⟨shown, answers⟩ := Option.isSome_iff_exists.mp highest.1.2
  obtain ⟨same, visible⟩ := (Node.bind_shown?_eq_some_iff _ shown).mp answers
  cases leads.symm.trans same
  exact visible

/-- In a regular document, the scalar that is found for a key has the value that the table has for
    the key. -/
theorem value_eq_of_regular {document : Document} (regular : document.Regular)
    (visible : document.Visible) {key locale : Text} (asked : key ≠ []) {range : SourceRange}
    (found : (document.findValueRange? (some key) locale).value = some range) {phrase : Text}
    (held : (Lookup.ofBranch document.toBranch.value).get?
      (Key.join (Key.localeSegments (some key) locale)) = some phrase) :
    ∃ path s, document.at? path = some (.scalar s) ∧ s.range = range ∧ s.value = phrase := by
  obtain ⟨path, s, leads, same, _, value⟩ := value_eq_of_findValueRange? visible asked found held
  obtain ⟨whole, entries, _, _, top, _⟩ := exists_highest_of_findValueRange? asked found
  have clear := unambiguous_of_regular top (regular whole entries top) path
  -- Only a scalar without text is null in a regular document.
  have loud : s.isNull = false := by
    have inside : (Node.mapping whole entries).at? path = some (.scalar s) := by
      rw [at?, top, Option.bind_some] at leads
      exact leads
    cases (regular whole entries top).of_at? inside with
    | scalar null_iff =>
      refine Bool.eq_false_iff.mpr fun null => ?_
      exact not_isEmpty_of_findValueRange? asked found (same ▸ null_iff.mp null)
  exact ⟨path, s, leads, same, value loud clear⟩

end Document

end Phrasebook
