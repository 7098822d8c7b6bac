import Phrasebook.Proofs.Tree.Path

/-!
# Phrasebook.Proofs.Tree.Overlay

What stands where after one tree has been laid over another.

The newer tree cuts off every path that goes on beyond one of its leaves; at any other path stands
what it has there, laid over what the older one has (`at?_laidOver`). So a leaf of the merged tree
is a leaf of the newer tree, or one of the older tree that the newer one does not override
(`at?_laidOver_leaf_iff`).
-/

namespace Phrasebook.Tree

/-! ### Merging seen through look-up -/

/-- What stands under a key once a value has been entered over what a branch has there. -/
def placed (base : Branch) (key : Text) (value : Tree) : Tree :=
  (base.get? key).elim value (laidOver value)

theorem merge_cons (base : Branch) (key : Text) (value : Tree) (rest : Branch) :
    merge base ((key, value) :: rest) = merge (base.insert key (placed base key value)) rest := by
  rw [merge, placed]
  cases base.get? key <;> rfl

theorem placed_congr {base other : Branch} {key : Text} (same : base.get? key = other.get? key)
    (value : Tree) : placed base key value = placed other key value := by
  rw [placed, placed, same]

/-- Under a key of the newer branch stands its value, laid over what was there; under any other,
    what was there. -/
theorem get?_merge {newer : Branch} (distinct : newer.keys.Nodup) (base : Branch) (key : Text) :
    (merge base newer).get? key =
      (newer.get? key).elim (base.get? key) fun value => some (placed base key value) := by
  -- Entries are laid over the base one by one, and no later entry touches the key again.
  induction newer generalizing base with
  | nil => simp [merge, Entries.get?]
  | cons entry rest ih =>
    obtain ⟨first, value⟩ := entry
    obtain ⟨absent, distinct⟩ := List.nodup_cons.mp distinct
    rw [merge_cons, ih distinct]
    by_cases same : first = key
    · subst same
      have unnamed : Entries.get? rest first = none :=
        (Entries.get?_eq_none_iff rest first).mpr absent
      rw [unnamed, Entries.get?_cons_self]
      exact Entries.get?_insert_self base first _
    · have untouched := Entries.get?_insert_of_ne base (placed base first value) (Ne.symm same)
      simp only [Entries.get?_cons_of_ne value rest same, untouched, placed_congr untouched]

/-- The keys of the base keep their places, and the keys that it does not have come after them. -/
theorem keys_merge {newer : Branch} (distinct : newer.keys.Nodup) (base : Branch) :
    (merge base newer).keys = base.keys ++ newer.keys.filter (· ∉ base.keys) := by
  induction newer generalizing base with
  | nil => simp [merge, Entries.keys]
  | cons entry rest ih =>
    obtain ⟨key, value⟩ := entry
    obtain ⟨absent, distinct⟩ := List.nodup_cons.mp distinct
    rw [merge_cons, ih distinct, Entries.keys_insert]
    change _ = base.keys ++ (key :: Entries.keys rest).filter (· ∉ base.keys)
    by_cases old : key ∈ base.keys
    · simp [old]
    · -- No later entry has the key again, so it does not matter that the base has it now.
      have others : (Entries.keys rest).filter (· ∉ base.keys ++ [key]) =
          (Entries.keys rest).filter (· ∉ base.keys) := by
        refine List.filter_congr fun other member => ?_
        have differ : other ≠ key := fun same => absent (same ▸ member)
        simp [differ]
      rw [if_neg old, others, List.filter_cons_of_pos (by simpa using old), List.append_assoc]
      rfl

theorem nodup_keys_merge {base newer : Branch} (distinct : base.keys.Nodup)
    (distinct' : newer.keys.Nodup) : (merge base newer).keys.Nodup := by
  rw [keys_merge distinct']
  refine List.nodup_append'.mpr ⟨distinct, distinct'.filter _, ?_⟩
  intro key old new
  simp [old] at new

/-- Entries whose keys are left out may be left out before they are merged. -/
theorem restrict_merge (kept : Text → Bool) (base newer : Branch) :
    Entries.restrict kept (merge base newer) =
      merge (base.restrict kept) (newer.restrict kept) := by
  induction newer generalizing base with
  | nil => simp [merge, Entries.restrict]
  | cons entry rest ih =>
    obtain ⟨key, value⟩ := entry
    rw [merge_cons, ih]
    by_cases keeps : kept key
    · rw [Entries.restrict_cons_of_kept kept keeps, merge_cons,
        Entries.restrict_insert_of_kept kept keeps,
        placed_congr (Entries.get?_restrict kept keeps base)]
    · rw [Entries.restrict_cons_of_dropped kept keeps,
        Entries.restrict_insert_of_dropped kept keeps]

/-! ### What merging keeps of the keys -/

/-- A sort of keys that is kept when a key from elsewhere of the same sort is added. -/
def Extensible (sort : List Text → Prop) : Prop :=
  ∀ keys others key, sort keys → sort others → key ∈ others → key ∉ keys → sort (keys ++ [key])

section Extensible

variable {sort : List Text → Prop} (extensible : Extensible sort)

include extensible

theorem everyBranch_insert {base : Branch} (every : EveryBranch sort (.branch base))
    {others : List Text} (sorted : sort others) {key : Text} (member : key ∈ others) {value : Tree}
    (inner : EveryBranch sort value) : EveryBranch sort (.branch (base.insert key value)) := by
  cases every with
  | branch here below =>
    refine .branch ?_ fun entry member => ?_
    · rw [Entries.keys_insert]
      split
      next => exact here
      next absent => exact extensible _ _ key here sorted member absent
    · rcases Entries.mem_insert member with rfl | old
      · exact inner
      · exact below entry old

/-- Merging keeps a sort of keys if laying each of the new values over a tree does. -/
theorem everyBranch_merge_of_entries {base : Branch} (every : EveryBranch sort (.branch base))
    {others : List Text} (sorted : sort others) (newer : Branch)
    (among : ∀ entry ∈ newer, entry.1 ∈ others) (inner : ∀ entry ∈ newer, EveryBranch sort entry.2)
    (covers : ∀ entry ∈ newer, ∀ older : Tree, EveryBranch sort older →
      EveryBranch sort (laidOver entry.2 older)) :
    EveryBranch sort (.branch (merge base newer)) := by
  induction newer generalizing base with
  | nil => simpa [merge] using every
  | cons entry rest ih =>
    obtain ⟨key, value⟩ := entry
    obtain ⟨member, among⟩ := List.forall_mem_cons.mp among
    obtain ⟨first, inner⟩ := List.forall_mem_cons.mp inner
    obtain ⟨firstCovers, covers⟩ := List.forall_mem_cons.mp covers
    -- What is placed under the key is the value itself or the value over what was there.
    have held : EveryBranch sort (placed base key value) := by
      rw [placed]
      cases found : base.get? key with
      | none => exact first
      | some older => exact firstCovers older (every.of_child? key found)
    rw [merge_cons]
    exact ih (everyBranch_insert extensible every sorted member held) among inner covers

theorem everyBranch_laidOver {newer older : Tree} (top : EveryBranch sort newer)
    (bottom : EveryBranch sort older) : EveryBranch sort (laidOver newer older) := by
  induction top generalizing older with
  | text phrase => simpa [laidOver] using EveryBranch.text phrase
  | null => simpa [laidOver] using EveryBranch.null
  | branch here below ih =>
    cases bottom with
    | text phrase => simpa [laidOver] using EveryBranch.branch here below
    | null => simpa [laidOver] using EveryBranch.branch here below
    | branch olderHere olderBelow =>
      rw [laidOver]
      exact everyBranch_merge_of_entries extensible (.branch olderHere olderBelow) here _
        (fun entry member => Entries.mem_keys_of_mem member) below
        fun entry member older every => ih entry member every

theorem everyBranch_merge {base newer : Branch} (bottom : EveryBranch sort (.branch base))
    (top : EveryBranch sort (.branch newer)) : EveryBranch sort (.branch (merge base newer)) := by
  have merged := everyBranch_laidOver extensible top bottom
  rwa [laidOver] at merged

end Extensible

theorem extensible_nodup : Extensible List.Nodup := by
  intro keys others key distinct _ _ absent
  rw [← List.concat_eq_append]
  exact distinct.concat absent

/-- Keys that are good one by one are so together. -/
theorem extensible_forall (good : Text → Prop) : Extensible fun keys => ∀ key ∈ keys, good key := by
  intro keys others key here there member _ held inside
  rcases List.mem_append.mp inside with old | new
  · exact here held old
  · exact List.mem_singleton.mp new ▸ there key member

theorem distinct_insert {base : Branch} (distinct : (Tree.branch base).Distinct) (key : Text)
    {value : Tree} (inner : value.Distinct) : (Tree.branch (base.insert key value)).Distinct :=
  everyBranch_insert extensible_nodup distinct (List.nodup_singleton key)
    (List.mem_singleton_self key) inner

/-! ### What stands where -/

/-- A leaf: a phrase, or the absence of one. -/
def leaf : Option Text → Tree
  | some phrase => .text phrase
  | none => .null

/-- A tree cuts a path off if it has a leaf on the way to it. -/
def CutsOff (tree : Tree) (path : List Text) : Prop :=
  ∃ start content, start <+: path ∧ start ≠ path ∧ tree.at? start = some (leaf content)

/-- A tree overrides a path if it has anything at it, or a leaf on the way to it. -/
def Overrides (tree : Tree) (path : List Text) : Prop :=
  (∃ value, tree.at? path = some value) ∨ tree.CutsOff path

/-- A tree is a leaf or a branch. -/
theorem leaf_or_branch (tree : Tree) :
    (∃ content, tree = leaf content) ∨ ∃ entries, tree = .branch entries := by
  cases tree with
  | text phrase => exact .inl ⟨some phrase, rfl⟩
  | null => exact .inl ⟨none, rfl⟩
  | branch entries => exact .inr ⟨entries, rfl⟩

theorem leaf_ne_branch (content : Option Text) (entries : Branch) :
    leaf content ≠ .branch entries := by
  cases content <;> simp [leaf]

theorem at?_leaf_cons (content : Option Text) (key : Text) (path : List Text) :
    (leaf content).at? (key :: path) = none := by
  cases content <;> simp [leaf, at?_cons]

theorem laidOver_leaf (content : Option Text) (older : Tree) :
    laidOver (leaf content) older = leaf content := by
  cases content <;> simp [leaf, laidOver]

theorem laidOver_branch_leaf (entries : Branch) (content : Option Text) :
    laidOver (.branch entries) (leaf content) = .branch entries := by
  cases content <;> simp [leaf, laidOver]

/-- Only a leaf laid over something makes a leaf. -/
theorem laidOver_eq_leaf_iff (newer older : Tree) (content : Option Text) :
    laidOver newer older = leaf content ↔ newer = leaf content := by
  rcases leaf_or_branch newer with ⟨held, rfl⟩ | ⟨entries, rfl⟩
  · rw [laidOver_leaf]
  · cases older <;> simp [laidOver, (leaf_ne_branch content _).symm]

theorem not_cutsOff_nil (tree : Tree) : ¬ tree.CutsOff [] := by
  rintro ⟨start, content, initial, short, leads⟩
  exact short (List.prefix_nil.mp initial)

theorem cutsOff_leaf_cons (content : Option Text) (key : Text) (path : List Text) :
    (leaf content).CutsOff (key :: path) :=
  ⟨[], content, List.nil_prefix, by simp, at?_nil _⟩

/-- A branch cuts a path off if the tree under the first key cuts the rest off. -/
theorem cutsOff_branch_cons_iff (entries : Branch) (key : Text) (path : List Text) :
    (Tree.branch entries).CutsOff (key :: path) ↔
      ∃ child, entries.get? key = some child ∧ child.CutsOff path := by
  constructor
  · rintro ⟨_ | ⟨first, start⟩, content, initial, short, leads⟩
    · cases content <;> simp [leaf] at leads
    · obtain ⟨rfl, shorter⟩ := List.cons_prefix_cons.mp initial
      obtain ⟨child, inside, further⟩ := Option.bind_eq_some_iff.mp leads
      exact ⟨child, inside, start, content, shorter, by simpa using short, further⟩
  · rintro ⟨child, inside, start, content, initial, short, leads⟩
    exact ⟨key :: start, content, List.cons_prefix_cons.mpr ⟨rfl, initial⟩,
      by simpa using short, by simp [at?_cons, inside, leads]⟩

theorem at?_of_cutsOff {tree : Tree} {path : List Text} (cut : tree.CutsOff path) :
    tree.at? path = none := by
  induction path generalizing tree with
  | nil => exact absurd cut (not_cutsOff_nil tree)
  | cons key path ih =>
    rcases leaf_or_branch tree with ⟨held, rfl⟩ | ⟨entries, rfl⟩
    · exact at?_leaf_cons held key path
    · obtain ⟨child, inside, further⟩ := (cutsOff_branch_cons_iff entries key path).mp cut
      rw [at?_cons, child?_branch, inside, Option.bind_some, ih further]

/-- Below a key that the newer branch has, stands what has been placed there. -/
theorem at?_laidOver_cons {newer : Branch} (distinct : newer.keys.Nodup) (older : Tree) {key : Text}
    {child : Tree} (inside : newer.get? key = some child) (path : List Text) :
    (laidOver (.branch newer) older).at? (key :: path) =
      ((older.child? key).elim child (laidOver child)).at? path := by
  rcases leaf_or_branch older with ⟨held, rfl⟩ | ⟨base, rfl⟩
  · rw [laidOver_branch_leaf, at?_cons, child?_branch, inside]
    cases held <;> rfl
  · rw [laidOver, at?_cons, child?_branch, get?_merge distinct, inside]
    rfl

theorem at?_laidOver_cons_of_none {newer : Branch} (distinct : newer.keys.Nodup) (older : Tree)
    {key : Text} (unnamed : newer.get? key = none) (path : List Text) :
    (laidOver (.branch newer) older).at? (key :: path) = older.at? (key :: path) := by
  rcases leaf_or_branch older with ⟨held, rfl⟩ | ⟨base, rfl⟩
  · rw [laidOver_branch_leaf, at?_leaf_cons, at?_cons, child?_branch, unnamed, Option.bind_none]
  · rw [laidOver, at?_cons, child?_branch, get?_merge distinct, unnamed]
    rfl

/-- Nothing stands at a path that the newer tree cuts off. -/
theorem at?_laidOver_of_cutsOff {newer : Tree} (distinct : newer.Distinct) (older : Tree)
    {path : List Text} (cut : newer.CutsOff path) : (laidOver newer older).at? path = none := by
  induction path generalizing newer older with
  | nil => exact absurd cut (not_cutsOff_nil newer)
  | cons key path ih =>
    rcases leaf_or_branch newer with ⟨held, rfl⟩ | ⟨entries, rfl⟩
    · rw [laidOver_leaf, at?_leaf_cons]
    · obtain ⟨child, inside, further⟩ := (cutsOff_branch_cons_iff entries key path).mp cut
      rw [at?_laidOver_cons distinct.here older inside]
      cases older.child? key with
      | none => exact at?_of_cutsOff further
      | some under => exact ih (distinct.of_child? key inside) under further

/-- At any other path stands what the newer tree has there, laid over what the older one has. -/
theorem at?_laidOver {newer : Tree} (distinct : newer.Distinct) (older : Tree)
    {path : List Text} (free : ¬ newer.CutsOff path) :
    (laidOver newer older).at? path =
      (newer.at? path).elim (older.at? path) fun value =>
        some ((older.at? path).elim value (laidOver value)) := by
  induction path generalizing newer older with
  | nil => rfl
  | cons key path ih =>
    -- The induction follows the path down; a leaf on the way would cut it off.
    rcases leaf_or_branch newer with ⟨held, rfl⟩ | ⟨entries, rfl⟩
    · exact absurd (cutsOff_leaf_cons held key path) free
    · rw [at?_cons (.branch entries), child?_branch]
      cases inside : Entries.get? entries key with
      | none => exact at?_laidOver_cons_of_none distinct.here older inside path
      | some child =>
        have further : ¬ child.CutsOff path := fun cut =>
          free ((cutsOff_branch_cons_iff entries key path).mpr ⟨child, inside, cut⟩)
        rw [at?_laidOver_cons distinct.here older inside, at?_cons older, Option.bind_some]
        cases older.child? key with
        | none => cases reached : child.at? path <;> simp [reached]
        | some under => exact ih (distinct.of_child? key inside) under further

/-- A leaf of a tree laid over another one comes from the newer tree, or from the older one where
    the newer one does not override it. -/
theorem at?_laidOver_leaf_iff {newer : Tree} (distinct : newer.Distinct) (older : Tree)
    (path : List Text) (content : Option Text) :
    (laidOver newer older).at? path = some (leaf content) ↔
      newer.at? path = some (leaf content) ∨
        older.at? path = some (leaf content) ∧ ¬ newer.Overrides path := by
  by_cases cut : newer.CutsOff path
  · simp [at?_laidOver_of_cutsOff distinct older cut, at?_of_cutsOff cut, Overrides, cut]
  · rw [at?_laidOver distinct older cut, Overrides]
    cases newer.at? path with
    | none => simp [cut]
    | some value =>
      cases older.at? path with
      | none => simp
      | some under => simp [laidOver_eq_leaf_iff]

/-- Something stands in a tree laid over another one where the newer tree has something, or the
    older one where the newer one does not cut it off. -/
theorem isSome_at?_laidOver_iff {newer : Tree} (distinct : newer.Distinct) (older : Tree)
    (path : List Text) :
    ((laidOver newer older).at? path).isSome ↔
      (newer.at? path).isSome ∨ (older.at? path).isSome ∧ ¬ newer.CutsOff path := by
  by_cases cut : newer.CutsOff path
  · simp [at?_laidOver_of_cutsOff distinct older cut, at?_of_cutsOff cut, cut]
  · rw [at?_laidOver distinct older cut]
    cases newer.at? path with
    | none => simp [cut]
    | some value => simp

end Phrasebook.Tree
