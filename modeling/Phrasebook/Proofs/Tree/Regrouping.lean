import Phrasebook.Proofs.Tree.Overlay

/-!
# Phrasebook.Proofs.Tree.Regrouping

When three trees may be laid over one another in either grouping.

Merging is not associative. A leaf of the middle tree makes the lowest one forget the mapping that it
has there, so a mapping of the top tree starts anew; but if the two upper trees are merged first, the
leaf has given way to that mapping before it could make anything be forgotten. Nothing else tells the
two groupings apart (`laidOver_assoc_iff`), so without such a leaf they have the same entries in the
same order (`merge_regroups`). A tree that is laid over another one twice has no such leaf, which is
why the second time changes nothing (`merge_merge`).
-/

namespace Phrasebook.Tree

/-! ### Regrouping branches -/

/-- However three branches are grouped, their merged keys are in the same order. -/
theorem keys_merge_assoc {middle top : Branch} (distinct : middle.keys.Nodup)
    (distinct' : top.keys.Nodup) (lowest : Branch) :
    (merge (merge lowest middle) top).keys = (merge lowest (merge middle top)).keys := by
  rw [keys_merge distinct', keys_merge distinct, keys_merge (nodup_keys_merge distinct distinct'),
    keys_merge distinct', List.filter_append, List.filter_filter, List.append_assoc]
  congr 2
  refine List.filter_congr fun key _ => ?_
  by_cases low : key ∈ lowest.keys <;> simp [low]

/-- Three branches can be regrouped if what they have under a common key can be. -/
theorem merge_assoc_iff {lowest middle top : Branch} (distinct : lowest.keys.Nodup)
    (distinct' : middle.keys.Nodup) (distinct'' : top.keys.Nodup) :
    merge (merge lowest middle) top = merge lowest (merge middle top) ↔
      ∀ key low mid high, lowest.get? key = some low → middle.get? key = some mid →
        top.get? key = some high →
          laidOver high (laidOver mid low) = laidOver (laidOver high mid) low := by
  have upper := nodup_keys_merge distinct' distinct''
  -- Under a key that one of the branches does not have, only two trees meet.
  have under (key : Text) :
      (merge (merge lowest middle) top).get? key = (merge lowest (merge middle top)).get? key ↔
        ∀ low mid high, lowest.get? key = some low → middle.get? key = some mid →
          top.get? key = some high →
            laidOver high (laidOver mid low) = laidOver (laidOver high mid) low := by
    simp only [get?_merge distinct'', get?_merge distinct', get?_merge upper, placed]
    cases lowest.get? key <;> cases middle.get? key <;> cases top.get? key <;> simp
  constructor
  · intro same key
    exact (under key).mp (by rw [same])
  · intro children
    refine Entries.ext_get? ?_ (keys_merge_assoc distinct' distinct'' lowest) fun key =>
      (under key).mpr (children key)
    exact nodup_keys_merge (nodup_keys_merge distinct distinct') distinct''

/-! ### Regrouping trees -/

/-- Wherever the middle one of three trees has a leaf and the other two have mappings, the lower
    mapping adds nothing to the upper one. -/
def Regroups (lowest middle top : Tree) : Prop :=
  ∀ path content lower upper, lowest.at? path = some (.branch lower) →
    middle.at? path = some (leaf content) → top.at? path = some (.branch upper) →
      merge lower upper = upper

theorem at?_leaf_ne_branch (content : Option Text) (path : List Text) (entries : Branch) :
    (leaf content).at? path ≠ some (.branch entries) := by
  cases path with
  | nil => simpa using leaf_ne_branch content entries
  | cons key path => simp [at?_leaf_cons]

theorem regroups_leaf_top (lowest middle : Tree) (content : Option Text) :
    Regroups lowest middle (leaf content) := by
  intro path _ lower upper _ _ high
  exact absurd high (at?_leaf_ne_branch content path upper)

theorem regroups_leaf_lowest (content : Option Text) (middle top : Tree) :
    Regroups (leaf content) middle top := by
  intro path _ lower upper low
  exact absurd low (at?_leaf_ne_branch content path lower)

/-- A leaf between two mappings regroups if the lower mapping adds nothing to the upper one. -/
theorem regroups_leaf_middle_iff (lowest top : Branch) (content : Option Text) :
    Regroups (.branch lowest) (leaf content) (.branch top) ↔ merge lowest top = top := by
  constructor
  · intro regroups
    exact regroups [] content lowest top rfl rfl rfl
  · -- A leaf has nothing below it, so there is only one path to look at.
    rintro same (_ | ⟨key, path⟩) held lower upper low mid high
    · cases low
      cases high
      exact same
    · simp [at?_leaf_cons] at mid

theorem regroups_branch_iff (lowest middle top : Branch) :
    Regroups (.branch lowest) (.branch middle) (.branch top) ↔
      ∀ key low mid high, lowest.get? key = some low → middle.get? key = some mid →
        top.get? key = some high → Regroups low mid high := by
  constructor
  · intro regroups key low mid high hasLow hasMid hasHigh path content lower upper
    have below := regroups (key :: path) content lower upper
    simpa [at?_cons, hasLow, hasMid, hasHigh] using below
  · rintro children (_ | ⟨key, path⟩) content lower upper low mid high
    · exact absurd (Option.some.inj mid).symm (leaf_ne_branch content middle)
    · simp only [at?_cons, child?_branch, Option.bind_eq_some_iff] at low mid high
      obtain ⟨_, hasLow, low⟩ := low
      obtain ⟨_, hasMid, mid⟩ := mid
      obtain ⟨_, hasHigh, high⟩ := high
      exact children key _ _ _ hasLow hasMid hasHigh path content lower upper low mid high

theorem laidOver_of_leaf (newer : Tree) (content : Option Text) :
    laidOver newer (leaf content) = newer := by
  rcases leaf_or_branch newer with ⟨held, rfl⟩ | ⟨entries, rfl⟩
  · exact laidOver_leaf held _
  · exact laidOver_branch_leaf entries content

/-- The two groupings of three trees differ exactly where the middle tree has a leaf between two
    mappings of which the upper one does not have all of the lower one already. -/
theorem laidOver_assoc_iff {lowest middle top : Tree} (distinct : lowest.Distinct)
    (distinct' : middle.Distinct) (distinct'' : top.Distinct) :
    laidOver top (laidOver middle lowest) = laidOver (laidOver top middle) lowest ↔
      Regroups lowest middle top := by
  -- The induction is on the top tree. A leaf of it replaces everything in both groupings.
  induction distinct'' generalizing lowest middle with
  | text phrase =>
    exact iff_of_true (by simp only [laidOver]) (regroups_leaf_top lowest middle (some phrase))
  | null => exact iff_of_true (by simp only [laidOver]) (regroups_leaf_top lowest middle none)
  | @branch top here below ih =>
    rcases leaf_or_branch lowest with ⟨low, rfl⟩ | ⟨lowest, rfl⟩
    · rw [laidOver_of_leaf, laidOver_of_leaf]
      exact iff_of_true rfl (regroups_leaf_lowest low middle (.branch top))
    rcases leaf_or_branch middle with ⟨mid, rfl⟩ | ⟨middle, rfl⟩
    · -- The lower mapping is forgotten in the first grouping, and merged in the second one.
      rw [regroups_leaf_middle_iff, laidOver_leaf, laidOver_branch_leaf, laidOver,
        Tree.branch.injEq, eq_comm]
    · have child (key : Text) (low mid high : Tree) (hasLow : Entries.get? lowest key = some low)
          (hasMid : Entries.get? middle key = some mid)
          (hasHigh : Entries.get? top key = some high) :
          laidOver high (laidOver mid low) = laidOver (laidOver high mid) low ↔
            Regroups low mid high :=
        ih (key, high) (Entries.mem_of_get? hasHigh) (distinct.of_child? key hasLow)
          (distinct'.of_child? key hasMid)
      simp only [laidOver, Tree.branch.injEq]
      rw [merge_assoc_iff distinct.here distinct'.here here, regroups_branch_iff]
      constructor
      · intro same key low mid high hasLow hasMid hasHigh
        exact (child key low mid high hasLow hasMid hasHigh).mp
          (same key low mid high hasLow hasMid hasHigh)
      · intro regroups key low mid high hasLow hasMid hasHigh
        exact (child key low mid high hasLow hasMid hasHigh).mpr
          (regroups key low mid high hasLow hasMid hasHigh)

/-- The middle one of three trees has a leaf where the other two have mappings. -/
def LeafBetween (lowest middle top : Tree) (path : List Text) : Prop :=
  (∃ lower, lowest.at? path = some (.branch lower)) ∧
    (∃ content, middle.at? path = some (leaf content)) ∧
      ∃ upper, top.at? path = some (.branch upper)

/-- Three mappings may be merged in either grouping, if the middle one has no leaf at a path where
    the other two have mappings. -/
theorem merge_regroups {lowest middle top : Branch} (distinct : (Tree.branch lowest).Distinct)
    (distinct' : (Tree.branch middle).Distinct) (distinct'' : (Tree.branch top).Distinct)
    (apart : ∀ path, ¬ LeafBetween (.branch lowest) (.branch middle) (.branch top) path) :
    merge (merge lowest middle) top = merge lowest (merge middle top) := by
  have regroups : Regroups (.branch lowest) (.branch middle) (.branch top) := by
    intro path content lower upper low mid high
    exact absurd ⟨⟨lower, low⟩, ⟨content, mid⟩, upper, high⟩ (apart path)
  have same := (laidOver_assoc_iff distinct distinct' distinct'').mpr regroups
  simpa only [laidOver, Tree.branch.injEq] using same

/-- Phrases, nulls and mappings replace one another, and the leaf of the middle tree under a mapping
    of the top one stands where the lowest tree has a phrase on the way. -/
theorem merge_regroups_around_conflicts :
    let lowest : Branch := [("en", .branch [("menu", .text "Menu"), ("title", .null)])]
    let middle : Branch := [("en", .branch [("menu", .branch [("file", .null)]),
      ("title", .text "Old"), ("help", .null)]), ("fr", .null)]
    let top : Branch := [("fr", .branch []), ("en", .branch [
      ("help", .branch [("open", .text "Open")]),
      ("menu", .branch [("file", .branch [("new", .text "New")])]), ("title", .branch [])])]
    (∀ path, ¬ LeafBetween (.branch lowest) (.branch middle) (.branch top) path) ∧
      merge (merge lowest middle) top = merge lowest (merge middle top) := by
  intro lowest middle top
  have apart : ∀ path, ¬ LeafBetween (.branch lowest) (.branch middle) (.branch top) path := by
    -- The lowest tree has mappings in two places only, where the middle one has mappings as well.
    rintro path ⟨⟨lower, low⟩, ⟨content, mid⟩, -⟩
    rcases path with _ | ⟨locale, path⟩
    · exact leaf_ne_branch content middle (Option.some.inj mid).symm
    · by_cases en : ("en" : Text) = locale
      · subst en
        rcases path with _ | ⟨key, path⟩
        · exact leaf_ne_branch content _ (Option.some.inj mid).symm
        · change (Tree.branch [("menu", .text "Menu"), ("title", .null)]).at? (key :: path) =
            some (.branch lower) at low
          obtain ⟨found, inside, further⟩ := Option.bind_eq_some_iff.mp low
          have leaves : found = leaf (some "Menu") ∨ found = leaf none := by
            have member := Entries.mem_of_get? inside
            simp only [List.mem_cons, Prod.mk.injEq, List.not_mem_nil, or_false] at member
            exact member.imp And.right And.right
          rcases leaves with rfl | rfl <;> exact at?_leaf_ne_branch _ path lower further
      · simp [lowest, at?_cons, Entries.get?, en] at low
  exact ⟨apart, merge_regroups (by decide) (by decide) (by decide) apart⟩

/-- A leaf between two mappings makes the lower one be forgotten, unless it has been replaced
    before. -/
example :
    let lowest : Branch := [("en", .branch [("a", .text "1")])]
    let middle : Branch := [("en", .null)]
    let top : Branch := [("en", .branch [("b", .text "2")])]
    merge (merge lowest middle) top = ([("en", .branch [("b", .text "2")])] : Branch) ∧
      merge lowest (merge middle top) =
        ([("en", .branch [("a", .text "1"), ("b", .text "2")])] : Branch) := ⟨rfl, rfl⟩

/-! ### Merging twice -/

theorem laidOver_self {tree : Tree} (distinct : tree.Distinct) : laidOver tree tree = tree := by
  induction distinct with
  | text phrase => simp only [laidOver]
  | null => simp only [laidOver]
  | @branch entries here below ih =>
    rw [laidOver, Tree.branch.injEq]
    refine Entries.ext_get? (nodup_keys_merge here here) ?_ fun key => ?_
    · rw [keys_merge here, List.filter_eq_nil_iff.mpr (by simp), List.append_nil]
    · rw [get?_merge here]
      cases found : Entries.get? entries key with
      | none => rfl
      | some value =>
        have same : laidOver value value = value := ih (key, value) (Entries.mem_of_get? found)
        simp only [placed, found, Option.elim_some, same]

theorem regroups_self (lowest tree : Tree) : Regroups lowest tree tree := by
  intro path content lower upper _ mid high
  rw [mid] at high
  exact absurd (Option.some.inj high) (leaf_ne_branch content upper)

/-- A mapping that is merged a second time changes nothing. -/
theorem merge_merge {base newer : Branch} (distinct : (Tree.branch base).Distinct)
    (distinct' : (Tree.branch newer).Distinct) :
    merge (merge base newer) newer = merge base newer := by
  have regrouped := (laidOver_assoc_iff distinct distinct' distinct').mpr (regroups_self _ _)
  rw [laidOver_self distinct'] at regrouped
  simpa only [laidOver, Tree.branch.injEq] using regrouped

end Phrasebook.Tree
