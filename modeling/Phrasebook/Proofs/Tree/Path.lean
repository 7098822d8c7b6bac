import Phrasebook.Lookup
import Phrasebook.Proofs.Entries
import Phrasebook.Proofs.Key.Spelling

/-!
# Phrasebook.Proofs.Tree.Path

What stands in a tree at the end of a path of exact keys, and how the leaves of a tree and a walk
along a key are seen through it.

A walk looks for the highest spelling of its segments that leads to something
(`walk_eq_some_iff`). The phrases of a tree stand at the paths that they are listed with
(`mem_phrases_iff`), and its leaves are these phrases, with empty keys left out (`leaves_eq_map`).
-/

namespace Phrasebook.Tree

/-! ### Paths -/

def child? : Tree → Text → Option Tree
  | .branch entries, key => Entries.get? entries key
  | _, _ => none

/-- What stands at the end of a path of exact keys. -/
def at? (tree : Tree) : List Text → Option Tree
  | [] => some tree
  | key :: path => (tree.child? key).bind fun child => child.at? path

@[simp] theorem at?_nil (tree : Tree) : tree.at? [] = some tree := rfl

theorem at?_cons (tree : Tree) (key : Text) (path : List Text) :
    tree.at? (key :: path) = (tree.child? key).bind fun child => child.at? path := rfl

@[simp] theorem child?_text (phrase key : Text) : child? (.text phrase) key = none := rfl

@[simp] theorem child?_null (key : Text) : child? .null key = none := rfl

@[simp] theorem child?_branch (entries : Branch) (key : Text) :
    child? (.branch entries) key = entries.get? key := rfl

/-- Every branch of a tree has keys of some sort. -/
inductive EveryBranch (sort : List Text → Prop) : Tree → Prop where
  | text (phrase : Text) : EveryBranch sort (.text phrase)
  | null : EveryBranch sort .null
  | branch {entries : List (Text × Tree)} (here : sort (Entries.keys entries))
      (below : ∀ entry ∈ entries, EveryBranch sort entry.2) : EveryBranch sort (.branch entries)

/-- No branch names a key twice. -/
abbrev Distinct : Tree → Prop := EveryBranch List.Nodup

/-- No branch has an empty key. -/
abbrev Named : Tree → Prop := EveryBranch ([] ∉ ·)

/-- No branch has an empty key, or one with a dot at an end or two dots side by side. -/
abbrev Tidy : Tree → Prop := EveryBranch fun keys => ∀ key ∈ keys, key ≠ [] ∧ Key.IsTidy key

section Check

variable (sort : List Text → Prop) [DecidablePred sort]

mutual

/-- Whether every branch of a tree has keys of some sort. -/
def checkBranches : Tree → Bool
  | .text _ => true
  | .null => true
  | .branch entries => sort (Entries.keys entries) && checkEntries entries

def checkEntries : List (Text × Tree) → Bool
  | [] => true
  | (_, value) :: rest => checkBranches value && checkEntries rest

end

mutual

theorem checkBranches_iff : (tree : Tree) → checkBranches sort tree ↔ EveryBranch sort tree
  | .text phrase => by simpa [checkBranches] using .text phrase
  | .null => by simpa [checkBranches] using .null
  | .branch entries => by
    rw [checkBranches, Bool.and_eq_true, decide_eq_true_iff, checkEntries_iff entries]
    constructor
    · rintro ⟨here, below⟩
      exact .branch here below
    · rintro (_ | _ | ⟨here, below⟩)
      exact ⟨here, below⟩

theorem checkEntries_iff : (entries : List (Text × Tree)) →
    (checkEntries sort entries ↔ ∀ entry ∈ entries, EveryBranch sort entry.2)
  | [] => by simp [checkEntries]
  | (key, value) :: rest => by
    rw [checkEntries, Bool.and_eq_true, checkBranches_iff value, checkEntries_iff rest,
      List.forall_mem_cons]

end

instance (tree : Tree) : Decidable (EveryBranch sort tree) :=
  decidable_of_iff _ (checkBranches_iff sort tree)

end Check

theorem EveryBranch.here {sort : List Text → Prop} {entries : Branch}
    (every : EveryBranch sort (.branch entries)) : sort entries.keys := by
  cases every with
  | branch here _ => exact here

theorem EveryBranch.of_child? {sort : List Text → Prop} {tree child : Tree}
    (every : EveryBranch sort tree) (key : Text) (found : tree.child? key = some child) :
    EveryBranch sort child := by
  cases every with
  | text phrase => simp at found
  | null => simp at found
  | branch here below => exact below _ (Entries.mem_of_get? found)

theorem EveryBranch.imp {sort other : List Text → Prop} {tree : Tree}
    (every : EveryBranch sort tree) (implies : ∀ keys, sort keys → other keys) :
    EveryBranch other tree := by
  induction every with
  | text phrase => exact .text phrase
  | null => exact .null
  | branch here _ ih => exact .branch (implies _ here) ih

/-- All keys on a path to something are good if all keys of the branches are. -/
theorem EveryBranch.of_at? {good : Text → Prop} {tree found : Tree} {path : List Text}
    (every : EveryBranch (fun keys => ∀ key ∈ keys, good key) tree)
    (leads : tree.at? path = some found) : ∀ key ∈ path, good key := by
  induction path generalizing tree with
  | nil => simp
  | cons key path ih =>
    rw [at?_cons, Option.bind_eq_some_iff] at leads
    obtain ⟨child, inside, further⟩ := leads
    have first : good key := by
      cases every with
      | text phrase => simp at inside
      | null => simp at inside
      | branch here below => exact here key (Entries.mem_keys_of_mem (Entries.mem_of_get? inside))
    exact List.forall_mem_cons.mpr ⟨first, ih (every.of_child? key inside) further⟩

theorem Named.of_at? {tree found : Tree} {path : List Text} (named : tree.Named)
    (leads : tree.at? path = some found) : ∀ key ∈ path, key ≠ [] := by
  have full : EveryBranch (fun keys => ∀ key ∈ keys, key ≠ []) tree :=
    named.imp fun _ absent _ member => ne_of_mem_of_not_mem member absent
  exact full.of_at? leads

theorem Tidy.named {tree : Tree} (tidy : tree.Tidy) : tree.Named :=
  tidy.imp fun _ good empty => (good [] empty).1 rfl

/-! ### Leaves -/

mutual

/-- The phrases of a tree, each with all the keys on the way to it, depth first. -/
def phrases : Tree → List (List Text × Text)
  | .text phrase => [([], phrase)]
  | .null => []
  | .branch entries => branchPhrases entries

def branchPhrases : List (Text × Tree) → List (List Text × Text)
  | [] => []
  | (key, value) :: rest =>
    (value.phrases.map fun (path, phrase) => (key :: path, phrase)) ++ branchPhrases rest

end

/-- A phrase with its path behind some keys, and the empty keys of the path left out. -/
def dropEmpty (start : List Text) (leaf : List Text × Text) : List Text × Text :=
  (start ++ leaf.1.filter (· ≠ []), leaf.2)

mutual

/-- The leaves of a tree are its phrases, with the empty keys left out. -/
theorem leaves_eq_map (start : List Text) : (tree : Tree) →
    leaves start tree = tree.phrases.map (dropEmpty start)
  | .text phrase => by simp [leaves, phrases, dropEmpty]
  | .null => rfl
  | .branch entries => by rw [leaves, phrases, branchLeaves_eq_map start entries]

theorem branchLeaves_eq_map (start : List Text) : (entries : List (Text × Tree)) →
    branchLeaves start entries = (branchPhrases entries).map (dropEmpty start)
  | [] => rfl
  | (key, value) :: rest => by
    have deeper : dropEmpty (if key = [] then start else start ++ [key]) =
        dropEmpty start ∘ fun (path, phrase) => (key :: path, phrase) := by
      funext leaf
      by_cases empty : key = [] <;> simp [dropEmpty, empty]
    rw [branchLeaves, branchPhrases, leaves_eq_map _ value, branchLeaves_eq_map start rest,
      List.map_append, List.map_map, deeper]

end

/-- The phrases of a branch are those of its entries, below their keys. -/
theorem mem_branchPhrases_iff (entries : List (Text × Tree)) (leaf : List Text × Text) :
    leaf ∈ branchPhrases entries ↔
      ∃ entry ∈ entries, ∃ path, (path, leaf.2) ∈ entry.2.phrases ∧ entry.1 :: path = leaf.1 := by
  induction entries with
  | nil => simp [branchPhrases]
  | cons entry rest ih =>
    obtain ⟨key, value⟩ := entry
    rw [branchPhrases, List.mem_append, ih, List.exists_mem_cons_iff]
    refine or_congr_left ?_
    simp only [List.mem_map, Prod.exists]
    constructor
    · rintro ⟨path, phrase, inside, rfl⟩
      exact ⟨path, inside, rfl⟩
    · rintro ⟨path, inside, same⟩
      exact ⟨path, leaf.2, inside, Prod.ext same rfl⟩

/-- The phrases of a tree stand at the paths that they are listed with. -/
theorem mem_phrases_iff {tree : Tree} (distinct : tree.Distinct) (path : List Text)
    (phrase : Text) : (path, phrase) ∈ tree.phrases ↔ tree.at? path = some (.text phrase) := by
  -- The induction is on the branches of the tree; keys that occur once make a phrase of a child a
  -- phrase at the child's path.
  induction distinct generalizing path with
  | text held =>
    cases path with
    | nil => simp [phrases, eq_comm]
    | cons key path => simp [phrases, at?_cons]
  | null => cases path <;> simp [phrases, at?_cons]
  | @branch entries here below ih =>
    rw [phrases, mem_branchPhrases_iff]
    cases path with
    | nil => simp
    | cons key path =>
      simp only [at?_cons, child?_branch, Option.bind_eq_some_iff, Entries.get?_eq_some_iff here,
        List.cons.injEq]
      constructor
      · rintro ⟨⟨_, value⟩, member, _, inside, rfl, rfl⟩
        exact ⟨value, member, (ih _ member _).mp inside⟩
      · rintro ⟨value, member, leads⟩
        exact ⟨(key, value), member, path, (ih _ member _).mpr leads, rfl, rfl⟩

/-- The leaves of a tree are its phrases, each with the non-empty keys of its path. -/
theorem mem_leaves_iff {tree : Tree} (distinct : tree.Distinct) (start path : List Text)
    (phrase : Text) :
    (path, phrase) ∈ leaves start tree ↔
      ∃ full, tree.at? full = some (.text phrase) ∧ path = start ++ full.filter (· ≠ []) := by
  rw [leaves_eq_map]
  simp only [List.mem_map, dropEmpty, Prod.exists, Prod.mk.injEq, ← mem_phrases_iff distinct]
  constructor
  · rintro ⟨full, _, member, rfl, rfl⟩
    exact ⟨full, member, rfl⟩
  · rintro ⟨full, member, rfl⟩
    exact ⟨full, phrase, member, rfl, rfl⟩

/-! ### Walks -/

/-- What kind of tree answers a walk that looks for a phrase. -/
def IsPhrase (tree : Tree) : Prop :=
  ∃ phrase, tree = .text phrase

/-- What kind of tree answers a walk with a listing. -/
def IsBranch (tree : Tree) : Prop :=
  ∃ entries, tree = .branch entries

/-- A path leads to a tree of some kind and spells some segments. -/
def LeadsTo (tree : Tree) (kind : Tree → Prop) (parts path : List Text) : Prop :=
  Key.IsSpelling parts path ∧ ∃ found, tree.at? path = some found ∧ kind found

theorem bind_present?_eq_some_iff (reached : Option Tree) (found : Tree) :
    reached.bind present? = some found ↔ reached = some found ∧ found ≠ .null := by
  cases reached with
  | none => simp
  | some tree => cases tree <;> simp [present?] <;> grind

theorem reachFrom_length (parts : List Text) (depth : Nat) (tree : Tree) :
    reachFrom parts depth tree parts.length = tree.present? := by
  unfold reachFrom
  rw [if_pos rfl]

/-- A walk tries the cuts of the segments that are left, the longest first key first. A position is
    the `base` and the number of segments behind it, so that it may be negative. -/
theorem reachFrom_eq_findSome? {parts : List Text} {base : Int} {count : Nat}
    (whole : base + count = parts.length) (depth : Nat) (tree : Tree) (start : Nat) :
    reachFrom parts depth tree (base + start) =
      (Key.cuts count depth start).findSome? fun stops =>
        (tree.at? (Key.spellFrom parts (base + start) (Key.shift base stops))).bind present? := by
  induction depth generalizing tree start with
  | zero =>
    by_cases short : start = count
    · simp [short, whole, reachFrom_length, Key.cuts_self, Key.spellFrom]
    · have ahead : base + start ≠ parts.length := by omega
      simp [reachFrom, ahead, Key.cuts_zero short]
  | succ depth ih =>
    by_cases short : start = count
    · simp [short, whole, reachFrom_length, Key.cuts_self, Key.spellFrom]
    · have ahead : base + start ≠ parts.length := by omega
      rw [Key.findSome?_cuts_succ depth short]
      -- Only a branch leads anywhere; its children are searched for the rest of the cut.
      cases tree with
      | text phrase => simp [reachFrom, ahead, at?_cons, Key.spellFrom, eq_comm (a := none)]
      | null => simp [reachFrom, ahead, at?_cons, Key.spellFrom, eq_comm (a := none)]
      | branch entries =>
        rw [reachFrom, if_neg ahead, Key.candidatesFrom_eq_map whole, List.findSome?_map]
        congr 1
        funext stop
        cases inside : Entries.get? entries (Key.join (Key.slice parts (base + start) (base + stop)))
          with
        | none => simp [at?_cons, Key.spellFrom, inside, eq_comm (a := none)]
        | some child => simp [at?_cons, Key.spellFrom, inside, ih]

/-- A walk tries the spellings of the segments that are left, the longest first key first. -/
theorem reach_eq_findSome? (parts : List Text) (depth : Nat) (tree : Tree) (start : Nat) :
    reach parts depth tree start =
      (Key.cuts parts.length depth start).findSome? fun stops =>
        (tree.at? (Key.spell parts start stops)).bind present? := by
  have search := reachFrom_eq_findSome? (Int.zero_add (parts.length : Int)) depth tree start
  simpa only [Int.zero_add, reachFrom_natCast, Key.spellFrom_shift_zero] using search

/-- A walk finds what stands at the highest spelling that leads to a phrase or a mapping. -/
theorem walk_eq_some_iff {parts : List Text} (segments : ∀ part ∈ parts, Key.IsSegment part)
    (tree found : Tree) :
    tree.walk parts 0 = some found ↔
      ∃ path, Key.Highest (tree.LeadsTo (· ≠ .null) parts) path ∧ tree.at? path = some found := by
  -- The search stops at a phrase or a mapping, that is, at anything that is present.
  have loud (path : List Text) :
      Key.IsSpelling parts path ∧ ((tree.at? path).bind present?).isSome ↔
        tree.LeadsTo (· ≠ .null) parts path := by
    simp only [LeadsTo, Option.isSome_iff_exists, bind_present?_eq_some_iff]
  rw [walk, Nat.sub_zero, reach_eq_findSome?,
    Key.findSome?_spellings_eq_some_iff segments fun path => (tree.at? path).bind present?]
  simp only [Key.Highest.congr loud, bind_present?_eq_some_iff]
  constructor
  · rintro ⟨path, highest, leads, _⟩
    exact ⟨path, highest, leads⟩
  · rintro ⟨path, highest, leads⟩
    obtain ⟨other, reached, present⟩ := highest.1.2
    have same : other = found := Option.some.inj (reached.symm.trans leads)
    exact ⟨path, highest, leads, same ▸ present⟩

theorem walk_eq_none_iff (parts : List Text) (tree : Tree) :
    tree.walk parts 0 = none ↔ ∀ path, ¬ tree.LeadsTo (· ≠ .null) parts path := by
  rw [walk, Nat.sub_zero, reach_eq_findSome?,
    Key.findSome?_spellings_eq_none_iff parts fun path => (tree.at? path).bind present?]
  simp only [LeadsTo, Option.eq_none_iff_forall_ne_some, Ne, bind_present?_eq_some_iff, not_and,
    not_exists]

end Phrasebook.Tree
