import Phrasebook.Document.Locate
import Phrasebook.Proofs.Document.Path
import Phrasebook.Proofs.Lookup.Winner

/-!
# Phrasebook.Proofs.Document.Locate

Looking up where a value stands beside looking up the value.

A search through the entries of a document tries the same spellings in the same order as a walk
through a tree (`value_resolve`), and stops at the first that leads to a scalar with some text.
Where exactly the null scalars have no text, these are the spellings that lead to a phrase in the
tree (`at?_toTree_eq_text_iff`), and the search and the table choose the same one.
-/

namespace Phrasebook

namespace Node

/-- The scalar of a node, if it takes up some of the text. -/
def shown? : Node → Option Scalar
  | .scalar s => if s.range.start < s.range.stop then some s else none
  | _ => none

theorem shown?_eq_some_iff (node : Node) (s : Scalar) :
    node.shown? = some s ↔ node = .scalar s ∧ ¬ s.range.IsEmpty := by
  cases node with
  | scalar held =>
    simp only [shown?, Option.ite_none_right_eq_some, Option.some.injEq, scalar.injEq,
      SourceRange.IsEmpty, Int.not_le]
    constructor
    · rintro ⟨visible, rfl⟩
      exact ⟨rfl, visible⟩
    · rintro ⟨rfl, visible⟩
      exact ⟨visible, rfl⟩
  | mapping range entries => simp [shown?]
  | sequence range items => simp [shown?]

theorem bind_shown?_eq_some_iff (reached : Option Node) (s : Scalar) :
    reached.bind shown? = some s ↔ reached = some (.scalar s) ∧ ¬ s.range.IsEmpty := by
  cases reached with
  | none => simp
  | some node => simp [shown?_eq_some_iff]

/-- The phrases of the tree are the texts of the scalars that can be shown. -/
theorem at?_toTree_eq_text_iff {node : Node} (regular : node.Regular) (path : List Text)
    (phrase : Text) :
    node.toTree.at? path = some (.text phrase) ↔
      ∃ s, (node.at? path).bind shown? = some s ∧ s.value = phrase := by
  rw [at?_toTree regular]
  cases leads : node.at? path with
  | none => simp
  | some found =>
    simp only [Option.map_some, Option.some.injEq, Option.bind_some, shown?_eq_some_iff]
    have inner := regular.of_at? leads
    -- A scalar without text is a null leaf, and the other way round.
    cases inner with
    | @scalar s null_iff =>
      cases silent : s.isNull with
      | true =>
        have empty := null_iff.mp silent
        simp [toTree, silent, empty]
      | false =>
        have visible : ¬ s.range.IsEmpty := mt null_iff.mpr (by simp [silent])
        simp [toTree, silent, visible]
    | mapping range distinct named below => simp [toTree]

end Node

namespace Document

/-! ### The search as a search along spellings -/

/-- Reports aside, the first answer is that of the first candidate that has one. -/
theorem value_firstAnswer {α β : Type} (answer : α → Logged (Option β)) (candidates : List α) :
    (firstAnswer answer candidates).value =
      candidates.findSome? fun candidate => (answer candidate).value := by
  induction candidates with
  | nil => rfl
  | cons candidate rest ih =>
    rw [firstAnswer, Logged.value_bind, List.findSome?_cons]
    cases (answer candidate).value with
    | none => exact ih
    | some found => rfl

/-- Behind a node without children, only the end of the segments can answer. -/
theorem findSome?_of_childless {node : Node} (childless : ∀ key, node.child? key = none)
    (parts : List Text) (depth next : Nat) :
    ((Key.cuts parts.length depth next).findSome? fun stops =>
        (node.at? (Key.spell parts next stops)).bind Node.shown?) =
      if next = parts.length then node.shown? else none := by
  by_cases last : next = parts.length
  · simp [last, Key.cuts_self, Key.spell]
  · rw [if_neg last, List.findSome?_eq_none_iff]
    intro stops member
    cases stops with
    | nil => exact absurd member (Key.nil_not_mem_cuts depth last)
    | cons stop stops =>
      rw [Key.spell, Node.at?_cons, childless, Option.bind_none, Option.bind_none]

/-- A search tries the spellings of the segments that are left, the longest first key first. -/
theorem value_resolve (parts : List Text) (depth : Nat) (range : SourceRange)
    (entries : List (Pair Node)) {start : Nat} (short : start ≠ parts.length) :
    (resolve parts depth entries start).value =
      (Key.cuts parts.length depth start).findSome? fun stops =>
        ((Node.mapping range entries).at? (Key.spell parts start stops)).bind Node.shown? := by
  -- Going into a mapping uses up one unit of depth, and there a new search begins.
  induction depth generalizing range entries start with
  | zero => simp [resolve, Key.cuts_zero short]
  | succ depth ih =>
    rw [Key.findSome?_spellings_succ parts depth short fun path =>
      ((Node.mapping range entries).at? path).bind Node.shown?, resolve, value_firstAnswer]
    congr 1
    funext ⟨key, next⟩
    simp only [Node.at?_cons, Node.child?]
    cases (findPair? entries key).map Pair.value with
    | none => simp [eq_comm (a := none)]
    | some node =>
      simp only [Option.bind_some]
      cases node with
      | scalar s =>
        rw [findSome?_of_childless (Node.child?_scalar s)]
        by_cases last : next = parts.length <;> simp [last, Node.shown?]
      | sequence range items =>
        rw [findSome?_of_childless (Node.child?_sequence range items)]
        simp [Node.shown?]
      | mapping range inner =>
        -- A mapping is entered only while segments are left.
        rcases Nat.lt_trichotomy next parts.length with left | last | beyond
        · simp only [if_pos left]
          exact ih range inner (Nat.ne_of_lt left)
        · simp [last, Key.cuts_self, Key.spell, Node.shown?]
        · simp [Key.cuts_of_lt depth beyond, Nat.not_lt_of_gt beyond]

theorem value_resolve_nil (parts : List Text) (depth start : Nat) :
    (resolve parts depth [] start).value = none := by
  cases depth with
  | zero => rfl
  | succ depth =>
    simp [resolve, value_firstAnswer, findPair?]

/-- A range is looked for along the segments of the locale and the key, below the topmost
    mapping. -/
theorem value_findValueRange? (document : Document) {key : Text} (asked : key ≠ [])
    (locale : Text) :
    (document.findValueRange? (some key) locale).value =
      match document.root with
      | some (.mapping _ entries) =>
        (resolve (Key.localeSegments (some key) locale)
          (Key.localeSegments (some key) locale).length entries 0).value.map (·.range)
      | _ => none := by
  obtain ⟨first, rest, rfl⟩ := List.exists_cons_of_ne_nil asked
  unfold findValueRange?
  cases document.root with
  | none => rfl
  | some root =>
    cases root with
    | scalar s => rfl
    | sequence range items => rfl
    | mapping range entries =>
      cases entries with
      -- An empty mapping is given up before the search, which would not find anything either.
      | nil =>
        simp only [value_resolve_nil]
        rfl
      | cons entry entries =>
        simp only [Logged.value_bind]
        generalize (resolve _ _ (entry :: entries) 0).value = found
        cases found <;> rfl

/-- The search goes through all cuts of the segments, and ends at the first one that shows a
    scalar. -/
theorem value_resolve_zero (parts : List Text) (range : SourceRange) (entries : List (Pair Node)) :
    (resolve parts parts.length entries 0).value =
      (Key.cuts parts.length parts.length 0).findSome? fun stops =>
        ((Node.mapping range entries).at? (Key.spell parts 0 stops)).bind Node.shown? := by
  cases parts with
  | nil => rfl
  | cons part rest => exact value_resolve _ _ range entries (by simp)

/-- A search finds the scalar at the highest spelling that leads to one with some text. -/
theorem resolve_eq_some_iff_spelling {parts : List Text}
    (segments : ∀ part ∈ parts, Key.IsSegment part) (range : SourceRange)
    (entries : List (Pair Node)) (s : Scalar) :
    (resolve parts parts.length entries 0).value = some s ↔
      ∃ path, Key.Highest (fun path => Key.IsSpelling parts path ∧
          (((Node.mapping range entries).at? path).bind Node.shown?).isSome) path ∧
        ((Node.mapping range entries).at? path).bind Node.shown? = some s := by
  rw [value_resolve_zero parts range,
    Key.findSome?_spellings_eq_some_iff segments fun path =>
      ((Node.mapping range entries).at? path).bind Node.shown?]

/-- A cut of some segments leads from mapping to mapping, by the first entry with each of its keys,
    to a scalar that takes up some of the text. -/
def Shows (node : Node) (parts : List Text) (stops : List Nat) : Prop :=
  Key.Cut parts.length 0 stops ∧
    ∃ s, node.at? (Key.spell parts 0 stops) = some (.scalar s) ∧ ¬ s.range.IsEmpty

theorem setOf_shows_eq (node : Node) (parts : List Text) :
    {stops | Shows node parts stops} = {stops | Key.Cut parts.length 0 stops ∧
      ((node.at? (Key.spell parts 0 stops)).bind Node.shown?).isSome} := by
  simp only [Shows, Option.isSome_iff_exists, Node.bind_shown?_eq_some_iff]

/-- A search finds the scalar that the greatest cut leads to, of all that lead to one with some
    text. -/
theorem resolve_eq_some_iff_cut (parts : List Text) (range : SourceRange)
    (entries : List (Pair Node)) (s : Scalar) :
    (resolve parts parts.length entries 0).value = some s ↔
      ∃ stops, IsGreatest {stops | Shows (.mapping range entries) parts stops} stops ∧
        (Node.mapping range entries).at? (Key.spell parts 0 stops) = some (.scalar s) := by
  rw [value_resolve_zero parts range, Key.findSome?_cuts_eq_some_iff (by omega), ← setOf_shows_eq]
  refine exists_congr fun stops => and_congr_right fun greatest => ?_
  obtain ⟨_, shown, leads, visible⟩ := greatest.1
  rw [Node.bind_shown?_eq_some_iff, leads, Option.some_inj, Node.scalar.injEq]
  constructor
  · exact And.left
  · rintro rfl
    exact ⟨rfl, visible⟩

theorem resolve_eq_none_iff_cut (parts : List Text) (range : SourceRange)
    (entries : List (Pair Node)) :
    (resolve parts parts.length entries 0).value = none ↔
      ∀ stops, ¬ Shows (.mapping range entries) parts stops := by
  rw [value_resolve_zero parts range, Key.findSome?_cuts_eq_none_iff (by omega)]
  simp only [Shows, Option.eq_none_iff_forall_ne_some, Ne, Node.bind_shown?_eq_some_iff, not_and,
    not_exists]

/-- A place is found for a key exactly if some cut of its segments leads to a scalar in the text, and
    then it is the place of the scalar that the greatest such cut leads to. -/
theorem findValueRange?_at_greatest_cut (text : String) (whole : SourceRange)
    (entries : List (Pair Node)) {key : Text} (asked : key ≠ []) (locale : Text) :
    let parts := Key.localeSegments (some key) locale
    let root := Node.mapping whole entries
    let found := (findValueRange? ⟨text, some root⟩ (some key) locale).value
    (found = none ↔ ∀ stops, ¬ Shows root parts stops) ∧
      ∀ range, found = some range ↔
        ∃ stops s, IsGreatest {stops | Shows root parts stops} stops ∧
          root.at? (Key.spell parts 0 stops) = some (.scalar s) ∧ s.range = range := by
  intro parts root found
  have search : found = (resolve parts parts.length entries 0).value.map (·.range) :=
    value_findValueRange? _ asked locale
  constructor
  · rw [search, Option.map_eq_none_iff, resolve_eq_none_iff_cut parts whole]
  · intro range
    simp only [search, Option.map_eq_some_iff, resolve_eq_some_iff_cut parts whole]
    constructor
    · rintro ⟨s, ⟨stops, greatest, leads⟩, same⟩
      exact ⟨stops, s, greatest, leads, same⟩
    · rintro ⟨stops, s, greatest, leads, same⟩
      exact ⟨s, ⟨stops, greatest, leads⟩, same⟩

/-- Of the ways for the key `a.b.c` the first ends at a sequence, the second at a scalar too early
    and the third at a scalar without text; the fourth leads to a written null. The second `a` is
    never entered. -/
theorem findValueRange?_at_greatest_cut_behind_dead_ends :
    let scalar (start : Int) (value : Text) : Scalar :=
      ⟨⟨start, start + value.length⟩, value, .plain, value = [] || value = "~"⟩
    let pair (start : Int) (key : Text) (value : Node) : Pair Node :=
      ⟨⟨start, value.range.stop⟩, scalar start key, value⟩
    let root : Node := .mapping ⟨0, 58⟩
      [pair 0 "en" (.mapping ⟨4, 58⟩
        [pair 5 "a.b.c" (.sequence ⟨12, 14⟩ [.scalar (scalar 13 "x")]),
          pair 17 "a.b" (.scalar (scalar 22 "y")),
          pair 25 "a" (.mapping ⟨28, 44⟩
            [pair 29 "b.c" (.scalar (scalar 33 [])),
              pair 36 "b" (.mapping ⟨39, 44⟩ [pair 40 "c" (.scalar (scalar 43 "~"))])]),
          pair 48 "a" (.mapping ⟨51, 58⟩ [pair 52 "b.c" (.scalar (scalar 57 "z"))])])]
    let parts := Key.localeSegments (some "a.b.c") "en"
    Text.ofString "a.b.c" ≠ [] ∧ ∃ stops s, IsGreatest {stops | Shows root parts stops} stops ∧
      root.at? (Key.spell parts 0 stops) = some (.scalar s) ∧ s.range = ⟨43, 44⟩ := by
  intro scalar pair root parts
  have asked : Text.ofString "a.b.c" ≠ [] := by decide
  let text : String := "en: {a.b.c: [x], a.b: y, a: {b.c: , b: {c: ~}}, a: {b.c: z}}"
  exact ⟨asked, ((findValueRange?_at_greatest_cut text _ _ asked "en").2 ⟨43, 44⟩).mp rfl⟩

/-! ### The search and the table -/

section Regular

variable {range : SourceRange} {entries : List (Pair Node)}
  (regular : (Node.mapping range entries).Regular) {parts : List Text}
  (segments : ∀ part ∈ parts, Key.IsSegment part)

include regular segments

/-- A search finds the scalar at the highest spelling that leads to a phrase in the tree. -/
theorem resolve_eq_some_iff (s : Scalar) :
    (resolve parts parts.length entries 0).value = some s ↔
      ∃ path, Key.Highest ((Node.mapping range entries).toTree.LeadsTo Tree.IsPhrase parts) path ∧
        ((Node.mapping range entries).at? path).bind Node.shown? = some s := by
  -- In a regular node the scalars that are shown are the phrases of the tree.
  have same (path : List Text) :
      Key.IsSpelling parts path ∧
          (((Node.mapping range entries).at? path).bind Node.shown?).isSome ↔
        (Node.mapping range entries).toTree.LeadsTo Tree.IsPhrase parts path := by
    refine and_congr_right fun _ => ?_
    rw [Option.isSome_iff_exists]
    constructor
    · rintro ⟨s, shown⟩
      exact ⟨_, (Node.at?_toTree_eq_text_iff regular path _).mpr ⟨s, shown, rfl⟩, _, rfl⟩
    · rintro ⟨_, leads, phrase, rfl⟩
      obtain ⟨s, shown, _⟩ := (Node.at?_toTree_eq_text_iff regular path phrase).mp leads
      exact ⟨s, shown⟩
  simp only [resolve_eq_some_iff_spelling segments range, Key.Highest.congr same]

/-- What the table has for a key is the text of the scalar that the search finds. -/
theorem get?_ofBranch_eq_resolve :
    (Lookup.ofBranch (pairsToBranch [] entries)).get? (Key.join parts) =
      (resolve parts parts.length entries 0).value.map (·.value) := by
  have tree : Tree.branch (pairsToBranch [] entries) = (Node.mapping range entries).toTree := by
    rw [Node.toTree]
  have distinct : (Tree.branch (pairsToBranch [] entries)).Distinct :=
    tree ▸ regular.everyBranch fun _ distinct _ => distinct
  have named : (Tree.branch (pairsToBranch [] entries)).Named :=
    tree ▸ regular.everyBranch fun _ _ named => named
  -- Both sides are described by the same highest path, so they have the same phrases.
  apply Option.ext
  intro phrase
  rw [Lookup.get?_ofBranch_join_iff distinct named segments, tree, Option.map_eq_some_iff]
  simp only [resolve_eq_some_iff regular segments, Node.at?_toTree_eq_text_iff regular]
  constructor
  · rintro ⟨path, highest, s, shown, rfl⟩
    exact ⟨s, ⟨path, highest, shown⟩, rfl⟩
  · rintro ⟨s, ⟨path, highest, shown⟩, rfl⟩
    exact ⟨path, highest, s, shown, rfl⟩

end Regular

/-- What stands in a document at the end of a path of exact keys. -/
def at? (document : Document) (path : List Text) : Option Node :=
  document.root.bind (·.at? path)

/-- The scalar that is found for a key is the one at the highest spelling of the key that leads to a
    scalar in the text. -/
theorem exists_highest_of_findValueRange? {document : Document} {key locale : Text}
    (asked : key ≠ []) {range : SourceRange}
    (found : (document.findValueRange? (some key) locale).value = some range) :
    ∃ whole entries path s, document.root = some (.mapping whole entries) ∧
      (Node.mapping whole entries).at? path = some (.scalar s) ∧ s.range = range ∧
      Key.Highest (fun path => Key.IsSpelling (Key.localeSegments (some key) locale) path ∧
        (((Node.mapping whole entries).at? path).bind Node.shown?).isSome) path := by
  have segments : ∀ part ∈ Key.localeSegments (some key) locale, Key.IsSegment part :=
    fun _ => Key.isSegment_of_mem_localeSegments
  rw [value_findValueRange? document asked] at found
  cases top : document.root with
  | none => simp [top] at found
  | some root =>
    rw [top] at found
    cases root with
    | scalar s => cases found
    | sequence whole items => cases found
    | mapping whole entries =>
      obtain ⟨s, resolved, same⟩ := Option.map_eq_some_iff.mp found
      obtain ⟨path, highest, shown⟩ :=
        (resolve_eq_some_iff_spelling segments whole entries s).mp resolved
      obtain ⟨leads, _⟩ := (Node.bind_shown?_eq_some_iff _ s).mp shown
      exact ⟨whole, entries, path, s, rfl, leads, same, highest⟩

def Regular (document : Document) : Prop :=
  ∀ range entries, document.root = some (.mapping range entries) →
    (Node.mapping range entries).Regular

theorem value_toBranch (document : Document) :
    document.toBranch.value =
      match document.root with
      | some (.mapping _ entries) => pairsToBranch [] entries
      | _ => [] := by
  rw [toBranch]
  cases document.root with
  | none => rfl
  | some root => cases root <;> rfl

theorem branch_toBranch {document : Document} {range : SourceRange} {entries : List (Pair Node)}
    (top : document.root = some (.mapping range entries)) :
    Tree.branch document.toBranch.value = (Node.mapping range entries).toTree := by
  rw [value_toBranch, top, Node.toTree]

/-- A place is found for exactly the keys that the table has, and it is the place of a scalar whose
    text is what the table has for the key. -/
theorem findValueRange?_agrees_with_lookup (document : Document) (regular : document.Regular)
    (key locale : Text) (asked : key ≠ []) :
    let fullKey := Key.join (Key.localeSegments (some key) locale)
    let table := Lookup.ofBranch document.toBranch.value
    ((document.findValueRange? (some key) locale).value.isSome ↔ table.has fullKey) ∧
      ∀ range, (document.findValueRange? (some key) locale).value = some range →
        ∃ path s, document.at? path = some (.scalar s) ∧ s.range = range ∧
          table.get? fullKey = some s.value := by
  have segments : ∀ text ∈ Key.localeSegments (some key) locale, Key.IsSegment text :=
    fun _ => Key.isSegment_of_mem_localeSegments
  intro fullKey table
  rw [value_findValueRange? document asked]
  split
  next whole entries top =>
    have inner := regular whole entries top
    have entry : table.get? fullKey =
        (resolve (Key.localeSegments (some key) locale)
          (Key.localeSegments (some key) locale).length entries 0).value.map (·.value) := by
      simp only [table, value_toBranch, top]
      exact get?_ofBranch_eq_resolve inner segments
    rw [Entries.has, entry]
    constructor
    · simp
    · intro range found
      obtain ⟨s, resolved, rfl⟩ := Option.map_eq_some_iff.mp found
      obtain ⟨path, _, shown⟩ := (resolve_eq_some_iff inner segments s).mp resolved
      obtain ⟨node, leads, scalar⟩ := Option.bind_eq_some_iff.mp shown
      obtain ⟨rfl, _⟩ := (Node.shown?_eq_some_iff node s).mp scalar
      exact ⟨path, s, by rw [at?, top, Option.bind_some, leads], rfl, by rw [resolved]; rfl⟩
  next bare =>
    -- A document whose topmost node is no mapping has no phrases.
    have nothing : table = [] := by
      simp only [table, value_toBranch]
      rfl
    simp [nothing, Entries.has, Entries.get?]

/-- The text `en: {a.b: {c: x}, a: {b: y, c: }}`: the way over `a.b` is a dead end for the key
    `a.b`, and the value of `a.c` takes up no text. -/
theorem findValueRange?_agrees_with_lookup_behind_dead_end :
    let scalar (start : Int) (value : Text) : Scalar :=
      ⟨⟨start, start + value.length⟩, value, .plain, value = []⟩
    let pair (start : Int) (key : Text) (value : Node) : Pair Node :=
      ⟨⟨start, value.range.stop⟩, scalar start key, value⟩
    let root : Node := .mapping ⟨0, 30⟩
      [pair 0 "en" (.mapping ⟨4, 30⟩
        [pair 5 "a.b" (.mapping ⟨10, 15⟩ [pair 11 "c" (.scalar (scalar 14 "x"))]),
          pair 18 "a" (.mapping ⟨21, 30⟩
            [pair 22 "b" (.scalar (scalar 25 "y")), pair 28 "c" (.scalar (scalar 30 []))])])]
    let document : Document := ⟨"en: {a.b: {c: x}, a: {b: y, c: }}", some root⟩
    document.Regular ∧
      (∃ path s, document.at? path = some (.scalar s) ∧ s.range = ⟨25, 26⟩ ∧
        (Lookup.ofBranch document.toBranch.value).get? "en.a.b" = some s.value) ∧
      ¬ (Lookup.ofBranch document.toBranch.value).has "en.a.c" := by
  intro scalar pair root document
  -- Only an empty scalar takes up no text.
  have leaf (start : Int) (value : Text) : (Node.scalar (scalar start value)).Regular := by
    refine .scalar ?_
    cases value with
    | nil => simp [scalar, SourceRange.IsEmpty]
    | cons c rest =>
      simp only [scalar, SourceRange.IsEmpty, reduceCtorEq, decide_false, Bool.false_eq_true,
        false_iff, Int.not_le, List.length_cons]
      omega
  have inner : root.Regular := by
    refine .mapping _ (by decide) (by decide) (List.forall_mem_singleton.mpr ?_)
    refine .mapping _ (by decide) (by decide) (List.forall_mem_cons.mpr
      ⟨?_, List.forall_mem_singleton.mpr ?_⟩)
    · exact .mapping _ (by decide) (by decide) (List.forall_mem_singleton.mpr (leaf 14 "x"))
    · exact .mapping _ (by decide) (by decide) (List.forall_mem_cons.mpr
        ⟨leaf 25 "y", List.forall_mem_singleton.mpr (leaf 30 [])⟩)
  have regular : document.Regular := by
    intro range entries top
    exact Option.some.inj top ▸ inner
  have found := (findValueRange?_agrees_with_lookup document regular "a.b" "en" (by decide)).2
  have missed := (findValueRange?_agrees_with_lookup document regular "a.c" "en" (by decide)).1
  exact ⟨regular, found ⟨25, 26⟩ rfl, fun has => by cases missed.mpr has⟩

end Document

end Phrasebook
