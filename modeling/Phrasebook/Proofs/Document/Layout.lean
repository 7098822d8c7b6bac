import Mathlib
import Phrasebook.Proofs.Document.Building
import Phrasebook.Proofs.Document.Locate

/-!
# Phrasebook.Proofs.Document.Layout

From a key to the place of its value, and from there back to the key.

An offset is on an entry also where the entry stops, and the first entry that it is on is followed.
Where the nodes of a text stand one after the other (`LaidOut`), so do the entries of the tree that
is built from them, whatever entries are left out (`Node.Orderly`). An entry before the one that
leads to a value then ends at the latest where the key of that one starts. The key is not empty, so
it takes up some of the text, and no offset on the value is on an earlier entry
(`keysAt_of_at?`). Aliases do no harm: a node that occurs again only has to stand in line there too.
-/

namespace Phrasebook

def Yaml.Vertex.stop : Yaml.Vertex → Yaml.Mark
  | .scalar _ stop _ _ _ => stop
  | .sequence _ stop _ => stop
  | .mapping _ stop _ => stop

theorem SourceRange.contains_iff {range : SourceRange} {offset : Int} :
    range.contains offset ↔ range.start ≤ offset ∧ offset ≤ range.stop := by
  simp [contains]

/-! ### Ranges in a line -/

/-- Some ranges stand one after the other between two offsets. -/
def InLine (start stop : Int) : List SourceRange → Prop
  | [] => start ≤ stop
  | range :: rest => start ≤ range.start ∧ range.start ≤ range.stop ∧ InLine range.stop stop rest

namespace InLine

variable {start stop : Int} {ranges : List SourceRange}

instance decidable (start stop : Int) (ranges : List SourceRange) :
    Decidable (InLine start stop ranges) :=
  match ranges with
  | [] => inferInstanceAs (Decidable (start ≤ stop))
  | range :: rest =>
    have := decidable range.stop stop rest
    inferInstanceAs (Decidable (_ ∧ _ ∧ _))

theorem le (line : InLine start stop ranges) : start ≤ stop := by
  induction ranges generalizing start with
  | nil => exact line
  | cons range rest ih =>
    obtain ⟨after, forward, rest⟩ := line
    have := ih rest
    omega

theorem from_earlier {earlier : Int} (before : earlier ≤ start)
    (line : InLine start stop ranges) : InLine earlier stop ranges := by
  cases ranges with
  | nil => exact Int.le_trans before line
  | cons range rest => exact ⟨Int.le_trans before line.1, line.2⟩

theorem inside (line : InLine start stop ranges) :
    ∀ range ∈ ranges, start ≤ range.start ∧ range.stop ≤ stop := by
  induction ranges generalizing start with
  | nil => simp
  | cons first rest ih =>
    obtain ⟨after, forward, rest⟩ := line
    refine List.forall_mem_cons.mpr ⟨⟨after, rest.le⟩, fun range member => ?_⟩
    obtain ⟨low, high⟩ := ih rest range member
    exact ⟨by omega, high⟩

theorem pairwise (line : InLine start stop ranges) :
    ranges.Pairwise fun earlier later => earlier.stop ≤ later.start := by
  induction ranges generalizing start with
  | nil => exact .nil
  | cons first rest ih =>
    obtain ⟨after, forward, rest⟩ := line
    exact List.pairwise_cons.mpr ⟨fun later member => (rest.inside later member).1, ih rest⟩

theorem stop_le_of_before {range : SourceRange} {before after : List SourceRange}
    (line : InLine start stop (before ++ range :: after)) :
    ∀ earlier ∈ before, earlier.stop ≤ range.start := by
  obtain ⟨_, _, across⟩ := List.pairwise_append.mp line.pairwise
  exact fun earlier member => across earlier member range List.mem_cons_self

/-- A line is one up to the stop of its last range already. -/
theorem to_last (line : InLine start stop ranges) :
    InLine start (ranges.getLast?.elim stop (·.stop)) ranges ∧
      ranges.getLast?.elim stop (·.stop) ≤ stop := by
  -- The place between the offsets may end with the last of the ranges, whichever that is.
  induction ranges generalizing start with
  | nil => exact ⟨line, Int.le_refl _⟩
  | cons first rest ih =>
    obtain ⟨after, forward, line⟩ := line
    cases rest with
    | nil => exact ⟨⟨after, forward, Int.le_refl _⟩, line⟩
    | cons second rest =>
      obtain ⟨shorter, within⟩ := ih line
      rw [List.getLast?_cons_cons]
      exact ⟨⟨after, forward, shorter⟩, within⟩

end InLine

/-! ### Nodes in a line -/

/-- An entry starts with its key, goes on with its value and stops there. A key that is not empty
    takes up some of the text. -/
structure Pair.Orderly (entry : Pair Node) : Prop where
  start : entry.range.start = entry.key.range.start
  forward : entry.key.range.start ≤ entry.key.range.stop
  visible : entry.key.value ≠ [] → entry.key.range.start < entry.key.range.stop
  apart : entry.key.range.stop ≤ entry.value.range.start
  stop : entry.range.stop = entry.value.range.stop

namespace Node

/-- The entries of every mapping of a node stand inside it, one after the other. -/
inductive Orderly : Node → Prop where
  | scalar {s : Scalar} (forward : s.range.start ≤ s.range.stop) : Orderly (.scalar s)
  | sequence {range : SourceRange} (items : List Node) (forward : range.start ≤ range.stop) :
      Orderly (.sequence range items)
  | mapping {range : SourceRange} {entries : List (Pair Node)}
      (line : InLine range.start range.stop (entries.map (·.range)))
      (each : ∀ entry ∈ entries, entry.Orderly) (below : ∀ entry ∈ entries, Orderly entry.value) :
      Orderly (.mapping range entries)

theorem Orderly.forward {node : Node} (orderly : node.Orderly) :
    node.range.start ≤ node.range.stop := by
  cases orderly with
  | scalar forward => exact forward
  | sequence items forward => exact forward
  | mapping line each below => exact line.le

/-- What a path leads to in an orderly node stands inside the node. -/
theorem Orderly.inside_of_at? {node found : Node} {path : List Text} (orderly : node.Orderly)
    (leads : node.at? path = some found) :
    node.range.start ≤ found.range.start ∧ found.range.stop ≤ node.range.stop := by
  induction path generalizing node with
  | nil =>
    cases leads
    exact ⟨Int.le_refl _, Int.le_refl _⟩
  | cons key path ih =>
    obtain ⟨child, inside, further⟩ := Option.bind_eq_some_iff.mp leads
    cases orderly with
    | scalar forward => cases inside
    | sequence items forward => cases inside
    | @mapping range entries line each below =>
      obtain ⟨entry, located, rfl⟩ := Option.map_eq_some_iff.mp inside
      have member := List.mem_of_find?_eq_some located
      -- Inside the value, which is inside the entry, which is inside the mapping.
      obtain ⟨low, high⟩ := ih (below entry member) further
      obtain ⟨after, before⟩ := line.inside entry.range (List.mem_map_of_mem member)
      obtain ⟨start, forward, _, apart, stop⟩ := each entry member
      change range.start ≤ _ ∧ _ ≤ range.stop
      omega

end Node

namespace Document

open Yaml (Graph Mark Vertex)

theorem keysAt_scalar (offset : Int) (s : Scalar) : keysAt offset (.scalar s) = [] := by
  simp [keysAt]

/-- The keys at an offset are those of the first entry whose range has the offset. -/
theorem pairKeysAt_eq (offset : Int) (entries : List (Pair Node)) :
    pairKeysAt offset entries =
      (entries.find? (·.range.contains offset)).elim [] fun entry =>
        entry.key.value :: keysAt offset entry.value := by
  induction entries with
  | nil => rfl
  | cons entry rest ih =>
    by_cases on : entry.range.contains offset <;> simp [pairKeysAt, on, ih]

theorem pairKeysAt_append_cons {offset : Int} {before after : List (Pair Node)} {entry : Pair Node}
    (off : ∀ other ∈ before, ¬ other.range.contains offset)
    (on : entry.range.contains offset) :
    pairKeysAt offset (before ++ entry :: after) =
      entry.key.value :: keysAt offset entry.value := by
  have first : (before ++ entry :: after).find? (·.range.contains offset) = some entry :=
    List.find?_eq_some_iff_append.mpr ⟨on, before, after, rfl, by simpa using off⟩
  rw [pairKeysAt_eq, first, Option.elim_some]

/-- At an offset on what stands at the end of a path are the keys of the path, and then those
    inside of it. -/
theorem keysAt_of_at? {node found : Node} {path : List Text} (orderly : node.Orderly)
    (leads : node.at? path = some found) (named : ∀ key ∈ path, key ≠ []) {offset : Int}
    (low : found.range.start ≤ offset) (high : offset ≤ found.range.stop) :
    keysAt offset node = path ++ keysAt offset found := by
  -- Along the path; at each mapping the offset has to be on the entry that the path takes.
  induction path generalizing node with
  | nil =>
    cases leads
    rfl
  | cons key path ih =>
    obtain ⟨child, inside, further⟩ := Option.bind_eq_some_iff.mp leads
    obtain ⟨nonempty, later⟩ := List.forall_mem_cons.mp named
    cases orderly with
    | scalar forward => cases inside
    | sequence items forward => cases inside
    | @mapping range entries line each below =>
      obtain ⟨entry, located, rfl⟩ := Option.map_eq_some_iff.mp inside
      have member := List.mem_of_find?_eq_some located
      obtain ⟨same, before, after, rfl, _⟩ := List.find?_eq_some_iff_append.mp located
      obtain rfl : entry.key.value = key := of_decide_eq_true same
      obtain ⟨start, forward, visible, apart, stop⟩ := each entry member
      have length := visible nonempty
      obtain ⟨lower, upper⟩ := (below entry member).inside_of_at? further
      -- The offset lies beyond the key, so beyond every earlier entry.
      have off : ∀ other ∈ before, ¬ other.range.contains offset := by
        intro other earlier
        rw [List.map_append, List.map_cons] at line
        have ends := line.stop_le_of_before other.range (List.mem_map_of_mem earlier)
        rw [SourceRange.contains_iff]
        omega
      have on : entry.range.contains offset := by
        rw [SourceRange.contains_iff]
        omega
      rw [keysAt, pairKeysAt_append_cons off on, ih (below entry member) further later,
        List.cons_append]

/-! ### Graphs in a line -/

def rangeAt? (graph : Graph) (number : Nat) : Option SourceRange :=
  graph.vertices[number]?.map fun vertex => rangeOf vertex.start vertex.stop

/-- A node of a graph and everything below it stand in the order of the text: nothing ends before it
    starts, a scalar with a value takes up some of the text, and the children of a collection (of a
    mapping, each key and then its value) stand inside it, one after the other. -/
inductive LaidOut (graph : Graph) : Nat → Prop where
  | scalar {number : Nat} {start stop : Mark} {value : Text} {style : Yaml.Style} {isNull : Bool}
      (here : graph.vertices[number]? = some (.scalar start stop value style isNull))
      (forward : start.index ≤ stop.index) (visible : value ≠ [] → start.index < stop.index) :
      LaidOut graph number
  | sequence {number : Nat} {start stop : Mark} {items : List Nat}
      (here : graph.vertices[number]? = some (.sequence start stop items))
      (line : InLine start.index stop.index (items.filterMap (rangeAt? graph)))
      (below : ∀ item ∈ items, LaidOut graph item) : LaidOut graph number
  | mapping {number : Nat} {start stop : Mark} {entries : List (Nat × Nat)}
      (here : graph.vertices[number]? = some (.mapping start stop entries))
      (line : InLine start.index stop.index
        ((entries.flatMap fun (key, value) => [key, value]).filterMap (rangeAt? graph)))
      (keys : ∀ entry ∈ entries, LaidOut graph entry.1)
      (values : ∀ entry ∈ entries, LaidOut graph entry.2) : LaidOut graph number

variable {graph : Graph}

theorem LaidOut.exists_rangeAt? {number : Nat} (laidOut : LaidOut graph number) :
    ∃ range, rangeAt? graph number = some range := by
  cases laidOut with
  | scalar here => exact ⟨_, by rw [rangeAt?, here]; rfl⟩
  | sequence here => exact ⟨_, by rw [rangeAt?, here]; rfl⟩
  | mapping here => exact ⟨_, by rw [rangeAt?, here]; rfl⟩

theorem LaidOut.of_scalarOf? {number : Nat} {s : Scalar} (laidOut : LaidOut graph number)
    (found : scalarOf? graph number = some s) :
    rangeAt? graph number = some s.range ∧ s.range.start ≤ s.range.stop ∧
      (s.value ≠ [] → s.range.start < s.range.stop) := by
  cases laidOut with
  | scalar here forward visible =>
    rw [scalarOf?, here] at found
    cases found
    refine ⟨by rw [rangeAt?, here]; rfl, Int.ofNat_le.mpr forward, fun nonempty => ?_⟩
    exact Int.ofNat_lt.mpr (visible nonempty)
  | sequence here => simp [scalarOf?, here] at found
  | mapping here => simp [scalarOf?, here] at found

/-- A tree of a node starts where the node does, and stops there at the latest. -/
structure Fits (graph : Graph) (number : Nat) (tree : Node) : Prop where
  unfolds : Unfolds graph number tree
  orderly : tree.Orderly
  place : ∃ range, rangeAt? graph number = some range ∧ tree.range.start = range.start ∧
    tree.range.stop ≤ range.stop

/-- Items that keep their ranges in the tree keep standing in a line. -/
theorem inLine_items {start stop : Int} {numbers : List Nat} {items : List Node}
    (each : List.Forall₂ (Fits graph) numbers items)
    (line : InLine start stop (numbers.filterMap (rangeAt? graph))) :
    InLine start stop (items.map (·.range)) := by
  -- The tree of an item may stop before the item does, which leaves more room for the next one.
  induction each generalizing start with
  | nil => exact line
  | cons fits _ ih =>
    obtain ⟨range, here, starts, stops⟩ := fits.place
    rw [List.filterMap_cons_some here] at line
    obtain ⟨after, _, rest⟩ := line
    exact ⟨starts ▸ after, fits.orderly.forward, (ih rest).from_earlier stops⟩

/-- An entry whose value follows its key runs from the start of the one to the stop of the other. -/
theorem range_entryOf {key : Scalar} {value : Node} (forward : key.range.start ≤ key.range.stop)
    (apart : key.range.stop ≤ value.range.start) (onward : value.range.start ≤ value.range.stop) :
    (entryOf key value).range = ⟨key.range.start, value.range.stop⟩ := by
  have least : min key.range.start value.range.start = key.range.start := by omega
  have greatest : max key.range.stop value.range.stop = value.range.stop := by omega
  rw [entryOf, SourceRange.union, least, greatest]

/-- Entries whose keys and values stand in a line stand in a line themselves, also when those with
    complex keys are left out. -/
theorem inLine_pairs {start stop : Int} {entries : List (Nat × Nat)} {pairs : List (Pair Node)}
    (keys : ∀ entry ∈ entries, LaidOut graph entry.1)
    (values : ∀ entry ∈ entries, LaidOut graph entry.2)
    (each : List.Forall₂ (Becomes (Fits graph)) (keyed graph entries) pairs)
    (line : InLine start stop
      ((entries.flatMap fun (key, value) => [key, value]).filterMap (rangeAt? graph))) :
    InLine start stop (pairs.map (·.range)) ∧ ∀ pair ∈ pairs, pair.Orderly ∧ pair.value.Orderly := by
  induction entries generalizing start pairs with
  | nil =>
    cases each
    exact ⟨line, by simp⟩
  | cons entry entries ih =>
    obtain ⟨key, value⟩ := entry
    obtain ⟨first, keys⟩ := List.forall_mem_cons.mp keys
    obtain ⟨second, values⟩ := List.forall_mem_cons.mp values
    obtain ⟨keyRange, keyHere⟩ := first.exists_rangeAt?
    obtain ⟨valueRange, valueHere⟩ := second.exists_rangeAt?
    rw [List.flatMap_cons, List.cons_append, List.cons_append, List.nil_append,
      List.filterMap_cons_some keyHere, List.filterMap_cons_some valueHere] at line
    obtain ⟨after, forward, apart, onward, rest⟩ := line
    cases scalar : scalarOf? graph key with
    | none =>
      -- The entry is left out, so the others only have more room.
      rw [keyed_cons_of_none scalar] at each
      obtain ⟨line, orderly⟩ := ih keys values each rest
      exact ⟨line.from_earlier (by omega), orderly⟩
    | some s =>
      rw [keyed_cons_of_scalar scalar] at each
      obtain ⟨held, _, visible⟩ := first.of_scalarOf? scalar
      obtain rfl := Option.some.inj (keyHere.symm.trans held)
      cases each with
      | @cons _ pair _ pairs here later =>
        obtain ⟨tree, fits, rfl⟩ := here
        obtain ⟨range, found, starts, stops⟩ := fits.place
        obtain rfl := Option.some.inj (valueHere.symm.trans found)
        have treeForward := fits.orderly.forward
        rw [← starts] at apart
        -- The key comes first, so key and value together are what lies from the one to the other.
        have whole := range_entryOf forward apart treeForward
        obtain ⟨line, orderly⟩ := ih keys values later rest
        constructor
        · rw [List.map_cons, whole]
          exact ⟨after, by change s.range.start ≤ tree.range.stop; omega, line.from_earlier stops⟩
        · refine List.forall_mem_cons.mpr ⟨⟨⟨?_, forward, visible, apart, ?_⟩, fits.orderly⟩, orderly⟩
          · rw [whole]
            rfl
          · rw [whole]
            rfl

theorem exists_forall₂ {α β : Type} {related : α → β → Prop} {xs : List α}
    (each : ∀ x ∈ xs, ∃ y, related x y) : ∃ ys, List.Forall₂ related xs ys := by
  induction xs with
  | nil => exact ⟨[], .nil⟩
  | cons x xs ih =>
    obtain ⟨⟨y, first⟩, rest⟩ := List.forall_mem_cons.mp each
    obtain ⟨ys, rest⟩ := ih rest
    exact ⟨y :: ys, .cons first rest⟩

/-- A laid out node unfolds to an orderly tree of the same range. -/
theorem LaidOut.exists_fits {number : Nat} (laidOut : LaidOut graph number) :
    ∃ tree, Fits graph number tree := by
  -- By induction on how the nodes stand in line; a cycle could not, so the tree comes to an end.
  induction laidOut with
  | @scalar number start stop value style isNull here forward visible =>
    refine ⟨_, .scalar here, .scalar (Int.ofNat_le.mpr forward), rangeOf start stop, ?_, rfl,
      Int.le_refl _⟩
    rw [rangeAt?, here]
    rfl
  | @sequence number start stop items here line below ih =>
    obtain ⟨trees, each⟩ := exists_forall₂ ih
    obtain ⟨shorter, within⟩ := (inLine_items each line).to_last
    rw [List.getLast?_map, Option.elim_map] at shorter within
    refine ⟨_, .sequence here (each.imp fun _ _ fits => fits.unfolds),
      .sequence trees shorter.le, rangeOf start stop, ?_, rfl, within⟩
    rw [rangeAt?, here]
    rfl
  | @mapping number start stop entries here line keys values _ ih =>
    have each : ∀ entry ∈ keyed graph entries, ∃ pair value, Fits graph entry.2 value ∧
        entryOf entry.1 value = pair := by
      intro entry member
      obtain ⟨source, inside, made⟩ := List.mem_filterMap.mp member
      obtain ⟨s, _, rfl⟩ := Option.map_eq_some_iff.mp made
      obtain ⟨tree, fits⟩ := ih source inside
      exact ⟨_, tree, fits, rfl⟩
    obtain ⟨pairs, each⟩ := exists_forall₂ each
    obtain ⟨inner, orderly⟩ := inLine_pairs keys values each line
    obtain ⟨shorter, within⟩ := inner.to_last
    rw [List.getLast?_map, Option.elim_map] at shorter within
    refine ⟨_, .mapping here (each.imp fun entry pair fits => ?_), .mapping shorter
      (fun pair member => (orderly pair member).1) (fun pair member => (orderly pair member).2),
      rangeOf start stop, ?_, rfl, within⟩
    · obtain ⟨value, fits, same⟩ := fits
      exact ⟨value, fits.unfolds, same⟩
    · rw [rangeAt?, here]
      rfl

/-- Where the nodes of a text stand in line, every offset on the value of a key, the one right after
    it included, leads back to the key. -/
theorem keyAt?_of_findValueRange? {graph : Graph} (laidOut : LaidOut graph graph.root) :
    ∃ root skipped, ofGraph graph = (.ok root, skipped) ∧
      ∀ (text : String) (key locale : Text), key ≠ [] → ∀ range,
        (findValueRange? ⟨text, some root⟩ (some key) locale).value = some range →
          ∀ offset, range.start ≤ offset → offset ≤ range.stop →
            keyAt? ⟨text, some root⟩ offset =
              some (Key.join (Key.localeSegments (some key) locale)) := by
  obtain ⟨root, fits⟩ := laidOut.exists_fits
  obtain ⟨skipped, built⟩ := ofGraph_eq_of_unfolds fits.unfolds
  refine ⟨root, skipped, built, ?_⟩
  intro text key locale asked range found offset low high
  have segments : ∀ part ∈ Key.localeSegments (some key) locale, Key.IsSegment part :=
    fun _ => Key.isSegment_of_mem_localeSegments
  obtain ⟨whole, entries, path, s, top, leads, rfl, highest⟩ :=
    exists_highest_of_findValueRange? asked found
  cases top
  obtain ⟨named, same⟩ := (Key.isSpelling_iff segments path).mp highest.1.1
  have keys : keysAt offset (.mapping whole entries) = path := by
    rw [keysAt_of_at? fits.orderly leads named low high, keysAt_scalar, List.append_nil]
  -- The mapping itself is no scalar, so the path has keys.
  have answered : Key.join path ≠ [] := by
    refine Key.join_ne_nil named ?_
    rintro rfl
    cases leads
  simp only [keyAt?, Option.elim_some, keys]
  rw [same]

/-- The text `en: {a.b: x, ? [c] : d}`: the entry with the sequence as its key is left out, so the
    inner mapping stops with `x`. -/
theorem keyAt?_of_findValueRange?_beside_complex_key :
    let mark (index : Nat) : Mark := ⟨index, 0, index⟩
    let word (start stop : Nat) (value : Text) : Vertex :=
      .scalar (mark start) (mark stop) value .plain false
    let graph : Graph :=
      ⟨#[.mapping (mark 0) (mark 23) [(1, 2)], word 0 2 "en",
        .mapping (mark 4) (mark 23) [(3, 4), (5, 7)], word 5 8 "a.b", word 10 11 "x",
        .sequence (mark 15) (mark 18) [6], word 16 17 "c", word 21 22 "d"], 0⟩
    let key (start stop : Int) (value : Text) : Scalar := ⟨⟨start, stop⟩, value, .plain, false⟩
    let tree : Node := .mapping ⟨0, 11⟩ [⟨⟨0, 11⟩, key 0 2 "en", .mapping ⟨4, 11⟩
      [⟨⟨5, 11⟩, key 5 8 "a.b", .scalar (key 10 11 "x")⟩]⟩]
    LaidOut graph graph.root ∧ ofGraph graph = (.ok tree, [1]) ∧
      keyAt? ⟨"en: {a.b: x, ? [c] : d}", some tree⟩ 11 = some "en.a.b" := by
  intro mark word graph key tree
  have scalar (number start stop : Nat) (value : Text)
      (here : graph.vertices[number]? = some (word start stop value))
      (visible : start < stop) : LaidOut graph number :=
    .scalar here (Nat.le_of_lt visible) fun _ => visible
  have inner : LaidOut graph 2 := by
    refine .mapping rfl (by decide) ?_ ?_
    · refine List.forall_mem_cons.mpr ⟨scalar 3 5 8 _ rfl (by decide),
        List.forall_mem_singleton.mpr ?_⟩
      exact .sequence rfl (by decide)
        (List.forall_mem_singleton.mpr (scalar 6 16 17 _ rfl (by decide)))
    · exact List.forall_mem_cons.mpr ⟨scalar 4 10 11 _ rfl (by decide),
        List.forall_mem_singleton.mpr (scalar 7 21 22 _ rfl (by decide))⟩
  have laidOut : LaidOut graph graph.root :=
    .mapping rfl (by decide) (List.forall_mem_singleton.mpr (scalar 1 0 2 _ rfl (by decide)))
      (List.forall_mem_singleton.mpr inner)
  have computed : ofGraph graph = (.ok tree, [1]) := by cbv
  obtain ⟨root, skipped, built, back⟩ := keyAt?_of_findValueRange? laidOut
  rw [computed] at built
  cases built
  exact ⟨laidOut, computed, back _ "a.b" "en" (by decide) ⟨10, 11⟩ rfl 11 (by decide) (by decide)⟩

end Document

end Phrasebook
