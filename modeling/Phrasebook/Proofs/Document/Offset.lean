import Phrasebook.Proofs.Document.Placement
import Phrasebook.Proofs.Document.Visible

/-!
# Phrasebook.Proofs.Document.Offset

From an offset on a key to the key.

In a text without aliases the entries of a mapping stand one after the other, so the first entry that
an offset on a key is on is the one of the key, unless the offset is where the key starts and an
earlier entry ends there: an offset is on an entry also where the entry stops (`keyAt?_on_key`). An
earlier entry ends there if its value takes the end of its last line along, as a literal does
(`keyAt?_on_key_after_literal`).
-/

namespace Phrasebook.Document

open Yaml (Graph)

/-- An entry that mappings lead to, by the keys on the way, its own last. Some entries stand before it
    in its own mapping. -/
inductive Reaches : Node → List Text → List (Pair Node) → Pair Node → Prop where
  | here {range : SourceRange} (earlier : List (Pair Node)) (entry : Pair Node)
      (after : List (Pair Node)) :
      Reaches (.mapping range (earlier ++ entry :: after)) [entry.key.value] earlier entry
  | under {range : SourceRange} (before : List (Pair Node)) {outer : Pair Node}
      (after : List (Pair Node)) {keys : List Text} {earlier : List (Pair Node)}
      {entry : Pair Node} (below : Reaches outer.value keys earlier entry) :
      Reaches (.mapping range (before ++ outer :: after)) (outer.key.value :: keys) earlier entry

theorem pairKeysAt_of_off {offset : Int} {entries : List (Pair Node)}
    (off : ∀ entry ∈ entries, ¬ entry.range.contains offset) : pairKeysAt offset entries = [] := by
  rw [pairKeysAt_eq, List.find?_eq_none.mpr off, Option.elim_none]

/-- Before a node there are no keys of its entries. -/
theorem keysAt_of_lt {node : Node} (orderly : node.Orderly) {offset : Int}
    (before : offset < node.range.start) : keysAt offset node = [] := by
  cases orderly with
  | scalar forward => simp [keysAt]
  | sequence items forward => simp [keysAt]
  | @mapping range entries line each below =>
    refine pairKeysAt_of_off fun entry member => ?_
    obtain ⟨low, _⟩ := line.inside entry.range (List.mem_map_of_mem member)
    change offset < range.start at before
    rw [SourceRange.contains_iff]
    omega

section Reaches

variable {node : Node} {keys : List Text} {earlier : List (Pair Node)} {entry : Pair Node}

theorem Reaches.exists_mapping (reaches : Reaches node keys earlier entry) :
    ∃ range entries, node = .mapping range entries := by
  cases reaches with
  | here => exact ⟨_, _, rfl⟩
  | under => exact ⟨_, _, rfl⟩

theorem Reaches.key_mem (reaches : Reaches node keys earlier entry) : entry.key.value ∈ keys := by
  induction reaches with
  | here => exact List.mem_cons_self
  | under _ _ _ ih => exact List.mem_cons_of_mem _ ih

/-- An entry that is reached stands inside an orderly node, after the entries beside its way. -/
theorem Reaches.orderly (reaches : Reaches node keys earlier entry) (orderly : node.Orderly) :
    entry.Orderly ∧ entry.value.Orderly ∧ node.range.start ≤ entry.range.start ∧
      entry.range.stop ≤ node.range.stop ∧
      ∀ other ∈ earlier, other.range.stop ≤ entry.range.start := by
  induction reaches with
  | here earlier entry after =>
    cases orderly with
    | mapping line each below =>
      have member : entry ∈ earlier ++ entry :: after := by simp
      obtain ⟨low, high⟩ := line.inside entry.range (List.mem_map_of_mem member)
      refine ⟨each entry member, below entry member, low, high, fun other before => ?_⟩
      rw [List.map_append, List.map_cons] at line
      exact line.stop_le_of_before other.range (List.mem_map_of_mem before)
  | @under range before outer after keys earlier entry _ ih =>
    cases orderly with
    | mapping line each below =>
      have member : outer ∈ before ++ outer :: after := by simp
      obtain ⟨own, value, low, high, ends⟩ := ih (below outer member)
      obtain ⟨lower, upper⟩ := line.inside outer.range (List.mem_map_of_mem member)
      obtain ⟨start, forward, _, apart, stop⟩ := each outer member
      -- The entry is inside the value of the outer one, which ends where that entry ends.
      refine ⟨own, value, ?_, ?_, ends⟩
      · change range.start ≤ _
        omega
      · change _ ≤ range.stop
        omega

/-- The mapping behind a key starts after the end of the key. -/
theorem Reaches.apart {graph : Graph} (settled : graph.IsSettled)
    (reaches : Reaches node keys earlier entry) {number : Nat} (unfolds : Unfolds graph number node)
    (value : ∃ range entries, entry.value = .mapping range entries) :
    entry.key.range.stop < entry.value.range.start := by
  -- Down the tree, beside which the graph is unfolded; the graph knows how key and value stand.
  induction reaches generalizing number with
  | here earlier entry after =>
    have inside : entry ∈ earlier ++ entry :: after := by simp
    obtain ⟨_, _, _, key, child, here, member, scalar, below⟩ := unfolds.exists_entry inside
    have apart := (settled number _ here).apart (key, child) member
    obtain ⟨_, _, whole⟩ := value
    rw [whole] at below ⊢
    rcases below.inv with ⟨_, _, ⟨⟩⟩ | ⟨_, _, _, _, _, _, ⟨⟩⟩ | ⟨_, _, _, _, found, _, ⟨⟩⟩
    rw [scalarOf?] at scalar
    split at scalar
    next held =>
      rw [← Option.some.inj scalar]
      exact Int.ofNat_lt.mpr (apart _ _ held found rfl)
    next => cases scalar
  | @under _ before outer after _ _ _ _ ih =>
    have inside : outer ∈ before ++ outer :: after := by simp
    obtain ⟨_, _, _, _, _, _, _, _, below⟩ := unfolds.exists_entry inside
    exact ih below value

/-- At an offset on the key of an entry are the keys on the way to it, if the first entry of its
    mapping that the offset is on is the entry itself. -/
theorem Reaches.keysAt_eq {graph : Graph} (settled : graph.IsSettled)
    (reaches : Reaches node keys earlier entry) {number : Nat} (unfolds : Unfolds graph number node)
    (orderly : node.Orderly) {offset : Int} (low : entry.key.range.start ≤ offset)
    (high : offset < entry.key.range.stop)
    (clear : offset = entry.key.range.start → ∀ other ∈ earlier, other.range.stop ≠ offset) :
    keysAt offset node = keys := by
  induction reaches generalizing number with
  | @here range earlier entry after =>
    obtain ⟨⟨start, _, _, apart, stop⟩, value, _, _, ends⟩ :=
      (Reaches.here earlier entry after).orderly orderly
    have forward := value.forward
    have off : ∀ other ∈ earlier, ¬ other.range.contains offset := by
      intro other before
      have le := ends other before
      have ne := fun same => clear same other before
      rw [SourceRange.contains_iff]
      omega
    have on : entry.range.contains offset := by
      rw [SourceRange.contains_iff]
      omega
    -- The value starts after the offset, so nothing in it is there.
    rw [keysAt, pairKeysAt_append_cons off on, keysAt_of_lt value (by omega)]
  | @under range before outer after keys earlier entry reaches ih =>
    obtain ⟨⟨start, forward, _, _, stop⟩, value, _, _, ends⟩ :=
      (Reaches.here before outer after).orderly orderly
    obtain ⟨⟨begins, _, _, behind, last⟩, inner, lower, upper, _⟩ := reaches.orderly value
    have onward := inner.forward
    have apart := (Reaches.here before outer after).apart settled unfolds reaches.exists_mapping
    -- The mapping lies beyond the key in front of it, so beyond every earlier entry.
    have off : ∀ other ∈ before, ¬ other.range.contains offset := by
      intro other inside
      have le := ends other inside
      rw [SourceRange.contains_iff]
      omega
    have on : outer.range.contains offset := by
      rw [SourceRange.contains_iff]
      omega
    have inside : outer ∈ before ++ outer :: after := by simp
    obtain ⟨_, _, _, _, _, _, _, _, below⟩ := unfolds.exists_entry inside
    rw [keysAt, pairKeysAt_append_cons off on, ih below value low high clear]

end Reaches

/-- In a text without aliases, every offset on the key of an entry leads to the keys on the way to the
    entry. Only where the key starts it does not do so if an earlier entry of the same mapping ends
    there. -/
theorem keyAt?_on_key {text : String} {document : Document}
    (plain : (Yaml.TokenStream.ofText text.toList).hasAlias = false)
    (read : (parse text).value = .ok document) {root : Node} (top : document.root = some root)
    {keys : List Text} {earlier : List (Pair Node)} {entry : Pair Node}
    (reaches : Reaches root keys earlier entry) (named : entry.key.value ≠ []) {offset : Int}
    (low : entry.key.range.start ≤ offset) (high : offset < entry.key.range.stop)
    (clear : offset = entry.key.range.start → ∀ other ∈ earlier, other.range.stop ≠ offset) :
    document.keyAt? offset = some (Key.join keys) := by
  obtain ⟨graph, skipped, tokens, built⟩ := exists_graph_of_parse read top
  obtain ⟨lt, settled⟩ :=
    Graph.settled_ofTokens? (Yaml.TokenStream.inOrder_ofText text.toList) plain tokens
  obtain ⟨tree, fits⟩ := (settled.laidOut lt).exists_fits
  -- A node unfolds to one tree only, so the tree that was read is the orderly one.
  obtain rfl := fits.unfolds.unique (unfolds_of_ofGraph built)
  have found := reaches.keysAt_eq settled fits.unfolds fits.orderly low high clear
  have answered : Key.join keys ≠ [] := by
    rw [Ne, Key.join_eq_nil_iff]
    exact fun empty => named (empty _ reaches.key_mem)
  rw [keyAt?, top, Option.elim_some, found]
  cases joined : Key.join keys with
  | nil => exact absurd joined answered
  | cons c rest => rfl

/-- An indented literal ends before the blanks in front of the next key. -/
theorem keyAt?_on_key_after_indented_literal :
    let text : String := "en:\n  a: |\n    x\n  b.c: y\n"
    let key (start stop : Int) (value : Text) : Scalar := ⟨⟨start, stop⟩, value, .plain, false⟩
    let first : Pair Node := ⟨⟨6, 17⟩, key 6 7 "a", .scalar ⟨⟨9, 17⟩, "x\n", .literal, false⟩⟩
    let second : Pair Node := ⟨⟨19, 25⟩, key 19 22 "b.c", .scalar (key 24 25 "y")⟩
    let root : Node := .mapping ⟨0, 25⟩ [⟨⟨0, 25⟩, key 0 2 "en", .mapping ⟨6, 25⟩ [first, second]⟩]
    let document : Document := ⟨text, some root⟩
    (parse text).value = .ok document ∧ Reaches root ["en", "b.c"] [first] second ∧
      document.keyAt? 19 = some "en.b.c" := by
  intro text key first second root document
  have plain : (Yaml.TokenStream.ofText text.toList).hasAlias = false := by decide +kernel
  have read : (parse text).value = .ok document := by cbv
  have reaches : Reaches root ["en", "b.c"] [first] second :=
    .under [] [] (.here [first] second [])
  exact ⟨read, reaches, keyAt?_on_key plain read rfl reaches (by decide) (by decide) (by decide)
    (by decide)⟩

/-- The literal takes the end of its line along, so it ends where the next key starts. -/
theorem keyAt?_on_key_after_literal :
    let text : String := "en: |\n  x\nfr: y\n"
    let key (start stop : Int) (value : Text) : Scalar := ⟨⟨start, stop⟩, value, .plain, false⟩
    let first : Pair Node := ⟨⟨0, 10⟩, key 0 2 "en", .scalar ⟨⟨4, 10⟩, "x\n", .literal, false⟩⟩
    let second : Pair Node := ⟨⟨10, 15⟩, key 10 12 "fr", .scalar (key 14 15 "y")⟩
    let root : Node := .mapping ⟨0, 15⟩ [first, second]
    let document : Document := ⟨text, some root⟩
    (Yaml.TokenStream.ofText text.toList).hasAlias = false ∧
      (parse text).value = .ok document ∧ Reaches root ["fr"] [first] second ∧
      document.keyAt? second.key.range.start = some "en" ∧
      document.keyAt? (second.key.range.start + 1) = some "fr" := by
  intro text key first second root document
  have plain : (Yaml.TokenStream.ofText text.toList).hasAlias = false := by decide +kernel
  have read : (parse text).value = .ok document := by cbv
  exact ⟨plain, read, .here [first] second [], by decide +kernel, by decide +kernel⟩

end Phrasebook.Document
