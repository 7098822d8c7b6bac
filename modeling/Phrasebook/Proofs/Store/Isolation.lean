import Phrasebook.Proofs.Store.Answer
import Phrasebook.Proofs.Store.Lookup

/-!
# Phrasebook.Proofs.Store.Isolation

What a store answers under one locale, whatever is said under others.

The keys at the top of a part may be flat, so what tells locales apart is not a key but its first
segment. Entries that begin with another segment than the locale can be left out before parts are
laid over one another, or afterwards (`restrict_mergeParts`), and no key under the locale is spelled
through one of them (`at?_restrict`). So two stores answer alike if they have the same parts up to
those that only speak of other locales (`Sound.answers_congr`), and a change to a part of that kind
goes unnoticed (`run_isolates_locales`).
-/

namespace Phrasebook

/-! ### Keys that begin elsewhere -/

namespace Key

variable {locale : Text}

/-- A key begins with a segment, and that is not the first one of a locale. -/
def IsForeign (locale key : Text) : Prop :=
  split key ≠ [] ∧ (split key).head? ≠ (split locale).head?

instance (locale : Text) : DecidablePred (IsForeign locale) :=
  fun _ => inferInstanceAs (Decidable (_ ∧ _))

/-- A key is not foreign to a locale. One without segments begins nowhere. -/
def isNative (locale key : Text) : Bool :=
  ¬ IsForeign locale key

theorem head?_localeSegments (named : split locale ≠ []) (key : Option Text) :
    (localeSegments key locale).head? = (split locale).head? :=
  List.head?_append_of_ne_nil _ named

theorem head?_split_join_localeSegments (named : split locale ≠ []) (key : Option Text) :
    (split (join (localeSegments key locale))).head? = (split locale).head? := by
  rw [split_join_of_segments fun _ => isSegment_of_mem_localeSegments,
    head?_localeSegments named]

/-- What a foreign key is the first part of begins elsewhere. -/
theorem IsForeign.head?_split_join {key : Text} (foreign : IsForeign locale key)
    (path : List Text) : (split (join (key :: path))).head? ≠ (split locale).head? := by
  rw [split_join, List.flatMap_cons, List.head?_append_of_ne_nil _ foreign.1]
  exact foreign.2

end Key

/-- Every key at the top of a branch is foreign to a locale. -/
def Tree.IsForeign (locale : Text) (phrases : Branch) : Prop :=
  ∀ key ∈ phrases.keys, Key.IsForeign locale key

instance (locale : Text) (phrases : Branch) : Decidable (Tree.IsForeign locale phrases) :=
  inferInstanceAs (Decidable (∀ key ∈ phrases.keys, Key.IsForeign locale key))

theorem Tree.IsForeign.restrict_eq_nil {locale : Text} {phrases : Branch}
    (foreign : Tree.IsForeign locale phrases) : phrases.restrict (Key.isNative locale) = [] := by
  refine List.filter_eq_nil_iff.mpr fun entry member => ?_
  simpa [Key.isNative] using foreign entry.1 (Entries.mem_keys_of_mem member)

/-! ### Answers without foreign entries -/

section Restrict

variable {locale : Text} {entries : Branch} {parts : List Text}

/-- A key under the locale has no leaf below a foreign entry. -/
theorem Tree.filter_branchLeaves_restrict (below : ∀ entry ∈ entries, entry.2.Distinct)
    {key : Text} (native : (Key.split key).head? = (Key.split locale).head?) :
    (Tree.branchLeaves [] (entries.restrict (Key.isNative locale))).filter
        (fun leaf => Key.join leaf.1 = key) =
      (Tree.branchLeaves [] entries).filter fun leaf => Key.join leaf.1 = key := by
  induction entries with
  | nil => rfl
  | cons entry rest ih =>
    obtain ⟨first, value⟩ := entry
    obtain ⟨distinct, below⟩ := List.forall_mem_cons.mp below
    by_cases foreign : Key.IsForeign locale first
    · have named : first ≠ [] := by
        rintro rfl
        exact foreign.1 rfl
      -- No path through a foreign entry joins to a native key.
      have aside : (Tree.leaves [first] value).filter (fun leaf => Key.join leaf.1 = key) = [] := by
        refine List.filter_eq_nil_iff.mpr ?_
        rintro ⟨path, phrase⟩ member joins
        obtain ⟨full, -, rfl⟩ := (Tree.mem_leaves_iff distinct [first] path phrase).mp member
        refine foreign.head?_split_join (full.filter (· ≠ [])) ?_
        rw [← List.singleton_append, of_decide_eq_true joins, native]
      rw [Entries.restrict_cons_of_dropped _ (by simpa [Key.isNative] using foreign), ih below,
        Tree.branchLeaves, if_neg named, List.nil_append, List.filter_append, aside,
        List.nil_append]
    · rw [Entries.restrict_cons_of_kept _ (by simpa [Key.isNative] using foreign),
        Tree.branchLeaves, Tree.branchLeaves, List.filter_append, List.filter_append, ih below]

/-- What is under a native key is the same without the foreign entries. -/
theorem Lookup.get?_ofBranch_restrict (distinct : (Tree.branch entries).Distinct) {key : Text}
    (native : (Key.split key).head? = (Key.split locale).head?) :
    (ofBranch (entries.restrict (Key.isNative locale))).get? key = (ofBranch entries).get? key := by
  have below : ∀ entry ∈ entries, entry.2.Distinct := by
    cases distinct with
    | branch _ below => exact below
  rw [get?_ofBranch, get?_ofBranch, get?_foldl_record_filter,
    get?_foldl_record_filter (Tree.branchLeaves [] entries),
    Tree.filter_branchLeaves_restrict below native]

variable (segments : ∀ part ∈ parts, Key.IsSegment part)
  (native : parts.head? = (Key.split locale).head?) (asked : parts ≠ [])

include segments native asked

/-- A spelling of a key under the locale does not begin with a foreign key. -/
theorem Tree.at?_restrict {path : List Text} (spelling : Key.IsSpelling parts path) :
    (Tree.branch (entries.restrict (Key.isNative locale))).at? path =
      (Tree.branch entries).at? path := by
  obtain ⟨-, joins⟩ := (Key.isSpelling_iff segments path).mp spelling
  have whole : Key.split (Key.join path) = parts := by
    rw [joins, Key.split_join_of_segments segments]
  cases path with
  | nil => exact absurd whole.symm asked
  | cons key path =>
    -- The segments of the first key are the first ones of the whole.
    have kept : Key.isNative locale key := by
      refine decide_eq_true fun foreign => foreign.head?_split_join path ?_
      rw [whole, native]
    rw [at?_cons, at?_cons, child?_branch, child?_branch, Entries.get?_restrict _ kept]

/-- A walk from a native segment ends at the same without the foreign entries. -/
theorem Tree.walk_restrict :
    (Tree.branch (entries.restrict (Key.isNative locale))).walk parts 0 =
      (Tree.branch entries).walk parts 0 := by
  have leads (path : List Text) :
      (Tree.branch (entries.restrict (Key.isNative locale))).LeadsTo (· ≠ .null) parts path ↔
        (Tree.branch entries).LeadsTo (· ≠ .null) parts path :=
    and_congr_right fun spelling => by rw [at?_restrict segments native asked spelling]
  refine Option.ext fun found => ?_
  rw [walk_eq_some_iff segments, walk_eq_some_iff segments]
  simp only [Key.Highest.congr leads]
  refine exists_congr fun path => and_congr_right fun highest => ?_
  rw [at?_restrict segments native asked highest.1.1]

end Restrict

namespace Store

/-! ### Stores with the same native parts -/

variable {locale : Text}

/-- The parts with a key that is not foreign to a locale. -/
def nativeParts (locale : Text) (parts : List Part) : List Part :=
  parts.filter fun part => ¬ Tree.IsForeign locale part.phrases

theorem not_native_of_foreign {part : Part} (foreign : Tree.IsForeign locale part.phrases) :
    ¬ decide (¬ Tree.IsForeign locale part.phrases) := by
  simpa using foreign

/-- The native entries of the merged tree come from the native parts. -/
theorem restrict_mergeParts (locale : Text) (parts : List Part) :
    (mergeParts parts).restrict (Key.isNative locale) =
      (mergeParts (nativeParts locale parts)).restrict (Key.isNative locale) := by
  induction parts using List.reverseRecOn with
  | nil => rfl
  | append_singleton parts part ih =>
    have split : nativeParts locale (parts ++ [part]) =
        nativeParts locale parts ++ nativeParts locale [part] := List.filter_append ..
    rw [mergeParts_concat, Tree.restrict_merge, ih, split]
    by_cases foreign : Tree.IsForeign locale part.phrases
    · have dropped : nativeParts locale [part] = [] := by simp [nativeParts, foreign]
      rw [foreign.restrict_eq_nil, dropped, List.append_nil, Tree.merge]
    · have kept : nativeParts locale [part] = [part] := by simp [nativeParts, foreign]
      rw [kept, mergeParts_concat, Tree.restrict_merge]

/-- A part that only speaks of other locales defines nothing under this one. -/
theorem not_definesKey_of_foreign (named : Key.split locale ≠ []) (key : Option Text)
    {part : Part} (sound : part.Sound) (foreign : Tree.IsForeign locale part.phrases) :
    ¬ definesKey (Key.localeSegments key locale) part := by
  rw [definesKey_eq_has (fun _ => Key.isSegment_of_mem_localeSegments) sound, sound.lookup_eq,
    Entries.has, ← Lookup.get?_ofBranch_restrict sound.distinct
      (Key.head?_split_join_localeSegments named key), foreign.restrict_eq_nil]
  simp [Lookup.ofBranch, Tree.branchLeaves, Entries.get?]

/-- A key is defined by the first native part that has it. -/
theorem definingPart?_eq_of_nativeParts (named : Key.split locale ≠ []) {store : Store}
    (sound : store.Sound) {key : Text} (asked : key ≠ []) :
    store.definingPart? (some key) locale =
      (nativeParts locale store.parts).find?
        (definesKey (Key.localeSegments (some key) locale)) := by
  rw [definingPart?, askedKey?_some asked, nativeParts, List.find?_filter]
  refine List.find?_congr fun part member => ?_
  by_cases foreign : Tree.IsForeign locale part.phrases
  · simp [foreign, not_definesKey_of_foreign named _ (sound.parts_sound part member) foreign]
  · simp [foreign]

/-- Stores with the same parts, up to those that only speak of other locales, answer alike. -/
theorem Sound.answers_congr {one other : Store} (sound : one.Sound) (sound' : other.Sound)
    (named : Key.split locale ≠ [])
    (same : nativeParts locale one.parts = nativeParts locale other.parts) (key : Option Text) :
    (one.phrase? key locale).value = (other.phrase? key locale).value ∧
      one.definingPart? key locale = other.definingPart? key locale := by
  rcases key with _ | key
  · exact ⟨rfl, rfl⟩
  by_cases asked : key = []
  · subst asked
    exact ⟨rfl, rfl⟩
  have segments : ∀ part ∈ Key.localeSegments (some key) locale, Key.IsSegment part :=
    fun _ => Key.isSegment_of_mem_localeSegments
  have native := Key.head?_localeSegments named (some key)
  have joined := Key.head?_split_join_localeSegments named (some key)
  have long : Key.localeSegments (some key) locale ≠ [] :=
    List.append_ne_nil_of_left_ne_nil named _
  -- Both the flat view and a walk see the merged phrases without their foreign entries.
  have restricted : one.phrases.restrict (Key.isNative locale) =
      other.phrases.restrict (Key.isNative locale) := by
    rw [sound.phrases_eq, sound'.phrases_eq, restrict_mergeParts, same, ← restrict_mergeParts]
  have entry : one.lookup.get? (Key.join (Key.localeSegments (some key) locale)) =
      other.lookup.get? (Key.join (Key.localeSegments (some key) locale)) := by
    rw [sound.lookup_eq, sound'.lookup_eq, ← Lookup.get?_ofBranch_restrict sound.distinct joined,
      restricted, Lookup.get?_ofBranch_restrict sound'.distinct joined]
  have walked : (Tree.branch (one.phrases.restrict (Key.isNative locale))).walk _ 0 = _ :=
    Tree.walk_restrict segments native long
  rw [restricted, Tree.walk_restrict segments native long] at walked
  constructor
  · rw [phrase?_value one asked, phrase?_value other asked, entry, walked]
  · rw [definingPart?_eq_of_nativeParts named sound asked,
      definingPart?_eq_of_nativeParts named sound' asked, same]

/-! ### Changes to foreign parts -/

/-- A change to parts that only speak of other locales: one is registered, as a fragment, for a new
    file or in the place of another one, or one is taken away. -/
inductive Change.Foreign (locale : Text) (parts : List Part) : Change → Prop where
  | merge {phrases : Branch} {distinct : (Tree.branch phrases).Distinct}
      {document : Option Document} {sourceFile : Option String}
      (foreign : Tree.IsForeign locale phrases)
      (replaced : ∀ part ∈ parts, ∀ file, sourceFile = some file → part.sourceFile = some file →
        Tree.IsForeign locale part.phrases) :
      Foreign locale parts (.merge phrases distinct document sourceFile)
  | remove {file : String}
      (removed : ∀ part ∈ parts, part.sourceFile = some file →
        Tree.IsForeign locale part.phrases) :
      Foreign locale parts (.remove file)

theorem Change.Foreign.nativeParts_apply {change : Change} {store : Store}
    (foreign : change.Foreign locale store.parts) :
    nativeParts locale (store.apply change).parts = nativeParts locale store.parts := by
  cases foreign with
  | merge foreign replaced =>
    rw [apply_merge]
    exact filter_register_of_dropped (not_native_of_foreign foreign)
      fun other member file own same => not_native_of_foreign (replaced other member file own same)
  | remove removed =>
    rw [apply_remove]
    split
    · exact filter_unregister_of_dropped
        fun part member same => not_native_of_foreign (removed part member same)
    · rfl

/-- Whatever a store has been through, a change to parts that only speak of other locales changes no
    answer under this one, and no part that an answer is defined by. -/
theorem run_isolates_locales (scope : String) (defaultLocale : Text) (changes : List Change)
    (named : Key.split locale ≠ []) {change : Change}
    (foreign : change.Foreign locale (run scope defaultLocale changes).parts) (key : Option Text) :
    let before := run scope defaultLocale changes
    let after := run scope defaultLocale (changes ++ [change])
    (after.phrase? key locale).value = (before.phrase? key locale).value ∧
      after.definingPart? key locale = before.definingPart? key locale := by
  intro before after
  refine (run_sound ..).answers_congr (run_sound ..) named ?_ key
  rw [run_concat]
  exact foreign.nativeParts_apply

/-- A file is read again whose keys are flat and begin with `de` or, with a dot in front, with a
    segment that `en` is only the beginning of. -/
theorem run_isolates_locales_from_flat_keys :
    let changes : List Change :=
      [.merge [("de", .branch [("menu.open", .text "Auf")])] (by decide) none (some "de.yml"),
        .merge [("en.menu", .branch [("open", .text "Open")])] (by decide) none (some "en.yml")]
    let change : Change := .merge
      [(".english.menu", .branch [("open", .text "Op")]), ("de.en.menu.open", .text "Auf")]
      (by decide) none (some "de.yml")
    let after := run "app" "en" (changes ++ [change])
    Key.split "en" ≠ [] ∧ change.Foreign "en" (run "app" "en" changes).parts ∧
      (after.phrase? (some "menu.open") "en").value = some (Text.ofString "Open") ∧
      (after.definingPart? (some "menu.open") "en").bind (·.sourceFile) = some "en.yml" := by
  intro changes change after
  have named : Key.split (Text.ofString "en") ≠ [] := by decide
  have foreign : change.Foreign "en" (run "app" "en" changes).parts := by
    refine .merge (by decide) fun part member file source same => ?_
    cases source
    rcases List.mem_pair.mp member with rfl | rfl
    · decide
    · simp [Part.ofPhrases] at same
  obtain ⟨answer, definer⟩ := run_isolates_locales "app" "en" changes named foreign
    (some "menu.open")
  exact ⟨named, foreign, answer.trans (by decide), by rw [definer]; decide⟩

end Store

end Phrasebook
