import Phrasebook.Proofs.Document.Visible
import Phrasebook.Proofs.Index.Run
import Phrasebook.Proofs.Store.Lookup

/-!
# Phrasebook.Proofs.Index.Definition

Which place an index gives for the definition of a key.

The part is chosen before the place: it is the first one whose table has the key, wherever it comes
from (`definition?_eq_some_iff`). A later part is not asked, even if the first one has no file or no
document, and so a definition that could be shown may be hidden (`definition?_isSome_iff`). The place
is that of a scalar in the document of the part, and as a rule this scalar has the phrase that the
table has for the key (`definition?_points_at_scalar`); in a regular document it always has
(`definition?_points_at_phrase`).
-/

namespace Phrasebook

theorem Store.OnePartPerFile.part?_eq {parts : List Part} (single : OnePartPerFile parts)
    {part : Part} (member : part ∈ parts) {file : String} (named : part.sourceFile = some file) :
    parts.find? (isFrom file) = some part := by
  induction parts with
  | nil => cases member
  | cons first rest ih =>
    obtain ⟨differ, single⟩ := List.pairwise_cons.mp single
    rw [List.find?_cons]
    rcases List.mem_cons.mp member with rfl | later
    · simp [isFrom, named]
    · have other : first.sourceFile ≠ some file := fun same => differ part later file same named
      simpa [isFrom, other] using ih single later

/-- A part has a file, and in its document the place of a key under a locale. -/
def Part.Locates (part : Part) (key : Option Text) (locale : Text) : Prop :=
  part.sourceFile.isSome ∧
    (part.document.bind fun document => (document.findValueRange? key locale).value).isSome

instance (part : Part) (key : Option Text) (locale : Text) : Decidable (part.Locates key locale) :=
  inferInstanceAs (Decidable (_ ∧ _))

namespace Index

/-- The first part of a store whose table has a key under a locale. -/
def firstWith? (store : Store) (key : Option Text) (locale : Text) : Option Part :=
  store.parts.find? (·.lookup.has (Key.join (Key.localeSegments key locale)))

/-- The part that defines a key is the first one with an entry for it. -/
theorem definingPart?_eq_firstWith? {store : Store} (tidy : Tidy store) {key : Text}
    (asked : key ≠ []) (locale : Text) :
    store.definingPart? (some key) locale = firstWith? store (some key) locale := by
  have segments : ∀ text ∈ Key.localeSegments (some key) locale, Key.IsSegment text :=
    fun _ => Key.isSegment_of_mem_localeSegments
  rw [Store.definingPart?, Store.askedKey?_some asked, firstWith?]
  exact List.find?_congr fun part member =>
    Store.definesKey_eq_has segments (tidy.sound.parts_sound part member)

section Store

variable (index : Index) {scope : String} {store : Store}
  (found : index.store? scope = some store)

include found

/-- A definition is the range of the value in the document of the first defining part, if that part
    has a file. -/
theorem value_definition? (key : Option Text) (locale : Text) :
    (index.definition? scope key locale).value =
      ((store.definingPart? key locale).bind (·.sourceFile)).bind fun file =>
        ((store.document? file).bind fun document =>
          (document.findValueRange? key locale).value).map fun range => (file, range) := by
  rw [definition?, definingPart?, found, Option.bind_some]
  cases (store.definingPart? key locale).bind (·.sourceFile) with
  | none => rfl
  | some file =>
    rw [Option.bind_some, Logged.value_bind, Logged.value_pure, valueRange?, found]
    simp only [Store.valueRange?]
    cases store.document? file <;> rfl

/-- A file and a place are given if the first part with the key is from the file and its document
    has the place. -/
theorem definition?_eq_some_iff (tidy : Tidy store) (key : Option Text) (locale : Text)
    (file : String) (range : SourceRange) :
    (index.definition? scope key locale).value = some (file, range) ↔
      ∃ part document, firstWith? store key locale = some part ∧ part.sourceFile = some file ∧
        part.document = some document ∧
        (document.findValueRange? key locale).value = some range := by
  rw [value_definition? index found]
  -- The part of the file is the first part with the key itself, as the file has no other part.
  have own {part : Part} (first : firstWith? store key locale = some part)
      (named : part.sourceFile = some file) : store.document? file = part.document := by
    rw [Store.document?, Store.part?,
      tidy.single.part?_eq (List.mem_of_find?_eq_some first) named]
    rfl
  cases key with
  | none => simp [Store.definingPart?, Store.askedKey?, Document.findValueRange?]
  | some key =>
    by_cases asked : key = []
    · simp [asked, Store.definingPart?, Store.askedKey?, Document.findValueRange?]
    · rw [definingPart?_eq_firstWith? tidy asked]
      simp only [Option.bind_eq_some_iff, Option.map_eq_some_iff, Prod.mk.injEq]
      constructor
      · rintro ⟨_, ⟨part, first, named⟩, range, ⟨document, held, located⟩, rfl, rfl⟩
        rw [own first named] at held
        exact ⟨part, document, first, named, held, located⟩
      · rintro ⟨part, document, first, named, held, located⟩
        exact ⟨file, ⟨part, first, named⟩, range, ⟨document, (own first named).trans held, located⟩,
          rfl, rfl⟩

/-- A place that is given was found in the document of the file, and the table that was drawn from
    the document has a phrase for the key. -/
theorem exists_document_of_definition? (tidy : Tidy store) {key : Option Text} {locale : Text}
    {file : String} {range : SourceRange}
    (defined : (index.definition? scope key locale).value = some (file, range)) :
    ∃ part document asked phrase, store.part? file = some part ∧ part.document = some document ∧
      document.Visible ∧ key = some asked ∧ asked ≠ [] ∧
      (document.findValueRange? (some asked) locale).value = some range ∧
      part.lookup = Lookup.ofBranch document.toBranch.value ∧
      part.lookup.get? (Key.join (Key.localeSegments (some asked) locale)) = some phrase := by
  obtain ⟨part, document, first, named, held, located⟩ :=
    (definition?_eq_some_iff index found tidy key locale file range).mp defined
  have member := List.mem_of_find?_eq_some first
  have own := tidy.single.part?_eq member named
  -- The part was read from a text, and its table comes from the document.
  obtain ⟨phrases, text, read⟩ := tidy.faithful part member document held
  have table : part.lookup = Lookup.ofBranch document.toBranch.value := by
    rw [(tidy.sound.parts_sound part member).lookup_eq, phrases]
  have defines := List.find?_some first
  obtain ⟨phrase, has⟩ := Option.isSome_iff_exists.mp defines
  cases key with
  | none => cases located
  | some key =>
    have asked : key ≠ [] := by
      rintro rfl
      cases located
    exact ⟨part, document, key, phrase, own, held, Document.visible_of_parse read, rfl, asked,
      located, table, has⟩

end Store

/-- Whatever an index has been through, it knows the place of a key if and only if the first part
    that has the key does so itself. -/
theorem definition?_isSome_iff (defaultLocale : Text) (changes : List Change) (scope : String)
    (key : Option Text) (locale : Text) :
    ((run defaultLocale changes).definition? scope key locale).value.isSome ↔
      ∃ store part, (run defaultLocale changes).store? scope = some store ∧
        firstWith? store key locale = some part ∧ part.Locates key locale := by
  cases found : (run defaultLocale changes).store? scope with
  | none => simp [definition?, definingPart?, found]
  | some store =>
    have place := definition?_eq_some_iff _ found (tidy_of_store?_run found) key locale
    simp only [Part.Locates, Option.isSome_iff_exists, Option.bind_eq_some_iff]
    constructor
    · rintro ⟨⟨file, range⟩, located⟩
      obtain ⟨part, document, first, named, held, inside⟩ := (place file range).mp located
      exact ⟨store, part, rfl, first, ⟨file, named⟩, range, document, held, inside⟩
    · rintro ⟨other, part, same, first, ⟨file, named⟩, range, document, held, inside⟩
      cases same
      exact ⟨(file, range), (place file range).mpr ⟨part, document, first, named, held, inside⟩⟩

/-- Whatever an index has been through, the place that it gives is the place of a scalar of the
    file, and the file has a phrase for the key. The phrase is the value of the scalar if the scalar
    is not null and no other one could be meant. -/
theorem definition?_points_at_scalar (defaultLocale : Text) (changes : List Change)
    (scope : String) (key : Option Text) (locale : Text) (file : String) (range : SourceRange)
    (defined : ((run defaultLocale changes).definition? scope key locale).value =
      some (file, range)) :
    ∃ store part document s path phrase,
      (run defaultLocale changes).store? scope = some store ∧ store.part? file = some part ∧
      part.document = some document ∧ s ∈ document.scalars ∧ s.range = range ∧
      document.at? path = some (.scalar s) ∧
      Key.join path = Key.join (Key.localeSegments key locale) ∧
      part.lookup.get? (Key.join (Key.localeSegments key locale)) = some phrase ∧
      (s.isNull = false → document.Unambiguous path → s.value = phrase) := by
  cases found : (run defaultLocale changes).store? scope with
  | none => simp [definition?, definingPart?, found] at defined
  | some store =>
    obtain ⟨part, document, asked, phrase, own, held, visible, rfl, full, located, table, has⟩ :=
      exists_document_of_definition? _ found (tidy_of_store?_run found) defined
    obtain ⟨path, s, leads, same, joins, value⟩ :=
      Document.value_eq_of_findValueRange? visible full located (by rw [← table, has])
    exact ⟨store, part, document, s, path, phrase, rfl, own, held,
      document.mem_scalars_of_at? leads, same, leads, joins, has, value⟩

/-- The file `e` only says that there is no value, and `f` has the key in two spellings. -/
theorem definition?_points_at_scalar_of_second_file :
    let changes := [.mergeText "app" "en: {a.b: ~}" (some "e"),
      .mergeText "app" "en: {a: {b: x}, a.b: y}" (some "f")]
    ((run "en" changes).definition? "app" (some "a.b") "en").value = some ("f", ⟨21, 22⟩) ∧
      ∃ store part document s path phrase,
        (run "en" changes).store? "app" = some store ∧ store.part? "f" = some part ∧
        part.document = some document ∧ s ∈ document.scalars ∧ s.range = ⟨21, 22⟩ ∧
        document.at? path = some (.scalar s) ∧
        Key.join path = Key.join (Key.localeSegments (some "a.b") "en") ∧
        part.lookup.get? (Key.join (Key.localeSegments (some "a.b") "en")) = some phrase ∧
        (s.isNull = false → document.Unambiguous path → s.value = phrase) := by
  intro changes
  have defined : ((run "en" changes).definition? "app" (some "a.b") "en").value =
      some ("f", ⟨21, 22⟩) := by
    decide +kernel
  exact ⟨defined, definition?_points_at_scalar _ changes _ _ _ _ _ defined⟩

/-- The text `en: {a.b: ~, a: {b: x}}`: the place is that of the null, which hides the phrase from
    the search but not from the table. -/
theorem definition?_points_at_written_null :
    let index := run "en" [.mergeText "app" "en: {a.b: ~, a: {b: x}}" (some "f")]
    (index.definition? "app" (some "a.b") "en").value = some ("f", ⟨10, 11⟩) ∧
      ∃ store ∈ index.store? "app", ∃ part ∈ store.part? "f", ∃ document ∈ part.document,
        part.lookup.get? (Key.join (Key.localeSegments (some "a.b") "en")) = some "x" ∧
        ∀ s ∈ document.scalars, ¬ (s.range = ⟨10, 11⟩ ∧ s.value = "x") := by
  decide +kernel

/-- Whatever an index has been through, a place in a file whose document is regular is that of a
    scalar with the very phrase that the file has for the key. -/
theorem definition?_points_at_phrase (defaultLocale : Text) (changes : List Change)
    (scope : String) (key : Option Text) (locale : Text) (file : String) (range : SourceRange)
    (regular : ∀ store, (run defaultLocale changes).store? scope = some store →
      ∀ document, store.document? file = some document → document.Regular)
    (defined : ((run defaultLocale changes).definition? scope key locale).value =
      some (file, range)) :
    ∃ store part document s,
      (run defaultLocale changes).store? scope = some store ∧ store.part? file = some part ∧
      part.document = some document ∧ s ∈ document.scalars ∧ s.range = range ∧
      part.lookup.get? (Key.join (Key.localeSegments key locale)) = some s.value := by
  cases found : (run defaultLocale changes).store? scope with
  | none => simp [definition?, definingPart?, found] at defined
  | some store =>
    obtain ⟨part, document, asked, phrase, own, held, visible, rfl, full, located, table, has⟩ :=
      exists_document_of_definition? _ found (tidy_of_store?_run found) defined
    have regular := regular store found document (by rw [Store.document?, own, Option.bind_some, held])
    obtain ⟨path, s, leads, same, rfl⟩ :=
      Document.value_eq_of_regular regular visible full located (by rw [← table, has])
    exact ⟨store, part, document, s, rfl, own, held, document.mem_scalars_of_at? leads, same, has⟩

/-- A fragment with the phrase, and after it the file `f` with the text `en: {hello: hi}`. -/
theorem definition?_hidden_by_fragment :
    let fragment : Branch := [("en", .branch [("hello", .text "hi")])]
    let index := run "en" [.mergeTree "app" fragment (by decide) none,
      .mergeText "app" "en: {hello: hi}" (some "f")]
    (index.definition? "app" (some "hello") "en").value = none ∧
      ∃ store ∈ index.store? "app", ∃ part ∈ store.parts,
        part.lookup.has (Key.join (Key.localeSegments (some "hello") "en")) ∧
        part.Locates (some "hello") "en" := by
  decide +kernel

end Index

end Phrasebook
