import Phrasebook.Proofs.Store.Answer

/-!
# Phrasebook.Proofs.Store.Completion

Keys that are offered as completions, looked up again.

A completion is a key of the flat view, written as its branches write it. Asked for again, it is
cut at one of its dots into a locale and a key, and both are split into segments. Only a tidy key is
what its segments join to, so only for a tidy one is the answer certain to be its own phrase
(`run_completion_resolves`). Any other key is asked for without its superfluous dots, and may have
no answer at all (`run_completion_lost_in_dots`).
-/

namespace Phrasebook.Store

variable {store : Store}

theorem exists_phrase_of_mem_keysStartingWith {start key : Text}
    (listed : key ∈ store.keysStartingWith start) :
    ∃ phrase, store.lookupKey? key = some phrase := by
  obtain ⟨member, -⟩ := List.mem_filter.mp listed
  cases found : store.lookupKey? key with
  | none => exact absurd member ((Entries.get?_eq_none_iff _ _).mp found)
  | some phrase => exact ⟨phrase, rfl⟩

/-- The dot between a locale and a key is one of the dots that the full key is split at. -/
theorem localeSegments_eq_split (locale rest : Text) :
    Key.localeSegments (some rest) locale = Key.split (locale ++ Key.separator :: rest) :=
  (Key.split_append_separator locale rest).symm

/-- A completion has a phrase. Cut at a dot into a locale and a key that is not empty, it is
    answered by the phrase of the tidied key, if that has one; so a tidy completion is answered by
    its own phrase. -/
theorem run_completion_resolves (scope : String) (defaultLocale : Text) (changes : List Change)
    {start locale rest : Text} (left : rest ≠ [])
    (listed : locale ++ Key.separator :: rest ∈
      (run scope defaultLocale changes).keysStartingWith start) :
    let store := run scope defaultLocale changes
    let key := locale ++ Key.separator :: rest
    (∃ phrase, store.lookupKey? key = some phrase) ∧
      (∀ phrase, store.lookupKey? (Key.join (Key.split key)) = some phrase →
        (store.phrase? (some rest) locale).value = some phrase) ∧
      (Key.IsTidy key → (store.phrase? (some rest) locale).value = store.lookupKey? key) := by
  intro store key
  obtain ⟨phrase, found⟩ := exists_phrase_of_mem_keysStartingWith listed
  -- What is asked for is the tidy form of the key, whatever the key looks like.
  have tidied (phrase : Text) (found : store.lookupKey? (Key.join (Key.split key)) = some phrase) :
      (store.phrase? (some rest) locale).value = some phrase := by
    rw [← localeSegments_eq_split] at found
    exact phrase?_of_entry left found
  refine ⟨⟨phrase, found⟩, tidied, fun tidy => ?_⟩
  rw [tidied phrase (tidy.symm ▸ found), found]

/-- A key that a mapping spells with dots of its own. -/
theorem run_completion_resolves_across_parts :
    let changes : List Change :=
      [.merge [("en", .branch [("menu.file", .branch [("open", .text "Open")])])] (by decide) none
        (some "base.yml"),
      .merge [("en.menu", .branch [("file", .branch [("open", .text "Open file")])])]
        (by decide) none (some "more.yml")]
    let store := run "app" "en" changes
    ("en" ++ Key.separator :: "menu.file.open" : Text) ∈ store.keysStartingWith "en.me" ∧
      Key.IsTidy ("en" ++ Key.separator :: "menu.file.open" : Text) ∧
      (store.phrase? (some "menu.file.open") "en").value = some (Text.ofString "Open file") := by
  intro changes store
  have listed : ("en" ++ Key.separator :: "menu.file.open" : Text) ∈
      store.keysStartingWith "en.me" := by decide
  have tidy : Key.IsTidy ("en" ++ Key.separator :: "menu.file.open" : Text) := by decide
  have resolves := (run_completion_resolves "app" "en" changes (by decide) listed).2.2 tidy
  exact ⟨listed, tidy, resolves.trans (by decide)⟩

/-- A key that begins with a dot is offered, and not found again. -/
theorem run_completion_lost_in_dots :
    let store := run "app" "en"
      [.merge [("en", .branch [(".a", .text "x")])] (by decide) none (some "f")]
    let locale : Text := "en"
    let rest : Text := ".a"
    let key := locale ++ Key.separator :: rest
    key ∈ store.keysStartingWith "en." ∧ locale ≠ [] ∧ Key.separator ∉ locale ∧ rest ≠ [] ∧
      store.lookupKey? key = some (Text.ofString "x") ∧
      (store.phrase? (some rest) locale).value = none := by
  decide

end Phrasebook.Store
