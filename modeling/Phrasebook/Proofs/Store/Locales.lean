import Phrasebook.Proofs.Store.Run

/-!
# Phrasebook.Proofs.Store.Locales

Which locales a store has, and in which order.

The locales are the topmost keys of the merged phrases. A part that is laid over others leaves the
keys that are there in their places and brings its new ones to the end, whatever it does to their
values. So the locales come in the order in which the registered parts name them first
(`keys_mergeParts`), and a part that has been taken away has no say in it.
-/

namespace Phrasebook.Store

/-! ### Keys without repetitions -/

theorem eraseDups_of_nodup {keys : List Text} (distinct : keys.Nodup) : keys.eraseDups = keys := by
  induction keys with
  | nil => rfl
  | cons key rest ih =>
    obtain ⟨absent, distinct⟩ := List.nodup_cons.mp distinct
    have others : rest.filter (fun other => !other == key) = rest := by
      refine List.filter_eq_self.mpr fun other member => ?_
      have differ : other ≠ key := fun same => absent (same ▸ member)
      simp [differ]
    rw [List.eraseDups_cons, others, ih distinct]

theorem head?_eraseDups (keys : List Text) : keys.eraseDups.head? = keys.head? := by
  cases keys with
  | nil => rfl
  | cons key rest => rw [List.eraseDups_cons, List.head?_cons, List.head?_cons]

/-- Merging lists the new keys after the old ones, each once. -/
theorem keys_merge_eraseDups (keys : List Text) {base newer : Branch}
    (listed : base.keys = keys.eraseDups) (distinct : newer.keys.Nodup) :
    (Tree.merge base newer).keys = (keys ++ newer.keys).eraseDups := by
  have new : newer.keys.filter (· ∉ base.keys) = newer.keys.removeAll keys := by
    refine List.filter_congr fun key _ => ?_
    simp [listed]
  have single : (newer.keys.removeAll keys).Nodup := distinct.filter _
  rw [Tree.keys_merge distinct, new, listed, List.eraseDups_append, eraseDups_of_nodup single]

/-! ### Keys of merged parts -/

/-- The topmost keys of merged parts are those of the parts, in the order in which they first come. -/
theorem keys_mergeParts {parts : List Part} (sound : ∀ part ∈ parts, part.Sound) :
    (mergeParts parts).keys = (parts.flatMap fun part => part.phrases.keys).eraseDups := by
  -- The newest part is laid over what the parts before it have been merged to.
  induction parts using List.reverseRecOn with
  | nil => rfl
  | append_singleton parts part ih =>
    have before := ih fun other member => sound other (by simp [member])
    rw [mergeParts_concat, keys_merge_eraseDups _ before (sound part (by simp)).distinct.here]
    simp

/-- The first key of all is that of the first part with any. -/
theorem findSome?_head?_keys (parts : List Part) :
    (parts.findSome? fun part => part.phrases.keys.head?) =
      (parts.find? fun part => part.phrases ≠ []).bind fun part => part.phrases.keys.head? := by
  induction parts with
  | nil => rfl
  | cons part rest ih =>
    cases named : part.phrases with
    | nil => simpa [named, Entries.keys] using ih
    | cons entry more => simp [named, Entries.keys]

/-- Whatever a store has been through, its locales are the topmost keys of the registered parts, one
    part after the other, each where it comes first. So the locale to fall back on is the first one
    of the first part that has any, and there are phrases under a locale if some part has the
    locale. -/
theorem run_locales_follow_parts (scope : String) (defaultLocale : Text) (changes : List Change) :
    let store := run scope defaultLocale changes
    store.phrases.keys = (store.parts.flatMap fun part => part.phrases.keys).eraseDups ∧
      store.fallbackLocale =
        ((store.parts.find? fun part => part.phrases ≠ []).bind
          fun part => part.phrases.keys.head?).getD defaultLocale ∧
      ∀ locale, store.hasLocale locale ↔ ∃ part ∈ store.parts, locale ∈ part.phrases.keys := by
  intro store
  have sound : store.Sound := run_sound scope defaultLocale changes
  have listed : store.phrases.keys =
      (store.parts.flatMap fun part => part.phrases.keys).eraseDups := by
    rw [sound.phrases_eq]
    exact keys_mergeParts sound.parts_sound
  refine ⟨listed, ?_, fun locale => ?_⟩
  · -- The first key of all the parts is that of the first part with phrases.
    have same : store.defaultLocale = defaultLocale := (frame_run scope defaultLocale changes).2
    rw [fallbackLocale, List.headD_eq_head?_getD, listed, head?_eraseDups, List.head?_flatMap,
      findSome?_head?_keys, same]
  · have named : store.hasLocale locale ↔ locale ∈ store.phrases.keys := by
      rw [hasLocale, Entries.has, Option.isSome_iff_ne_none, Ne, Entries.get?_eq_none_iff, not_not]
    rw [named, listed, List.mem_eraseDups, List.mem_flatMap]

/-- A locale keeps its place when a later part makes a leaf of it, and loses it with its part. -/
example :
    let base : Change := .merge [("en", .branch [("a", .text "1")]), ("fr", .null)] (by decide) none
      (some "base.yml")
    let more : Change := .merge [("de", .branch []), ("en", .text "2")] (by decide) none
      (some "more.yml")
    (run "app" "it" [base, more]).phrases.keys = (["en", "fr", "de"] : List Text) ∧
      (run "app" "it" [base, more, .remove "base.yml"]).fallbackLocale = "de" ∧
      (run "app" "it" [base, .remove "base.yml"]).fallbackLocale = "it" := by decide

end Phrasebook.Store
