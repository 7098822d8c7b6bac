import Mathlib.Data.List.Nodup
import Phrasebook.Entries

/-!
# Phrasebook.Proofs.Entries

Tables seen through look-up. Where no key is entered twice, looking a key up and finding its pair in
the list are the same thing.
-/

namespace Phrasebook.Entries

variable {κ α β : Type} [DecidableEq κ]

omit [DecidableEq κ] in
theorem mem_keys_of_mem {entries : Entries κ α} {key : κ} {value : α}
    (member : (key, value) ∈ entries) : key ∈ entries.keys :=
  List.mem_map.mpr ⟨(key, value), member, rfl⟩

theorem get?_cons_self (key : κ) (value : α) (rest : Entries κ α) :
    get? ((key, value) :: rest) key = some value := by
  simp [get?]

theorem get?_cons_of_ne {key other : κ} (value : α) (rest : Entries κ α) (differ : key ≠ other) :
    get? ((key, value) :: rest) other = get? rest other := by
  simp [get?, differ]

theorem get?_eq_none_iff (entries : Entries κ α) (key : κ) :
    entries.get? key = none ↔ key ∉ entries.keys := by
  induction entries with
  | nil => simp [get?, keys]
  | cons pair rest ih =>
    by_cases same : pair.1 = key
    · simp [get?, keys, same]
    · have differ : key ≠ pair.1 := fun e => same e.symm
      simpa [get?, keys, same, differ] using ih

theorem mem_of_get? {entries : Entries κ α} {key : κ} {value : α}
    (found : entries.get? key = some value) : (key, value) ∈ entries := by
  induction entries with
  | nil => simp [get?] at found
  | cons pair rest ih =>
    by_cases same : pair.1 = key
    · have equal : pair.2 = value := by simpa [get?, same] using found
      subst same equal
      exact List.mem_cons_self
    · have later : get? rest key = some value := by simpa [get?, same] using found
      exact List.mem_cons_of_mem _ (ih later)

/-- Where no key is repeated, the value under a key is the one that is listed with it. -/
theorem get?_eq_some_iff {entries : Entries κ α} (distinct : entries.keys.Nodup) (key : κ)
    (value : α) : entries.get? key = some value ↔ (key, value) ∈ entries := by
  constructor
  · exact mem_of_get?
  · intro member
    induction entries with
    | nil => simp at member
    | cons pair rest ih =>
      obtain ⟨first, held⟩ := pair
      obtain ⟨absent, distinct⟩ := List.nodup_cons.mp distinct
      rcases List.mem_cons.mp member with equal | later
      · cases equal
        exact get?_cons_self key value rest
      · -- A key that is listed later is another one, as none is repeated.
        have differ : first ≠ key := by
          rintro rfl
          exact absent (mem_keys_of_mem later)
        rw [get?_cons_of_ne held rest differ]
        exact ih distinct later

/-- What is looked up in a table with every value rewritten is the rewritten value. -/
theorem get?_map (entries : Entries κ α) (f : α → β) (key : κ) :
    get? (entries.map fun pair => (pair.1, f pair.2)) key = (entries.get? key).map f := by
  induction entries with
  | nil => rfl
  | cons pair rest ih =>
    by_cases same : pair.1 = key
    · simp [get?, same]
    · simpa [get?, same] using ih

theorem insert_eq_append {entries : Entries κ α} {key : κ} (absent : key ∉ entries.keys)
    (value : α) : entries.insert key value = entries ++ [(key, value)] := by
  induction entries with
  | nil => rfl
  | cons pair rest ih =>
    obtain ⟨differ, later⟩ := not_or.mp (absent ∘ List.mem_cons.mpr)
    rw [insert, if_neg (Ne.symm differ), ih later, List.cons_append]

theorem nodup_keys_insert {entries : Entries κ α} (distinct : entries.keys.Nodup) (key : κ)
    (value : α) : (entries.insert key value).keys.Nodup := by
  rw [keys_insert]
  split
  next => exact distinct
  next absent => exact List.nodup_append.mpr ⟨distinct, List.nodup_singleton key, by
    intro held member other single
    rw [List.mem_singleton.mp single]
    rintro rfl
    exact absent member⟩

/-- Tables without repeated keys that answer alike have the same entries. -/
theorem perm_of_get? {entries others : Entries κ α} (distinct : entries.keys.Nodup)
    (distinct' : others.keys.Nodup) (same : ∀ key, entries.get? key = others.get? key) :
    entries.Perm others := by
  refine (List.perm_ext_iff_of_nodup (List.Nodup.of_map _ distinct)
    (List.Nodup.of_map _ distinct')).mpr fun pair => ?_
  rw [← get?_eq_some_iff distinct, ← get?_eq_some_iff distinct', same]

/-- Tables whose keys come in the same order are the same if they answer alike. -/
theorem ext_get? {entries others : Entries κ α} (distinct : entries.keys.Nodup)
    (sameKeys : entries.keys = others.keys)
    (same : ∀ key, entries.get? key = others.get? key) : entries = others := by
  induction entries generalizing others with
  | nil => exact (List.map_eq_nil_iff.mp sameKeys.symm).symm
  | cons pair rest ih =>
    cases others with
    | nil => cases sameKeys
    | cons other more =>
      obtain ⟨key, value⟩ := pair
      obtain ⟨_, value'⟩ := other
      obtain ⟨rfl, sameRest⟩ := List.cons.inj sameKeys
      change keys rest = keys more at sameRest
      obtain ⟨absent, distinct⟩ := List.nodup_cons.mp distinct
      have first := same key
      rw [get?_cons_self, get?_cons_self] at first
      cases first
      -- The first entries hide what the rests have under their key, which is nothing.
      rw [ih distinct sameRest fun other => ?_]
      by_cases here : key = other
      · subst here
        rw [(get?_eq_none_iff rest key).mpr absent,
          (get?_eq_none_iff more key).mpr (sameRest ▸ absent)]
      · simpa only [get?_cons_of_ne _ _ here] using same other

/-- An entry of the table after an insertion is the inserted one or was there before. -/
theorem mem_insert {entries : Entries κ α} {key : κ} {value : α} {pair : κ × α}
    (member : pair ∈ entries.insert key value) : pair = (key, value) ∨ pair ∈ entries := by
  induction entries with
  | nil => simpa [insert] using member
  | cons first rest ih =>
    by_cases same : first.1 = key
    · rcases List.mem_cons.mp (by simpa [insert, same] using member) with new | old
      · exact .inl new
      · exact .inr (List.mem_cons_of_mem _ old)
    · rcases List.mem_cons.mp (by simpa [insert, same] using member) with old | later
      · exact .inr (old ▸ List.mem_cons_self)
      · exact (ih later).imp_right (List.mem_cons_of_mem _)

/-! ### Entering a whole table -/

theorem insertAll_cons (entries : Entries κ α) (key : κ) (value : α) (rest : Entries κ α) :
    entries.insertAll ((key, value) :: rest) = (entries.insert key value).insertAll rest := rfl

/-- After a table has been entered, its values are found first. -/
theorem get?_insertAll {more : Entries κ α} (distinct : more.keys.Nodup) (entries : Entries κ α)
    (key : κ) : (entries.insertAll more).get? key = (more.get? key).or (entries.get? key) := by
  induction more generalizing entries with
  | nil => rfl
  | cons pair rest ih =>
    obtain ⟨first, value⟩ := pair
    obtain ⟨absent, distinct⟩ := List.nodup_cons.mp distinct
    rw [insertAll_cons, ih distinct]
    by_cases same : first = key
    · subst same
      rw [(get?_eq_none_iff rest first).mpr absent, get?_insert_self, get?_cons_self]
      rfl
    · rw [get?_insert_of_ne entries value (Ne.symm same), get?_cons_of_ne value rest same]

theorem nodup_keys_insertAll {entries : Entries κ α} (distinct : entries.keys.Nodup)
    (more : Entries κ α) : (entries.insertAll more).keys.Nodup := by
  induction more generalizing entries with
  | nil => exact distinct
  | cons pair rest ih => exact ih (nodup_keys_insert distinct pair.1 pair.2)

/-- Entries whose keys are all new are appended in their order. -/
theorem insertAll_eq_append {entries more : Entries κ α} (distinct : more.keys.Nodup)
    (fresh : ∀ key ∈ more.keys, key ∉ entries.keys) : entries.insertAll more = entries ++ more := by
  induction more generalizing entries with
  | nil => exact (List.append_nil entries).symm
  | cons pair rest ih =>
    obtain ⟨key, value⟩ := pair
    obtain ⟨absent, distinct⟩ := List.nodup_cons.mp distinct
    obtain ⟨new, fresh⟩ := List.forall_mem_cons.mp fresh
    rw [insertAll_cons, insert_eq_append new, ih distinct, List.append_assoc]
    · rfl
    · -- The keys to come are neither old ones nor the one just entered.
      intro other member held
      rw [keys, List.map_append, List.mem_append] at held
      rcases held with old | entered
      · exact fresh other member old
      · exact absent (List.mem_singleton.mp entered ▸ member)

/-! ### Leaving out keys -/

section Restrict

variable (kept : κ → Bool)

/-- The entries whose keys are kept, in their order. -/
def restrict (entries : Entries κ α) : Entries κ α :=
  entries.filter fun pair => kept pair.1

omit [DecidableEq κ] in
theorem restrict_cons_of_kept {key : κ} (keeps : kept key) (value : α) (rest : Entries κ α) :
    restrict kept ((key, value) :: rest) = (key, value) :: restrict kept rest :=
  List.filter_cons_of_pos keeps

omit [DecidableEq κ] in
theorem restrict_cons_of_dropped {key : κ} (drops : ¬ kept key) (value : α) (rest : Entries κ α) :
    restrict kept ((key, value) :: rest) = restrict kept rest :=
  List.filter_cons_of_neg drops

theorem get?_restrict {key : κ} (keeps : kept key) (entries : Entries κ α) :
    (entries.restrict kept).get? key = entries.get? key := by
  induction entries with
  | nil => rfl
  | cons pair rest ih =>
    obtain ⟨first, value⟩ := pair
    by_cases same : first = key
    · subst same
      rw [restrict_cons_of_kept kept keeps, get?_cons_self, get?_cons_self]
    · rw [get?_cons_of_ne value rest same]
      by_cases held : kept first
      · rw [restrict_cons_of_kept kept held, get?_cons_of_ne value _ same, ih]
      · rw [restrict_cons_of_dropped kept held, ih]

theorem get?_restrict_of_dropped {key : κ} (drops : ¬ kept key) (entries : Entries κ α) :
    (entries.restrict kept).get? key = none := by
  rw [get?_eq_none_iff]
  intro member
  obtain ⟨pair, inside, rfl⟩ := List.mem_map.mp member
  exact drops (List.mem_filter.mp inside).2

omit [DecidableEq κ] in
theorem nodup_keys_restrict {entries : Entries κ α} (distinct : entries.keys.Nodup) :
    (entries.restrict kept).keys.Nodup :=
  distinct.sublist (List.filter_sublist.map _)

/-- Leaving out keys and entering a key that is kept can be done in either order. -/
theorem restrict_insert_of_kept {key : κ} (keeps : kept key) (entries : Entries κ α) (value : α) :
    (entries.insert key value).restrict kept = (entries.restrict kept).insert key value := by
  induction entries with
  | nil => simp [insert, restrict, keeps]
  | cons pair rest ih =>
    obtain ⟨first, held⟩ := pair
    by_cases same : first = key
    · subst same
      simp [insert, restrict, keeps]
    · rw [insert, if_neg same]
      by_cases here : kept first
      · rw [restrict_cons_of_kept kept here, restrict_cons_of_kept kept here, ih, insert,
          if_neg same]
      · rw [restrict_cons_of_dropped kept here, restrict_cons_of_dropped kept here, ih]

theorem restrict_insert_of_dropped {key : κ} (drops : ¬ kept key) (entries : Entries κ α)
    (value : α) : (entries.insert key value).restrict kept = entries.restrict kept := by
  induction entries with
  | nil => exact restrict_cons_of_dropped kept drops value []
  | cons pair rest ih =>
    obtain ⟨first, held⟩ := pair
    by_cases same : first = key
    · subst same
      simp [insert, restrict, drops]
    · rw [insert, if_neg same]
      by_cases here : kept first
      · rw [restrict_cons_of_kept kept here, restrict_cons_of_kept kept here, ih]
      · rw [restrict_cons_of_dropped kept here, restrict_cons_of_dropped kept here, ih]

end Restrict

end Phrasebook.Entries
