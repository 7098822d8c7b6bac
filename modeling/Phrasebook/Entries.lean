/-!
# Phrasebook.Entries

Tables that remember the order in which their keys were first entered.

An entry keeps its place when its value is replaced, so the order of a table tells who named a key
first. Tables are small and read far more often than written, and a list of pairs has the whole of
the list library behind it.
-/

namespace Phrasebook

/-- Values by key, in order of first entry. -/
abbrev Entries (κ α : Type) := List (κ × α)

namespace Entries

variable {κ α : Type} [DecidableEq κ]

/-- The value entered first under a key. -/
@[specialize] def get? : Entries κ α → κ → Option α
  | [], _ => none
  | (k, v) :: rest, key => if k = key then some v else get? rest key

/-- Enters a value: a key that is there keeps its place, a new key goes to the end. -/
@[specialize] def insert : Entries κ α → κ → α → Entries κ α
  | [], key, value => [(key, value)]
  | (k, v) :: rest, key, value =>
    if k = key then (k, value) :: rest else (k, v) :: insert rest key value

/-- Enters every pair of a second table, in its order. -/
def insertAll (entries more : Entries κ α) : Entries κ α :=
  more.foldl (fun table pair => table.insert pair.1 pair.2) entries

/-- Drops every entry whose key is listed. -/
def without (entries : Entries κ α) (names : List κ) : Entries κ α :=
  entries.filter fun pair => !names.contains pair.1

def keys (entries : Entries κ α) : List κ :=
  entries.map (·.1)

def has (entries : Entries κ α) (key : κ) : Bool :=
  (entries.get? key).isSome

/-! ### Looking up what was entered -/

theorem get?_insert_self (entries : Entries κ α) (key : κ) (value : α) :
    (entries.insert key value).get? key = some value := by
  induction entries with
  | nil => simp [insert, get?]
  | cons pair rest ih =>
    by_cases h : pair.1 = key
    · simp [insert, get?, h]
    · simpa [insert, get?, h] using ih

theorem get?_insert_of_ne (entries : Entries κ α) {key other : κ} (value : α)
    (h : other ≠ key) : (entries.insert key value).get? other = entries.get? other := by
  induction entries with
  | nil => simp [insert, get?, h.symm]
  | cons pair rest ih =>
    by_cases hk : pair.1 = key
    · simp [insert, get?, hk, h.symm]
    · by_cases ho : pair.1 = other
      · simp [insert, get?, ho, h]
      · simpa [insert, get?, hk, ho] using ih

/-- A key keeps its place, and a new key comes last. -/
theorem keys_insert (entries : Entries κ α) (key : κ) (value : α) :
    (entries.insert key value).keys =
      if key ∈ entries.keys then entries.keys else entries.keys ++ [key] := by
  induction entries with
  | nil => rfl
  | cons pair rest ih =>
    by_cases h : pair.1 = key
    · simp [insert, keys, h]
    · have h' : key ≠ pair.1 := fun e => h e.symm
      by_cases hm : key ∈ Entries.keys rest
      · simp_all [insert, keys]
      · simp_all [insert, keys]

end Entries

end Phrasebook
