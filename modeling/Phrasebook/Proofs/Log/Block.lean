import Phrasebook.Log
import Phrasebook.Proofs.Entries

/-!
# Phrasebook.Proofs.Log.Block

What entering a block makes of each field, and what leaving it makes of them.

A block binds the correlation identifier and the fields that it is given. Entering it hides what
these were and leaves all other fields alone (`get?_enter`). The frame that this gives undoes it: it
brings back what the fields of the block were, whatever was done to the context in the meantime
(`undoes_enter`).
-/

namespace Phrasebook.Log

namespace Binding

/-- The other fields of a block have names of their own, each of them once. -/
structure Proper (binding : Binding) : Prop where
  distinct : binding.others.keys.Nodup
  ofOtherNames : ∀ name ∈ binding.others.keys,
    name ∉ ["correlation_id", "scope", "source_file"]

instance : DecidablePred Proper := fun binding =>
  decidable_of_iff (binding.others.keys.Nodup ∧ ∀ name ∈ binding.others.keys,
      name ∉ ["correlation_id", "scope", "source_file"])
    ⟨fun ⟨distinct, ofOtherNames⟩ => ⟨distinct, ofOtherNames⟩,
      fun proper => ⟨proper.distinct, proper.ofOtherNames⟩⟩

/-- The fields that a block is given, but for the correlation identifier. -/
def fields (binding : Binding) : Fields :=
  Context.field? "scope" binding.scope ++ Context.field? "source_file" binding.sourceFile ++
    binding.others

/-- The names of the fields that a block binds. -/
def names (binding : Binding) : List String :=
  "correlation_id" :: binding.fields.keys

/-- The correlation identifier that a block is given, if it is not empty. -/
def ownId? (binding : Binding) : Option Value :=
  (binding.correlationId.filter (· ≠ "")).map fun (id : String) => .text id

end Binding

variable {binding : Binding} {context : Context}

/-! ### The fields of a block -/

/-- A block binds the correlation identifier first, and then its other fields. -/
theorem boundFields_eq (proper : binding.Proper) (id : Value) :
    Context.boundFields binding id = ("correlation_id", id) :: binding.fields := by
  rw [Context.boundFields, Entries.insertAll_eq_append proper.distinct]
  · rfl
  · -- Before the other fields, only fields of the three reserved names are entered.
    intro name member held
    refine proper.ofOtherNames name member ?_
    cases scope : binding.scope <;> cases file : binding.sourceFile <;>
      simp only [scope, file, Context.field?, Entries.keys, List.map_append, List.map_cons,
        List.map_nil, List.mem_append, List.mem_cons] at held ⊢ <;>
      tauto

theorem nodup_keys_boundFields (binding : Binding) (id : Value) :
    (Context.boundFields binding id).keys.Nodup := by
  rw [Context.boundFields]
  refine Entries.nodup_keys_insertAll ?_ _
  cases binding.scope <;> cases binding.sourceFile <;> simp [Context.field?, Entries.keys]

theorem get?_boundFields (proper : binding.Proper) (id : Value) (name : String) :
    (Context.boundFields binding id).get? name =
      if name = "correlation_id" then some id else binding.fields.get? name := by
  rw [boundFields_eq proper]
  by_cases same : name = "correlation_id"
  · rw [if_pos same, same, Entries.get?_cons_self]
  · rw [if_neg same, Entries.get?_cons_of_ne _ _ (Ne.symm same)]

theorem ne_correlationId_of_not_mem {name : String} (other : name ∉ binding.names) :
    name ≠ "correlation_id" := fun same => other (same ▸ List.mem_cons_self)

theorem get?_fields_of_not_mem {name : String} (other : name ∉ binding.names) :
    binding.fields.get? name = none :=
  (Entries.get?_eq_none_iff _ _).mpr fun member => other (List.mem_cons_of_mem _ member)

/-! ### Correlation identifiers -/

/-- A block with an identifier of its own takes that one, and none is issued. -/
theorem chooseId_of_ownId? {id : Value} (own : binding.ownId? = some id) (context : Context)
    (issued : Nat) : context.chooseId binding.correlationId issued = (id, issued) := by
  cases given : binding.correlationId with
  | none => simp [Binding.ownId?, given] at own
  | some text =>
    by_cases empty : text = ""
    · simp [Binding.ownId?, given, empty] at own
    · have same : Value.text text = id := by simpa [Binding.ownId?, given, empty] using own
      simp [Context.chooseId, same]

theorem chooseId_of_none (without : binding.ownId? = none) (context : Context) (issued : Nat) :
    context.chooseId binding.correlationId issued = context.inheritId issued := by
  cases given : binding.correlationId with
  | none => rfl
  | some text =>
    have empty : text = "" := by simpa [Binding.ownId?, given] using without
    rw [empty]
    rfl

theorem isBlank_of_ownId? {id : Value} (own : binding.ownId? = some id) : id.isBlank = false := by
  obtain ⟨text, given, rfl⟩ := Option.map_eq_some_iff.mp own
  have named : text ≠ "" := by simpa using (Option.filter_eq_some_iff.mp given).2
  have whole : Text.ofString text ≠ [] := fun empty => named (Text.ofString_inj.mp empty)
  simpa [Value.isBlank] using whole

theorem isBlank_of_correlationId? {id : Value} (bound : context.correlationId? = some id) :
    id.isBlank = false := by
  simpa using (Option.filter_eq_some_iff.mp bound).2

theorem inheritId_of_bound {id : Value} (bound : context.get? "correlation_id" = some id)
    (full : id.isBlank = false) (issued : Nat) : context.inheritId issued = (id, issued) := by
  have found : context.correlationId? = some id := by
    simp [Context.correlationId?, bound, full]
  simp only [Context.inheritId, found]

/-- The identifier that is inherited is the one of the context, or a new one. -/
theorem inheritId_fst (context : Context) (issued : Nat) :
    (context.inheritId issued).1 = context.correlationId?.getD (.issued issued) := by
  rw [Context.inheritId]
  cases context.correlationId? <;> rfl

/-! ### Entering and leaving -/

/-- On entering a block its fields have their values in it, and all others have those of before. -/
theorem get?_enter (proper : binding.Proper) (context : Context) (issued : Nat) (name : String) :
    (context.enter binding issued).1.get? name =
      if name = "correlation_id" then some (context.chooseId binding.correlationId issued).1
      else (binding.fields.get? name).or (context.get? name) := by
  rw [Context.enter]
  dsimp only
  rw [Entries.get?_insertAll (nodup_keys_boundFields binding _), get?_boundFields proper]
  split <;> rfl

theorem nodup_keys_enter (distinct : context.keys.Nodup) (binding : Binding) (issued : Nat) :
    (context.enter binding issued).1.keys.Nodup :=
  Entries.nodup_keys_insertAll distinct _

theorem leave_eq_restrict (context : Context) (frame : Frame) :
    context.leave frame =
      (context.restrict fun name => !frame.names.contains name).insertAll frame.saved := rfl

theorem nodup_keys_leave (distinct : context.keys.Nodup) (frame : Frame) :
    (context.leave frame).keys.Nodup := by
  rw [leave_eq_restrict]
  exact Entries.nodup_keys_insertAll (Entries.nodup_keys_restrict _ distinct) _

/-- The frame of a block holds what the context had for its fields. -/
theorem frame_enter (proper : binding.Proper) (context : Context) (issued : Nat) :
    (context.enter binding issued).2.1 =
      ⟨binding.names, context.restrict fun name => binding.names.contains name⟩ := by
  have bound : (Context.boundFields binding
      (context.chooseId binding.correlationId issued).1).keys = binding.names := by
    rw [boundFields_eq proper]
    rfl
  rw [← bound]
  rfl

/-- Leaving a block with the frame gives the fields of the block what they were `before`, and
    nothing to any other field. -/
def Frame.Undoes (frame : Frame) (binding : Binding) (before : String → Option Value) : Prop :=
  ∀ (inside : Context) (name : String), (inside.leave frame).get? name =
    if name ∈ binding.names then before name else inside.get? name

/-- Leaving a block undoes what entering it did. -/
theorem undoes_enter (proper : binding.Proper) (distinct : context.keys.Nodup) (issued : Nat) :
    (context.enter binding issued).2.1.Undoes binding context.get? := by
  intro inside name
  rw [frame_enter proper, leave_eq_restrict,
    Entries.get?_insertAll (Entries.nodup_keys_restrict _ distinct)]
  by_cases member : name ∈ binding.names
  · rw [if_pos member, Entries.get?_restrict _ (by simpa using member),
      Entries.get?_restrict_of_dropped _ (by simpa using member), Option.or_none]
  · rw [if_neg member, Entries.get?_restrict_of_dropped _ (by simpa using member),
      Entries.get?_restrict _ (by simpa using member), Option.none_or]

end Phrasebook.Log
