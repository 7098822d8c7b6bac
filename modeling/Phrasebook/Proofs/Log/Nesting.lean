import Phrasebook.Proofs.Log.Block

/-!
# Phrasebook.Proofs.Log.Nesting

Blocks within blocks, and failures in them.

Work is a tree, and comes down to the steps that a session takes. However it goes, each block that
it enters it also leaves (`frames_run`), and leaving undoes just this block. While nothing is
cleared, `Inside` holds at every step: a field is what the innermost block around it bound, and a
correlation identifier comes from the nearest block that was given one, or else from the outermost
block, which takes over or issues the only one (`Inside.run`). Both together are `blocks_nest`.
-/

namespace Phrasebook.Log

/-! ### Work -/

/-- What is done while fields are bound, with every choice made and every repetition written out. A
    failure breaks off the work around it, up to where it is met. -/
inductive Work where
  | idle
  | clear
  | fail
  | block (binding : Binding) (proper : binding.Proper) (body : Work)
  | andThen (first second : Work)
  | orElse (attempt remedy : Work)

namespace Work

def completes : Work → Bool
  | idle | clear => true
  | fail => false
  | block _ _ body => body.completes
  | andThen first second => first.completes && second.completes
  | orElse attempt remedy => attempt.completes || remedy.completes

/-- The steps of the work. A block is left whether or not its body completes. -/
def steps : Work → List Step
  | idle | fail => []
  | clear => [.clear]
  | block binding _ body => .enter binding :: (body.steps ++ [.leave])
  | andThen first second => first.steps ++ if first.completes then second.steps else []
  | orElse attempt remedy => attempt.steps ++ if attempt.completes then [] else remedy.steps

/-- The steps of any work are put together from blocks and clearings. What holds of these, and of
    steps one after the other, holds whether or not something fails. -/
theorem steps_induction {P : List Step → Prop} (nil : P []) (clear : P [.clear])
    (block : ∀ (binding : Binding) (body : List Step), binding.Proper → P body →
      P (.enter binding :: (body ++ [.leave])))
    (append : ∀ steps more, P steps → P more → P (steps ++ more)) (work : Work) :
    P work.steps := by
  induction work with
  | idle | fail => exact nil
  | clear => exact clear
  | block binding proper body ih => exact block binding body.steps proper ih
  | andThen first second ih ih' =>
    -- The second piece of work is only begun if the first one has not failed.
    refine append _ _ ih ?_
    split
    next => exact ih'
    next => exact nil
  | orElse attempt remedy ih ih' =>
    -- The remedy is only begun if the attempt has failed.
    refine append _ _ ih ?_
    split
    next => exact nil
    next => exact ih'

theorem proper_of_mem_steps (work : Work) :
    ∀ binding, .enter binding ∈ work.steps → binding.Proper := by
  refine steps_induction (P := fun steps => ∀ binding, .enter binding ∈ steps → binding.Proper)
    (by simp) (by simp) ?_ ?_ work
  · intro own body proper inner binding member
    rcases List.mem_cons.mp member with here | inside
    · cases here
      exact proper
    · exact inner binding (by simpa using inside)
  · intro steps more early late binding member
    exact (List.mem_append.mp member).elim (early binding) (late binding)

end Work

/-! ### Blocks that are open -/

/-- The blocks that are open after a step, innermost first, by those before it. There are none if
    the step closes a block that is not among these. -/
def Step.opens? (blocks : List Binding) : Step → Option (List Binding)
  | .enter binding => some (binding :: blocks)
  | .leave => blocks.tail?
  | .clear => some blocks

/-- The blocks that are open after some steps, innermost first. -/
def openAfter? (blocks : List Binding) (steps : List Step) : Option (List Binding) :=
  steps.foldlM Step.opens? blocks

theorem openAfter?_append (blocks : List Binding) (steps more : List Step) :
    openAfter? blocks (steps ++ more) =
      (openAfter? blocks steps).bind fun later => openAfter? later more :=
  List.foldlM_append

/-- A piece of work closes all the blocks that it opens. -/
theorem openAfter?_steps (work : Work) :
    ∀ blocks, openAfter? blocks work.steps = some blocks := by
  refine work.steps_induction (P := fun steps => ∀ blocks, openAfter? blocks steps = some blocks)
    (fun _ => rfl) (fun _ => rfl) ?_ ?_
  · intro binding body _ inner blocks
    change openAfter? (binding :: blocks) (body ++ [.leave]) = some blocks
    rw [openAfter?_append, inner]
    rfl
  · intro steps more early late blocks
    rw [openAfter?_append, early, Option.bind_some, late]

/-- On the way through some work, no block is closed that the work has not opened. -/
theorem exists_openAfter?_of_isPrefix {steps : List Step} {work : Work}
    (begins : steps <+: work.steps) : ∃ inner, openAfter? [] steps = some inner := by
  obtain ⟨rest, whole⟩ := begins
  have closed := openAfter?_steps work []
  rw [← whole, openAfter?_append] at closed
  obtain ⟨inner, opened, _⟩ := Option.bind_eq_some_iff.mp closed
  exact ⟨inner, opened⟩

/-! ### A session at work -/

namespace Session

def run (s : Session) (steps : List Step) : Session :=
  steps.foldl step s

theorem run_append (s : Session) (steps more : List Step) :
    s.run (steps ++ more) = (s.run steps).run more :=
  List.foldl_append

theorem step_enter (s : Session) (binding : Binding) :
    s.step (.enter binding) =
      ⟨(s.context.enter binding s.issued).1, (s.context.enter binding s.issued).2.1 :: s.frames,
        (s.context.enter binding s.issued).2.2⟩ := rfl

/-- Leaving gives the context back what the innermost frame holds. -/
theorem step_leave {s : Session} {frame : Frame} {frames : List Frame}
    (top : s.frames = frame :: frames) :
    s.step .leave = { s with context := s.context.leave frame, frames := frames } := by
  simp only [step, top]

/-- A block whose body leaves what it enters ends with its own frame. -/
theorem run_block {s : Session} {binding : Binding} {body : List Step}
    (kept : ((s.step (.enter binding)).run body).frames = (s.step (.enter binding)).frames) :
    s.run (.enter binding :: (body ++ [.leave])) =
      { (s.step (.enter binding)).run body with
        context := ((s.step (.enter binding)).run body).context.leave
          (s.context.enter binding s.issued).2.1
        frames := s.frames } := by
  change (s.step (.enter binding)).run (body ++ [.leave]) = _
  rw [run_append]
  exact step_leave kept

/-- Work leaves every block that it enters, and no other one. -/
theorem frames_run (work : Work) : ∀ s : Session, (s.run work.steps).frames = s.frames := by
  refine work.steps_induction (P := fun steps => ∀ s : Session, (s.run steps).frames = s.frames)
    (fun _ => rfl) (fun _ => rfl) ?_ ?_
  · intro binding body _ inner s
    rw [run_block (inner _)]
  · intro steps more early late s
    rw [run_append, late, early]

/-! ### Inside the outermost block -/

/-- What a field is within some blocks, innermost first, that were entered from a session: what the
    nearest block gives it, or else what it was before. A correlation identifier that neither a
    block nor the context gives is issued, once for all of them. -/
def seen (s : Session) (blocks : List Binding) (name : String) : Option Value :=
  if name = "correlation_id" then
    some (((blocks.findSome? Binding.ownId?).or s.context.correlationId?).getD (.issued s.issued))
  else (blocks.findSome? fun binding => binding.fields.get? name).or (s.context.get? name)

/-- The identifier that is seen is the nearest one that is given, or a new one. -/
theorem seen_correlationId (s : Session) (blocks : List Binding) :
    s.seen blocks "correlation_id" =
      some (((blocks.findSome? Binding.ownId?).or s.context.correlationId?).getD
        (.issued s.issued)) :=
  if_pos rfl

theorem seen_cons_of_none {binding : Binding} (without : binding.ownId? = none) (s : Session)
    (blocks : List Binding) :
    s.seen (binding :: blocks) "correlation_id" = s.seen blocks "correlation_id" := by
  rw [seen_correlationId, seen_correlationId, List.findSome?_cons, without]

theorem seen_cons_of_some {binding : Binding} {id : Value} (own : binding.ownId? = some id)
    (s : Session) (blocks : List Binding) :
    s.seen (binding :: blocks) "correlation_id" = some id := by
  rw [seen_correlationId, List.findSome?_cons, own]
  rfl

theorem seen_nil_of_ne {name : String} (other : name ≠ "correlation_id") (s : Session) :
    s.seen [] name = s.context.get? name := by
  rw [seen, if_neg other]
  rfl

theorem seen_cons_of_ne {name : String} (other : name ≠ "correlation_id") (s : Session)
    (binding : Binding) (blocks : List Binding) :
    s.seen (binding :: blocks) name = (binding.fields.get? name).or (s.seen blocks name) := by
  rw [seen, seen, if_neg other, if_neg other, List.findSome?_cons]
  cases binding.fields.get? name <;> rfl

/-- A block hides nothing that is not among its fields. -/
theorem seen_cons_of_not_mem {binding : Binding} {name : String} (other : name ∉ binding.names)
    (s : Session) (blocks : List Binding) :
    s.seen (binding :: blocks) name = s.seen blocks name := by
  rw [seen_cons_of_ne (ne_correlationId_of_not_mem other), get?_fields_of_not_mem other,
    Option.none_or]

/-- Every identifier that is seen can be taken over. -/
theorem exists_seen_correlationId (s : Session) (blocks : List Binding) :
    ∃ id, s.seen blocks "correlation_id" = some id ∧ id.isBlank = false := by
  refine ⟨_, seen_correlationId s blocks, ?_⟩
  cases own : blocks.findSome? Binding.ownId? with
  | some id =>
    obtain ⟨binding, _, given⟩ := List.exists_of_findSome?_eq_some own
    exact isBlank_of_ownId? given
  | none =>
    cases bound : s.context.correlationId? with
    | some id => exact isBlank_of_correlationId? bound
    | none => rfl

/-- The frames of the blocks within an outermost one, innermost first. Each brings back what is seen
    in the blocks around its own. -/
inductive Framed (s : Session) (outer : Binding) : List Binding → List Frame → Prop where
  | outermost (frames : List Frame) : Framed s outer [] frames
  | within {binding : Binding} {frame : Frame} {inner : List Binding} {frames : List Frame}
      (undoes : frame.Undoes binding (s.seen (inner ++ [outer])))
      (around : Framed s outer inner frames) : Framed s outer (binding :: inner) (frame :: frames)

/-- A session `t` has come from a session `s` into an outermost block, and is within some inner
    blocks there, innermost first. -/
structure Inside (s : Session) (outer : Binding) (inner : List Binding) (t : Session) : Prop where
  distinct : t.context.keys.Nodup
  sees : ∀ name, t.context.get? name = s.seen (inner ++ [outer]) name
  issued : t.issued = (s.step (.enter outer)).issued
  framed : Framed s outer inner t.frames

variable {s t : Session} {outer : Binding} {inner : List Binding}

/-- Entering the outermost block leads into it, within no inner one. -/
theorem inside_enter (distinct : s.context.keys.Nodup) (proper : outer.Proper) :
    Inside s outer [] (s.step (.enter outer)) := by
  refine ⟨nodup_keys_enter distinct outer s.issued, fun name => ?_, rfl, .outermost _⟩
  rw [step_enter, get?_enter proper]
  split
  next same =>
    subst same
    cases own : outer.ownId? with
    | some id => rw [chooseId_of_ownId? own, List.nil_append, seen_cons_of_some own]
    | none =>
      rw [chooseId_of_none own, inheritId_fst, List.nil_append, seen_cons_of_none own,
        seen_correlationId]
      rfl
  next other => rw [List.nil_append, seen_cons_of_ne other, seen_nil_of_ne other]

namespace Inside

theorem enter {binding : Binding} (h : Inside s outer inner t) (proper : binding.Proper) :
    Inside s outer (binding :: inner) (t.step (.enter binding)) := by
  -- The identifier around the block can be taken over, so no other one is issued.
  obtain ⟨id, around, full⟩ := exists_seen_correlationId s (inner ++ [outer])
  have inherited := inheritId_of_bound ((h.sees _).trans around) full t.issued
  have undoes := undoes_enter proper h.distinct t.issued
  rw [funext h.sees] at undoes
  refine ⟨nodup_keys_enter h.distinct binding t.issued, fun name => ?_, ?_,
    .within undoes h.framed⟩
  · rw [step_enter, get?_enter proper, List.cons_append]
    split
    next same =>
      subst same
      cases own : binding.ownId? with
      | some id => rw [chooseId_of_ownId? own, seen_cons_of_some own]
      | none => rw [chooseId_of_none own, inherited, seen_cons_of_none own, around]
    next other => rw [seen_cons_of_ne other, h.sees]
  · rw [step_enter, ← h.issued]
    change (t.context.chooseId binding.correlationId t.issued).2 = t.issued
    cases own : binding.ownId? with
    | some id => rw [chooseId_of_ownId? own]
    | none => rw [chooseId_of_none own, inherited]

theorem leave {binding : Binding} (h : Inside s outer (binding :: inner) t) :
    Inside s outer inner (t.step .leave) := by
  obtain ⟨distinct, sees, issued, framed⟩ := h
  generalize top : t.frames = frames at framed
  cases framed with
  | within undoes around =>
    rw [step_leave top]
    refine ⟨nodup_keys_leave distinct _, fun name => ?_, issued, around⟩
    rw [undoes]
    split
    next => rfl
    next other => rw [sees, List.cons_append, seen_cons_of_not_mem other]

theorem step {later : List Binding} {step : Step} (h : Inside s outer inner t)
    (opened : step.opens? inner = some later) (kept : step ≠ .clear)
    (proper : ∀ binding, step = .enter binding → binding.Proper) :
    Inside s outer later (t.step step) := by
  cases step with
  | enter binding =>
    cases opened
    exact h.enter (proper binding rfl)
  | leave =>
    cases inner with
    | nil => cases opened
    | cons binding inner =>
      cases opened
      exact h.leave
  | clear => exact absurd rfl kept

/-- Steps lead to the blocks that they leave open, as long as nothing is cleared. -/
theorem run {later : List Binding} {steps : List Step} (h : Inside s outer inner t)
    (opened : openAfter? inner steps = some later) (kept : .clear ∉ steps)
    (proper : ∀ binding, .enter binding ∈ steps → binding.Proper) :
    Inside s outer later (t.run steps) := by
  induction steps generalizing inner t with
  | nil =>
    cases opened
    exact h
  | cons step steps ih =>
    rw [List.mem_cons, not_or] at kept
    obtain ⟨between, first, rest⟩ := Option.bind_eq_some_iff.mp opened
    have next := h.step first (Ne.symm kept.1) fun binding same =>
      proper binding (same ▸ List.mem_cons_self)
    exact ih next rest kept.2 fun binding member => proper binding (List.mem_cons_of_mem _ member)

end Inside

/-! ### Blocks nest -/

/-- A block ends, by failure or not, with its own fields as they were before it and all others as
    its body left them, and with every field as it was if nothing was cleared. Until something is
    cleared, a field has the value that the nearest block around gives it, and blocks that are given
    no correlation identifier share the nearest one that is given, or else the only one that is
    issued. -/
theorem blocks_nest (s : Session) (distinct : s.context.keys.Nodup) (binding : Binding)
    (proper : binding.Proper) (body : Work) :
    let entered := s.step (.enter binding)
    let left := entered.run body.steps
    let after := s.run (Work.block binding proper body).steps
    (∀ name ∈ binding.names, after.context.get? name = s.context.get? name) ∧
      (∀ name ∉ binding.names, after.context.get? name = left.context.get? name) ∧
      (.clear ∉ body.steps → ∀ name, left.context.get? name = entered.context.get? name ∧
        after.context.get? name = s.context.get? name) ∧
      ∀ steps, steps <+: body.steps → .clear ∉ steps →
        ∃ inner, openAfter? [] steps = some inner ∧
          (∀ name, (entered.run steps).context.get? name = s.seen (inner ++ [binding]) name) ∧
          (entered.run steps).issued = entered.issued := by
  intro entered left after
  have start : Inside s binding [] entered := inside_enter distinct proper
  have undone (name : String) : after.context.get? name =
      if name ∈ binding.names then s.context.get? name else left.context.get? name := by
    change (s.run (.enter binding :: (body.steps ++ [.leave]))).context.get? name = _
    rw [run_block (frames_run body _)]
    exact undoes_enter proper distinct s.issued left.context name
  have within {steps : List Step} (begins : steps <+: body.steps) (kept : .clear ∉ steps)
      {inner : List Binding} (opened : openAfter? [] steps = some inner) :
      Inside s binding inner (entered.run steps) :=
    start.run opened kept fun binding member =>
      body.proper_of_mem_steps binding (begins.subset member)
  refine ⟨fun name member => ?_, fun name other => ?_, fun kept name => ?_,
    fun steps begins kept => ?_⟩
  · rw [undone, if_pos member]
  · rw [undone, if_neg other]
  · have ended := within (List.prefix_refl _) kept (openAfter?_steps body [])
    have same : left.context.get? name = entered.context.get? name := by
      rw [ended.sees, start.sees]
    refine ⟨same, ?_⟩
    -- What the block did not bind is seen through it.
    rw [undone]
    split
    next => rfl
    next other => rw [ended.sees, List.nil_append, seen_cons_of_not_mem other,
      seen_nil_of_ne (ne_correlationId_of_not_mem other)]
  · obtain ⟨inner, opened⟩ := exists_openAfter?_of_isPrefix begins
    have inside := within begins kept opened
    exact ⟨inner, opened, inside.sees, inside.issued⟩

/-- An inner block has an identifier of its own and fails; what is done within it shares the
    identifier, what is done instead has the one of the outer block, and nothing of either block is
    left afterwards. -/
theorem blocks_nest_through_failure :
    let s : Session := { context := [("scope", .text "blog"), ("user", .count 7)] }
    let outer : Binding := { scope := some "shop" }
    let inner : Binding := { correlationId := some "load", sourceFile := some "en.yml" }
    let nameless : Binding := { correlationId := some "", others := [("step", .count 1)] }
    let body : Work := .orElse (.block inner (by decide) (.andThen (.block nameless (by decide)
      .fail) .idle)) (.block nameless (by decide) .idle)
    let entered := s.step (.enter outer)
    let after := s.run (Work.block outer (by decide) body).steps
    s.context.keys.Nodup ∧ outer.Proper ∧ .clear ∉ body.steps ∧
      (∀ name, after.context.get? name = s.context.get? name) ∧
      (entered.run [.enter inner, .enter nameless]).context.get? "correlation_id" =
        some (.text "load") ∧
      (entered.run [.enter inner, .enter nameless, .leave, .leave, .enter nameless]).context.get?
        "correlation_id" = some (.issued 0) := by
  intro s outer inner nameless body entered after
  have distinct : s.context.keys.Nodup := by decide
  have proper : outer.Proper := by decide
  have kept : .clear ∉ body.steps := by simp [body, Work.steps]
  obtain ⟨_, _, restored, within⟩ := blocks_nest s distinct outer proper body
  obtain ⟨failing, opened, sees, _⟩ := within [.enter inner, .enter nameless]
    ⟨_, rfl⟩ (by simp)
  obtain ⟨mending, opened', sees', _⟩ := within
    [.enter inner, .enter nameless, .leave, .leave, .enter nameless] ⟨_, rfl⟩ (by simp)
  cases opened
  cases opened'
  refine ⟨distinct, proper, kept, fun name => (restored kept name).2, ?_, ?_⟩
  · rw [sees]
    rfl
  · rw [sees']
    rfl

end Session

end Phrasebook.Log
