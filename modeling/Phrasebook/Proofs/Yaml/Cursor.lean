import Phrasebook.Yaml.Directive
import Phrasebook.Yaml.Scalar.Plain
import Phrasebook.Yaml.Scalar.Quoted

/-!
# Phrasebook.Proofs.Yaml.Cursor

Reading goes forward: whatever is read, reading goes on at an offset that is not before the one at
which it began (`Cursor.To`), unless it stops with a fault (`Ensures`).

Loops are followed by induction on their fuel, and without any they read nothing. What is written, a
plain scalar (`Plain.read_forward`), a quoted one, a block scalar (`Block.read_within`), a tag or an
anchor, takes up some of the text: its first character, at least, is passed.
-/

namespace Phrasebook.Yaml

/-- What holds of a result that is not a fault. -/
def Ensures {α : Type} (result : Except Fault α) (holds : α → Prop) : Prop :=
  ∀ value, result = .ok value → holds value

namespace Ensures

variable {α β : Type} {result : Except Fault α} {next : α → Except Fault β} {holds : α → Prop}
  {after : β → Prop}

theorem ok {value : α} (h : holds value) : Ensures (.ok value) holds := by
  rintro _ ⟨⟩
  exact h

theorem error (fault : Fault) : Ensures (.error fault) holds := by
  rintro _ ⟨⟩

theorem bind (first : Ensures result holds) (second : ∀ value, holds value →
    Ensures (next value) after) : Ensures (result >>= next) after := by
  intro value reached
  cases result with
  | error fault => cases reached
  | ok between => exact second between (first between rfl) value reached

theorem ite {test : Prop} [Decidable test] {other : Except Fault α}
    (yes : test → Ensures result holds) (no : ¬test → Ensures other holds) :
    Ensures (if test then result else other) holds := by
  split
  · exact yes ‹_›
  · exact no ‹_›

theorem mono {weaker : α → Prop} (ensures : Ensures result holds)
    (weaken : ∀ value, holds value → weaker value) : Ensures result weaker :=
  fun value reached => weaken value (ensures value reached)

end Ensures

/-! ### Single characters -/

@[simp] theorem Mark.index_past (mark : Mark) (c : Char) (following : Option Char) :
    (mark.past c following).index = mark.index + 1 := by
  rw [past]
  split
  · rfl
  · split <;> rfl

theorem Mark.index_lt_of_past {mark : Mark} {c : Char} {following : Option Char} {index : Nat}
    (le : (mark.past c following).index ≤ index) : mark.index < index := by
  rw [index_past] at le
  exact le

namespace Cursor

/-- A cursor that stands no earlier than another one. -/
def To (before after : Cursor) : Prop :=
  before.mark.index ≤ after.mark.index

theorem To.refl (cursor : Cursor) : cursor.To cursor :=
  Nat.le_refl _

theorem To.trans {one two three : Cursor} (first : one.To two) (second : two.To three) :
    one.To three :=
  Nat.le_trans first second

theorem to_next (cursor : Cursor) : cursor.To cursor.next := by
  rw [next]
  split
  · exact .refl cursor
  · simp [To]

theorem lt_next {cursor : Cursor} {c : Char} (here : cursor.peek = some c) :
    cursor.mark.index < cursor.next.mark.index := by
  rw [peek] at here
  rw [next]
  split
  next none => simp [none] at here
  next => simp

theorem to_skip (cursor : Cursor) (count : Nat) : cursor.To (cursor.skip count) := by
  induction count generalizing cursor with
  | zero => exact .refl cursor
  | succ count ih => exact cursor.to_next.trans (ih cursor.next)

theorem index_le_runFrom (more : Char → Option Char → Bool) (mark : Mark) (text : List Char) :
    mark.index ≤ (runFrom more mark text).2.mark.index := by
  induction text generalizing mark with
  | nil => exact Nat.le_refl _
  | cons c rest ih =>
    rw [runFrom]
    split
    · exact Nat.le_of_lt (Mark.index_lt_of_past (ih _))
    · exact Nat.le_refl _

theorem to_run (cursor : Cursor) (more : Char → Option Char → Bool) :
    cursor.To (cursor.run more).2 :=
  index_le_runFrom more cursor.mark cursor.rest

theorem to_span (cursor : Cursor) (keep : Char → Bool) : cursor.To (cursor.span keep).2 :=
  cursor.to_run _

theorem to_dropWhile (cursor : Cursor) (drop : Char → Bool) : cursor.To (cursor.dropWhile drop) :=
  cursor.to_span drop

theorem to_of_lineEnd? {cursor after : Cursor} {c : Char}
    (ends : cursor.lineEnd? = some (c, after)) : cursor.To after := by
  rw [lineEnd?] at ends
  split at ends
  · cases ends
    exact cursor.to_skip 2
  · split at ends
    · cases ends
      exact cursor.to_next
    · split at ends
      · cases ends
        exact cursor.to_next
      · cases ends
  · cases ends

theorem to_skipLineEnd (cursor : Cursor) : cursor.To cursor.skipLineEnd := by
  rw [skipLineEnd]
  split
  next ends => exact to_of_lineEnd? ends
  next => exact .refl cursor

end Cursor

/-! ### Plain scalars -/

namespace Plain

theorem to_moreLineEnds (fuel : Nat) (cursor : Cursor) :
    cursor.To (moreLineEnds fuel cursor).2 := by
  induction fuel generalizing cursor with
  | zero => exact .refl cursor
  | succ fuel ih =>
    rw [moreLineEnds]
    split
    · exact cursor.to_next.trans (ih cursor.next)
    · split
      · exact .refl cursor
      next ends =>
        split
        · exact Cursor.to_of_lineEnd? ends
        · exact (Cursor.to_of_lineEnd? ends).trans (ih _)

theorem to_gap (fuel : Nat) (cursor : Cursor) : cursor.To (gap fuel cursor).after := by
  have start := cursor.to_span (· = ' ')
  rw [gap]
  generalize cursor.span (· = ' ') = spaces at start
  obtain ⟨spaces, afterSpaces⟩ := spaces
  simp only
  split
  · exact start
  next first after ends =>
    have first := start.trans (Cursor.to_of_lineEnd? ends)
    have more := to_moreLineEnds fuel after
    split
    · exact first
    · -- Whether or not there are blank lines, the gap goes on to the next text.
      generalize moreLineEnds fuel after = read at more
      obtain ⟨_ | _, stop⟩ := read
      · exact first.trans more
      · exact first.trans more

/-- A scalar does not stop before its first run does, and reading does not go on before it stops. -/
theorem readRuns_forward (size : Nat) (inFlow : Bool) (minColumn fuel : Nat) (cursor : Cursor) :
    (fuel ≠ 0 → (cursor.run (isRunChar inFlow)).2.mark.index ≤
        (readRuns size inFlow minColumn fuel cursor).stop.index) ∧
      cursor.mark.index ≤ (readRuns size inFlow minColumn fuel cursor).stop.index ∧
      (readRuns size inFlow minColumn fuel cursor).stop.index ≤
        (readRuns size inFlow minColumn fuel cursor).after.mark.index := by
  induction fuel generalizing cursor with
  | zero => exact ⟨fun none => absurd rfl none, Nat.le_refl _, Nat.le_refl _⟩
  | succ fuel ih =>
    have start := cursor.to_run (isRunChar inFlow)
    rw [readRuns]
    generalize cursor.run (isRunChar inFlow) = run at start
    obtain ⟨run, afterRun⟩ := run
    have gap := to_gap size afterRun
    dsimp only
    -- The gap after the last run does not count as a part of the scalar.
    split
    · exact ⟨fun _ => Nat.le_refl _, start, gap⟩
    · obtain ⟨_, further, last⟩ := ih (Plain.gap size afterRun).after
      exact ⟨fun _ => Nat.le_trans gap further, Nat.le_trans (start.trans gap) further, last⟩

/-- A scalar that begins with a run takes up some of the text. -/
theorem read_forward {size : Nat} (sized : size ≠ 0) {inFlow : Bool} (minColumn : Nat)
    {cursor : Cursor} (begins : startsRun inFlow cursor) :
    cursor.mark.index < (read size inFlow minColumn cursor).stop.index ∧
      (read size inFlow minColumn cursor).stop.index ≤
        (read size inFlow minColumn cursor).after.mark.index := by
  obtain ⟨first, _, last⟩ := readRuns_forward size inFlow minColumn size cursor
  refine ⟨Nat.lt_of_lt_of_le ?_ (first sized), last⟩
  rw [startsRun] at begins
  split at begins
  · cases begins
  next c rest text =>
    rw [Cursor.run, text, Cursor.runFrom, if_pos begins]
    exact Mark.index_lt_of_past (Cursor.index_le_runFrom _ _ _)

end Plain

/-! ### Quoted scalars -/

namespace Quoted

theorem to_lineEnds (fuel : Nat) (cursor : Cursor) :
    Ensures (lineEnds fuel cursor) fun read => cursor.To read.2 := by
  induction fuel generalizing cursor with
  | zero => exact .ok (.refl cursor)
  | succ fuel ih =>
    rw [lineEnds]
    have indented := cursor.to_dropWhile fun c => c = ' ' || c = '\t'
    split
    · exact .error _
    · dsimp only
      split
      · exact .ok indented
      next ends =>
        refine (ih _).bind fun more further => .ok ?_
        exact (indented.trans (Cursor.to_of_lineEnd? ends)).trans further

theorem to_numericEscape (width : Nat) (cursor : Cursor) :
    Ensures (numericEscape width cursor) fun read => cursor.To read.2 := by
  rw [numericEscape]
  split
  · exact .error _
  · split
    · exact .ok (cursor.to_skip width)
    · exact .error _

theorem to_escape (size : Nat) (cursor : Cursor) :
    Ensures (escape size cursor) fun read => cursor.To read.2 := by
  rw [escape]
  split
  · exact .error _
  · split
    · exact .ok cursor.to_next
    · exact (to_numericEscape _ cursor.next).mono fun _ => cursor.to_next.trans
    · split
      · refine (to_lineEnds size cursor.skipLineEnd).bind fun ends further => .ok ?_
        exact cursor.to_skipLineEnd.trans further
      · exact .error _

theorem to_run (size : Nat) (quote : Char) (fuel : Nat) (cursor : Cursor) :
    Ensures (run size quote fuel cursor) fun read => cursor.To read.2 := by
  induction fuel generalizing cursor with
  | zero => exact .ok (.refl cursor)
  | succ fuel ih =>
    -- After what has been read, the rest of the run begins.
    have onward {between : Cursor} (first : cursor.To between) (prepend : Text → Text) :
        Ensures (run size quote fuel between >>= fun more => .ok (prepend more.1, more.2))
          fun read => cursor.To read.2 :=
      (ih between).bind fun _ further => .ok (first.trans further)
    rw [run]
    split
    · exact .ok (.refl cursor)
    · split
      · exact .ok (.refl cursor)
      · split
        · split
          · exact onward (cursor.to_skip 2) _
          · exact .ok (.refl cursor)
        · split
          · exact (to_escape size cursor.next).bind fun meant escaped =>
              onward (cursor.to_next.trans escaped) _
          · exact onward cursor.to_next _

theorem to_gap (size : Nat) (cursor : Cursor) :
    Ensures (gap size cursor) fun read => cursor.To read.2 := by
  have start := cursor.to_span fun c => c = ' ' || c = '\t'
  rw [gap]
  generalize cursor.span (fun c => c = ' ' || c = '\t') = blanks at start
  obtain ⟨blanks, afterBlanks⟩ := blanks
  simp only
  split
  next ends =>
    refine (to_lineEnds size _).bind fun more further => .ok ?_
    exact (start.trans (Cursor.to_of_lineEnd? ends)).trans further
  next =>
    split
    · exact .error _
    · exact .ok start

theorem to_body (size : Nat) (quote : Char) (fuel : Nat) (cursor : Cursor) :
    Ensures (body size quote fuel cursor) fun read => cursor.To read.2 := by
  induction fuel generalizing cursor with
  | zero => exact .ok (.refl cursor)
  | succ fuel ih =>
    rw [body]
    refine (to_run size quote size cursor).bind ?_
    rintro ⟨written, afterRun⟩ first
    dsimp only
    split
    · exact .ok (first.trans afterRun.to_next)
    · refine (to_gap size afterRun).bind ?_
      rintro ⟨blanks, afterGap⟩ second
      exact (ih afterGap).bind fun _ third => .ok ((first.trans second).trans third)

end Quoted

/-! ### Block scalars -/

namespace Block

theorem to_sign? (cursor : Cursor) : cursor.To (sign? cursor).2 := by
  rw [sign?]
  split
  · exact cursor.to_next
  · exact cursor.to_next
  · exact .refl cursor

theorem to_digit? (cursor : Cursor) :
    Ensures (digit? cursor) fun read => cursor.To read.2 := by
  rw [digit?]
  split
  · split
    · exact .error _
    · split
      · exact .ok cursor.to_next
      · exact .ok (.refl cursor)
  · exact .ok (.refl cursor)

theorem to_header (cursor : Cursor) :
    Ensures (header cursor) fun read => cursor.To read.2 := by
  have first := to_sign? cursor
  rw [header]
  generalize sign? cursor = sign at first
  obtain ⟨before, afterSign⟩ := sign
  refine (to_digit? afterSign).bind ?_
  rintro ⟨digit, afterDigit⟩ second
  have forward := first.trans second
  have ends (chomping : Option Chomping) {after : Cursor} (forward : cursor.To after) :
      Ensures (if isSpaceOrEnd after.peek then .ok (⟨chomping.getD .clip, digit⟩, after)
        else .error (.malformedAt after.mark (.expected .blockIndicators after.peek)))
        fun (read : Header × Cursor) => cursor.To read.2 := by
    split
    · exact .ok forward
    · exact .error _
  -- A second sign is only looked for if there was a digit and no sign before it.
  match before, digit with
  | none, none => exact ends none forward
  | none, some _ => exact ends _ (forward.trans (to_sign? afterDigit))
  | some before, _ => exact ends (some before) forward

theorem to_skipComment (cursor : Cursor) : cursor.To (skipComment cursor) := by
  rw [skipComment]
  split
  · exact cursor.to_dropWhile _
  · exact .refl cursor

theorem to_skipRestOfLine (cursor : Cursor) : Ensures (skipRestOfLine cursor) cursor.To := by
  have rest := (cursor.to_dropWhile (· = ' ')).trans (to_skipComment _)
  rw [skipRestOfLine]
  split
  · exact .ok (rest.trans (Cursor.to_skipLineEnd _))
  · exact .error _

/-- Line ends before a line stop after an offset, and before the line. -/
def Blanks.Within (index : Nat) (blanks : Blanks) : Prop :=
  index ≤ blanks.stop.index ∧ blanks.stop.index ≤ blanks.after.mark.index

/-- Blank lines at the beginning of a block stop before the first line with text. -/
theorem leadingBlanks_within (fuel widest : Nat) {stop : Mark} {cursor : Cursor}
    (before : stop.index ≤ cursor.mark.index) :
    (leadingBlanks fuel widest stop cursor).1.Within stop.index := by
  induction fuel generalizing widest stop cursor with
  | zero => exact ⟨Nat.le_refl _, before⟩
  | succ fuel ih =>
    rw [leadingBlanks]
    split
    · exact ih _ (Nat.le_trans before cursor.to_next)
    · split
      · exact ⟨Nat.le_refl _, before⟩
      next after ends =>
        have forward := Cursor.to_of_lineEnd? ends
        obtain ⟨low, high⟩ := ih widest (Nat.le_refl after.mark.index)
        exact ⟨Nat.le_trans (Nat.le_trans before forward) low, high⟩

theorem to_indentTo (column fuel : Nat) (cursor : Cursor) :
    cursor.To (indentTo column fuel cursor) := by
  induction fuel generalizing cursor with
  | zero => exact .refl cursor
  | succ fuel ih =>
    rw [indentTo]
    split
    · exact cursor.to_next.trans (ih cursor.next)
    · exact .refl cursor

theorem blanks_within (size column fuel : Nat) {stop : Mark} {cursor : Cursor}
    (before : stop.index ≤ cursor.mark.index) :
    (blanks size column fuel stop cursor).Within stop.index := by
  induction fuel generalizing stop cursor with
  | zero => exact ⟨Nat.le_refl _, before⟩
  | succ fuel ih =>
    have indented := to_indentTo column size cursor
    rw [blanks]
    dsimp only
    split
    · exact ⟨Nat.le_refl _, Nat.le_trans before indented⟩
    next after ends =>
      have forward := indented.trans (Cursor.to_of_lineEnd? ends)
      obtain ⟨low, high⟩ := ih (Nat.le_refl after.mark.index)
      exact ⟨Nat.le_trans (Nat.le_trans before forward) low, high⟩

theorem blanksAt_within (size column : Nat) (cursor : Cursor) :
    (blanksAt size column cursor).Within cursor.mark.index :=
  blanks_within size column size (Nat.le_refl _)

/-- A scalar stops after an offset, and reading goes on no earlier than it stops. -/
def Reading.Within (index : Nat) (reading : Reading) : Prop :=
  index ≤ reading.stop.index ∧ reading.stop.index ≤ reading.after.mark.index

/-- The lines of a block stop before the line after them. -/
theorem lines_within (size : Nat) (folded : Bool) (chomping : Chomping) (column fuel : Nat)
    (cursor : Cursor) :
    (lines size folded chomping column fuel cursor).Within cursor.mark.index := by
  induction fuel generalizing cursor with
  | zero => exact ⟨Nat.le_refl _, Nat.le_refl _⟩
  | succ fuel ih =>
    have line := cursor.to_span (!isBreak ·)
    rw [lines]
    generalize cursor.span (!isBreak ·) = read at line
    obtain ⟨line, afterLine⟩ := read
    have start : cursor.To afterLine.skipLineEnd := Cursor.To.trans ‹_› afterLine.to_skipLineEnd
    obtain ⟨low, high⟩ := blanksAt_within size column afterLine.skipLineEnd
    dsimp only
    -- A line of the same column goes on the block, any other text ends it.
    split
    · obtain ⟨further, last⟩ := ih (blanksAt size column afterLine.skipLineEnd).after
      exact ⟨Nat.le_trans (Nat.le_trans start low) (Nat.le_trans high further), last⟩
    · exact ⟨Nat.le_trans start low, high⟩

/-- A block scalar stops after its header and before the line after it. -/
theorem read_within (size : Nat) (folded : Bool) (minColumn : Nat) (cursor : Cursor) :
    Ensures (read size folded minColumn cursor) (·.Within cursor.next.mark.index) := by
  rw [read]
  refine (to_header cursor.next).bind ?_
  rintro ⟨header, afterHeader⟩ first
  refine (to_skipRestOfLine afterHeader).bind fun line second => ?_
  have start := first.trans second
  -- However the column of the text is found, its lines come after the blank ones.
  have text (gap : Blanks) (column : Nat) (within : gap.Within line.mark.index) :
      Ensures (if atLine column gap.after then
          .ok { lines size folded header.chomping column size gap.after with
            value := gap.ends ++ (lines size folded header.chomping column size gap.after).value }
        else .ok ⟨lastEnds header.chomping none gap.ends, gap.stop, gap.after⟩)
        (Reading.Within cursor.next.mark.index) := by
    obtain ⟨low, high⟩ := within
    split
    · obtain ⟨further, last⟩ := lines_within size folded header.chomping column size gap.after
      exact .ok ⟨Nat.le_trans (Nat.le_trans start low) (Nat.le_trans high further), last⟩
    · exact .ok ⟨Nat.le_trans start low, high⟩
  cases header.indentation with
  | none =>
    dsimp only
    exact text _ _ (leadingBlanks_within size 0 (Nat.le_refl _))
  | some digit =>
    dsimp only
    exact text _ _ (blanksAt_within size _ line)

end Block

/-! ### Anchors, tags and directives -/

theorem to_readName (cursor : Cursor) :
    Ensures (readName cursor) fun read => cursor.To read.2 := by
  have name := cursor.to_span isNameChar
  rw [readName]
  generalize cursor.span isNameChar = read at name
  obtain ⟨_, after⟩ := read
  dsimp only
  split
  · exact .error _
  · exact .ok name

theorem to_readAnchorName (cursor : Cursor) :
    Ensures (readAnchorName cursor) fun read => cursor.To read.2 := by
  rw [readAnchorName]
  refine (to_readName cursor).bind ?_
  rintro ⟨name, after⟩ forward
  dsimp only
  split
  · exact .ok forward
  · exact .error _

namespace Tag

theorem to_escapedBytes (fuel : Nat) (cursor : Cursor) :
    Ensures (escapedBytes fuel cursor) fun read => cursor.To read.2 := by
  induction fuel generalizing cursor with
  | zero => exact .ok (.refl cursor)
  | succ fuel ih =>
    have two := cursor.to_next.trans (cursor.next.to_skip 2)
    -- The digits say nothing about where reading goes on.
    have any {α : Type} (result : Except Fault α) : Ensures result fun _ => True :=
      fun _ _ => trivial
    rw [escapedBytes]
    split
    · refine (any _).bind fun high _ => (any _).bind fun low _ => ?_
      exact (ih _).bind fun more further => .ok (two.trans further)
    · exact .ok (.refl cursor)

theorem to_uriChars (fuel : Nat) (cursor : Cursor) :
    Ensures (uriChars fuel cursor) fun read => cursor.To read.2 := by
  induction fuel generalizing cursor with
  | zero => exact .ok (.refl cursor)
  | succ fuel ih =>
    rw [uriChars]
    split
    · exact .ok (.refl cursor)
    · split
      · refine (to_escapedBytes _ cursor).bind ?_
        rintro ⟨bytes, after⟩ escaped
        dsimp only
        split
        · exact .error _
        · exact (ih after).bind fun more further => .ok (escaped.trans further)
      · split
        · exact (ih cursor.next).bind fun more further => .ok (cursor.to_next.trans further)
        · exact .ok (.refl cursor)

theorem to_readUri (cursor : Cursor) :
    Ensures (readUri cursor) fun read => cursor.To read.2 := by
  rw [readUri]
  split
  · exact (to_uriChars _ cursor).bind fun chars further => .ok further
  · exact .error _

theorem readHandle_forward (cursor : Cursor) :
    Ensures (readHandle cursor) fun read => cursor.mark.index < read.2.mark.index := by
  rw [readHandle]
  split
  · exact .error _
  next bang =>
    have first := Cursor.lt_next (Decidable.of_not_not bang)
    have name := Nat.lt_of_lt_of_le first (cursor.next.to_span isNameChar)
    dsimp only
    split
    · exact .ok first
    · split
      · exact .ok (Nat.lt_of_lt_of_le name (Cursor.to_next _))
      · exact .error _

theorem readParts_forward {cursor : Cursor} {c : Char} (here : cursor.peek = some c) :
    Ensures (readParts cursor) fun read => cursor.mark.index < read.2.mark.index := by
  have first := Cursor.lt_next here
  rw [readParts]
  split
  · -- A tag in angle brackets.
    refine (to_readUri (cursor.skip 2)).bind ?_
    rintro ⟨uri, after⟩ further
    have reached := Nat.lt_of_lt_of_le first ((cursor.next.to_skip 1).trans further)
    dsimp only
    split
    · exact .ok (Nat.lt_of_lt_of_le reached after.to_next)
    · exact .error _
  · split
    · -- A lone exclamation mark.
      exact .ok first
    · split
      · -- A tag with a named handle.
        refine (readHandle_forward cursor).bind ?_
        rintro ⟨handle, afterHandle⟩ handled
        refine (to_readUri afterHandle).bind ?_
        rintro ⟨suffix, after⟩ further
        exact .ok (Nat.lt_of_lt_of_le handled further)
      · -- A tag without one.
        refine (to_readUri cursor.next).bind ?_
        rintro ⟨suffix, after⟩ further
        exact .ok (Nat.lt_of_lt_of_le first further)

theorem read_forward {cursor : Cursor} {c : Char} (here : cursor.peek = some c) :
    Ensures (read cursor) fun read => cursor.mark.index < read.2.mark.index := by
  rw [read]
  refine (readParts_forward here).bind ?_
  rintro ⟨parts, after⟩ further
  dsimp only
  split
  · exact .ok further
  · exact .error _

end Tag

namespace Directive

theorem to_readNumber (cursor : Cursor) :
    Ensures (readNumber cursor) fun read => cursor.To read.2 := by
  have digits := cursor.to_span Text.isDigit
  rw [readNumber]
  generalize cursor.span Text.isDigit = read at digits
  obtain ⟨_, after⟩ := read
  dsimp only
  split
  · exact .error _
  · split
    · exact .error _
    · exact .ok digits

theorem to_readVersion (cursor : Cursor) :
    Ensures (readVersion cursor) fun read => cursor.To read.2 := by
  have spaces := cursor.to_dropWhile (· = ' ')
  rw [readVersion]
  refine (to_readNumber (skipSpaces cursor)).bind ?_
  rintro ⟨major, afterMajor⟩ first
  dsimp only
  split
  · exact .error _
  · refine (to_readNumber afterMajor.next).bind ?_
    rintro ⟨minor, after⟩ second
    dsimp only
    split
    · exact .ok (((spaces.trans first).trans afterMajor.to_next).trans second)
    · exact .error _

theorem to_readTagHandle (cursor : Cursor) :
    Ensures (readTagHandle cursor) fun read => cursor.To read.2 := by
  have spaces := cursor.to_dropWhile (· = ' ')
  rw [readTagHandle]
  refine (Tag.readHandle_forward (skipSpaces cursor)).bind ?_
  rintro ⟨handle, afterHandle⟩ first
  dsimp only
  split
  · exact .error _
  · have between := afterHandle.to_dropWhile (· = ' ')
    refine (Tag.to_readUri (skipSpaces afterHandle)).bind ?_
    rintro ⟨expansion, after⟩ second
    dsimp only
    split
    · exact .ok (((spaces.trans (Nat.le_of_lt first)).trans between).trans second)
    · exact .error _

/-- A directive does not stop before its start, and reading does not go on before it stops. -/
theorem read_forward (cursor : Cursor) :
    Ensures (read cursor) fun (_, stop, after) =>
      cursor.mark.index ≤ stop.index ∧ stop.index ≤ after.mark.index := by
  rw [read]
  refine (to_readName cursor.next).bind ?_
  rintro ⟨name, afterName⟩ first
  replace first := cursor.to_next.trans first
  dsimp only
  split
  · exact .error _
  · split
    · refine (to_readVersion afterName).bind ?_
      rintro ⟨directive, after⟩ second
      exact (Block.to_skipRestOfLine after).bind fun line third => .ok ⟨first.trans second, third⟩
    · refine (to_readTagHandle afterName).bind ?_
      rintro ⟨directive, after⟩ second
      exact (Block.to_skipRestOfLine after).bind fun line third => .ok ⟨first.trans second, third⟩
    · have rest := afterName.to_dropWhile (!isBreak ·)
      exact (Block.to_skipRestOfLine _).bind fun line third => .ok ⟨first, rest.trans third⟩

end Directive

end Phrasebook.Yaml
