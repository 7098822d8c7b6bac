import Phrasebook.Proofs.Yaml.Cursor
import Phrasebook.Yaml.Lexer

/-!
# Phrasebook.Proofs.Yaml.Lexer

The tokens of a text stand in its order (`TokenStream.inOrder_ofText`).

A token is found at the cursor, which only goes forward, so tokens are found in their order. The
exception is the token of a key, which is put in front of others when the colon is met: it stands
for no character, and its place in the text lies between the tokens that it is put between
(`PendingKey.Fits`). Pending keys lie inside one another, and it is always the innermost one that
the colon belongs to; so the others keep their places.
-/

namespace Phrasebook.Yaml

/-- Whether a token is always written where it stands. Others, such as those of keys and brackets, may
    only be told from the tokens around them. -/
def Lexeme.isWritten : Lexeme → Bool
  | .value | .alias _ | .anchor _ | .tag _ _ | .scalar _ _ => true
  | _ => false

/-- A token does not stop before it starts, and one that is written takes up some of the text. -/
structure Token.Proper (token : Token) : Prop where
  forward : token.start.index ≤ token.stop.index
  visible : token.lexeme.isWritten → token.start.index < token.stop.index

theorem Token.Proper.of_lt {token : Token} (lt : token.start.index < token.stop.index) :
    token.Proper :=
  ⟨Nat.le_of_lt lt, fun _ => lt⟩

/-! ### Streams -/

namespace TokenStream

/-- The tokens of a stream stand one after the other, none before an offset. -/
def InOrder (index : Nat) : TokenStream → Prop
  | .more token rest =>
    index ≤ token.start.index ∧ token.Proper ∧ rest.InOrder token.stop.index
  | .ends mark => index ≤ mark.index
  | .broken _ => True

theorem inOrder_prepend {tokens : List Token} {rest : TokenStream} {index : Nat} (last : Nat)
    (proper : ∀ token ∈ tokens, token.Proper)
    (order : tokens.Pairwise fun earlier later => earlier.stop.index ≤ later.start.index)
    (start : ∀ token ∈ tokens, index ≤ token.start.index) (before : index ≤ last)
    (reached : ∀ token ∈ tokens, token.stop.index ≤ last)
    (onward : ∀ earlier, earlier ≤ last → rest.InOrder earlier) :
    (prepend tokens rest).InOrder index := by
  induction tokens generalizing index with
  | nil => exact onward index before
  | cons token tokens ih =>
    obtain ⟨here, proper⟩ := List.forall_mem_cons.mp proper
    obtain ⟨after, order⟩ := List.pairwise_cons.mp order
    obtain ⟨first, _⟩ := List.forall_mem_cons.mp start
    obtain ⟨stop, reached⟩ := List.forall_mem_cons.mp reached
    exact ⟨first, here, ih proper order after stop reached⟩

end TokenStream

/-! ### States of the lexer -/

/-- The tokens before a pending key stop before it, and those after it start after it. -/
structure PendingKey.Fits (found : List Token) (count index : Nat) (key : PendingKey) : Prop where
  number_le : key.number ≤ count
  mark_le : key.mark.index ≤ index
  before : ∀ token ∈ found.drop (count - key.number), token.stop.index ≤ key.mark.index
  after : ∀ token ∈ found.take (count - key.number), key.mark.index ≤ token.start.index

/-- The tokens that have been found up to an offset stand in order, the last one first, and the
    pending keys fit in between, each inside the one before it. -/
structure Ordered (found : List Token) (count depth index : Nat) (pending : List PendingKey) :
    Prop where
  count_eq : count = found.length
  proper : ∀ token ∈ found, token.Proper
  order : found.Pairwise fun later earlier => earlier.stop.index ≤ later.start.index
  reached : ∀ token ∈ found, token.stop.index ≤ index
  fits : ∀ key ∈ pending, key.Fits found count index
  shallow : ∀ key ∈ pending, key.depth ≤ depth
  nested : pending.Pairwise fun outer inner => outer.depth < inner.depth ∧
    outer.number ≤ inner.number ∧ outer.mark.index ≤ inner.mark.index

namespace Ordered

variable {found : List Token} {count depth index : Nat} {pending : List PendingKey}
  (ordered : Ordered found count depth index pending)

include ordered

theorem forward {further : Nat} (le : index ≤ further) :
    Ordered found count depth further pending where
  count_eq := ordered.count_eq
  proper := ordered.proper
  order := ordered.order
  reached token member := Nat.le_trans (ordered.reached token member) le
  fits key member :=
    have fits := ordered.fits key member
    { fits with mark_le := Nat.le_trans fits.mark_le le }
  shallow := ordered.shallow
  nested := ordered.nested

theorem drop_pending (keep : PendingKey → Bool) :
    Ordered found count depth index (pending.filter keep) :=
  { ordered with
    fits := fun key member => ordered.fits key (List.mem_filter.mp member).1
    shallow := fun key member => ordered.shallow key (List.mem_filter.mp member).1
    nested := ordered.nested.filter keep }

/-- A token that starts no earlier than the offset that is reached keeps the tokens in order. -/
theorem push {token : Token} (proper : token.Proper) (start : index ≤ token.start.index)
    {further : Nat} (stop : token.stop.index ≤ further) :
    Ordered (token :: found) (count + 1) depth further pending := by
  have forward := proper.forward
  -- The new token starts where the old ones have stopped, so after every pending key.
  refine ⟨by rw [ordered.count_eq, List.length_cons], List.forall_mem_cons.mpr
    ⟨proper, ordered.proper⟩, List.pairwise_cons.mpr ⟨fun earlier member => ?_, ordered.order⟩,
    List.forall_mem_cons.mpr ⟨stop, fun earlier member => ?_⟩, fun key member => ?_,
    ordered.shallow, ordered.nested⟩
  · exact Nat.le_trans (ordered.reached earlier member) start
  · have := ordered.reached earlier member
    omega
  · obtain ⟨number_le, mark_le, before, after⟩ := ordered.fits key member
    have same : count + 1 - key.number = count - key.number + 1 := by omega
    refine ⟨by omega, by omega, ?_, ?_⟩
    · rw [same, List.drop_succ_cons]
      exact before
    · rw [same, List.take_succ_cons]
      exact List.forall_mem_cons.mpr ⟨by omega, after⟩

/-- A key that begins where the next token will can be noted, if no other is pending at its
    depth. -/
theorem note {key : PendingKey} (here : key.number = count) (mark : key.mark.index = index)
    (inside : key.depth = depth) (outside : ∀ other ∈ pending, other.depth ≠ depth) :
    Ordered found count depth index (pending ++ [key]) := by
  -- The key goes to the end of the pending ones: all tokens that have been found lie before it, and
  -- it lies deeper than the other keys.
  refine { ordered with fits := ?_, shallow := ?_, nested := ?_ }
  · intro other member
    rcases List.mem_append.mp member with old | new
    · exact ordered.fits other old
    · rw [List.mem_singleton.mp new]
      refine ⟨Nat.le_of_eq here, Nat.le_of_eq mark, ?_, ?_⟩
      · rw [here, Nat.sub_self, List.drop_zero, mark]
        exact ordered.reached
      · rw [here, Nat.sub_self, List.take_zero]
        simp
  · intro other member
    rcases List.mem_append.mp member with old | new
    · exact ordered.shallow other old
    · exact Nat.le_of_eq (List.mem_singleton.mp new ▸ inside)
  · refine List.pairwise_append.mpr ⟨ordered.nested, List.pairwise_singleton _ _, ?_⟩
    intro other member last single
    rw [List.mem_singleton.mp single]
    have fits := ordered.fits other member
    have below := Nat.lt_of_le_of_ne (ordered.shallow other member) (outside other member)
    exact ⟨inside ▸ below, here ▸ fits.number_le, mark ▸ fits.mark_le⟩

/-- Tokens that have been found can be taken as a stream, all of them or some. -/
theorem inOrder_prepend {taken : List Token} (among : taken.Sublist found.reverse)
    {rest : TokenStream} (onward : ∀ earlier, earlier ≤ index → rest.InOrder earlier) :
    (TokenStream.prepend taken rest).InOrder 0 := by
  refine TokenStream.inOrder_prepend index (fun token member => ?_)
    ((List.pairwise_reverse.mpr ordered.order).sublist among) (fun _ _ => Nat.zero_le _)
    (Nat.zero_le _) (fun token member => ?_) onward
  · exact ordered.proper token (List.mem_reverse.mp (among.subset member))
  · exact ordered.reached token (List.mem_reverse.mp (among.subset member))

end Ordered

/-- What is put between the tokens at the place of a key leaves the keys around it in their places. -/
theorem PendingKey.Fits.insert {found : List Token} {count index : Nat} {key other : PendingKey}
    (count_eq : count = found.length) (fits : key.Fits found count index)
    (others : other.Fits found count index) (number : other.number ≤ key.number)
    (mark : other.mark.index ≤ key.mark.index) (token : Token) (start : token.start = key.mark) :
    other.Fits (found.take (count - key.number) ++ token :: found.drop (count - key.number))
      (count + 1) index := by
  obtain ⟨number_le, mark_le, before, after⟩ := others
  have within := fits.number_le
  have length : (found.take (count - key.number)).length = count - key.number := by
    rw [List.length_take]
    omega
  -- An outer key has the new token behind its place, among the later ones.
  have below : count - other.number = count - key.number + (key.number - other.number) := by omega
  have above : count + 1 - other.number =
      (found.take (count - key.number)).length + (key.number - other.number + 1) := by omega
  refine ⟨by omega, mark_le, ?_, ?_⟩
  · rw [above, List.drop_length_add_append, List.drop_succ_cons, List.drop_drop, ← below]
    exact before
  · rw [above, List.take_length_add_append, List.take_succ_cons]
    rw [below, List.take_add] at after
    intro held member
    simp only [List.mem_append, List.mem_cons] at member after
    rcases member with front | rfl | back
    · exact after held (.inl front)
    · exact start ▸ mark
    · exact after held (.inr back)

/-- A token without characters is put at the place of a key that no pending key lies inside of. -/
theorem Ordered.insert {found : List Token} {count depth index : Nat} {pending : List PendingKey}
    (ordered : Ordered found count depth index pending) {key : PendingKey}
    (fits : key.Fits found count index)
    (outer : ∀ other ∈ pending, other.number ≤ key.number ∧ other.mark.index ≤ key.mark.index)
    (token : Token) (start : token.start = key.mark) (stop : token.stop = key.mark)
    (unwritten : token.lexeme.isWritten = false) :
    Ordered (found.take (count - key.number) ++ token :: found.drop (count - key.number))
      (count + 1) depth index pending := by
  -- The later tokens come first in the list; the new one goes between them and the earlier ones.
  have whole := List.take_append_drop (count - key.number) found
  have proper : token.Proper := ⟨Nat.le_of_eq (by rw [start, stop]), by simp [unwritten]⟩
  have length := ordered.count_eq
  have parts := ordered.order
  rw [← whole, List.pairwise_append] at parts
  obtain ⟨front, back, across⟩ := parts
  have member (held : Token)
      (inside : held ∈ found.take (count - key.number) ++ token :: found.drop (count - key.number)) :
      held = token ∨ held ∈ found := by
    simp only [List.mem_append, List.mem_cons] at inside
    rcases inside with old | new | old
    · exact .inr (List.mem_of_mem_take old)
    · exact .inl new
    · exact .inr (List.mem_of_mem_drop old)
  refine { ordered with count_eq := ?_, proper := ?_, order := ?_, reached := ?_, fits := ?_ }
  · rw [List.length_append, List.length_cons, ← Nat.add_assoc, ← List.length_append, whole, length]
  · intro held inside
    rcases member held inside with rfl | old
    · exact proper
    · exact ordered.proper held old
  · refine List.pairwise_append.mpr ⟨front, List.pairwise_cons.mpr ⟨?_, back⟩, ?_⟩
    · intro earlier inside
      exact start ▸ fits.before earlier inside
    · intro later inside earlier behind
      rcases List.mem_cons.mp behind with rfl | old
      · exact stop ▸ fits.after later inside
      · exact across later inside earlier old
  · intro held inside
    rcases member held inside with rfl | old
    · exact stop ▸ fits.mark_le
    · exact ordered.reached held old
  · intro other inside
    obtain ⟨number, mark⟩ := outer other inside
    exact fits.insert length (ordered.fits other inside) number mark token start

namespace Lexer

/-- The tokens that a lexer has found stand in order, up to its cursor. -/
structure InOrder (s : Lexer) : Prop where
  sized : s.size ≠ 0
  ordered : Ordered s.found s.count s.depth s.cursor.mark.index s.pending

theorem inOrder_start (text : List Char) : (start text).InOrder :=
  ⟨Nat.succ_ne_zero _, rfl, by simp [start], .nil, by simp [start], by simp [start],
    by simp [start], .nil⟩

/-- A lexer that is in order and stands where another one does. -/
structure StaysInOrder (s t : Lexer) : Prop where
  inOrder : t.InOrder
  cursor : t.cursor = s.cursor
  depth : t.depth = s.depth

theorem dropKey_eq (s : Lexer) : Ensures s.dropKey
    (· = { s with pending := s.pending.filter fun key => key.depth ≠ s.depth }) := by
  rw [dropKey]
  split
  · exact .error _
  · exact .ok rfl

variable {s : Lexer} (inOrder : s.InOrder)

include inOrder

/-! ### Keys and indentation -/

theorem stays_withoutKey : s.StaysInOrder
    { s with pending := s.pending.filter fun key => key.depth ≠ s.depth } :=
  ⟨⟨inOrder.sized, inOrder.ordered.drop_pending _⟩, rfl, rfl⟩

theorem stays_noteKey : Ensures s.noteKey s.StaysInOrder := by
  rw [noteKey]
  split
  · refine s.dropKey_eq.bind ?_
    rintro _ rfl
    refine .ok ⟨⟨inOrder.sized, ?_⟩, rfl, rfl⟩
    refine (stays_withoutKey inOrder).inOrder.ordered.note rfl rfl rfl fun other member => ?_
    simpa using (List.mem_filter.mp member).2
  · exact .ok ⟨inOrder, rfl, rfl⟩

theorem stays_dropStaleKeys : Ensures s.dropStaleKeys s.StaysInOrder := by
  rw [dropStaleKeys]
  split
  · exact .error _
  · exact .ok ⟨⟨inOrder.sized, inOrder.ordered.drop_pending _⟩, rfl, rfl⟩

theorem InOrder.push (lexeme : Lexeme) {stop : Mark} {after : Cursor}
    (proper : Token.Proper ⟨lexeme, s.mark, stop⟩) (forward : stop.index ≤ after.mark.index) :
    InOrder { s.push lexeme s.mark stop with cursor := after } :=
  ⟨inOrder.sized, inOrder.ordered.push proper (Nat.le_refl _) forward⟩

theorem InOrder.pushEmpty (lexeme : Lexeme) (unwritten : lexeme.isWritten = false) :
    s.StaysInOrder (s.pushEmpty lexeme) :=
  ⟨inOrder.push lexeme ⟨Nat.le_refl _, by simp [unwritten]⟩ (Nat.le_refl _), rfl, rfl⟩

theorem InOrder.take {lexeme : Lexeme} (unwritten : lexeme.isWritten = false) (size : Nat) :
    (s.take lexeme size).InOrder :=
  inOrder.push lexeme ⟨s.cursor.to_skip size, by simp [unwritten]⟩ (Nat.le_refl _)

theorem InOrder.takeOne {c : Char} (here : s.cursor.peek = some c) (lexeme : Lexeme) :
    (s.take lexeme 1).InOrder :=
  inOrder.push lexeme (.of_lt (Cursor.lt_next here)) (Nat.le_refl _)

theorem InOrder.closeWhile (close : Nat → Bool) : s.StaysInOrder (s.closeWhile close) := by
  rw [Lexer.closeWhile]
  split
  · exact ⟨inOrder, rfl, rfl⟩
  · have stays (columns : List Nat) {t : Lexer} (stays : s.StaysInOrder t) :
        s.StaysInOrder (columns.foldl (fun s _ => s.pushEmpty .blockEnd) t) := by
      induction columns generalizing t with
      | nil => exact stays
      | cons column columns ih =>
        obtain ⟨inner, cursor, depth⟩ := stays.inOrder.pushEmpty .blockEnd rfl
        exact ih ⟨inner, cursor.trans stays.cursor, depth.trans stays.depth⟩
    exact stays _ ⟨⟨inOrder.sized, inOrder.ordered⟩, rfl, rfl⟩

theorem InOrder.openHere {lexeme : Lexeme} (unwritten : lexeme.isWritten = false) :
    s.StaysInOrder (s.openHere lexeme) := by
  rw [Lexer.openHere]
  split
  · obtain ⟨inner, cursor, depth⟩ := inOrder.pushEmpty lexeme unwritten
    exact ⟨⟨inner.sized, inner.ordered⟩, cursor, depth⟩
  · exact ⟨inOrder, rfl, rfl⟩

/-! ### Tokens -/

theorem inOrder_leaveDocument : Ensures s.leaveDocument s.StaysInOrder := by
  rw [leaveDocument]
  have closed := inOrder.closeWhile fun _ => true
  refine s.closeAll.dropKey_eq.bind ?_
  rintro _ rfl
  obtain ⟨inner, cursor, depth⟩ := stays_withoutKey closed.inOrder
  exact .ok ⟨⟨inner.sized, inner.ordered⟩, cursor.trans closed.cursor, depth.trans closed.depth⟩

theorem inOrder_takeDirective : Ensures s.takeDirective InOrder := by
  rw [takeDirective]
  refine (inOrder_leaveDocument inOrder).bind fun t stays => ?_
  refine (Directive.read_forward t.cursor).bind ?_
  rintro ⟨directive, stop, after⟩ ⟨start, forward⟩
  exact .ok (stays.inOrder.push (.directive directive) ⟨start, by simp [Lexeme.isWritten]⟩ forward)

theorem inOrder_takeSeparator {lexeme : Lexeme} (unwritten : lexeme.isWritten = false) :
    Ensures (s.takeSeparator lexeme) InOrder := by
  rw [takeSeparator]
  exact (inOrder_leaveDocument inOrder).bind fun t stays => .ok (stays.inOrder.take unwritten 3)

theorem inOrder_takeFlowStart {lexeme : Lexeme} (unwritten : lexeme.isWritten = false) :
    Ensures (s.takeFlowStart lexeme) InOrder := by
  rw [takeFlowStart]
  refine (stays_noteKey inOrder).bind fun t stays => ?_
  obtain ⟨sized, ordered⟩ := stays.inOrder.take unwritten 1
  exact .ok ⟨sized, { ordered with
    shallow := fun key member => Nat.le_succ_of_le (ordered.shallow key member) }⟩

theorem inOrder_takeFlowEnd {lexeme : Lexeme} (unwritten : lexeme.isWritten = false) :
    Ensures (s.takeFlowEnd lexeme) InOrder := by
  rw [takeFlowEnd]
  refine s.dropKey_eq.bind ?_
  rintro _ rfl
  obtain ⟨sized, ordered⟩ := (stays_withoutKey inOrder).inOrder.take unwritten 1
  refine .ok ⟨sized, { ordered with shallow := fun key member => ?_ }⟩
  -- No key is pending at the depth that is left, so all of them fit into the one outside.
  have outside : key.depth ≠ s.depth := by simpa using (List.mem_filter.mp member).2
  exact Nat.le_sub_one_of_lt (Nat.lt_of_le_of_ne (ordered.shallow key member) outside)

theorem inOrder_takeFlowEntry : Ensures s.takeFlowEntry InOrder := by
  rw [takeFlowEntry]
  refine (dropKey_eq _).bind ?_
  rintro _ rfl
  have inner : InOrder { s with keyAllowed := true } := ⟨inOrder.sized, inOrder.ordered⟩
  exact .ok ((stays_withoutKey inner).inOrder.take rfl 1)

/-- An indicator may open a block collection, whose token stands for no character. -/
theorem inOrder_open_take {opening : Lexeme} (unwritten : opening.isWritten = false)
    {c : Char} (here : s.cursor.peek = some c) (lexeme : Lexeme) (allowed : Lexer → Bool) :
    Ensures (do
      let t := if s.inFlow then s else s.openHere opening
      let t ← { t with keyAllowed := allowed t }.dropKey
      return t.take lexeme 1) InOrder := by
  have opened : s.StaysInOrder (if s.inFlow then s else s.openHere opening) := by
    split
    · exact ⟨inOrder, rfl, rfl⟩
    · exact inOrder.openHere unwritten
  generalize (if s.inFlow then s else s.openHere opening) = t at opened ⊢
  obtain ⟨⟨sized, ordered⟩, cursor, _⟩ := opened
  refine (dropKey_eq _).bind ?_
  rintro _ rfl
  have inner : InOrder { t with keyAllowed := allowed t } := ⟨sized, ordered⟩
  exact .ok ((stays_withoutKey inner).inOrder.takeOne (cursor ▸ here) lexeme)

theorem inOrder_takeBlockEntry {c : Char} (here : s.cursor.peek = some c) :
    Ensures s.takeBlockEntry InOrder := by
  rw [takeBlockEntry]
  split
  · exact .error _
  · exact inOrder_open_take inOrder rfl here _ fun _ => true

theorem inOrder_takeKey {c : Char} (here : s.cursor.peek = some c) :
    Ensures s.takeKey InOrder := by
  rw [takeKey]
  split
  · exact .error _
  · exact inOrder_open_take inOrder rfl here _ fun t => !t.inFlow

/-- Confirming the innermost key puts its tokens where the key began, still in order. -/
theorem inOrder_confirmKey {key : PendingKey} (member : key ∈ s.pending)
    (innermost : key.depth = s.depth) : (s.confirmKey key).InOrder := by
  have others := (inOrder.ordered.drop_pending fun other => other.depth ≠ key.depth)
  have fits := inOrder.ordered.fits key member
  -- A key after this one would lie deeper than the lexer stands.
  have outer : ∀ other ∈ s.pending.filter (fun other => other.depth ≠ key.depth),
      other.number ≤ key.number ∧ other.mark.index ≤ key.mark.index := by
    intro other kept
    obtain ⟨inside, differ⟩ := List.mem_filter.mp kept
    have different : other.depth ≠ key.depth := by simpa using differ
    obtain ⟨before, after, whole⟩ := List.append_of_mem member
    have nested := inOrder.ordered.nested
    rw [whole, List.pairwise_append, List.pairwise_cons] at nested
    obtain ⟨_, ⟨deeper, _⟩, across⟩ := nested
    rw [whole, List.mem_append, List.mem_cons] at inside
    rcases inside with earlier | same | later
    · exact (across other earlier key List.mem_cons_self).2
    · exact absurd (congrArg PendingKey.depth same) different
    · have deep := (deeper other later).1
      have shallow := inOrder.ordered.shallow other (List.mem_filter.mp kept).1
      omega
  have count := inOrder.ordered.count_eq
  -- First the key's own token, and in front of it the start of a mapping if one begins here.
  have first := others.insert fits outer ⟨.key, key.mark, key.mark⟩ rfl rfl rfl
  have still := fits.insert count fits (Nat.le_refl _) (Nat.le_refl _)
    ⟨.key, key.mark, key.mark⟩ rfl
  have second := first.insert still outer ⟨.blockMappingStart, key.mark, key.mark⟩ rfl rfl rfl
  rw [confirmKey]
  dsimp only
  split
  · exact ⟨inOrder.sized, second⟩
  · exact ⟨inOrder.sized, first⟩

theorem inOrder_takeValue {c : Char} (here : s.cursor.peek = some c) :
    Ensures s.takeValue InOrder := by
  rw [takeValue]
  split
  next key found =>
    -- The key that was noted is confirmed, which leaves the cursor before the colon.
    have innermost : key.depth = s.depth := by simpa using List.find?_some found
    have confirmed := inOrder_confirmKey inOrder (List.mem_of_find?_eq_some found) innermost
    have inner : InOrder { s.confirmKey key with keyAllowed := false } :=
      ⟨confirmed.sized, confirmed.ordered⟩
    have stays : (s.confirmKey key).cursor = s.cursor := by
      rw [confirmKey]
      dsimp only
      split <;> rfl
    exact .ok (inner.takeOne (stays ▸ here) .value)
  next =>
    dsimp only
    split
    · exact .error _
    · exact inOrder_open_take inOrder rfl here _ fun t => !t.inFlow

theorem inOrder_takeAnchor {lexeme : String → Lexeme} {c : Char} (here : s.cursor.peek = some c) :
    Ensures (s.takeAnchor lexeme) InOrder := by
  rw [takeAnchor]
  -- Noting that a key may begin here does not move the cursor.
  refine (stays_noteKey inOrder).bind fun t stays => ?_
  refine (to_readAnchorName t.cursor.next).bind ?_
  rintro ⟨name, after⟩ forward
  have visible := Nat.lt_of_lt_of_le (Cursor.lt_next (stays.cursor ▸ here)) forward
  have inner := stays.inOrder.push (lexeme name) (.of_lt visible) (Nat.le_refl _)
  exact .ok ⟨inner.sized, inner.ordered⟩

theorem inOrder_takeTag {c : Char} (here : s.cursor.peek = some c) :
    Ensures s.takeTag InOrder := by
  rw [takeTag]
  refine (stays_noteKey inOrder).bind fun t stays => ?_
  have here : t.cursor.peek = some c := stays.cursor ▸ here
  refine (Tag.read_forward here).bind ?_
  rintro ⟨⟨handle, suffix⟩, after⟩ visible
  have inner := stays.inOrder.push (.tag handle suffix) (.of_lt visible) (Nat.le_refl _)
  exact .ok ⟨inner.sized, inner.ordered⟩

theorem inOrder_takeQuoted {c : Char} (here : s.cursor.peek = some c) (quote : Char)
    (style : Style) : Ensures (s.takeQuoted quote style) InOrder := by
  rw [takeQuoted]
  refine (stays_noteKey inOrder).bind fun t stays => ?_
  refine (Quoted.to_body t.size quote t.size t.cursor.next).bind ?_
  rintro ⟨value, after⟩ forward
  have visible := Nat.lt_of_lt_of_le (Cursor.lt_next (stays.cursor ▸ here)) forward
  have inner := stays.inOrder.push (.scalar value style) (.of_lt visible) (Nat.le_refl _)
  exact .ok ⟨inner.sized, inner.ordered⟩

theorem inOrder_takeBlock {c : Char} (here : s.cursor.peek = some c) (style : Style) :
    Ensures (s.takeBlock style) InOrder := by
  rw [takeBlock]
  refine (dropKey_eq _).bind ?_
  rintro t rfl
  refine (Block.read_within _ _ _ _).bind ?_
  rintro reading ⟨start, forward⟩
  have visible := Nat.lt_of_lt_of_le (Cursor.lt_next here) start
  have inner := (stays_withoutKey inOrder).inOrder.push
    (.scalar (.ofChars reading.value) style) (.of_lt visible) forward
  exact .ok ⟨inner.sized, inner.ordered⟩

omit inOrder in
/-- Where a plain scalar can start there is a run of plain characters. -/
theorem startsRun_of_startsPlain {c : Char} (here : s.cursor.peek = some c)
    (starts : s.startsPlain c) : Plain.startsRun s.inFlow s.cursor := by
  obtain ⟨rest, text⟩ : ∃ rest, s.cursor.rest = c :: rest := List.head?_eq_some_iff.mp here
  have following : s.cursor.peekAt 1 = rest.head? := by
    rw [Cursor.peekAt, text, List.getElem?_cons_succ, List.head?_eq_getElem?]
  rw [Plain.startsRun, text]
  dsimp only
  rw [startsPlain, following] at starts
  rw [Bool.or_eq_true, Bool.and_eq_true, Bool.and_eq_true] at starts
  rcases starts with ⟨solid, plain⟩ | ⟨solid, sign⟩
  · -- What ends a run is an indicator.
    simp only [List.contains_cons, List.contains_nil, Bool.or_false, Bool.not_or, Bool.and_eq_true,
      Bool.not_eq_true', beq_eq_false_iff_ne] at plain
    simp [Plain.isRunChar, solid, plain]
  · simp only [Bool.or_eq_true, Bool.and_eq_true, decide_eq_true_eq, Bool.not_eq_true'] at sign
    rcases sign with rfl | ⟨block, rfl | rfl⟩
    · simp [Plain.isRunChar, isBlankOrEnd, isBreak]
    · simp [Plain.isRunChar, isBlankOrEnd, isBreak, block]
    · simp only [Bool.not_eq_true'] at solid
      simp [Plain.isRunChar, Plain.endsKey, solid, block]
      simp [isBlankOrEnd, isBreak]

theorem inOrder_takePlain (starts : Plain.startsRun s.inFlow s.cursor) :
    Ensures s.takePlain InOrder := by
  rw [takePlain]
  refine (stays_noteKey inOrder).bind fun t stays => .ok ?_
  have flow : t.inFlow = s.inFlow := by rw [inFlow, inFlow, stays.depth]
  obtain ⟨visible, forward⟩ := Plain.read_forward stays.inOrder.sized t.minColumn
    (flow ▸ stays.cursor ▸ starts : Plain.startsRun t.inFlow t.cursor)
  have inner := stays.inOrder.push (.scalar (.ofChars
    (Plain.read t.size t.inFlow t.minColumn t.cursor).value) .plain) (.of_lt visible) forward
  exact ⟨inner.sized, inner.ordered⟩

theorem inOrder_takeToken {c : Char} (here : s.cursor.peek = some c) :
    Ensures (s.takeToken c) InOrder := by
  rw [takeToken]
  -- One case a kind of token, in the order in which the first character is looked at.
  refine .ite (fun _ => inOrder_takeDirective inOrder) fun _ => ?_
  refine .ite (fun _ => inOrder_takeSeparator inOrder rfl) fun _ => ?_
  refine .ite (fun _ => inOrder_takeSeparator inOrder rfl) fun _ => ?_
  refine .ite (fun _ => inOrder_takeFlowStart inOrder rfl) fun _ => ?_
  refine .ite (fun _ => inOrder_takeFlowStart inOrder rfl) fun _ => ?_
  refine .ite (fun _ => inOrder_takeFlowEnd inOrder rfl) fun _ => ?_
  refine .ite (fun _ => inOrder_takeFlowEnd inOrder rfl) fun _ => ?_
  refine .ite (fun _ => inOrder_takeFlowEntry inOrder) fun _ => ?_
  refine .ite (fun _ => inOrder_takeBlockEntry inOrder here) fun _ => ?_
  refine .ite (fun _ => inOrder_takeKey inOrder here) fun _ => ?_
  refine .ite (fun _ => inOrder_takeValue inOrder here) fun _ => ?_
  refine .ite (fun _ => inOrder_takeAnchor inOrder here) fun _ => ?_
  refine .ite (fun _ => inOrder_takeAnchor inOrder here) fun _ => ?_
  refine .ite (fun _ => inOrder_takeTag inOrder here) fun _ => ?_
  refine .ite (fun _ => inOrder_takeBlock inOrder here _) fun _ => ?_
  refine .ite (fun _ => inOrder_takeBlock inOrder here _) fun _ => ?_
  refine .ite (fun _ => inOrder_takeQuoted inOrder here _ _) fun _ => ?_
  refine .ite (fun _ => inOrder_takeQuoted inOrder here _ _) fun _ => ?_
  exact .ite (fun starts => inOrder_takePlain inOrder (startsRun_of_startsPlain here starts))
    fun _ => .error _

omit inOrder in
theorem index_le_skipBlanks (inComment crossed : Bool) (mark : Mark) (text : List Char) :
    mark.index ≤ (skipBlanks inComment crossed mark text).1.mark.index := by
  induction text generalizing inComment crossed mark with
  | nil => exact Nat.le_refl _
  | cons c rest ih =>
    -- Whatever the character, skipping it leads forward.
    have onward (inComment crossed : Bool) : mark.index ≤
        (skipBlanks inComment crossed (mark.past c rest.head?) rest).1.mark.index :=
      Nat.le_of_lt (Mark.index_lt_of_past (ih _ _ _))
    rw [skipBlanks]
    repeat' split
    · exact onward _ _
    · exact onward _ _
    · exact onward _ _
    · exact onward _ _
    · exact Nat.le_refl _

theorem InOrder.toNextToken : s.toNextToken.InOrder := by
  have start : s.cursor.To (skipByteOrderMark s.cursor) := by
    rw [skipByteOrderMark]
    split
    · exact s.cursor.to_next
    · exact .refl s.cursor
  have forward := start.trans (index_le_skipBlanks false false (skipByteOrderMark s.cursor).mark
    (skipByteOrderMark s.cursor).rest)
  exact ⟨inOrder.sized, inOrder.ordered.forward forward⟩

theorem InOrder.step : Ensures s.step fun turn => turn.1.InOrder := by
  rw [Lexer.step]
  -- Before a token is taken, stale keys are dropped and collections that end here are closed.
  refine (stays_dropStaleKeys inOrder.toNextToken).bind fun t stays => ?_
  have closed := stays.inOrder.closeWhile fun column => t.mark.column < column
  dsimp only
  split
  · have all := closed.inOrder.closeWhile fun _ => true
    refine (dropKey_eq _).bind ?_
    rintro _ rfl
    exact .ok (stays_withoutKey all.inOrder).inOrder
  next c here =>
    refine (inOrder_takeToken closed.inOrder here).bind fun taken inner => ?_
    exact (stays_dropStaleKeys inner).bind fun last stays => .ok stays.inOrder

theorem InOrder.tokens (fuel : Nat) : (s.tokens fuel).InOrder 0 := by
  have whole {t : Lexer} (inOrder : t.InOrder) :
      (TokenStream.prepend t.found.reverse (.ends t.mark)).InOrder 0 :=
    inOrder.ordered.inOrder_prepend (List.Sublist.refl _) fun _ le => le
  -- By induction on the fuel, each turn by `InOrder.step`.
  induction fuel generalizing s with
  | zero => exact whole inOrder
  | succ fuel ih =>
    rw [Lexer.tokens]
    have turn := inOrder.step
    split
    · -- A fault cuts the tokens off, which leaves those before it in order.
      exact inOrder.ordered.inOrder_prepend (List.take_sublist _ _) fun _ _ => trivial
    next t stepped => exact whole (turn _ stepped)
    next t stepped => exact ih (turn _ stepped)

end Lexer

/-- The tokens of a text stand one after the other, in the order in which they are read. -/
theorem TokenStream.inOrder_ofText (text : List Char) : (ofText text).InOrder 0 :=
  (Lexer.inOrder_start text).tokens _

end Phrasebook.Yaml
