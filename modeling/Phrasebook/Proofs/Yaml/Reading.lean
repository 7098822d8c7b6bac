import Phrasebook.Proofs.Yaml.Lexer
import Phrasebook.Yaml.Graph.OfTokens

/-!
# Phrasebook.Proofs.Yaml.Reading

The scalars of a document take up some of its text, unless they are null
(`Graph.visible_ofTokens?`).

A scalar node starts where its first property does, or its token, and stops where the token does; and
written tokens take up some of the text. Without a token it stops where its last property does. A
scalar that has neither stands for nothing that is written, and it is null.

Each reader is followed from a state that is sound, which means that the nodes met so far are visible
and the tokens left stand in order, to one that is sound again (`Keeps`); the readers of nodes, which
call one another, by induction on their fuel (`KeptWith`). Only where the properties of a node meet
its token does it matter after which offset the tokens stand (`Leads`). The readers that add no node
keep whatever goes on to hold when a token is taken (`Reading.Lasting`).
-/

namespace Phrasebook.Yaml

namespace TokenStream

variable {stream : TokenStream} {index : Nat}

/-- The next token stands before all others. -/
theorem InOrder.next (inOrder : stream.InOrder index) {token : Token}
    (next : stream.peek = .ok token) :
    index ≤ token.start.index ∧ token.Proper ∧ stream.tail.InOrder token.stop.index := by
  cases stream with
  | more first rest =>
    cases next
    exact inOrder
  | ends mark =>
    cases next
    exact ⟨inOrder, ⟨Nat.le_refl _, by simp [Lexeme.isWritten]⟩, Nat.le_refl _⟩
  | broken fault => cases next

/-- The tokens of a stream stand no earlier than the first of them. -/
theorem InOrder.from_next (inOrder : stream.InOrder index) {token : Token}
    (next : stream.peek = .ok token) : stream.InOrder token.start.index := by
  cases stream with
  | more first rest =>
    cases next
    exact ⟨Nat.le_refl _, inOrder.2⟩
  | ends mark =>
    cases next
    exact Nat.le_refl _
  | broken fault => cases next

theorem InOrder.exists_tail (inOrder : stream.InOrder index) : ∃ later, stream.tail.InOrder later := by
  cases stream with
  | more first rest => exact ⟨_, inOrder.2.2⟩
  | ends mark => exact ⟨index, inOrder⟩
  | broken fault => exact ⟨index, inOrder⟩

end TokenStream

/-- A scalar that is not null takes up some of the text. -/
def Vertex.Visible : Vertex → Prop
  | .scalar start stop _ _ isNull => isNull = false → start.index < stop.index
  | _ => True

theorem Vertex.visible_sequence (start stop : Mark) (items : List Nat) :
    (sequence start stop items).Visible :=
  trivial

theorem Vertex.visible_mapping (start stop : Mark) (entries : List (Nat × Nat)) :
    (mapping start stop entries).Visible :=
  trivial

namespace Graph

/-- A condition holds, and the tokens left stand in order after an offset. -/
structure Reading.After (s : Reading) (holds : Reading → Prop) (index : Nat) : Prop where
  tokens : s.tokens.InOrder index
  holds : holds s

/-- A condition holds, and the tokens left stand in order. -/
def Reading.Stands (holds : Reading → Prop) (s : Reading) : Prop :=
  ∃ index, s.After holds index

/-- The nodes met so far are visible. -/
def Reading.Visible (s : Reading) : Prop :=
  ∀ vertex ∈ s.vertices, vertex.Visible

/-- The nodes met so far are visible, and the tokens left stand in order. -/
abbrev Reading.Sound : Reading → Prop :=
  Stands Visible

/-- A condition that goes on to hold when a token is taken, and when tag handles are set. -/
structure Reading.Lasting (holds : Reading → Prop) : Prop where
  tail : ∀ s, holds s → holds { s with tokens := s.tokens.tail }
  handles : ∀ s handles, holds s → holds { s with handles := handles }

theorem Reading.lasting_visible : Lasting Visible :=
  ⟨fun _ visible => visible, fun _ _ visible => visible⟩

theorem Reading.Lasting.stands {holds : Reading → Prop} (lasting : Lasting holds) :
    Lasting (Stands holds) where
  tail := by
    rintro s ⟨index, tokens, inside⟩
    obtain ⟨later, onward⟩ := tokens.exists_tail
    exact ⟨later, onward, lasting.tail s inside⟩
  handles := by
    rintro s handles ⟨index, tokens, inside⟩
    exact ⟨index, tokens, lasting.handles s handles inside⟩

namespace Reader

/-- What holds after a step that does not stop with a fault, if something else does before it. -/
def Leads {α : Type} (before : Reading → Prop) (reader : Reader α)
    (after : α → Reading → Prop) : Prop :=
  ∀ s, before s → Ensures (reader.run s) fun (value, t) => after value t

/-- A step that leaves things sound. -/
abbrev Keeps {α : Type} (reader : Reader α) : Prop :=
  Leads Reading.Sound reader fun _ => Reading.Sound

section Steps

variable {α β : Type} {before : Reading → Prop} {reader : Reader α} {next : α → Reader β}
  {after : β → Reading → Prop}

theorem Leads.pure {after : α → Reading → Prop} (value : α) (holds : ∀ s, before s → after value s) :
    Leads before (pure value) after :=
  fun s inside => .ok (holds s inside)

theorem Leads.bind {between : α → Reading → Prop} (first : Leads before reader between)
    (second : ∀ value, Leads (between value) (next value) after) :
    Leads before (reader >>= next) after :=
  fun s inside => (first s inside).bind fun (value, t) inside => second value t inside

theorem Leads.of_fact {fact : Prop} {after : α → Reading → Prop}
    (leads : fact → Leads before reader after) :
    Leads (fun s => before s ∧ fact) reader after :=
  fun s ⟨inside, holds⟩ => leads holds s inside

theorem Leads.mono {after : α → Reading → Prop} (leads : Leads before reader after)
    {earlier : Reading → Prop} (weaken : ∀ s, earlier s → before s) : Leads earlier reader after :=
  fun s inside => leads s (weaken s inside)

theorem Leads.get {next : Reading → Reader β}
    (leads : ∀ s, before s → Leads (· = s) (next s) after) : Leads before (get >>= next) after :=
  fun s inside => leads s inside s rfl

theorem Leads.at {after : α → Reading → Prop} (leads : Leads before reader after) {s : Reading}
    (inside : before s) : Leads (· = s) reader after := by
  rintro _ rfl
  exact leads _ inside

theorem Leads.of_exists {ι : Type} {between : ι → Reading → Prop} {after : α → Reading → Prop}
    (leads : ∀ i, Leads (between i) reader after) :
    Leads (fun s => ∃ i, between i s) reader after :=
  fun s ⟨i, inside⟩ => leads i s inside

theorem Leads.weaken {after weaker : α → Reading → Prop} (leads : Leads before reader after)
    (weaken : ∀ value s, after value s → weaker value s) : Leads before reader weaker :=
  fun s inside => (leads s inside).mono fun (value, t) => weaken value t

theorem keeps_pure (value : α) : Keeps (pure value : Reader α) :=
  .pure value fun _ sound => sound

theorem leads_fail {after : α → Reading → Prop} (mark : Mark) (problem : Problem) :
    Leads before (fail mark problem : Reader α) after :=
  fun _ _ => .error _

end Steps

/-! ### Tokens -/

section Tokens

variable {holds : Reading → Prop}

/-- The tokens left stand after an offset, and this one is the next. -/
structure Meets (holds : Reading → Prop) (index : Nat) (token : Token) (s : Reading) : Prop where
  after : s.After holds index
  next : s.tokens.peek = .ok token

theorem Meets.at_next {index : Nat} {token : Token} {s : Reading} (meets : Meets holds index token s) :
    s.After holds token.start.index :=
  ⟨meets.after.tokens.from_next meets.next, meets.after.holds⟩

theorem run_peek (s : Reading) : peek.run s = s.tokens.peek.map fun token => (token, s) := by
  simp only [peek, StateT.run_bind, StateT.run_get, pure_bind]
  cases s.tokens.peek <;> rfl

theorem run_take (s : Reading) :
    take.run s = s.tokens.peek.map fun token => (token, { s with tokens := s.tokens.tail }) := by
  rw [take, StateT.run_bind, run_peek]
  cases s.tokens.peek <;> rfl

/-- Looking at the next token changes nothing, and the token stands after what has been read. -/
theorem leads_peek (holds : Reading → Prop) (index : Nat) :
    Leads (·.After holds index) peek fun token s =>
      Meets holds index token s ∧ (index ≤ token.start.index ∧ token.Proper) := by
  intro s after
  rw [run_peek]
  cases next : s.tokens.peek with
  | error fault => exact .error fault
  | ok token =>
    obtain ⟨start, proper, _⟩ := after.tokens.next next
    exact .ok ⟨⟨after, next⟩, start, proper⟩

/-- After a token is taken the tokens left stand after it. -/
theorem leads_take (lasting : Reading.Lasting holds) (index : Nat) (token : Token) :
    Leads (Meets holds index token) take fun _ s => s.After holds token.stop.index := by
  rintro s ⟨after, next⟩
  rw [run_take, next]
  exact .ok ⟨(after.tokens.next next).2.2, lasting.tail s after.holds⟩

theorem leads_takeNext (lasting : Reading.Lasting holds) (index : Nat) :
    Leads (·.After holds index) take fun token s =>
      s.After holds token.stop.index ∧ (index ≤ token.start.index ∧ token.Proper) := by
  intro s after
  rw [run_take]
  cases next : s.tokens.peek with
  | error fault => exact .error fault
  | ok token =>
    obtain ⟨start, proper, onward⟩ := after.tokens.next next
    exact .ok ⟨⟨onward, lasting.tail s after.holds⟩, start, proper⟩

theorem leads_peek_of_any (holds : Reading → Prop) : Leads holds peek fun _ => holds := by
  intro s inside
  rw [run_peek]
  cases s.tokens.peek with
  | error fault => exact .error fault
  | ok token => exact .ok inside

theorem leads_take_of_lasting (lasting : Reading.Lasting holds) :
    Leads holds take fun _ => holds := by
  intro s inside
  rw [run_take]
  cases s.tokens.peek with
  | error fault => exact .error fault
  | ok token => exact .ok (lasting.tail s inside)

theorem keeps_peek : Keeps peek :=
  leads_peek_of_any _

theorem keeps_take : Keeps take :=
  leads_take_of_lasting Reading.lasting_visible.stands

end Tokens

/-! ### Nodes -/

theorem keeps_add {vertex : Vertex} (visible : vertex.Visible) (anchor : Option String) :
    Keeps (add vertex anchor) := by
  rw [add]
  refine .get fun s sound => ?_
  obtain ⟨index, after⟩ := sound
  have pushed : ∀ held ∈ s.vertices.push vertex, held.Visible := by
    intro held member
    rcases Array.mem_push.mp member with old | rfl
    · exact after.holds held old
    · exact visible
  have added (anchors : List (String × Nat)) : Keeps (do
      set { s with vertices := s.vertices.push vertex, anchors := anchors }
      return s.vertices.size) :=
    fun _ _ => .ok ⟨index, after.tokens, pushed⟩
  cases anchor with
  | none => exact (added _).at ⟨index, after⟩
  | some name =>
    -- An anchor that is given a second time stops the reading.
    dsimp only
    split
    · exact (leads_fail _ _).bind fun _ => added _
    · exact (added _).at ⟨index, after⟩

theorem keeps_complete (number : Nat) {vertex : Vertex} (visible : vertex.Visible) :
    Keeps (complete number vertex) := by
  rintro s ⟨index, after⟩
  refine .ok ⟨index, after.tokens, fun held member => ?_⟩
  rcases Array.mem_or_eq_of_mem_setIfInBounds member with old | rfl
  · exact after.holds held old
  · exact visible

theorem keeps_addEmpty (mark : Mark) : Keeps (addEmpty mark) :=
  have silent : isNull none .plain [] = true := by decide
  keeps_add (by simp [Vertex.Visible, silent]) none

theorem keeps_aliased (token : Token) (name : String) : Keeps (aliased token name) := by
  rw [aliased]
  refine .get fun s sound => ?_
  split
  · exact (keeps_pure _).at sound
  · exact leads_fail _ _

theorem leads_resolveTag (before : Reading → Prop) (token : Token) (handle : Option String)
    (suffix : String) : Leads before (resolveTag token handle suffix) fun _ => before := by
  cases handle with
  | none => exact .pure _ fun _ inside => inside
  | some handle =>
    rw [resolveTag]
    refine .get fun s inside => ?_
    split
    · exact (Leads.pure _ fun _ inside => inside).at inside
    · exact leads_fail _ _

/-- Properties stand between two offsets, and a node that has some is not empty. -/
structure Properties.Between (properties : Properties) (index later : Nat) : Prop where
  forward : index ≤ later
  extent : ∀ start stop, properties.extent = some (start, stop) →
    index ≤ start.index ∧ start.index < stop.index ∧ stop.index ≤ later

/-- A node starts with its first property, or with the token that comes next. -/
theorem Properties.Between.start {properties : Properties} {index later : Nat}
    (between : properties.Between index later) {mark : Mark} (onward : later ≤ mark.index) :
    index ≤ (properties.extent.elim mark (·.1)).index ∧
      (properties.extent.elim mark (·.1)).index ≤ mark.index := by
  obtain ⟨forward, ends⟩ := between
  cases extent : properties.extent with
  | none => exact ⟨Nat.le_trans forward onward, Nat.le_refl _⟩
  | some own =>
    have := ends own.1 own.2 extent
    rw [Option.elim_some]
    omega

/-- The properties of a node stand between what has been read and the tokens left. -/
theorem leads_properties {holds : Reading → Prop} (lasting : Reading.Lasting holds) (index : Nat) :
    Leads (·.After holds index) properties fun properties s =>
      ∃ later, s.After holds later ∧ properties.Between index later := by
  -- A property is followed by another one, or by something else, which stays where it is.
  rw [properties]
  refine (leads_peek holds index).bind fun first => .of_fact fun ⟨begins, proper⟩ => ?_
  split
  next name anchor =>
    have visible := proper.visible (by rw [anchor]; rfl)
    refine (leads_take lasting index first).bind fun _ => (leads_peek holds _).bind fun second =>
      .of_fact fun ⟨onward, proper⟩ => ?_
    have forward := proper.forward
    split
    · refine (leads_take lasting _ second).bind fun _ =>
        (leads_resolveTag _ _ _ _).bind fun tag => ?_
      refine .pure _ fun s after => ⟨_, after, by omega, ?_⟩
      rintro _ _ ⟨⟩
      omega
    · refine .pure _ fun s meets => ⟨_, meets.after, by omega, ?_⟩
      rintro _ _ ⟨⟩
      exact ⟨begins, visible, Nat.le_refl _⟩
  next handle suffix tag =>
    have visible := proper.visible (by rw [tag]; rfl)
    refine (leads_take lasting index first).bind fun _ => (leads_peek holds _).bind fun second =>
      .of_fact fun ⟨onward, proper⟩ => ?_
    have forward := proper.forward
    split
    · refine (leads_take lasting _ second).bind fun _ =>
        (leads_resolveTag _ _ _ _).bind fun tag => ?_
      refine .pure _ fun s after => ⟨_, after, by omega, ?_⟩
      rintro _ _ ⟨⟩
      omega
    · refine (leads_resolveTag _ _ _ _).bind fun tag => ?_
      refine .pure _ fun s meets => ⟨_, meets.after, by omega, ?_⟩
      rintro _ _ ⟨⟩
      exact ⟨begins, visible, Nat.le_refl _⟩
  next =>
    refine .pure _ fun s meets => ⟨_, meets.after, Nat.le_refl _, ?_⟩
    rintro _ _ ⟨⟩

/-- The readers of nodes keep things sound as long as they have some fuel. -/
structure KeptWith (fuel : Nat) : Prop where
  node (block unindented : Bool) : Keeps (node fuel block unindented)
  blockItems (items : List Nat) : Keeps (blockItems fuel items)
  unindentedItems (items : List Nat) : Keeps (unindentedItems fuel items)
  blockEntries (entries : List (Nat × Nat)) : Keeps (blockEntries fuel entries)
  flowEntry (close : Lexeme → Bool) : Keeps (flowEntry fuel close)
  flowItems (isFirst : Bool) (items : List Nat) : Keeps (flowItems fuel isFirst items)
  flowEntries (isFirst : Bool) (entries : List (Nat × Nat)) :
    Keeps (flowEntries fuel isFirst entries)

theorem keptWith_zero : KeptWith 0 := by
  -- Without fuel a reader looks at the next token and fails there.
  have fails {α : Type} (problem : Lexeme → Problem) :
      Keeps (do let token ← peek; fail token.start (problem token.lexeme) : Reader α) :=
    keeps_peek.bind fun _ => leads_fail _ _
  constructor
  · intro block unindented
    exact fails _
  · intro items
    exact fails _
  · intro items
    exact fails _
  · intro entries
    exact fails _
  · intro close
    exact fails _
  · intro isFirst items
    exact fails _
  · intro isFirst entries
    exact fails _

section Nodes

variable {fuel : Nat} (kept : KeptWith fuel)

theorem keeps_closeSequence (number : Nat) (start : Mark) {read : Reader (List Nat × Mark)}
    (keeps : Keeps read) :
    Keeps (do let (items, stop) ← read; complete number (.sequence start stop items)) :=
  keeps.bind fun (_, _) => keeps_complete number (Vertex.visible_sequence _ _ _)

theorem keeps_closeMapping (number : Nat) (start : Mark) {read : Reader (List (Nat × Nat) × Mark)}
    (keeps : Keeps read) :
    Keeps (do let (entries, stop) ← read; complete number (.mapping start stop entries)) :=
  keeps.bind fun (_, _) => keeps_complete number (Vertex.visible_mapping _ _ _)

include kept

/-- A node with its contents keeps things sound if the readers with less fuel do. -/
theorem keeps_node (block unindented : Bool) : Keeps (node (fuel + 1) block unindented) := by
  rw [node]
  refine keeps_peek.bind fun first => ?_
  split
  · exact keeps_take.bind fun _ => keeps_aliased first _
  -- The properties come first, and the next token stands after them.
  refine .of_exists fun earlier => ?_
  refine (leads_properties Reading.lasting_visible earlier).bind fun properties =>
    .of_exists fun index => .of_fact fun between => ?_
  refine (leads_peek _ index).bind fun next => .of_fact fun ⟨start, proper⟩ => ?_
  refine Leads.mono ?_ fun s meets => (⟨index, meets.after⟩ : s.Sound)
  obtain ⟨_, start_le⟩ := between.start start
  dsimp only
  -- From here on only scalars matter: what a collection holds is read with less fuel.
  split
  · exact (keeps_add (Vertex.visible_sequence _ _ _) _).bind fun number =>
      keeps_closeSequence number _ (kept.unindentedItems [])
  next written =>
    -- The token of a scalar takes up some of the text, and the node does not start after it.
    have visible := proper.visible (by rw [written]; rfl)
    refine keeps_take.bind fun _ => keeps_add ?_ _
    exact fun _ => Nat.lt_of_le_of_lt start_le visible
  · exact (keeps_add (Vertex.visible_sequence _ _ _) _).bind fun number =>
      keeps_take.bind fun _ => keeps_closeSequence number _ (kept.flowItems true [])
  · exact (keeps_add (Vertex.visible_mapping _ _ _) _).bind fun number =>
      keeps_take.bind fun _ => keeps_closeMapping number _ (kept.flowEntries true [])
  · exact (keeps_add (Vertex.visible_sequence _ _ _) _).bind fun number =>
      keeps_take.bind fun _ => keeps_closeSequence number _ (kept.blockItems [])
  · exact (keeps_add (Vertex.visible_mapping _ _ _) _).bind fun number =>
      keeps_take.bind fun _ => keeps_closeMapping number _ (kept.blockEntries [])
  · split
    next start stop extent =>
      -- Nothing but properties is written, and these take up some of the text.
      refine keeps_add ?_ _
      exact fun _ => (between.extent start stop extent).2.1
    next => exact leads_fail _ _

theorem keeps_blockItems (items : List Nat) : Keeps (blockItems (fuel + 1) items) := by
  rw [blockItems]
  refine keeps_take.bind fun token => ?_
  split
  · refine keeps_peek.bind fun next => ?_
    dsimp only
    split
    · exact (keeps_addEmpty _).bind fun item => kept.blockItems _
    · exact (keeps_addEmpty _).bind fun item => kept.blockItems _
    · exact (kept.node _ _).bind fun item => kept.blockItems _
  · exact keeps_pure _
  · exact leads_fail _ _

theorem keeps_unindentedItems (items : List Nat) : Keeps (unindentedItems (fuel + 1) items) := by
  rw [unindentedItems]
  refine keeps_peek.bind fun token => ?_
  split
  · refine keeps_take.bind fun _ => keeps_peek.bind fun next => ?_
    dsimp only
    -- A dash with nothing behind it has an empty item.
    have empty := (keeps_addEmpty token.stop).bind fun item => kept.unindentedItems (item :: items)
    split
    · exact empty
    · exact empty
    · exact empty
    · exact empty
    · exact (kept.node _ _).bind fun item => kept.unindentedItems _
  · exact keeps_pure _

/-- A part of an entry is read unless the next token ends it; then the part is empty. -/
theorem keeps_part {α : Type} {next : Nat → Reader α} (ends : Prop) [Decidable ends]
    (mark : Mark) (block unindented : Bool) (keeps : ∀ number, Keeps (next number)) :
    Keeps (if ends then addEmpty mark >>= next else node fuel block unindented >>= next) := by
  split
  · exact (keeps_addEmpty mark).bind keeps
  · exact (kept.node block unindented).bind keeps

theorem keeps_blockEntries (entries : List (Nat × Nat)) :
    Keeps (blockEntries (fuel + 1) entries) := by
  rw [blockEntries]
  refine keeps_take.bind fun token => ?_
  split
  · refine keeps_peek.bind fun next => keeps_part kept _ _ _ _ fun key => ?_
    refine keeps_peek.bind fun next => ?_
    dsimp only
    split
    · exact keeps_take.bind fun _ => keeps_peek.bind fun after =>
        keeps_part kept _ _ _ _ fun value => kept.blockEntries _
    · exact (keeps_addEmpty _).bind fun value => kept.blockEntries _
  · exact keeps_pure _
  · exact leads_fail _ _

theorem keeps_flowEntry (close : Lexeme → Bool) : Keeps (flowEntry (fuel + 1) close) := by
  rw [flowEntry]
  refine keeps_peek.bind fun token => ?_
  split
  · refine keeps_take.bind fun _ => keeps_peek.bind fun next => keeps_part kept _ _ _ _ fun key => ?_
    refine keeps_peek.bind fun next => ?_
    dsimp only
    split
    · exact keeps_take.bind fun _ => keeps_peek.bind fun after =>
        keeps_part kept _ _ _ _ fun value => keeps_pure _
    · exact (keeps_addEmpty _).bind fun value => keeps_pure _
  · exact (kept.node _ _).bind fun key => keeps_peek.bind fun next =>
      (keeps_addEmpty _).bind fun value => keeps_pure _

/-- What comes after a comma, or first. -/
theorem keeps_flowItem (items : List Nat) : Keeps (do
    let token ← peek
    match token.lexeme with
    | .flowSequenceEnd => let _ ← take; return (items.reverse, token.stop)
    | .key =>
      let number ← add (.mapping token.start token.start []) none
      let entry ← flowEntry fuel closesSequence
      let _ ← complete number (.mapping token.start (← peek).start [entry])
      flowItems fuel false (number :: items)
    | _ =>
      let item ← node fuel false false
      flowItems fuel false (item :: items)) := by
  refine keeps_peek.bind fun token => ?_
  split
  · exact keeps_take.bind fun _ => keeps_pure _
  · -- An entry with a mark of its own is a mapping of one entry.
    refine (keeps_add (Vertex.visible_mapping _ _ _) none).bind fun number => ?_
    refine (kept.flowEntry _).bind fun entry => keeps_peek.bind fun next => ?_
    exact (keeps_complete number (Vertex.visible_mapping _ _ _)).bind fun _ => kept.flowItems _ _
  · exact (kept.node _ _).bind fun item => kept.flowItems _ _

theorem keeps_flowItems (isFirst : Bool) (items : List Nat) :
    Keeps (flowItems (fuel + 1) isFirst items) := by
  have item := keeps_flowItem kept items
  rw [flowItems]
  refine keeps_peek.bind fun token => ?_
  dsimp only
  split
  · exact keeps_take.bind fun _ => keeps_pure _
  · exact keeps_take.bind fun _ => item
  · exact item
  · exact (leads_fail _ _).bind fun _ => item

/-- What comes after a comma, or first. -/
theorem keeps_nextFlowEntry (entries : List (Nat × Nat)) : Keeps (do
    let token ← peek
    match token.lexeme with
    | .flowMappingEnd => let _ ← take; return (entries.reverse, token.stop)
    | _ =>
      let entry ← flowEntry fuel closesMapping
      flowEntries fuel false (entry :: entries)) := by
  refine keeps_peek.bind fun token => ?_
  split
  · exact keeps_take.bind fun _ => keeps_pure _
  · exact (kept.flowEntry _).bind fun entry => kept.flowEntries _ _

theorem keeps_flowEntries (isFirst : Bool) (entries : List (Nat × Nat)) :
    Keeps (flowEntries (fuel + 1) isFirst entries) := by
  have entry := keeps_nextFlowEntry kept entries
  rw [flowEntries]
  refine keeps_peek.bind fun token => ?_
  dsimp only
  split
  · exact keeps_take.bind fun _ => keeps_pure _
  · exact keeps_take.bind fun _ => entry
  · exact entry
  · exact (leads_fail _ _).bind fun _ => entry

theorem keptWith_succ : KeptWith (fuel + 1) where
  node := keeps_node kept
  blockItems := keeps_blockItems kept
  unindentedItems := keeps_unindentedItems kept
  blockEntries := keeps_blockEntries kept
  flowEntry := keeps_flowEntry kept
  flowItems := keeps_flowItems kept
  flowEntries := keeps_flowEntries kept

end Nodes

/-- Whatever the fuel, the readers of nodes keep things sound. -/
theorem keptWith (fuel : Nat) : KeptWith fuel := by
  induction fuel with
  | zero => exact keptWith_zero
  | succ fuel ih => exact keptWith_succ ih

theorem keeps_blockNode : Keeps blockNode := by
  rw [blockNode]
  exact .get fun s sound => ((keptWith _).node true false).at sound

/-! ### Documents -/

section Marks

variable {holds : Reading → Prop} (lasting : Reading.Lasting holds)

include lasting

/-- Directives change nothing that lasts. -/
theorem leads_directives (fuel : Nat) (versionSeen : Bool) (handles : List (String × String)) :
    Leads holds (directives fuel versionSeen handles) fun _ => holds := by
  induction fuel generalizing versionSeen handles with
  | zero => exact .pure () fun _ inside => inside
  | succ fuel ih =>
    have further (versionSeen : Bool) (handles : List (String × String)) :
        Leads holds (do let _ ← take; directives fuel versionSeen handles) fun _ => holds :=
      (leads_take_of_lasting lasting).bind fun _ => ih versionSeen handles
    -- A directive that must not stand here is refused before it is taken.
    have guarded (test : Prop) [Decidable test] (mark : Mark) (problem : Problem)
        {next : Reader Unit} (leads : Leads holds next fun _ => holds) :
        Leads holds (if test then (do fail mark problem; next) else next) fun _ => holds := by
      split
      · exact (leads_fail mark problem).bind fun _ => leads
      · exact leads
    rw [directives]
    refine (leads_peek_of_any holds).bind fun token => ?_
    split
    · exact guarded _ _ _ (guarded _ _ _ (further _ _))
    · exact guarded _ _ _ (further _ _)
    · exact further _ _
    · exact fun s inside => .ok (lasting.handles s _ inside)

theorem leads_skipDocumentEnds (fuel : Nat) :
    Leads holds (skipDocumentEnds fuel) fun _ => holds := by
  induction fuel with
  | zero => exact .pure () fun _ inside => inside
  | succ fuel ih =>
    rw [skipDocumentEnds]
    refine (leads_peek_of_any holds).bind fun token => ?_
    split
    · exact (leads_take_of_lasting lasting).bind fun _ => ih
    · exact .pure () fun _ inside => inside

theorem leads_documentStart? : Leads holds documentStart? fun _ => holds := by
  rw [documentStart?]
  refine .get fun s inside => ((leads_skipDocumentEnds lasting _).at inside).bind fun _ =>
    (leads_peek_of_any holds).bind fun first => ?_
  split
  · exact .pure _ fun _ inside => inside
  · refine .get fun s inside => ((leads_directives lasting _ _ _).at inside).bind fun _ =>
      (leads_take_of_lasting lasting).bind fun token => ?_
    split
    · exact .pure _ fun _ inside => inside
    · exact leads_fail _ _

end Marks

theorem keeps_documentStart? : Keeps documentStart? :=
  leads_documentStart? Reading.lasting_visible.stands

theorem keeps_documentContent : Keeps documentContent := by
  rw [documentContent]
  refine keeps_peek.bind fun token => ?_
  split
  · exact keeps_addEmpty _
  · exact keeps_addEmpty _
  · exact keeps_addEmpty _
  · exact keeps_addEmpty _
  · exact keeps_blockNode

theorem keeps_startedDocument : Keeps (do
    match ← documentStart? with
    | none => return none
    | some _ => return some (← documentContent)) := by
  refine keeps_documentStart?.bind fun mark => ?_
  split
  · exact keeps_pure _
  · exact keeps_documentContent.bind fun _ => keeps_pure _

theorem keeps_firstDocument? : Keeps firstDocument? := by
  rw [firstDocument?]
  refine keeps_peek.bind fun token => ?_
  split
  · exact keeps_startedDocument
  · exact keeps_startedDocument
  · exact keeps_startedDocument
  · exact keeps_blockNode.bind fun _ => keeps_pure _

theorem keeps_document? : Keeps document? := by
  rw [document?]
  refine keeps_firstDocument?.bind fun root => ?_
  split
  · exact keeps_pure _
  · refine keeps_documentStart?.bind fun mark => ?_
    split
    · exact keeps_pure _
    · exact leads_fail _ _

end Reader

/-- The scalars of a document take up some of its text, unless they are null. -/
theorem visible_ofTokens? {tokens : TokenStream} (inOrder : tokens.InOrder 0) {graph : Graph}
    (read : ofTokens? tokens = .ok (some graph)) : ∀ vertex ∈ graph.vertices, vertex.Visible := by
  have sound : Reading.Sound ⟨tokens, Reader.defaultHandles, [], #[]⟩ :=
    ⟨0, inOrder, by simp [Reading.Visible]⟩
  rw [ofTokens?] at read
  split at read
  · cases read
  · cases read
  next root s ran =>
    cases read
    -- Reading begins without nodes, and keeps those that it adds visible.
    obtain ⟨index, after⟩ := Reader.keeps_document? _ sound _ ran
    exact after.holds

end Graph

end Phrasebook.Yaml
