import Phrasebook.Proofs.Document.Layout
import Phrasebook.Proofs.Yaml.Reading

/-!
# Phrasebook.Proofs.Document.Placement

The nodes of a text without aliases stand in line (`Graph.settled_ofTokens?`,
`Graph.IsSettled.laidOut`).

A reader only adds nodes. Those that it adds for a run of tokens stand one after the other between the
first and the last of these, and what they hold was added after them (`Grown`). So a collection, which
is added before its children and completed after them, has all of them inside it and behind it in
number; and going down from a node comes to an end. The readers of nodes are followed by induction on
their fuel (`GrowsWith`).
-/

namespace Phrasebook

namespace InLine

theorem append {start between stop : Int} {ranges later : List SourceRange}
    (line : InLine start between ranges) (further : InLine between stop later) :
    InLine start stop (ranges ++ later) := by
  induction ranges generalizing start with
  | nil => exact further.from_earlier line
  | cons range rest ih => exact ⟨line.1, line.2.1, ih line.2.2⟩

theorem to_later {start between stop : Int} {ranges : List SourceRange}
    (line : InLine start between ranges) (le : between ≤ stop) : InLine start stop ranges := by
  have further : InLine between stop [] := le
  exact List.append_nil ranges ▸ line.append further

end InLine

namespace Yaml

/-! ### Texts without aliases -/

/-- Whether a token stands for a node that stands elsewhere. -/
def Lexeme.isAlias : Lexeme → Bool
  | .alias _ => true
  | _ => false

def TokenStream.hasAlias : TokenStream → Bool
  | .more token rest => token.lexeme.isAlias || rest.hasAlias
  | _ => false

namespace TokenStream

variable {stream : TokenStream}

theorem hasAlias_tail (plain : stream.hasAlias = false) : stream.tail.hasAlias = false := by
  cases stream with
  | more token rest =>
    rw [hasAlias, Bool.or_eq_false_iff] at plain
    exact plain.2
  | ends mark => rfl
  | broken fault => rfl

/-- Without aliases among the tokens the next one is none. -/
theorem not_isAlias_of_peek (plain : stream.hasAlias = false) {token : Token}
    (next : stream.peek = .ok token) : token.lexeme.isAlias = false := by
  cases stream with
  | more token rest =>
    cases next
    rw [hasAlias, Bool.or_eq_false_iff] at plain
    exact plain.1
  | ends mark =>
    cases next
    rfl
  | broken fault => cases next

end TokenStream

/-! ### What nodes hold -/

namespace Vertex

def text : Vertex → Text
  | .scalar _ _ value _ _ => value
  | _ => []

def entries : Vertex → List (Nat × Nat)
  | .mapping _ _ entries => entries
  | _ => []

/-- The nodes that a node is made of, those of an entry being its key and its value. -/
def children : Vertex → List Nat
  | .scalar .. => []
  | .sequence _ _ items => items
  | .mapping _ _ entries => entries.flatMap fun (key, value) => [key, value]

/-- Whether a node is made of other nodes. -/
def isCollection : Vertex → Bool
  | .scalar .. => false
  | _ => true

end Vertex

namespace Graph

open Document (rangeOf)

def rangeIn? (vertices : Array Vertex) (number : Nat) : Option SourceRange :=
  vertices[number]?.map fun vertex => rangeOf vertex.start vertex.stop

/-- A value that is a collection does not start where its key stops. -/
def Apart (vertices : Array Vertex) (entry : Nat × Nat) : Prop :=
  ∀ key value, vertices[entry.1]? = some key → vertices[entry.2]? = some value →
    value.isCollection → key.stop.index < value.start.index

/-- What a node is made of stands inside it, one after the other, and has greater numbers. A node
    with some text takes up some of the text. -/
structure Settled (vertices : Array Vertex) (number : Nat) (vertex : Vertex) : Prop where
  visible : vertex.text ≠ [] → vertex.start.index < vertex.stop.index
  greater : ∀ child ∈ vertex.children, number < child ∧ child < vertices.size
  line : InLine vertex.start.index vertex.stop.index
    (vertex.children.filterMap (rangeIn? vertices))
  apart : ∀ entry ∈ vertex.entries, Apart vertices entry

theorem mem_children_of_mem_entries {vertex : Vertex} {entry : Nat × Nat}
    (member : entry ∈ vertex.entries) :
    entry.1 ∈ vertex.children ∧ entry.2 ∈ vertex.children := by
  cases vertex with
  | scalar start stop value style isNull => cases member
  | sequence start stop items => cases member
  | mapping start stop entries =>
    exact ⟨List.mem_flatMap.mpr ⟨entry, member, by simp⟩,
      List.mem_flatMap.mpr ⟨entry, member, by simp⟩⟩

section Growth

variable {old middle new : Array Vertex}

theorem rangesIn?_congr {numbers : List Nat}
    (same : ∀ number ∈ numbers, new[number]? = old[number]?) :
    numbers.filterMap (rangeIn? new) = numbers.filterMap (rangeIn? old) :=
  List.filterMap_congr fun number member => by rw [rangeIn?, rangeIn?, same number member]

theorem Apart.congr {entry : Nat × Nat} (apart : Apart old entry)
    (key : new[entry.1]? = old[entry.1]?) (value : new[entry.2]? = old[entry.2]?) :
    Apart new entry := by
  rw [Apart, key, value]
  exact apart

/-- What becomes of the nodes up to a settled one does not matter to it. -/
theorem Settled.congr {number : Nat} {vertex : Vertex} (settled : Settled old number vertex)
    (size : old.size ≤ new.size)
    (same : ∀ other, number < other → other < old.size → new[other]? = old[other]?) :
    Settled new number vertex := by
  have children : ∀ child ∈ vertex.children, new[child]? = old[child]? := fun child member =>
    same child (settled.greater child member).1 (settled.greater child member).2
  refine ⟨settled.visible, fun child member => ?_, ?_, fun entry member => ?_⟩
  · obtain ⟨greater, held⟩ := settled.greater child member
    exact ⟨greater, Nat.lt_of_lt_of_le held size⟩
  · rw [rangesIn?_congr children]
    exact settled.line
  · obtain ⟨key, value⟩ := mem_children_of_mem_entries member
    exact (settled.apart entry member).congr (children _ key) (children _ value)

/-- Nodes have been added, each of which is settled; and some of them stand one after the other
    between two offsets. -/
structure Grown (old new : Array Vertex) (start stop : Nat) (numbers : List Nat) : Prop where
  size : old.size ≤ new.size
  kept : ∀ number < old.size, new[number]? = old[number]?
  settled : ∀ number vertex, old.size ≤ number → new[number]? = some vertex →
    Settled new number vertex
  added : ∀ number ∈ numbers, old.size ≤ number ∧ number < new.size
  line : InLine start stop (numbers.filterMap (rangeIn? new))

namespace Grown

variable {start between stop : Nat} {numbers further : List Nat}

theorem refl (vertices : Array Vertex) (le : start ≤ stop) :
    Grown vertices vertices start stop [] where
  size := Nat.le_refl _
  kept := fun _ _ => rfl
  settled := fun number vertex beyond here => by
    rw [Array.getElem?_eq_none beyond] at here
    cases here
  added := by simp
  line := Int.ofNat_le.mpr le

/-- Nodes that are added after others stand behind them. -/
theorem trans (first : Grown old middle start between numbers)
    (second : Grown middle new between stop further) :
    Grown old new start stop (numbers ++ further) where
  size := Nat.le_trans first.size second.size
  kept := fun number lt => by
    rw [second.kept number (Nat.lt_of_lt_of_le lt first.size), first.kept number lt]
  settled := fun number vertex beyond here => by
    -- A node of the first run holds only nodes of that run, and the second run keeps them.
    by_cases among : number < middle.size
    · rw [second.kept number among] at here
      exact (first.settled number vertex beyond here).congr second.size
        fun other _ lt => second.kept other lt
    · exact second.settled number vertex (Nat.le_of_not_lt among) here
  added := fun number member => by
    rcases List.mem_append.mp member with one | other
    · exact ⟨(first.added number one).1, Nat.lt_of_lt_of_le (first.added number one).2 second.size⟩
    · exact ⟨Nat.le_trans first.size (second.added number other).1, (second.added number other).2⟩
  line := by
    rw [List.filterMap_append,
      rangesIn?_congr fun number member => second.kept number (first.added number member).2]
    exact first.line.append second.line

theorem widen (grown : Grown old new start stop numbers) {earlier later : Nat}
    (before : earlier ≤ start) (behind : stop ≤ later) : Grown old new earlier later numbers :=
  { grown with
    line := (grown.line.from_earlier (Int.ofNat_le.mpr before)).to_later (Int.ofNat_le.mpr behind) }

/-- A node that is added stands where it says. -/
theorem range_of_mem (grown : Grown old new start stop numbers) {number : Nat}
    (member : number ∈ numbers) {vertex : Vertex} (here : new[number]? = some vertex) :
    start ≤ vertex.start.index ∧ vertex.stop.index ≤ stop := by
  have held : rangeOf vertex.start vertex.stop ∈ numbers.filterMap (rangeIn? new) :=
    List.mem_filterMap.mpr ⟨number, member, by rw [rangeIn?, here]; rfl⟩
  obtain ⟨low, high⟩ := grown.line.inside _ held
  exact ⟨Int.ofNat_le.mp low, Int.ofNat_le.mp high⟩

/-- A scalar is added in line if it runs forward, and takes up some of the text if it has some. -/
theorem scalar (vertices : Array Vertex) {start stop : Mark} {value : Text} {style : Style}
    {isNull : Bool} (forward : start.index ≤ stop.index)
    (visible : value ≠ [] → start.index < stop.index) :
    Grown vertices (vertices.push (.scalar start stop value style isNull)) start.index stop.index
      [vertices.size] where
  size := by simp
  kept := fun number lt => Array.getElem?_push_lt lt ▸ (Array.getElem?_eq_getElem lt).symm
  settled := fun number vertex beyond here => by
    obtain ⟨lt, rfl⟩ := Array.getElem?_eq_some_iff.mp here
    -- No node but the new one is behind the old ones.
    obtain rfl : number = vertices.size := by
      rw [Array.size_push] at lt
      omega
    rw [Array.getElem_push_eq]
    exact ⟨visible, by simp [Vertex.children], Int.ofNat_le.mpr forward, by simp [Vertex.entries]⟩
  added := by simp
  line := by
    have here : rangeIn? (vertices.push (.scalar start stop value style isNull)) vertices.size =
        some (rangeOf start stop) := by
      rw [rangeIn?, Array.getElem?_push_size]
      rfl
    rw [List.filterMap_cons_some here]
    exact ⟨Int.le_refl _, Int.ofNat_le.mpr forward, Int.le_refl _⟩

/-- A collection that is completed with what has been added behind it. -/
theorem collection {placeholder vertex : Vertex}
    (grown : Grown (old.push placeholder) new vertex.start.index vertex.stop.index vertex.children)
    (silent : vertex.text = []) (apart : ∀ entry ∈ vertex.entries, Apart new entry) :
    Grown old (new.setIfInBounds old.size vertex) vertex.start.index vertex.stop.index
      [old.size] := by
  have size := grown.size
  rw [Array.size_push] at size
  have other (number : Nat) (differ : old.size ≠ number) :
      (new.setIfInBounds old.size vertex)[number]? = new[number]? :=
    Array.getElem?_setIfInBounds_ne differ
  have here : (new.setIfInBounds old.size vertex)[old.size]? = some vertex :=
    Array.getElem?_setIfInBounds_self_of_lt size
  have greater : ∀ child ∈ vertex.children, old.size < child := fun child member => by
    have := (grown.added child member).1
    rw [Array.size_push] at this
    omega
  refine ⟨by simp; omega, fun number lt => ?_, fun number found beyond held => ?_, ?_, ?_⟩
  · rw [other number (by omega), grown.kept number (by simp; omega), Array.getElem?_push_lt lt,
      Array.getElem?_eq_getElem lt]
  · -- Whatever is behind the placeholder holds nodes behind itself, so never the placeholder.
    by_cases same : old.size = number
    · subst same
      obtain rfl := Option.some.inj (here.symm.trans held)
      have settled : Settled new old.size vertex :=
        ⟨by simp [silent], fun child member => ⟨greater child member, (grown.added child member).2⟩,
          grown.line, apart⟩
      exact settled.congr (by simp) fun child beyond _ => other child (Nat.ne_of_lt beyond)
    · rw [other number same] at held
      refine (grown.settled number found (by simp; omega) held).congr (by simp) ?_
      intro child beyond _
      exact other child (by omega)
  · simp
    omega
  · have range : rangeIn? (new.setIfInBounds old.size vertex) old.size =
        some (rangeOf vertex.start vertex.stop) := by
      rw [rangeIn?, here]
      rfl
    rw [List.filterMap_cons_some range]
    exact ⟨Int.le_refl _, grown.line.le, Int.le_refl _⟩

end Grown

/-- A value that starts after the end of its key. -/
theorem apart_of_grown {start between onward stop key value : Nat}
    (first : Grown old middle start between [key]) (second : Grown middle new onward stop [value])
    (lt : between < onward) : Apart new (key, value) := by
  intro keyVertex valueVertex keyHere valueHere _
  rw [second.kept key (first.added key List.mem_cons_self).2] at keyHere
  have before := (first.range_of_mem List.mem_cons_self keyHere).2
  have behind := (second.range_of_mem List.mem_cons_self valueHere).1
  omega

end Growth

namespace Reader

/-! ### Readers that add nodes -/

/-- These are the nodes met so far, and there is no alias among the tokens left. -/
structure Holding (vertices : Array Vertex) (s : Reading) : Prop where
  plain : s.tokens.hasAlias = false
  vertices : s.vertices = vertices

theorem lasting_holding (vertices : Array Vertex) : Reading.Lasting (Holding vertices) :=
  ⟨fun _ inside => ⟨TokenStream.hasAlias_tail inside.plain, inside.vertices⟩,
    fun _ _ inside => ⟨inside.plain, inside.vertices⟩⟩

/-- The parts of a collection: the numbers that one of them stands for, and what is true of it. -/
structure Part (α : Type) where
  numbers : α → List Nat
  fits : Array Vertex → α → Prop
  fits_congr : ∀ {old new : Array Vertex} {one : α},
    (∀ number ∈ numbers one, new[number]? = old[number]?) → fits old one → fits new one

def item : Part Nat where
  numbers number := [number]
  fits _ _ := True
  fits_congr _ _ := trivial

def entry : Part (Nat × Nat) where
  numbers := fun (key, value) => [key, value]
  fits := Apart
  fits_congr same apart := apart.congr (same _ (by simp)) (same _ (by simp))

/-- A part has been added, and stands in line between an offset and the tokens left. -/
def Added {α : Type} (part : Part α) (old : Array Vertex) (index : Nat) (one : α) (s : Reading) :
    Prop :=
  ∃ new later, s.After (Holding new) later ∧
    (Grown old new index later (part.numbers one) ∧ part.fits new one)

/-- A reader of one part, which stands in line between where it begins and where it ends. -/
def Adds {α : Type} (part : Part α) (reader : Reader α) : Prop :=
  ∀ old index, Leads (·.After (Holding old) index) reader (Added part old index)

/-- Some parts have been read after others, and then the end of a collection. -/
def Collected {α : Type} (part : Part α) (old : Array Vertex) (index : Nat) (parts : List α)
    (read : List α × Mark) (s : Reading) : Prop :=
  ∃ new later more, s.After (Holding new) later ∧
    (read.2.index ≤ later ∧ read.1 = parts.reverse ++ more ∧ (∀ one ∈ more, part.fits new one) ∧
      Grown old new index read.2.index (more.flatMap part.numbers))

/-- A reader of the parts of a collection that come after some others. -/
def Collects {α : Type} (part : Part α) (parts : List α) (reader : Reader (List α × Mark)) : Prop :=
  ∀ old index, Leads (·.After (Holding old) index) reader (Collected part old index parts)

section Parts

variable {α β : Type} {part : Part α} {old middle : Array Vertex} {index later : Nat}

theorem Added.sooner {one : α} {s : Reading} {earlier : Nat} (added : Added part old index one s)
    (le : earlier ≤ index) : Added part old earlier one s := by
  obtain ⟨new, later, after, grown, fits⟩ := added
  exact ⟨new, later, after, grown.widen le (Nat.le_refl _), fits⟩

/-- What follows a part begins where the part ends. -/
theorem Adds.bind {reader : Reader α} (adds : Adds part reader) {next : α → Reader β}
    {after : β → Reading → Prop}
    (leads : ∀ one new later, Grown old new index later (part.numbers one) → part.fits new one →
      Leads (·.After (Holding new) later) (next one) after) :
    Leads (·.After (Holding old) index) (reader >>= next) after :=
  (adds old index).bind fun one => .of_exists fun new => .of_exists fun later =>
    .of_fact fun ⟨grown, fits⟩ => leads one new later grown fits

/-- A part before those that are collected after it is collected with them. -/
theorem Collected.cons {parts : List α} {one : α} {read : List α × Mark} {s : Reading}
    (grown : Grown old middle index later (part.numbers one)) (fits : part.fits middle one)
    (collected : Collected part middle later (one :: parts) read s) :
    Collected part old index parts read s := by
  obtain ⟨new, last, more, after, stop, whole, each, further⟩ := collected
  refine ⟨new, last, one :: more, after, stop, ?_, List.forall_mem_cons.mpr ⟨?_, each⟩, ?_⟩
  · rw [whole, List.reverse_cons, List.append_assoc, List.singleton_append]
  · refine part.fits_congr (fun number member => ?_) fits
    exact further.kept number (grown.added number member).2
  · rw [List.flatMap_cons]
    exact grown.trans further

theorem Collected.sooner {parts : List α} {read : List α × Mark} {s : Reading} {earlier : Nat}
    (collected : Collected part old index parts read s) (le : earlier ≤ index) :
    Collected part old earlier parts read s := by
  obtain ⟨new, last, more, after, stop, whole, each, grown⟩ := collected
  exact ⟨new, last, more, after, stop, whole, each, grown.widen le (Nat.le_refl _)⟩

theorem Collects.cons {parts : List α} {one : α} {reader : Reader (List α × Mark)}
    (collects : Collects part (one :: parts) reader)
    (grown : Grown old middle index later (part.numbers one)) (fits : part.fits middle one) :
    Leads (·.After (Holding middle) later) reader (Collected part old index parts) :=
  (collects middle later).weaken fun _ _ collected => collected.cons grown fits

theorem leads_end (parts : List α) {stop : Mark} (onward : index ≤ stop.index)
    (reached : stop.index ≤ later) :
    Leads (·.After (Holding old) later) (pure (parts.reverse, stop))
      (Collected part old index parts) :=
  .pure _ fun _ after => ⟨old, later, [], after, reached, (List.append_nil _).symm, by simp,
    .refl old onward⟩

/-- The end of a flow collection is taken. -/
theorem leads_closed {token : Token} (parts : List α) (onward : index ≤ token.stop.index) :
    Leads (Meets (Holding old) index token) (do let _ ← take; return (parts.reverse, token.stop))
      (Collected part old index parts) :=
  (leads_take (lasting_holding old) _ _).bind fun _ => leads_end parts onward (Nat.le_refl _)

/-! ### Single nodes -/

theorem leads_add (vertex : Vertex) (anchor : Option String) :
    Leads (·.After (Holding old) index) (add vertex anchor) fun number s =>
      s.After (Holding (old.push vertex)) index ∧ number = old.size := by
  rw [add]
  refine .get fun s after => ?_
  obtain ⟨tokens, plain, rfl⟩ := after
  have added (anchors : List (String × Nat)) : Leads (· = s) (do
      set { s with vertices := s.vertices.push vertex, anchors := anchors }
      return s.vertices.size) fun number t =>
        t.After (Holding (s.vertices.push vertex)) index ∧ number = s.vertices.size :=
    fun _ _ => .ok ⟨⟨tokens, plain, rfl⟩, rfl⟩
  cases anchor with
  | none => exact added _
  | some name =>
    dsimp only
    -- An anchor that is given a second time stops the reading.
    split
    · exact (leads_fail _ _).bind fun _ => added _
    · exact added _

theorem leads_complete (number : Nat) (vertex : Vertex) :
    Leads (·.After (Holding old) index) (complete number vertex) fun same s =>
      s.After (Holding (old.setIfInBounds number vertex)) index ∧ same = number := by
  rintro s ⟨tokens, plain, rfl⟩
  exact .ok ⟨⟨tokens, plain, rfl⟩, rfl⟩

/-- A scalar that is added stands where it was written. -/
theorem leads_addScalar {start stop : Mark} (low : index ≤ start.index)
    (forward : start.index ≤ stop.index) (high : stop.index ≤ later) {value : Text} {style : Style}
    (visible : value ≠ [] → start.index < stop.index) (properties : Properties) :
    Leads (·.After (Holding old) later) (addScalar start stop value style properties) fun one s =>
      ∃ new, s.After (Holding new) later ∧ (Grown old new index later [one] ∧
        ∀ vertex, new[one]? = some vertex → vertex.isCollection = false) := by
  rw [addScalar]
  refine (leads_add _ _).weaken ?_
  rintro _ s ⟨after, rfl⟩
  refine ⟨_, after, (Grown.scalar old forward visible).widen low high, fun vertex here => ?_⟩
  rw [Array.getElem?_push_size] at here
  cases here
  rfl

theorem adds_scalar {start stop : Mark} (low : index ≤ start.index)
    (forward : start.index ≤ stop.index) (high : stop.index ≤ later) {value : Text} {style : Style}
    (visible : value ≠ [] → start.index < stop.index) (properties : Properties) :
    Leads (·.After (Holding old) later) (addScalar start stop value style properties)
      (Added item old index) := by
  refine (leads_addScalar low forward high visible properties).weaken ?_
  rintro one s ⟨new, after, grown, _⟩
  exact ⟨new, later, after, grown, trivial⟩

/-- An empty scalar stands where the tokens do that are left. -/
theorem leads_addEmpty {mark : Mark} (here : mark.index = index) {next : Nat → Reader β}
    {after : β → Reading → Prop}
    (leads : ∀ one new, Grown old new index index [one] →
      (∀ vertex, new[one]? = some vertex → vertex.isCollection = false) →
      Leads (·.After (Holding new) index) (next one) after) :
    Leads (·.After (Holding old) index) (addEmpty mark >>= next) after :=
  (leads_addScalar here.ge (Nat.le_refl _) here.le (absurd rfl) _).bind fun one =>
    .of_exists fun new => .of_fact fun ⟨grown, plain⟩ => leads one new grown plain

end Parts

/-! ### Collections -/

section Collections

variable {old : Array Vertex} {index : Nat} {start : Mark} (begun : start.index ≤ index)

include begun

/-- A sequence is closed around its items. -/
theorem leads_closeSequence (placeholder : Vertex) {read : Reader (List Nat × Mark)}
    (collects : Collects item [] read) :
    Leads (·.After (Holding (old.push placeholder)) index) (do
      let (items, stop) ← read
      complete old.size (.sequence start stop items)) (Added item old start.index) := by
  refine (collects _ index).bind fun (items, stop) => .of_exists fun new => .of_exists fun later =>
    .of_exists fun more => .of_fact fun ⟨reached, whole, _, grown⟩ => ?_
  have same : items = more.flatMap item.numbers := whole.trans (List.flatMap_singleton' more).symm
  rw [← same] at grown
  refine (leads_complete _ _).weaken ?_
  rintro _ s ⟨after, rfl⟩
  have completed : Grown old (new.setIfInBounds old.size (.sequence start stop items)) start.index
      stop.index [old.size] :=
    .collection (grown.widen begun (Nat.le_refl _)) rfl (by simp [Vertex.entries])
  exact ⟨_, later, after, completed.widen (Nat.le_refl _) reached, trivial⟩

theorem leads_closeMapping (placeholder : Vertex) {read : Reader (List (Nat × Nat) × Mark)}
    (collects : Collects entry [] read) :
    Leads (·.After (Holding (old.push placeholder)) index) (do
      let (entries, stop) ← read
      complete old.size (.mapping start stop entries)) (Added item old start.index) := by
  refine (collects _ index).bind fun (entries, stop) => .of_exists fun new => .of_exists fun later =>
    .of_exists fun more => .of_fact fun ⟨reached, whole, apart, grown⟩ => ?_
  obtain rfl : entries = more := whole
  refine (leads_complete _ _).weaken ?_
  rintro _ s ⟨after, rfl⟩
  have completed : Grown old (new.setIfInBounds old.size (.mapping start stop entries)) start.index
      stop.index [old.size] :=
    .collection (grown.widen begun (Nat.le_refl _)) rfl apart
  exact ⟨_, later, after, completed.widen (Nat.le_refl _) reached, trivial⟩

theorem leads_sequence (anchor : Option String) {read : Reader (List Nat × Mark)}
    (collects : Collects item [] read) :
    Leads (·.After (Holding old) index) (do
      let number ← add (.sequence start start []) anchor
      let (items, stop) ← read
      complete number (.sequence start stop items)) (Added item old start.index) := by
  refine (leads_add _ anchor).bind fun number => .of_fact ?_
  rintro rfl
  exact leads_closeSequence begun _ collects

theorem leads_bracketedSequence (anchor : Option String) {read : Reader (List Nat × Mark)}
    (collects : Collects item [] read) :
    Leads (·.After (Holding old) index) (do
      let number ← add (.sequence start start []) anchor
      let _ ← take
      let (items, stop) ← read
      complete number (.sequence start stop items)) (Added item old start.index) := by
  refine (leads_add _ anchor).bind fun number => .of_fact ?_
  rintro rfl
  refine (leads_takeNext (lasting_holding _) _).bind fun token => .of_fact fun ⟨low, proper⟩ => ?_
  exact leads_closeSequence (Nat.le_trans begun (Nat.le_trans low proper.forward)) _ collects

theorem leads_bracketedMapping (anchor : Option String) {read : Reader (List (Nat × Nat) × Mark)}
    (collects : Collects entry [] read) :
    Leads (·.After (Holding old) index) (do
      let number ← add (.mapping start start []) anchor
      let _ ← take
      let (entries, stop) ← read
      complete number (.mapping start stop entries)) (Added item old start.index) := by
  refine (leads_add _ anchor).bind fun number => .of_fact ?_
  rintro rfl
  refine (leads_takeNext (lasting_holding _) _).bind fun token => .of_fact fun ⟨low, proper⟩ => ?_
  exact leads_closeMapping (Nat.le_trans begun (Nat.le_trans low proper.forward)) _ collects

end Collections

/-- The readers of nodes only add nodes in line, as long as they have some fuel. -/
structure GrowsWith (fuel : Nat) : Prop where
  node (block unindented : Bool) : Adds item (node fuel block unindented)
  blockItems (items : List Nat) : Collects item items (blockItems fuel items)
  unindentedItems (items : List Nat) : Collects item items (unindentedItems fuel items)
  blockEntries (entries : List (Nat × Nat)) : Collects entry entries (blockEntries fuel entries)
  flowEntry (close : Lexeme → Bool) : Adds entry (flowEntry fuel close)
  flowItems (isFirst : Bool) (items : List Nat) : Collects item items (flowItems fuel isFirst items)
  flowEntries (isFirst : Bool) (entries : List (Nat × Nat)) :
    Collects entry entries (flowEntries fuel isFirst entries)

theorem growsWith_zero : GrowsWith 0 := by
  -- Without fuel a reader looks at the next token and fails there.
  have fails {α : Type} (problem : Lexeme → Problem) (old : Array Vertex) (index : Nat)
      (after : α → Reading → Prop) :
      Leads (·.After (Holding old) index)
        (do let token ← peek; fail token.start (problem token.lexeme)) after :=
    (leads_peek_of_any _).bind fun _ => leads_fail _ _
  constructor
  · intro block unindented old index
    exact fails _ _ _ _
  · intro items old index
    exact fails _ _ _ _
  · intro items old index
    exact fails _ _ _ _
  · intro entries old index
    exact fails _ _ _ _
  · intro close old index
    exact fails _ _ _ _
  · intro isFirst items old index
    exact fails _ _ _ _
  · intro isFirst entries old index
    exact fails _ _ _ _

section Nodes

variable {fuel : Nat} (grows : GrowsWith fuel)

include grows

/-- A node is added in line with its contents if the readers with less fuel add theirs so. -/
theorem adds_node (block unindented : Bool) : Adds item (node (fuel + 1) block unindented) := by
  intro old index
  rw [node]
  refine (leads_peek _ index).bind fun first => ?_
  split
  next name given =>
    rintro s ⟨meets, _⟩
    have plain := TokenStream.not_isAlias_of_peek meets.after.holds.plain meets.next
    rw [given] at plain
    cases plain
  refine .of_fact fun _ => Leads.mono ?_ fun s meets => meets.after
  -- The node starts with its properties, and what it is made of stands behind them.
  refine (leads_properties (lasting_holding old) index).bind fun properties =>
    .of_exists fun later => .of_fact fun between => ?_
  refine (leads_peek _ later).bind fun next => .of_fact ?_
  rintro ⟨onward, proper⟩
  obtain ⟨begins, begun⟩ := between.start onward
  dsimp only
  generalize properties.extent.elim next.start (·.1) = start at begins begun ⊢
  -- Of a collection the next token is taken, or looked at again, at the place where it stands.
  have collection {reader : Reader Nat}
      (leads : Leads (·.After (Holding old) next.start.index) reader (Added item old start.index)) :
      Leads (Meets (Holding old) later next) reader (Added item old index) :=
    (leads.mono fun s meets => meets.at_next).weaken fun one s added => added.sooner begins
  split
  · exact collection (leads_sequence begun _ (grows.unindentedItems []))
  next written =>
    have visible := proper.visible (by rw [written]; rfl)
    refine (leads_take (lasting_holding old) _ _).bind fun _ => ?_
    exact adds_scalar begins (by omega) (Nat.le_refl _) (fun _ => by omega) _
  · exact collection (leads_bracketedSequence begun _ (grows.flowItems true []))
  · exact collection (leads_bracketedMapping begun _ (grows.flowEntries true []))
  · exact collection (leads_bracketedSequence begun _ (grows.blockItems []))
  · exact collection (leads_bracketedMapping begun _ (grows.blockEntries []))
  · split
    next first last extent =>
      obtain ⟨low, visible, high⟩ := between.extent first last extent
      refine Leads.mono ?_ fun s (meets : Meets _ _ _ s) => meets.after
      exact adds_scalar low (Nat.le_of_lt visible) high (fun _ => visible) _
    next => exact leads_fail _ _

theorem collects_blockItems (items : List Nat) :
    Collects item items (blockItems (fuel + 1) items) := by
  intro old index
  rw [blockItems]
  refine (leads_takeNext (lasting_holding old) index).bind fun token => .of_fact ?_
  rintro ⟨low, proper⟩
  have onward := Nat.le_trans low proper.forward
  split
  · refine (leads_peek_of_any _).bind fun next => ?_
    -- Whatever is added for an item, the other items go on behind it.
    have rest (one : Nat) {new : Array Vertex} {later : Nat}
        (grown : Grown old new token.stop.index later [one]) :
        Leads (·.After (Holding new) later) (blockItems fuel (one :: items))
          (Collected item old index items) :=
      (grows.blockItems _).cons (grown.widen onward (Nat.le_refl _)) trivial
    dsimp only
    split
    · exact leads_addEmpty rfl fun one new grown _ => rest one grown
    · exact leads_addEmpty rfl fun one new grown _ => rest one grown
    · exact (grows.node _ _).bind fun one new later grown _ => rest one grown
  · exact leads_end items onward (Nat.le_refl _)
  · exact leads_fail _ _

theorem collects_unindentedItems (items : List Nat) :
    Collects item items (unindentedItems (fuel + 1) items) := by
  intro old index
  rw [unindentedItems]
  refine (leads_peek _ index).bind fun token => .of_fact ?_
  rintro ⟨low, proper⟩
  have onward := Nat.le_trans low proper.forward
  split
  · refine (leads_take (lasting_holding old) _ _).bind fun _ =>
      (leads_peek_of_any _).bind fun next => ?_
    -- Whatever is added for an item, the other items go on behind it.
    have rest (one : Nat) {new : Array Vertex} {later : Nat}
        (grown : Grown old new token.stop.index later [one]) :
        Leads (·.After (Holding new) later) (unindentedItems fuel (one :: items))
          (Collected item old index items) :=
      (grows.unindentedItems _).cons (grown.widen onward (Nat.le_refl _)) trivial
    dsimp only
    split
    · exact leads_addEmpty rfl fun one new grown _ => rest one grown
    · exact leads_addEmpty rfl fun one new grown _ => rest one grown
    · exact leads_addEmpty rfl fun one new grown _ => rest one grown
    · exact leads_addEmpty rfl fun one new grown _ => rest one grown
    · exact (grows.node _ _).bind fun one new later grown _ => rest one grown
  · exact (leads_end items low (Nat.le_refl _)).mono fun s meets => meets.at_next

/-- A part of an entry is read unless the next token ends it; then the part is empty. -/
theorem leads_part {α : Type} {old : Array Vertex} {mark : Mark} {next : Nat → Reader α}
    {after : α → Reading → Prop} (ends : Lexeme → Bool) (block unindented : Bool)
    (leads : ∀ one new later, Grown old new mark.index later [one] →
      Leads (·.After (Holding new) later) (next one) after) :
    Leads (·.After (Holding old) mark.index) (do
      let token ← peek
      if ends token.lexeme then addEmpty mark >>= next
      else node fuel block unindented >>= next) after := by
  refine (leads_peek_of_any _).bind fun token => ?_
  split
  · exact leads_addEmpty rfl fun one new grown _ => leads one new _ grown
  · exact (grows.node block unindented).bind fun one new later grown _ => leads one new later grown

/-- A key and a value are read, each of which may be left out. -/
theorem leads_entry {α : Type} {old : Array Vertex} {mark : Mark} {next : Nat → Nat → Reader α}
    {after : α → Reading → Prop} (endsKey endsValue : Lexeme → Bool) (block unindented : Bool)
    (leads : ∀ key value new later, Grown old new mark.index later [key, value] →
      Apart new (key, value) → Leads (·.After (Holding new) later) (next key value) after) :
    Leads (·.After (Holding old) mark.index) (do
      let key ← if endsKey (← peek).lexeme then addEmpty mark else node fuel block unindented
      let separator ← peek
      let value ← match separator.lexeme with
        | .value =>
          let _ ← take
          if endsValue (← peek).lexeme then addEmpty separator.stop
          else node fuel block unindented
        | _ => addEmpty separator.start
      next key value) after := by
  refine leads_part grows endsKey block unindented fun key middle between first => ?_
  refine (leads_peek _ between).bind fun separator => .of_fact fun ⟨low, proper⟩ => ?_
  dsimp only
  split
  next written =>
    -- The colon keeps the value away from the key.
    have visible := proper.visible (by rw [written]; rfl)
    refine (leads_take (lasting_holding middle) _ _).bind fun _ => ?_
    refine leads_part grows endsValue block unindented fun value new later second => ?_
    have lt := Nat.lt_of_le_of_lt low visible
    exact leads key value new later (first.trans (second.widen (Nat.le_of_lt lt) (Nat.le_refl _)))
      (apart_of_grown first second lt)
  · refine Leads.mono ?_ fun s meets => meets.at_next
    refine leads_addEmpty rfl fun value new second plain => ?_
    refine leads key value new _ (first.trans (second.widen low (Nat.le_refl _))) ?_
    intro _ vertex _ here collection
    rw [plain vertex here] at collection
    cases collection

theorem collects_blockEntries (entries : List (Nat × Nat)) :
    Collects entry entries (blockEntries (fuel + 1) entries) := by
  intro old index
  rw [blockEntries]
  refine (leads_takeNext (lasting_holding old) index).bind fun token => .of_fact ?_
  rintro ⟨low, proper⟩
  have onward := Nat.le_trans low proper.forward
  split
  · exact leads_entry grows _ _ _ _ fun key value new later grown apart =>
      (grows.blockEntries _).cons (grown.widen onward (Nat.le_refl _)) apart
  · exact leads_end entries onward (Nat.le_refl _)
  · exact leads_fail _ _

theorem adds_flowEntry (close : Lexeme → Bool) : Adds entry (flowEntry (fuel + 1) close) := by
  intro old index
  rw [flowEntry]
  refine (leads_peek _ index).bind fun token => .of_fact ?_
  rintro ⟨low, proper⟩
  have onward := Nat.le_trans low proper.forward
  split
  · refine (leads_take (lasting_holding old) _ _).bind fun _ => ?_
    exact leads_entry grows _ _ _ _ fun key value new later grown apart =>
      .pure _ fun s after => ⟨new, later, after, grown.widen onward (Nat.le_refl _), apart⟩
  · refine Leads.mono ?_ fun s meets => meets.after
    refine (grows.node _ _).bind fun key middle between first _ => ?_
    refine (leads_peek _ between).bind fun next => .of_fact ?_
    rintro ⟨low, _⟩
    refine Leads.mono ?_ fun s meets => meets.at_next
    -- A key without a value gets an empty one, which is no collection.
    refine leads_addEmpty rfl fun value new second plain => .pure _ fun s after => ?_
    refine ⟨new, _, after, first.trans (second.widen low (Nat.le_refl _)), ?_⟩
    intro _ vertex _ here collection
    rw [plain vertex here] at collection
    cases collection

/-- What comes after a comma, or first. -/
theorem collects_flowItem (items : List Nat) : Collects item items (do
    let token ← peek
    match token.lexeme with
    | .flowSequenceEnd => let _ ← take; return (items.reverse, token.stop)
    | .key =>
      let number ← add (.mapping token.start token.start []) none
      let entry ← flowEntry fuel closesSequence
      let _ ← complete number (.mapping token.start (← peek).start [entry])
      flowItems fuel false (number :: items)
    | _ =>
      let item ← node fuel false false
      flowItems fuel false (item :: items)) := by
  intro old index
  refine (leads_peek _ index).bind fun token => .of_fact fun ⟨low, proper⟩ => ?_
  split
  · exact leads_closed items (Nat.le_trans low proper.forward)
  · -- A mapping of its own begins with its only entry and stops where the next token starts.
    refine ((leads_add _ _).bind fun number => .of_fact ?_).mono fun s meets => meets.at_next
    rintro rfl
    refine (grows.flowEntry _).bind fun pair new later grown apart => ?_
    refine (leads_peek _ later).bind fun next => .of_fact fun ⟨onward, _⟩ => ?_
    refine ((leads_complete _ _).bind fun _ => .of_fact fun _ => ?_).mono fun s meets => meets.at_next
    have completed : Grown old (new.setIfInBounds old.size (.mapping token.start next.start [pair]))
        token.start.index next.start.index [old.size] :=
      .collection (grown.widen (Nat.le_refl _) onward) rfl (List.forall_mem_singleton.mpr apart)
    exact (grows.flowItems _ _).cons (completed.widen low (Nat.le_refl _)) trivial
  · exact ((grows.node _ _).bind fun one new later grown fits =>
      (grows.flowItems _ _).cons grown fits).mono fun s meets => meets.after

theorem collects_flowItems (isFirst : Bool) (items : List Nat) :
    Collects item items (flowItems (fuel + 1) isFirst items) := by
  intro old index
  rw [flowItems]
  refine (leads_peek _ index).bind fun token => .of_fact ?_
  rintro ⟨low, proper⟩
  have onward := Nat.le_trans low proper.forward
  dsimp only
  split
  · exact leads_closed items onward
  · refine (leads_take (lasting_holding old) _ _).bind fun _ => ?_
    exact (collects_flowItem grows items old _).weaken fun _ _ collected => collected.sooner onward
  · exact (collects_flowItem grows items old index).mono fun s meets => meets.after
  · exact (leads_fail _ _).bind fun _ => collects_flowItem grows items old index

/-- What comes after a comma, or first. -/
theorem collects_nextFlowEntry (entries : List (Nat × Nat)) : Collects entry entries (do
    let token ← peek
    match token.lexeme with
    | .flowMappingEnd => let _ ← take; return (entries.reverse, token.stop)
    | _ =>
      let entry ← flowEntry fuel closesMapping
      flowEntries fuel false (entry :: entries)) := by
  intro old index
  refine (leads_peek _ index).bind fun token => .of_fact fun ⟨low, proper⟩ => ?_
  split
  · exact leads_closed entries (Nat.le_trans low proper.forward)
  · exact ((grows.flowEntry _).bind fun one new later grown apart =>
      (grows.flowEntries _ _).cons grown apart).mono fun s meets => meets.after

theorem collects_flowEntries (isFirst : Bool) (entries : List (Nat × Nat)) :
    Collects entry entries (flowEntries (fuel + 1) isFirst entries) := by
  intro old index
  rw [flowEntries]
  refine (leads_peek _ index).bind fun token => .of_fact ?_
  rintro ⟨low, proper⟩
  have onward := Nat.le_trans low proper.forward
  dsimp only
  split
  · exact leads_closed entries onward
  · refine (leads_take (lasting_holding old) _ _).bind fun _ => ?_
    exact (collects_nextFlowEntry grows entries old _).weaken fun _ _ collected =>
      collected.sooner onward
  · exact (collects_nextFlowEntry grows entries old index).mono fun s meets => meets.after
  · exact (leads_fail _ _).bind fun _ => collects_nextFlowEntry grows entries old index

theorem growsWith_succ : GrowsWith (fuel + 1) where
  node := adds_node grows
  blockItems := collects_blockItems grows
  unindentedItems := collects_unindentedItems grows
  blockEntries := collects_blockEntries grows
  flowEntry := adds_flowEntry grows
  flowItems := collects_flowItems grows
  flowEntries := collects_flowEntries grows

end Nodes

/-- Whatever the fuel, the readers of nodes only add nodes in line. -/
theorem growsWith (fuel : Nat) : GrowsWith fuel := by
  -- All readers at once, since each calls others with one unit of fuel less.
  induction fuel with
  | zero => exact growsWith_zero
  | succ fuel ih => exact growsWith_succ ih

theorem adds_blockNode : Adds item blockNode := by
  intro old index
  rw [blockNode]
  exact .get fun s after => ((growsWith _).node true false old index).at after

/-! ### Documents -/

/-- There is no document, or its topmost node has been added to nothing else. -/
def Rooted (root : Option Nat) (s : Reading) : Prop :=
  ∃ new index, s.After (Holding new) index ∧
    ∀ number, root = some number → ∃ start stop, Grown #[] new start stop [number]

/-- A node that is added to nothing is a topmost one. -/
theorem Added.rooted {number : Nat} {s : Reading} {index : Nat}
    (added : Added item #[] index number s) : Rooted (some number) s := by
  obtain ⟨new, later, after, grown, _⟩ := added
  refine ⟨new, later, after, ?_⟩
  rintro _ ⟨⟩
  exact ⟨index, later, grown⟩

theorem adds_documentContent : Adds item documentContent := by
  intro old index
  rw [documentContent]
  refine (leads_peek _ index).bind fun token => .of_fact ?_
  rintro ⟨low, _⟩
  -- An empty document has a scalar that takes up no text.
  have empty : Leads (Meets (Holding old) index token) (addEmpty token.start)
      (Added item old index) := by
    refine Leads.mono ?_ fun s meets => meets.at_next
    exact adds_scalar low (Nat.le_refl _) (Nat.le_refl _) (absurd rfl) _
  split
  · exact empty
  · exact empty
  · exact empty
  · exact empty
  · exact (adds_blockNode old index).mono fun s meets => meets.after

theorem leads_startedDocument : Leads (Reading.Stands (Holding #[])) (do
    match ← documentStart? with
    | none => return none
    | some _ => return some (← documentContent)) Rooted := by
  refine (leads_documentStart? (lasting_holding #[]).stands).bind fun mark => ?_
  refine .of_exists fun index => ?_
  split
  · exact .pure _ fun s after => ⟨#[], index, after, by simp⟩
  · exact (adds_documentContent #[] index).bind fun number =>
      .pure _ fun s added => added.rooted

theorem leads_firstDocument? : Leads (Reading.Stands (Holding #[])) firstDocument? Rooted := by
  rw [firstDocument?]
  refine (leads_peek_of_any _).bind fun token => ?_
  split
  · exact leads_startedDocument
  · exact leads_startedDocument
  · exact leads_startedDocument
  · refine .of_exists fun index => (adds_blockNode #[] index).bind fun number => ?_
    exact .pure _ fun s added => added.rooted

theorem leads_document? : Leads (Reading.Stands (Holding #[])) document? Rooted := by
  rw [document?]
  refine leads_firstDocument?.bind fun root => .of_exists fun new => .of_exists fun index =>
    .of_fact fun grown => ?_
  split
  · exact .pure _ fun s after => ⟨new, index, after, by simp⟩
  · refine Leads.mono ?_ fun s after => (⟨index, after⟩ : s.Stands (Holding new))
    refine (leads_documentStart? (lasting_holding new).stands).bind fun mark => ?_
    split
    · refine .pure _ ?_
      rintro s ⟨later, after⟩
      exact ⟨new, later, after, grown⟩
    · exact leads_fail _ _

end Reader

def IsSettled (graph : Graph) : Prop :=
  ∀ number vertex, graph.vertices[number]? = some vertex → Settled graph.vertices number vertex

/-- The nodes of a document without aliases are settled. -/
theorem settled_ofTokens? {tokens : TokenStream} (inOrder : tokens.InOrder 0)
    (plain : tokens.hasAlias = false) {graph : Graph} (read : ofTokens? tokens = .ok (some graph)) :
    graph.root < graph.vertices.size ∧ graph.IsSettled := by
  have begins : Reading.Stands (Reader.Holding #[]) ⟨tokens, Reader.defaultHandles, [], #[]⟩ :=
    ⟨0, inOrder, plain, rfl⟩
  rw [ofTokens?] at read
  split at read
  · cases read
  · cases read
  next root s ran =>
    cases read
    obtain ⟨new, index, ⟨_, _, rfl⟩, rooted⟩ := Reader.leads_document? _ begins _ ran
    obtain ⟨start, stop, grown⟩ := rooted root rfl
    exact ⟨(grown.added root List.mem_cons_self).2,
      fun number vertex here => grown.settled number vertex (Nat.zero_le _) here⟩

open Document (LaidOut)

theorem IsSettled.laidOut {graph : Graph} (settled : graph.IsSettled) {number : Nat}
    (lt : number < graph.vertices.size) : LaidOut graph number := by
  -- What a node is made of has greater numbers, and these are bounded.
  induction left : graph.vertices.size - number using Nat.strongRecOn generalizing number with
  | ind left ih =>
    subst left
    have here := Array.getElem?_eq_getElem lt
    obtain ⟨visible, greater, line, _⟩ := settled number _ here
    have below : ∀ child ∈ graph.vertices[number].children, LaidOut graph child := by
      intro child member
      obtain ⟨beyond, held⟩ := greater child member
      exact ih _ (by omega) held rfl
    generalize graph.vertices[number] = vertex at *
    cases vertex with
    | scalar start stop value style isNull =>
      exact .scalar here (Int.ofNat_le.mp line) visible
    | sequence start stop items => exact .sequence here line below
    | mapping start stop entries =>
      refine .mapping here line (fun entry member => ?_) (fun entry member => ?_)
      · exact below _ (List.mem_flatMap.mpr ⟨entry, member, by simp⟩)
      · exact below _ (List.mem_flatMap.mpr ⟨entry, member, by simp⟩)

end Graph

end Yaml

end Phrasebook
