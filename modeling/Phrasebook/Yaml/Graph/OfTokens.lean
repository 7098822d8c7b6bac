import Phrasebook.Yaml.Fault
import Phrasebook.Yaml.Graph

/-!
# Phrasebook.Yaml.Graph.OfTokens

From the tokens of a text to the nodes of its document.

The text is read from left to right with one token in view. A token is looked at only when its kind
decides what comes next, so that of two faults in a text the one that is met first is reported.
-/

namespace Phrasebook.Yaml.Graph

/-- How far a document has been read. -/
structure Reading where
  tokens : TokenStream
  /-- What the tag handles of the document stand for. -/
  handles : List (String × String)
  anchors : List (String × Nat)
  /-- The nodes met so far. A collection has no entries before all of them have been read. -/
  vertices : Array Vertex

/-- A step of reading a document. -/
abbrev Reader := StateT Reading (Except Fault)

namespace Reader

/-- The tag handles of a document without directives. -/
def defaultHandles : List (String × String) :=
  [("!", "!"), ("!!", "tag:yaml.org,2002:")]

/-- The next token, which is left where it is. -/
def peek : Reader Token := do
  match (← get).tokens.peek with
  | .ok token => return token
  | .error fault => throw fault

def take : Reader Token := do
  let token ← peek
  modify fun s => { s with tokens := s.tokens.tail }
  return token

def fail {α : Type} (mark : Mark) (problem : Problem) : Reader α :=
  throw (.malformedAt mark problem)

/-! ### Nodes -/

/-- What may stand before a node: its name, its tag, and where the two start and stop. -/
structure Properties where
  anchor : Option String
  /-- The tag, with its handle resolved. -/
  tag : Option String
  /-- Where the first property starts and the last one stops. -/
  extent : Option (Mark × Mark)

def resolveTag (token : Token) (handle : Option String) (suffix : String) : Reader String := do
  match handle with
  | none => return suffix
  | some handle =>
    match (← get).handles.lookup handle with
    | some expansion => return expansion ++ suffix
    | none => fail token.start (.undefinedHandle handle)

/-- Takes the name and the tag of a node, in either order. -/
def properties : Reader Properties := do
  let first ← peek
  -- The anchor and the tag may stand in either order.
  match first.lexeme with
  | .anchor name =>
    let _ ← take
    let second ← peek
    match second.lexeme with
    | .tag handle suffix =>
      let _ ← take
      let tag ← resolveTag second handle suffix
      return ⟨some name, some tag, some (first.start, second.stop)⟩
    | _ => return ⟨some name, none, some (first.start, first.stop)⟩
  | .tag handle suffix =>
    let _ ← take
    let second ← peek
    match second.lexeme with
    | .anchor name =>
      let _ ← take
      let tag ← resolveTag first handle suffix
      return ⟨some name, some tag, some (first.start, second.stop)⟩
    | _ =>
      let tag ← resolveTag first handle suffix
      return ⟨none, some tag, some (first.start, first.stop)⟩
  | _ => return ⟨none, none, none⟩

/-- Adds a node and gives it its name. A name can be given once only. -/
def add (vertex : Vertex) (anchor : Option String) : Reader Nat := do
  let s ← get
  let number := s.vertices.size
  match anchor with
  | none => set { s with vertices := s.vertices.push vertex }
  | some name =>
    if (s.anchors.lookup name).isSome then fail vertex.start .repeatedAnchor
    set { s with vertices := s.vertices.push vertex, anchors := (name, number) :: s.anchors }
  return number

def complete (number : Nat) (vertex : Vertex) : Reader Nat := do
  modify fun s => { s with vertices := s.vertices.setIfInBounds number vertex }
  return number

def addScalar (start stop : Mark) (value : Text) (style : Style) (properties : Properties) :
    Reader Nat :=
  add (.scalar start stop value style (isNull properties.tag style value)) properties.anchor

/-- Adds the scalar that stands where nothing is written. -/
def addEmpty (mark : Mark) : Reader Nat :=
  addScalar mark mark [] .plain ⟨none, none, none⟩

def aliased (token : Token) (name : String) : Reader Nat := do
  match (← get).anchors.lookup name with
  | some number => return number
  | none => fail token.start (.undefinedAlias name)

/-- Whether a token ends the part of a block mapping that may hold a node. -/
def endsBlockPart : Lexeme → Bool
  | .key | .value | .blockEnd => true
  | _ => false

/-- Whether a token ends the part of a flow mapping that may hold a key. -/
def endsFlowKey (close : Lexeme → Bool) : Lexeme → Bool
  | .value | .flowEntry => true
  | lexeme => close lexeme

/-- Whether a token ends the part of a flow mapping that may hold a value. -/
def endsFlowValue (close : Lexeme → Bool) : Lexeme → Bool
  | .flowEntry => true
  | lexeme => close lexeme

def closesSequence : Lexeme → Bool
  | .flowSequenceEnd => true
  | _ => false

def closesMapping : Lexeme → Bool
  | .flowMappingEnd => true
  | _ => false

/-! ### Reading nodes

The readers below call one another. Of any three calls in a chain one takes a token, so three times
the number of tokens bounds the chain. -/

mutual

/-- Reads a node. A block collection counts as one only in `block` context, a sequence that is not
    indented only as a part of a block mapping. -/
def node (fuel : Nat) (block unindented : Bool) : Reader Nat := do
  match fuel with
  | 0 => let token ← peek; fail token.start (.expectedNode token.lexeme)
  | fuel + 1 =>
    let first ← peek
    match first.lexeme with
    | .alias name =>
      let _ ← take
      aliased first name
    | _ =>
      let properties ← properties
      let next ← peek
      let start := properties.extent.elim next.start (·.1)
      match next.lexeme, block, unindented with
      -- The items of a sequence may stand right below the key that it belongs to.
      | .blockEntry, _, true =>
        let number ← add (.sequence start start []) properties.anchor
        let (items, stop) ← unindentedItems fuel []
        complete number (.sequence start stop items)
      | .scalar value style, _, _ =>
        let _ ← take
        addScalar start next.stop value style properties
      | .flowSequenceStart, _, _ =>
        let number ← add (.sequence start start []) properties.anchor
        let _ ← take
        let (items, stop) ← flowItems fuel true []
        complete number (.sequence start stop items)
      | .flowMappingStart, _, _ =>
        let number ← add (.mapping start start []) properties.anchor
        let _ ← take
        let (entries, stop) ← flowEntries fuel true []
        complete number (.mapping start stop entries)
      | .blockSequenceStart, true, _ =>
        let number ← add (.sequence start start []) properties.anchor
        let _ ← take
        let (items, stop) ← blockItems fuel []
        complete number (.sequence start stop items)
      | .blockMappingStart, true, _ =>
        let number ← add (.mapping start start []) properties.anchor
        let _ ← take
        let (entries, stop) ← blockEntries fuel []
        complete number (.mapping start stop entries)
      | lexeme, _, _ =>
        -- Nothing but an anchor or a tag stands for an empty scalar.
        match properties.extent with
        | some (start, stop) => addScalar start stop [] .plain properties
        | none => fail next.start (.expectedNode lexeme)

/-- Reads the items of an indented sequence; those read so far come last first. -/
def blockItems (fuel : Nat) (items : List Nat) : Reader (List Nat × Mark) := do
  match fuel with
  | 0 => let token ← peek; fail token.start (.expectedBlockEnd token.lexeme)
  | fuel + 1 =>
    let token ← take
    match token.lexeme with
    | .blockEntry =>
      let item ← match (← peek).lexeme with
        | .blockEntry | .blockEnd => addEmpty token.stop
        | _ => node fuel true false
      blockItems fuel (item :: items)
    | .blockEnd => return (items.reverse, token.stop)
    | lexeme => fail token.start (.expectedBlockEnd lexeme)

/-- Reads the items of a sequence whose dashes stand at the column of the mapping around it. -/
def unindentedItems (fuel : Nat) (items : List Nat) : Reader (List Nat × Mark) := do
  match fuel with
  | 0 => let token ← peek; fail token.start (.expectedBlockEnd token.lexeme)
  | fuel + 1 =>
    let token ← peek
    match token.lexeme with
    | .blockEntry =>
      let _ ← take
      let item ← match (← peek).lexeme with
        | .blockEntry | .key | .value | .blockEnd => addEmpty token.stop
        | _ => node fuel true false
      unindentedItems fuel (item :: items)
    | _ => return (items.reverse, token.start)

def blockEntries (fuel : Nat) (entries : List (Nat × Nat)) :
    Reader (List (Nat × Nat) × Mark) := do
  match fuel with
  | 0 => let token ← peek; fail token.start (.expectedBlockEnd token.lexeme)
  | fuel + 1 =>
    let token ← take
    match token.lexeme with
    | .key =>
      let key ← if endsBlockPart (← peek).lexeme then addEmpty token.stop
        else node fuel true true
      let next ← peek
      -- A key without a colon has an empty value.
      let value ← match next.lexeme with
        | .value =>
          let _ ← take
          if endsBlockPart (← peek).lexeme then addEmpty next.stop else node fuel true true
        | _ => addEmpty next.start
      blockEntries fuel ((key, value) :: entries)
    | .blockEnd => return (entries.reverse, token.stop)
    | lexeme => fail token.start (.expectedBlockEnd lexeme)

/-- Reads an entry of a flow collection; `close` tells which token closes the collection. -/
def flowEntry (fuel : Nat) (close : Lexeme → Bool) : Reader (Nat × Nat) := do
  match fuel with
  | 0 => let token ← peek; fail token.start (.expectedNode token.lexeme)
  | fuel + 1 =>
    let token ← peek
    match token.lexeme with
    | .key =>
      let _ ← take
      let key ← if endsFlowKey close (← peek).lexeme then addEmpty token.stop
        else node fuel false false
      let next ← peek
      let value ← match next.lexeme with
        | .value =>
          let _ ← take
          if endsFlowValue close (← peek).lexeme then addEmpty next.stop
          else node fuel false false
        | _ => addEmpty next.start
      return (key, value)
    | _ =>
      let key ← node fuel false false
      let value ← addEmpty (← peek).start
      return (key, value)

/-- Reads the items of a flow sequence. An entry of a mapping stands for a mapping of its own. -/
def flowItems (fuel : Nat) (isFirst : Bool) (items : List Nat) : Reader (List Nat × Mark) := do
  match fuel with
  | 0 => let token ← peek; fail token.start (.expectedSequenceEnd token.lexeme)
  | fuel + 1 =>
    let token ← peek
    match token.lexeme, isFirst with
    | .flowSequenceEnd, _ => let _ ← take; return (items.reverse, token.stop)
    | .flowEntry, false => let _ ← take
    | _, true => pure ()
    | lexeme, false => fail token.start (.expectedSequenceEnd lexeme)
    let token ← peek
    match token.lexeme with
    | .flowSequenceEnd => let _ ← take; return (items.reverse, token.stop)
    -- An entry among the items of a sequence is a mapping of its own.
    | .key =>
      let number ← add (.mapping token.start token.start []) none
      let entry ← flowEntry fuel closesSequence
      let _ ← complete number (.mapping token.start (← peek).start [entry])
      flowItems fuel false (number :: items)
    | _ =>
      let item ← node fuel false false
      flowItems fuel false (item :: items)

def flowEntries (fuel : Nat) (isFirst : Bool) (entries : List (Nat × Nat)) :
    Reader (List (Nat × Nat) × Mark) := do
  match fuel with
  | 0 => let token ← peek; fail token.start (.expectedMappingEnd token.lexeme)
  | fuel + 1 =>
    let token ← peek
    match token.lexeme, isFirst with
    | .flowMappingEnd, _ => let _ ← take; return (entries.reverse, token.stop)
    | .flowEntry, false => let _ ← take
    | _, true => pure ()
    | lexeme, false => fail token.start (.expectedMappingEnd lexeme)
    let token ← peek
    match token.lexeme with
    | .flowMappingEnd => let _ ← take; return (entries.reverse, token.stop)
    | _ =>
      let entry ← flowEntry fuel closesMapping
      flowEntries fuel false (entry :: entries)

end

def blockNode : Reader Nat := do
  node (3 * (← get).tokens.length + 6) true false

/-! ### Documents -/

def directives : Nat → Bool → List (String × String) → Reader Unit
  | 0, _, _ => pure ()
  | fuel + 1, versionSeen, handles => do
    let token ← peek
    match token.lexeme with
    | .directive (.version major _) =>
      if versionSeen then fail token.start .duplicateVersion
      if major ≠ 1 then fail token.start .unsupportedVersion
      let _ ← take
      directives fuel true handles
    | .directive (.tagHandle handle expansion) =>
      if (handles.lookup handle).isSome then fail token.start (.duplicateHandle handle)
      let _ ← take
      directives fuel versionSeen (handles ++ [(handle, expansion)])
    | .directive (.other _) =>
      let _ ← take
      directives fuel versionSeen handles
    -- The handles that come by default give way to those of the document, which stand before them.
    | _ => modify fun s => { s with handles := handles ++ defaultHandles }

def skipDocumentEnds : Nat → Reader Unit
  | 0 => pure ()
  | fuel + 1 => do
    match (← peek).lexeme with
    | .documentEnd => let _ ← take; skipDocumentEnds fuel
    | _ => pure ()

/-- Takes the directives and the start of a document, if the text holds another one, and tells where
    they start. -/
def documentStart? : Reader (Option Mark) := do
  skipDocumentEnds ((← get).tokens.length + 1)
  let first ← peek
  match first.lexeme with
  | .streamEnd => return none
  | _ =>
    directives ((← get).tokens.length + 1) false []
    let token ← take
    match token.lexeme with
    | .documentStart => return some first.start
    | lexeme => fail token.start (.expectedDocument lexeme)

/-- Reads what follows the start of a document, which may be nothing. -/
def documentContent : Reader Nat := do
  let token ← peek
  match token.lexeme with
  | .directive _ | .documentStart | .documentEnd | .streamEnd => addEmpty token.start
  | _ => blockNode

/-- Reads the topmost node of the first document. A document needs no start if it has no
    directives. -/
def firstDocument? : Reader (Option Nat) := do
  match (← peek).lexeme with
  | .directive _ | .documentStart | .streamEnd =>
    match ← documentStart? with
    | none => return none
    | some _ => return some (← documentContent)
  | _ => return some (← blockNode)

def document? : Reader (Option Nat) := do
  match ← firstDocument? with
  | none => return none
  | some root =>
    match ← documentStart? with
    | none => return some root
    | some mark => fail mark .anotherDocument

end Reader

/-- The nodes of the document with the given tokens, if there is a document. -/
def ofTokens? (tokens : TokenStream) : Except Fault (Option Graph) :=
  match Reader.document?.run ⟨tokens, Reader.defaultHandles, [], #[]⟩ with
  | .error fault => .error fault
  | .ok (none, _) => .ok none
  | .ok (some root, s) => .ok (some ⟨s.vertices, root⟩)

end Phrasebook.Yaml.Graph
