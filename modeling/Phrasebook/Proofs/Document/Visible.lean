import Phrasebook.Document.Parse
import Phrasebook.Proofs.Document.Building
import Phrasebook.Proofs.Document.Phrases
import Phrasebook.Proofs.Yaml.Reading

/-!
# Phrasebook.Proofs.Document.Visible

Every scalar of a document that was read takes up some of the text, unless it is null
(`visible_of_parse`): what occurs in the tree of a graph are scalars of the graph.
-/

namespace Phrasebook.Document

open Yaml (Graph)

variable {graph : Graph}

/-- A scalar that occurs in a tree comes from a scalar of the graph. -/
theorem exists_scalarOf?_of_occurs {s : Scalar} {path : List Text} {tree : Node}
    (occurs : Node.Occurs s path tree) {number : Nat} (unfolds : Unfolds graph number tree) :
    ∃ place, scalarOf? graph place = some s := by
  -- Down the tree, beside which the graph is unfolded.
  induction occurs generalizing number with
  | here =>
    rcases unfolds.inv with ⟨_, scalar, ⟨⟩⟩ | ⟨_, _, _, _, _, _, ⟨⟩⟩ | ⟨_, _, _, _, _, _, ⟨⟩⟩
    exact ⟨number, scalar⟩
  | entry range member below ih =>
    obtain ⟨_, _, _, _, _, _, _, _, inner⟩ := unfolds.exists_entry member
    exact ih inner
  | item range held below ih =>
    rcases unfolds.inv with ⟨_, _, ⟨⟩⟩ | ⟨_, _, _, _, _, each, ⟨⟩⟩ | ⟨_, _, _, _, _, _, ⟨⟩⟩
    obtain ⟨child, _, inner⟩ := exists_left_of_forall₂ each (List.mem_of_getElem? held)
    exact ih inner

theorem visible_of_scalarOf? (visible : ∀ vertex ∈ graph.vertices, vertex.Visible) {place : Nat}
    {s : Scalar} (scalar : scalarOf? graph place = some s) (loud : s.isNull = false) :
    ¬ s.range.IsEmpty := by
  rw [scalarOf?] at scalar
  split at scalar
  next start stop value style isNull vertex =>
    cases scalar
    have inside : start.index < stop.index := visible _ (Array.mem_of_getElem? vertex) loud
    simpa [SourceRange.IsEmpty, rangeOf] using inside
  · cases scalar

/-- The tree of a document that was read is that of the nodes of its text. -/
theorem exists_graph_of_parse {text : String} {document : Document}
    (read : (parse text).value = .ok document) {root : Node} (top : document.root = some root) :
    ∃ graph skipped, Graph.ofTokens? (.ofText text.toList) = .ok (some graph) ∧
      ofGraph graph = (.ok root, skipped) := by
  rw [parse] at read
  split at read
  · cases read
  · cases read
    cases top
  next graph graphRead =>
    rcases built : ofGraph graph with ⟨result, skipped⟩
    rw [built, Logged.value_bind] at read
    cases result with
    | error error => cases read
    | ok tree =>
      cases read
      cases top
      -- Tokens that cannot be read give no graph, and so no document.
      rw [readGraph?] at graphRead
      split at graphRead
      · cases graphRead
      · exact ⟨graph, skipped, graphRead, built⟩

/-- A scalar of a document that was read is null or takes up some of the text. -/
theorem visible_of_parse {text : String} {document : Document}
    (read : (parse text).value = .ok document) : document.Visible := by
  intro root top path s occurs loud
  obtain ⟨graph, skipped, graphRead, built⟩ := exists_graph_of_parse read top
  obtain ⟨place, scalar⟩ := exists_scalarOf?_of_occurs occurs (unfolds_of_ofGraph built)
  have visible := Graph.visible_ofTokens? (Yaml.TokenStream.inOrder_ofText text.toList) graphRead
  exact visible_of_scalarOf? visible scalar loud

end Phrasebook.Document
