import Phrasebook.Disk
import Phrasebook.Disk.Path
import Phrasebook.Disk.Pattern
import Phrasebook.Document
import Phrasebook.Document.Locate
import Phrasebook.Document.OfGraph
import Phrasebook.Document.Parse
import Phrasebook.Entries
import Phrasebook.Failure
import Phrasebook.Index
import Phrasebook.Key
import Phrasebook.Loader
import Phrasebook.Log
import Phrasebook.Log.Setup
import Phrasebook.Lookup
import Phrasebook.Outcome
import Phrasebook.Outcome.Parts
import Phrasebook.Proofs.Disk.Edits
import Phrasebook.Proofs.Disk.Names
import Phrasebook.Proofs.Disk.Reselection
import Phrasebook.Proofs.Disk.Selection
import Phrasebook.Proofs.Document.Building
import Phrasebook.Proofs.Document.Cycle
import Phrasebook.Proofs.Document.Descent
import Phrasebook.Proofs.Document.Layout
import Phrasebook.Proofs.Document.Locate
import Phrasebook.Proofs.Document.Offset
import Phrasebook.Proofs.Document.Path
import Phrasebook.Proofs.Document.Phrases
import Phrasebook.Proofs.Document.Placement
import Phrasebook.Proofs.Document.Unfold
import Phrasebook.Proofs.Document.Visible
import Phrasebook.Proofs.Entries
import Phrasebook.Proofs.Index.Definition
import Phrasebook.Proofs.Index.Registration
import Phrasebook.Proofs.Index.Run
import Phrasebook.Proofs.Index.Scopes
import Phrasebook.Proofs.Key.Enumeration
import Phrasebook.Proofs.Key.RoundTrip
import Phrasebook.Proofs.Key.Segments
import Phrasebook.Proofs.Key.Spelling
import Phrasebook.Proofs.Loader.Directory
import Phrasebook.Proofs.Loader.File
import Phrasebook.Proofs.Loader.Place
import Phrasebook.Proofs.Loader.Registration
import Phrasebook.Proofs.Loader.Reload
import Phrasebook.Proofs.Log.Block
import Phrasebook.Proofs.Log.Nesting
import Phrasebook.Proofs.Lookup.Flat
import Phrasebook.Proofs.Lookup.Winner
import Phrasebook.Proofs.Store.Answer
import Phrasebook.Proofs.Store.Arrangement
import Phrasebook.Proofs.Store.Completion
import Phrasebook.Proofs.Store.History
import Phrasebook.Proofs.Store.Isolation
import Phrasebook.Proofs.Store.Locales
import Phrasebook.Proofs.Store.Lookup
import Phrasebook.Proofs.Store.Provenance
import Phrasebook.Proofs.Store.Removal
import Phrasebook.Proofs.Store.Repetition
import Phrasebook.Proofs.Store.Run
import Phrasebook.Proofs.Text.LineEnds
import Phrasebook.Proofs.Tree.Overlay
import Phrasebook.Proofs.Tree.Path
import Phrasebook.Proofs.Tree.Regrouping
import Phrasebook.Proofs.Tree.Walk
import Phrasebook.Proofs.Yaml.Cursor
import Phrasebook.Proofs.Yaml.Lexer
import Phrasebook.Settings
import Phrasebook.Settings.Dotenv
import Phrasebook.Settings.Json
import Phrasebook.Store
import Phrasebook.Text.CodePoint
import Phrasebook.Text.Pieces
import Phrasebook.Text.Printable
import Phrasebook.Text.Utf8
import Phrasebook.Tree
import Phrasebook.Yaml.Cursor
import Phrasebook.Yaml.Directive
import Phrasebook.Yaml.Fault
import Phrasebook.Yaml.Graph
import Phrasebook.Yaml.Graph.OfTokens
import Phrasebook.Yaml.Lexer
import Phrasebook.Yaml.Property
import Phrasebook.Yaml.Scalar.Block
import Phrasebook.Yaml.Scalar.Plain
import Phrasebook.Yaml.Scalar.Quoted
import Phrasebook.Yaml.Token
