import Steplib.Diagnostic.Basic
import Steplib.Diagnostic.Partition
import Steplib.Graph.ReferenceCache
import Steplib.Graph.Waiting
import Steplib.Library
import Steplib.Manifest.Basic
import Steplib.Manifest.Entity
import Steplib.Manifest.Markup
import Steplib.Module.Basic
import Steplib.Module.Clause
import Steplib.Module.Parse
import Steplib.NameMap
import Steplib.ObjectType
import Steplib.Path.Basic
import Steplib.Path.Map
import Steplib.Path.Set
import Steplib.Project.Disk
import Steplib.Project.Load
import Steplib.Proofs.Graph.ReferenceCache
import Steplib.Proofs.Graph.Waiting
import Steplib.Proofs.Module.Occurrences
import Steplib.Proofs.Parse.Agreement
import Steplib.Proofs.Parse.Closure
import Steplib.Proofs.Parse.Run
import Steplib.Proofs.Scan.Completeness
import Steplib.Proofs.Scan.Sighting
import Steplib.Proofs.Scan.Stretch
import Steplib.Proofs.Workspace.Batch
import Steplib.Proofs.Workspace.Charted
import Steplib.Proofs.Workspace.Creation
import Steplib.Proofs.Workspace.Edges
import Steplib.Proofs.Workspace.InStep
import Steplib.Proofs.Workspace.Indexed
import Steplib.Proofs.Workspace.Moves
import Steplib.Proofs.Workspace.Names
import Steplib.Proofs.Workspace.Reachable
import Steplib.Proofs.Workspace.Records
import Steplib.Proofs.Workspace.Resolution
import Steplib.Proofs.Workspace.Scans
import Steplib.Proofs.Workspace.Skeleton
import Steplib.Proofs.Workspace.States
import Steplib.Proofs.Workspace.Waking
import Steplib.Scan
import Steplib.Session.Basic
import Steplib.Session.Summary
import Steplib.Severity.EditorConfig
import Steplib.Severity.Glob
import Steplib.Severity.Rules
import Steplib.Source.Position
import Steplib.Text.Ascii
import Steplib.Text.Blank
import Steplib.Text.CaseFolding
import Steplib.Text.Hidden
import Steplib.Text.Lines
import Steplib.Text.Quoted
import Steplib.Token.Basic
import Steplib.Token.Lexeme
import Steplib.Token.Source
import Steplib.Workspace.Basic
import Steplib.Workspace.File
import Steplib.Workspace.Index
import Steplib.Workspace.Lifecycle
import Steplib.Workspace.Membership
import Steplib.Workspace.Parse
import Steplib.Workspace.References
import Steplib.Proofs.Workspace.Deletion
import Steplib.Proofs.Workspace.Tenure
import Steplib.Proofs.Workspace.OnRecord
import Steplib.Proofs.Parse.Answers
import Steplib.Proofs.Workspace.Opening
import Steplib.Proofs.Parse.Renewal
import Steplib.Proofs.Workspace.OpeningOrder
import Steplib.Proofs.Workspace.HeaderNames
import Steplib.Proofs.Parse.VariableChecks
import Steplib.Proofs.Workspace.VariableOrder
import Steplib.Proofs.Workspace.References
import Steplib.Proofs.Workspace.Provisional
import Steplib.Proofs.Workspace.Renaming
import Steplib.Proofs.Workspace.KnownCallers
import Steplib.Proofs.Workspace.Rescans
import Steplib.Proofs.Workspace.Traces
import Steplib.Proofs.Workspace.RegistrationOrder
import Steplib.Proofs.Workspace.Recreation
import Steplib.Proofs.Module.Places
import Steplib.Proofs.Workspace.Navigation
import Steplib.Proofs.Workspace.Succession
import Steplib.Proofs.Workspace.SecondPass
import Steplib.Proofs.Workspace.Events
import Steplib.Proofs.Workspace.DiagnosticLists
import Steplib.Proofs.Workspace.Buffers
import Steplib.Proofs.Workspace.Importers
import Steplib.Proofs.Token.Pattern
import Steplib.Proofs.Token.Lexing
import Steplib.Proofs.Token.Positions
import Steplib.Proofs.Token.Lines
import Steplib.Proofs.Token.LetterCase
import Steplib.Proofs.Module.LetterCase
import Steplib.Proofs.Module.Declarations
import Steplib.Proofs.Module.Parameters
import Steplib.Proofs.Token.Words
import Steplib.Proofs.Token.Literals
import Steplib.Proofs.Scan.Performs
import Steplib.Proofs.Scan.Header
import Steplib.Proofs.Parse.Monotonicity
import Steplib.Proofs.Graph.CacheHistory
import Steplib.Proofs.Graph.WaitHistory
import Steplib.Proofs.Text.Lines
import Steplib.Proofs.Severity.Front
import Steplib.Proofs.Severity.Pattern
import Steplib.Proofs.Severity.Lookup
import Steplib.Proofs.Severity.EditorConfig
import Steplib.Proofs.Manifest.Entities
import Steplib.Proofs.Manifest.Events
import Steplib.Proofs.Manifest.Written
import Steplib.Proofs.Project.Tree
import Steplib.Proofs.Project.Libraries
import Steplib.Proofs.Workspace.Registration
import Steplib.Proofs.Project.Loading
