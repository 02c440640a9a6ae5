import ScriptModules.Grammar.Program
import ScriptModules.Strip.Elision
import ScriptModules.Number.Binary64
import ScriptModules.Number.Shortest
import ScriptModules.Json.Value
import ScriptModules.Json.Printer
import ScriptModules.Json.Reader
import ScriptModules.Text.Base64
import ScriptModules.SourceMap.Basic
import ScriptModules.SourceMap.Mappings
import ScriptModules.SourceMap.Document
import ScriptModules.SourceMap.Registry
import ScriptModules.Text.Shown
import ScriptModules.Text.Blank
import ScriptModules.Path
import ScriptModules.ModuleFormat
import ScriptModules.Host.Version
import ScriptModules.Host.Capabilities
import ScriptModules.Grammar.Trace
import ScriptModules.Grammar.Draft
import ScriptModules.Grammar.Repair
import ScriptModules.Grammar.Recovery
import ScriptModules.Transform.Basic
import ScriptModules.Transform.TypeStripping
import ScriptModules.Transform.JsonModule
import ScriptModules.Transform.DynamicImport
import ScriptModules.Text.Utf8
import ScriptModules.Url.Basic
import ScriptModules.Url.Encoding
import ScriptModules.Url.Host
import ScriptModules.Url.Parser
import ScriptModules.Url.File
import ScriptModules.Specifier
import ScriptModules.Text.Split
import ScriptModules.Package.Targets
import ScriptModules.Files.Tree
import ScriptModules.Project.Glob
import ScriptModules.Project.Jsonc
import ScriptModules.Project.Config
import ScriptModules.Project.Registry
import ScriptModules.Package.Cache
import ScriptModules.Session
import ScriptModules.Resolve.Basic
import ScriptModules.Resolve.Host
import ScriptModules.Resolve.Search
import ScriptModules.Notification
import ScriptModules.Load.Basic
import ScriptModules.Load.Host
import ScriptModules.Load.Preparation
import ScriptModules.Load.OneStep
import ScriptModules.Load.TwoStep
import ScriptModules.CommandLine.Arguments
import ScriptModules.CommandLine.Failure
import ScriptModules.CommandLine.Report
import ScriptModules.CommandLine.Run
import ScriptModules.Main
import ScriptModules.Proofs.Specifier.Forms
import ScriptModules.Proofs.Resolve.Steps
import ScriptModules.Proofs.Resolve.Simulation
import ScriptModules.Proofs.Resolve.Depth
import ScriptModules.Proofs.Resolve.Calls
import ScriptModules.Proofs.Resolve.FlatSearch
import ScriptModules.Proofs.Resolve.Mapped
import ScriptModules.Proofs.Resolve.Mapping
import ScriptModules.Proofs.Resolve.Nesting
import ScriptModules.Proofs.SourceMap.Composition
import ScriptModules.Project.Owners
import ScriptModules.Proofs.Agreement
import ScriptModules.Proofs.Files.Parts
import ScriptModules.Proofs.Files.Walk
import ScriptModules.Proofs.Json.Written
import ScriptModules.Proofs.Package.Around
import ScriptModules.Proofs.Requests
import ScriptModules.Proofs.Resolve.Candidates
import ScriptModules.Proofs.Resolve.Precedence
import ScriptModules.Proofs.SourceMap.Mappings
import ScriptModules.Proofs.SourceMap.RoundTrip
import ScriptModules.Proofs.SourceMap.Columns
import ScriptModules.Proofs.Text.WellFormed
import ScriptModules.Proofs.Load.Outcome
import ScriptModules.Proofs.Load.Registered
import ScriptModules.Proofs.Load.Lines
import ScriptModules.Proofs.Text.Base64
import ScriptModules.Proofs.Load.Inline
import ScriptModules.Proofs.Url.Encoding
import ScriptModules.Proofs.Files.Rooted
import ScriptModules.Proofs.Url.FilePath
import ScriptModules.Proofs.Package.Again
import ScriptModules.Proofs.Resolve.Formats
import ScriptModules.Proofs.Load.TwoSteps
import ScriptModules.Proofs.Load.Effects
import ScriptModules.Proofs.Load.Formats
import ScriptModules.Proofs.Resolve.Checked
import ScriptModules.Proofs.Resolve.Reports
import ScriptModules.Proofs.Resolve.Targets
import ScriptModules.Proofs.Strip.Blanking
import ScriptModules.Proofs.Grammar.Places
import ScriptModules.Proofs.Grammar.Shapes
import ScriptModules.Proofs.Grammar.Endings
import ScriptModules.Proofs.Strip.Moves
import ScriptModules.Proofs.Strip.Positions
import ScriptModules.Proofs.Strip.Survivors
import ScriptModules.Proofs.Strip.Clauses
import ScriptModules.Proofs.Project.Circles
import ScriptModules.Proofs.Files.Normalized
import ScriptModules.Proofs.Json.Keys
import ScriptModules.Proofs.Json.Numerals
import ScriptModules.Proofs.Json.Spelling
import ScriptModules.Proofs.Json.Notation
import ScriptModules.Proofs.Json.Containers
import ScriptModules.Proofs.Json.Documents
import ScriptModules.Proofs.Json.Styles
import ScriptModules.Proofs.Project.Comments
import ScriptModules.Proofs.Project.TrailingCommas
import ScriptModules.Proofs.Project.Jsonc
import ScriptModules.Proofs.Package.History
import ScriptModules.Proofs.Project.Room
import ScriptModules.Proofs.Project.Extends
import ScriptModules.Proofs.Project.Chains
import ScriptModules.Proofs.Project.Inherited
import ScriptModules.Proofs.Project.References
import ScriptModules.Proofs.Grammar.Constructs
import ScriptModules.Proofs.Strip.Outline
import ScriptModules.Proofs.Strip.Exposed
import ScriptModules.Proofs.Strip.Bindings
import ScriptModules.Proofs.Grammar.Repairs
import ScriptModules.Proofs.Load.Insertions
import ScriptModules.Proofs.Text.Patterns
import ScriptModules.Proofs.Package.Conditions
import ScriptModules.Proofs.Package.Patterns
import ScriptModules.Proofs.Project.Mappings
import ScriptModules.Proofs.Project.Owners
import ScriptModules.Proofs.Project.Ownership
import ScriptModules.Proofs.Resolve.Suffixes
import ScriptModules.Proofs.Load.Decisions
import ScriptModules.Proofs.Project.Scopes
import ScriptModules.Proofs.SourceMap.Contents
import ScriptModules.Proofs.SourceMap.WellFormed
import ScriptModules.Proofs.SourceMap.Halving
import ScriptModules.Proofs.SourceMap.Insertions
import ScriptModules.Proofs.SourceMap.History
import ScriptModules.Proofs.Json.Limits
import ScriptModules.Proofs.Json.Modules
import ScriptModules.Proofs.SourceMap.Faults
import ScriptModules.Proofs.SourceMap.Words
import ScriptModules.Proofs.Host.Precedence
import ScriptModules.Proofs.Files.Locations
import ScriptModules.Proofs.Files.Joined
import ScriptModules.Proofs.Notification
import ScriptModules.Proofs.Text.Lines
import ScriptModules.Proofs.Json.Places
import ScriptModules.Proofs.Project.Lines
