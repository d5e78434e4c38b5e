import ElmClient.Client
import ElmClient.Command.Report
import ElmClient.Config.Format
import ElmClient.Main
import ElmClient.Source
import ElmClient.Proofs.Closed.Run
import ElmClient.Proofs.Closed.Elm
import ElmClient.Proofs.Policy.Basic
import ElmClient.Proofs.Policy.Client
import ElmClient.Proofs.Order.Entries
import ElmClient.Proofs.Order.Document
import ElmClient.Proofs.Order.Resolve
import ElmClient.Proofs.Order.Client
import ElmClient.Proofs.Fresh
import ElmClient.Proofs.Name.Proper
import ElmClient.Proofs.Registry.Registering
import ElmClient.Proofs.Registry.Draining
import ElmClient.Proofs.Sound.Shape
import ElmClient.Proofs.Sound.Run
import ElmClient.Proofs.Sound.Registry
import ElmClient.Proofs.Sound.Resolve
import ElmClient.Proofs.Sound.Document
import ElmClient.Proofs.Sound.WellFormed
import ElmClient.Proofs.Name.Value
import ElmClient.Proofs.Distinct.Names
import ElmClient.Proofs.Distinct.Client
import ElmClient.Proofs.Distinct.Requests
import ElmClient.Proofs.Distinct.Operations
import ElmClient.Proofs.Json.Place
import ElmClient.Proofs.Shape.Everywhere
import ElmClient.Proofs.Shape.Same
import ElmClient.Proofs.Shape.Uniting
import ElmClient.Proofs.Document.Keys
import ElmClient.Proofs.Again.Run
import ElmClient.Proofs.Again.Registry
import ElmClient.Proofs.Again.Resolve
import ElmClient.Proofs.Again.Document
import ElmClient.Proofs.Declared.Annotation
import ElmClient.Proofs.Declared.Client
import ElmClient.Proofs.Text.Split
import ElmClient.Proofs.Path.Literal
import ElmClient.Proofs.Path.Template
import ElmClient.Proofs.Path.Url
import ElmClient.Proofs.Overlay.Laying
import ElmClient.Proofs.Overlay.Provenance
import ElmClient.Proofs.Overlay.Repeated
import ElmClient.Proofs.Resolve.Fields
import ElmClient.Proofs.Resolve.Dispatch
import ElmClient.Proofs.Resolve.Merged
import ElmClient.Proofs.Resolve.Properties
import ElmClient.Proofs.Registry.History
import ElmClient.Proofs.Recursion.Search
import ElmClient.Proofs.Recursion.Alias
import ElmClient.Proofs.Helpers.Expression
import ElmClient.Proofs.Helpers.Demand
import ElmClient.Proofs.Helpers.Table
import ElmClient.Proofs.Helpers.Levels
import ElmClient.Proofs.Helpers.Client
import ElmClient.Proofs.Json.Rereading
import ElmClient.Proofs.Document.Written
import ElmClient.Proofs.Formats.Agreement
import ElmClient.Proofs.Formats.Occurrence
import ElmClient.Proofs.Formats.Requests
import ElmClient.Proofs.Formats.Packages
import ElmClient.Proofs.Lexing.Mention
import ElmClient.Proofs.Lexing.Rendering
import ElmClient.Proofs.Lexing.Tidy
import ElmClient.Proofs.Tidy.Codec
import ElmClient.Proofs.Tidy.Client
import ElmClient.Proofs.Document.Depth
import ElmClient.Proofs.Expansion.Checked
import ElmClient.Proofs.Expansion.Cycles
import ElmClient.Proofs.Json.Pointer
import ElmClient.Proofs.Lexing.Code
import ElmClient.Proofs.Lexing.Qualifiers
import ElmClient.Proofs.Overlay.Clash
import ElmClient.Proofs.Registry.Constructors
import ElmClient.Proofs.Resolve.Contributions
import ElmClient.Proofs.Tidy.Imports
import ElmClient.Proofs.Requests.Partition
import ElmClient.Proofs.Requests.Authorization
import ElmClient.Proofs.Requests.Reading
import ElmClient.Proofs.Lexing.Enclosed
import ElmClient.Proofs.Config.Written
import ElmClient.Proofs.Resolve.Chains
import ElmClient.Proofs.Resolve.NullRule
import ElmClient.Proofs.Registry.Merging
import ElmClient.Proofs.Declared.Enum
import ElmClient.Proofs.Requests.Responses
import ElmClient.Proofs.Scope.Encoders
import ElmClient.Proofs.Reference
import ElmClient.Proofs.Name.Numbers
import ElmClient.Proofs.Brackets.Codec
