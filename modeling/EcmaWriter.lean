import EcmaWriter.Census
import EcmaWriter.CommandLine.Arguments
import EcmaWriter.CommandLine.Disk
import EcmaWriter.CommandLine.Run
import EcmaWriter.CommandLine.World
import EcmaWriter.Decimal.Shortest
import EcmaWriter.Fault
import EcmaWriter.Generation
import EcmaWriter.Identifier
import EcmaWriter.Identifier.Candidate
import EcmaWriter.Identifier.Supply
import EcmaWriter.ImportTable
import EcmaWriter.Json.Decoder
import EcmaWriter.Json.Draft
import EcmaWriter.Json.Fault
import EcmaWriter.Json.Numeral
import EcmaWriter.Json.Token
import EcmaWriter.Json.Value
import EcmaWriter.Layout.Module
import EcmaWriter.Layout.Node
import EcmaWriter.Layout.Place
import EcmaWriter.Lexeme
import EcmaWriter.Main
import EcmaWriter.OrderedSet
import EcmaWriter.Scope
import EcmaWriter.Strength
import EcmaWriter.Text.Blank
import EcmaWriter.Text.Comment
import EcmaWriter.Text.Concealed
import EcmaWriter.Text.Shown
import EcmaWriter.Text.StringLiteral
import EcmaWriter.Tree.Basic
import EcmaWriter.Tree.Build
import EcmaWriter.Tree.Equality
import EcmaWriter.Tree.OfJson
import EcmaWriter.Tree.Operator
import EcmaWriter.Tree.ToJson
import EcmaWriter.Proofs.Census.Acceptance
import EcmaWriter.Proofs.Census.Mentions
import EcmaWriter.Proofs.Census.Redeclaration
import EcmaWriter.Proofs.Census.Stock
import EcmaWriter.Proofs.Census.Visits
import EcmaWriter.Proofs.CommandLine.Arguments
import EcmaWriter.Proofs.CommandLine.Outcome
import EcmaWriter.Proofs.Comment.Closing
import EcmaWriter.Proofs.Decimal.Digits
import EcmaWriter.Proofs.Erasure.Layout
import EcmaWriter.Proofs.Erasure.Tree
import EcmaWriter.Proofs.Except
import EcmaWriter.Proofs.Identifier.Enumeration
import EcmaWriter.Proofs.Identifier.Legality
import EcmaWriter.Proofs.Identifier.Minting
import EcmaWriter.Proofs.Identifier.Search
import EcmaWriter.Proofs.Imports.Agreement
import EcmaWriter.Proofs.Imports.Assignment
import EcmaWriter.Proofs.Imports.Capture
import EcmaWriter.Proofs.Imports.Hygiene
import EcmaWriter.Proofs.Layout.Assembly
import EcmaWriter.Proofs.Layout.Basic
import EcmaWriter.Proofs.Layout.ConciseBody
import EcmaWriter.Proofs.Layout.Following
import EcmaWriter.Proofs.Layout.Fragments
import EcmaWriter.Proofs.Layout.Instantiations
import EcmaWriter.Proofs.Layout.Position
import EcmaWriter.Proofs.Layout.References
import EcmaWriter.Proofs.Layout.Writing
import EcmaWriter.Proofs.Lexeme.Spelling
import EcmaWriter.Proofs.Nesting.File
import EcmaWriter.Proofs.Nesting.Layout
import EcmaWriter.Proofs.Nesting.Reader
import EcmaWriter.Proofs.ObjectLiteral.Layout
import EcmaWriter.Proofs.ObjectLiteral.Members
import EcmaWriter.Proofs.ObjectLiteral.Reader
import EcmaWriter.Proofs.Scoping.Agreement
import EcmaWriter.Proofs.Scoping.Alignment
import EcmaWriter.Proofs.Scoping.FunctionTypes
import EcmaWriter.Proofs.Scoping.GlobalTypes
import EcmaWriter.Proofs.Scoping.Loops
import EcmaWriter.Proofs.Scoping.Signatures
import EcmaWriter.Proofs.Script.Derivation
import EcmaWriter.Proofs.Script.Grammar
import EcmaWriter.Proofs.Script.Literal
import EcmaWriter.Proofs.Script.Minimality
import EcmaWriter.Proofs.Script.Operations
import EcmaWriter.Proofs.Script.Parser
import EcmaWriter.Proofs.Script.Phrases
import EcmaWriter.Proofs.Script.Quoting
import EcmaWriter.Proofs.Script.RoundTrip
import EcmaWriter.Proofs.Script.Runs
import EcmaWriter.Proofs.Script.Scanner
import EcmaWriter.Proofs.Script.Spacing
import EcmaWriter.Proofs.Script.Unambiguity
import EcmaWriter.Proofs.Tree.Equality
import EcmaWriter.Proofs.Tree.Occurrence
import EcmaWriter.Proofs.Json.Text
import EcmaWriter.Proofs.Json.Compact
import EcmaWriter.Proofs.Json.Variation
import EcmaWriter.Proofs.Json.Decoding
import EcmaWriter.Proofs.Json.Trees
import EcmaWriter.Proofs.Json.Lossless
import EcmaWriter.Proofs.Json.Tolerance
import EcmaWriter.Proofs.Json.Confinement
import EcmaWriter.Proofs.Json.Renewal
import EcmaWriter.Proofs.TypeNotation.Grammar
import EcmaWriter.Proofs.TypeNotation.Parser
import EcmaWriter.Proofs.TypeNotation.Scanner
import EcmaWriter.Proofs.TypeNotation.Trees
import EcmaWriter.Proofs.TypeNotation.Unambiguity
import EcmaWriter.Proofs.TypeNotation.Spacing
import EcmaWriter.Proofs.TypeNotation.Derivation
import EcmaWriter.Proofs.TypeNotation.Modifiers
import EcmaWriter.Proofs.TypeNotation.RoundTrip
import EcmaWriter.Proofs.Assignment.Reader
import EcmaWriter.Proofs.Assignment.Targets
import EcmaWriter.Proofs.Assignment.Statements
