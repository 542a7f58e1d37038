import ScannerTables.Automaton.Basic
import ScannerTables.Automaton.Closure
import ScannerTables.Automaton.Fragment
import ScannerTables.Automaton.State
import ScannerTables.Automaton.Successor
import ScannerTables.CharacterClass
import ScannerTables.Claims
import ScannerTables.Codec.Definition
import ScannerTables.Codec.Fields
import ScannerTables.Codec.Table
import ScannerTables.Codec.Text
import ScannerTables.Config
import ScannerTables.Counting
import ScannerTables.Diagnostic
import ScannerTables.Event
import ScannerTables.Interval.Basic
import ScannerTables.Interval.Separated
import ScannerTables.IntervalSet
import ScannerTables.Json.Printer
import ScannerTables.Json.Reader
import ScannerTables.Json.Value
import ScannerTables.Lexer.Basic
import ScannerTables.Lexer.Build
import ScannerTables.Lexer.Labels
import ScannerTables.LexicalState.Basic
import ScannerTables.LexicalState.Composite
import ScannerTables.LexicalState.Plan
import ScannerTables.LexicalState.Process
import ScannerTables.Misuse
import ScannerTables.Packed.CaseTables
import ScannerTables.Packed.Machine
import ScannerTables.Packed.Ranges
import ScannerTables.Packed.Set
import ScannerTables.Pattern
import ScannerTables.Scan.Scanner
import ScannerTables.Scan.Tokens
import ScannerTables.Table.Basic
import ScannerTables.Table.Dot
import ScannerTables.Token.Definition
import ScannerTables.Token.Production
import ScannerTables.Token.Registry
import ScannerTables.Traversal
import ScannerTables.Unicode.CaseMapping
import ScannerTables.Unicode.Identifier
import ScannerTables.Unicode.IdentifierTables
import ScannerTables.Proofs.Language
import ScannerTables.Proofs.Path
import ScannerTables.Proofs.Extension
import ScannerTables.Proofs.Construction
import ScannerTables.Proofs.Exactness
import ScannerTables.Proofs.Repetition
import ScannerTables.Proofs.Checked
import ScannerTables.Proofs.Reachability
import ScannerTables.Proofs.Assembly
import ScannerTables.Proofs.Closure
import ScannerTables.Proofs.Dispatch
import ScannerTables.Proofs.Scan
import ScannerTables.Proofs.Recognition
import ScannerTables.Proofs.History
import ScannerTables.Proofs.Tokenization
import ScannerTables.Proofs.Declarations
import ScannerTables.Proofs.Duplicates
import ScannerTables.Proofs.Attempt
import ScannerTables.Proofs.Arrangement
import ScannerTables.Proofs.Operators
import ScannerTables.Proofs.Inlining
import ScannerTables.Proofs.Completion
import ScannerTables.Proofs.Resumption
import ScannerTables.Proofs.Retry
import ScannerTables.Proofs.Rejection
import ScannerTables.Proofs.CaseFolding
import ScannerTables.Proofs.Evolution
import ScannerTables.Proofs.Agreement
import ScannerTables.Proofs.Overriding
import ScannerTables.Proofs.Relabelling
import ScannerTables.Proofs.Lookups
import ScannerTables.Proofs.Slices
import ScannerTables.Proofs.Safety
import ScannerTables.Proofs.Truncation
import ScannerTables.Proofs.Records
import ScannerTables.Proofs.Placement
import ScannerTables.Proofs.Memoization
import ScannerTables.Proofs.Independence
import ScannerTables.Proofs.JsonText
import ScannerTables.Proofs.RoundTrip
import ScannerTables.Proofs.Idempotence
import ScannerTables.Proofs.Bookkeeping
import ScannerTables.Proofs.Identifiers
import ScannerTables.Proofs.Faults
import ScannerTables.Proofs.Addition
import ScannerTables.Proofs.Purity
import ScannerTables.Proofs.Draining
import ScannerTables.Proofs.Liveness
import ScannerTables.Proofs.NormalForm
import ScannerTables.Proofs.Recursion
import ScannerTables.Proofs.LabelIndex
import ScannerTables.Proofs.DistinctLabels
import ScannerTables.Proofs.Calls
import ScannerTables.Proofs.Registrations
import ScannerTables.Proofs.LiteralLabels
import ScannerTables.Proofs.Kinds
import ScannerTables.Proofs.MachineWords
import ScannerTables.Proofs.PackedMembers
import ScannerTables.Proofs.PackedListing
import ScannerTables.Proofs.PackedTerms
import ScannerTables.Proofs.PackedRanges
import ScannerTables.Proofs.MoveQueries
import ScannerTables.Proofs.CaseAgreement
import ScannerTables.Proofs.Precedence
import ScannerTables.Proofs.Preorder
import ScannerTables.Proofs.Roles
