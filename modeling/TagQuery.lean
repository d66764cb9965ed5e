import TagQuery.Text.Basic
import TagQuery.Text.Bytes
import TagQuery.Text.Span
import TagQuery.Text.Lines
import TagQuery.Vocabulary
import TagQuery.Query.Outline
import TagQuery.Query.Basic
import TagQuery.Query.Spelling
import TagQuery.Query.Node
import TagQuery.Query.Shift
import TagQuery.Grammar.Rule
import TagQuery.Diagnostic.Expected
import TagQuery.Diagnostic.Furthest
import TagQuery.Diagnostic.ParseError
import TagQuery.Packrat.MemoTable
import TagQuery.Packrat.Action
import TagQuery.Packrat.Combinators
import TagQuery.Grammar.Rules
import TagQuery.Grammar.Expr
import TagQuery.Parser
import TagQuery.Session
import TagQuery.Proofs.Failures
import TagQuery.Proofs.Rest
import TagQuery.Proofs.Outcome
import TagQuery.Proofs.Spelling
import TagQuery.Proofs.Gap
import TagQuery.Proofs.Reading
import TagQuery.Proofs.Settling
import TagQuery.Proofs.Run
import TagQuery.Proofs.Exactness
import TagQuery.Proofs.Diagnosis
import TagQuery.Proofs.Continuation
import TagQuery.Proofs.Transparency
import TagQuery.Proofs.Longest
import TagQuery.Proofs.Layout
import TagQuery.Proofs.Symbols
import TagQuery.Proofs.Joining
import TagQuery.Proofs.Canonical
import TagQuery.Proofs.Tiling
import TagQuery.Proofs.Built
import TagQuery.Proofs.Case
import TagQuery.Proofs.Rounds
import TagQuery.Proofs.History
import TagQuery.Proofs.Safety
import TagQuery.Proofs.Entries
import TagQuery.Proofs.Traffic
import TagQuery.Proofs.Replay
import TagQuery.Proofs.FirstLine
import TagQuery.Proofs.Visits
import TagQuery.Proofs.Evaluations
import TagQuery.Proofs.Lookup
import TagQuery.Proofs.Refusal
import TagQuery.Proofs.Displacement
import TagQuery.Proofs.Lines
import TagQuery.Proofs.Summary
import TagQuery.Proofs.Starts
import TagQuery.Proofs.Positions
import TagQuery.Proofs.Foreign
import TagQuery.Proofs.Terminals
import TagQuery.Proofs.Requests
import TagQuery.Proofs.Repetition
import TagQuery.Proofs.Rewinding
