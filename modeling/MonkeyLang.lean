import MonkeyLang.Text.Excerpt
import MonkeyLang.Token.Layout
import MonkeyLang.Token.Snapshot
import MonkeyLang.Ast.Equality
import MonkeyLang.Ast.Parser
import MonkeyLang.Ast.Printer
import MonkeyLang.Ast.Debug
import MonkeyLang.Value.Equality
import MonkeyLang.Eval.Basic
import MonkeyLang.Session.Basic
import MonkeyLang.Data.Format
import MonkeyLang.Main
import MonkeyLang.Proofs.Text.Numerals
import MonkeyLang.Proofs.Token.Stream
import MonkeyLang.Proofs.Token.Lexeme
import MonkeyLang.Proofs.Token.Literal
import MonkeyLang.Proofs.Token.Spelling
import MonkeyLang.Proofs.Token.Munch
import MonkeyLang.Proofs.Token.Places
import MonkeyLang.Proofs.Token.Layout
import MonkeyLang.Proofs.Token.RoundTrip
import MonkeyLang.Proofs.Token.Normal
import MonkeyLang.Proofs.Token.Pulls
import MonkeyLang.Proofs.Ast.Grammar
import MonkeyLang.Proofs.Ast.Binding
import MonkeyLang.Proofs.Ast.Window
import MonkeyLang.Proofs.Ast.Simulation
import MonkeyLang.Proofs.Ast.Depth
import MonkeyLang.Proofs.Ast.Written
import MonkeyLang.Proofs.Ast.Taking
import MonkeyLang.Proofs.Ast.Soundness
import MonkeyLang.Proofs.Ast.Completeness
import MonkeyLang.Proofs.Ast.Recognition
import MonkeyLang.Proofs.Ast.WellFormed
import MonkeyLang.Proofs.Ast.Printing
import MonkeyLang.Proofs.Ast.Spans
import MonkeyLang.Proofs.Ast.RoundTrip
import MonkeyLang.Proofs.Ast.Placement
import MonkeyLang.Proofs.Ast.Verdict
import MonkeyLang.Proofs.Ast.Blame
import MonkeyLang.Proofs.Ast.Unexpected
import MonkeyLang.Proofs.Ast.Failure
import MonkeyLang.Proofs.Ast.Pulling
import MonkeyLang.Proofs.Ast.Nesting
import MonkeyLang.Proofs.Ast.Like
import MonkeyLang.Proofs.Ast.Carrying
import MonkeyLang.Proofs.Ast.Joining
import MonkeyLang.Proofs.Value.Storable
import MonkeyLang.Proofs.Value.Parts
import MonkeyLang.Proofs.Value.Plain
import MonkeyLang.Proofs.Value.Same
import MonkeyLang.Proofs.Value.Alike
import MonkeyLang.Proofs.Eval.Ends
import MonkeyLang.Proofs.Eval.Deepening
import MonkeyLang.Proofs.Eval.Strict
import MonkeyLang.Proofs.Eval.Faults
import MonkeyLang.Proofs.Eval.Frames
import MonkeyLang.Proofs.Eval.Sound
import MonkeyLang.Proofs.Eval.Steps
import MonkeyLang.Proofs.Eval.Arithmetic
import MonkeyLang.Proofs.Eval.Matching
import MonkeyLang.Proofs.Eval.Parallel
import MonkeyLang.Proofs.Session.Reachable
import MonkeyLang.Proofs.Session.Invariants
import MonkeyLang.Proofs.Session.Shadowing
import MonkeyLang.Proofs.Eval.Exit
import MonkeyLang.Proofs.Eval.Host
import MonkeyLang.Proofs.Eval.Guarded
import MonkeyLang.Proofs.Session.Rerun
import MonkeyLang.Proofs.Session.Congruence
import MonkeyLang.Proofs.Token.Joining
import MonkeyLang.Proofs.Session.Lines
import MonkeyLang.Proofs.Session.Active
import MonkeyLang.Proofs.Session.Missing
import MonkeyLang.Proofs.Session.Inlining
import MonkeyLang.Proofs.Session.Failures
import MonkeyLang.Proofs.Session.Limits
import MonkeyLang.Proofs.Command.Endings
import MonkeyLang.Proofs.Session.Undisturbed
import MonkeyLang.Proofs.Eval.Hashes
import MonkeyLang.Proofs.Value.Equivalence
import MonkeyLang.Proofs.Value.Unambiguous
import MonkeyLang.Proofs.Data.Conversion
import MonkeyLang.Proofs.Data.Json.Grammar
import MonkeyLang.Proofs.Data.Json.Reader
import MonkeyLang.Proofs.Data.Json.RoundTrip
import MonkeyLang.Proofs.Text.Excerpts
import MonkeyLang.Proofs.Eval.Bodies
import MonkeyLang.Proofs.Session.Excerpts
import MonkeyLang.Proofs.Session.Sources
import MonkeyLang.Proofs.Token.Requests
import MonkeyLang.Proofs.Token.Escaping
import MonkeyLang.Proofs.Token.Snapshots
import MonkeyLang.Proofs.Ast.Termination
import MonkeyLang.Proofs.Text.Alignment
import MonkeyLang.Proofs.Session.Answers
