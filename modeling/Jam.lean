import Jam.Peg.Lemmas
import Jam.Syntax.Dump
import Jam.Syntax.References
import Jam.Main
import Jam.Proofs.Eval.Leads
import Jam.Proofs.Eval.Steps
import Jam.Proofs.Syntax.Branches
import Jam.Proofs.Eval.Frames
import Jam.Proofs.Eval.Passes
import Jam.Proofs.Peg.Derivation
import Jam.Proofs.Peg.Leaves
import Jam.Proofs.Grammar.Children
import Jam.Proofs.Peg.Spells
import Jam.Proofs.Text.Escape
import Jam.Proofs.Grammar.Tokens
import Jam.Proofs.Syntax.Readings
import Jam.Proofs.Syntax.Agreement
import Jam.Proofs.Scopes.Shadowing
import Jam.Proofs.Eval.Words
import Jam.Proofs.Eval.Reports
import Jam.Proofs.Eval.Actions
import Jam.Proofs.Eval.Stages
import Jam.Proofs.Eval.Stopping
import Jam.Proofs.Eval.Signals
import Jam.Proofs.Eval.Shadowing
import Jam.Proofs.Eval.ErrorTrace
import Jam.Proofs.Eval.Diagnostics
import Jam.Proofs.Eval.Exiting
import Jam.Proofs.Eval.StrayFlow
import Jam.Proofs.Eval.Atomicity
import Jam.Proofs.Grammar.Words
import Jam.Proofs.Syntax.Names
import Jam.Proofs.Syntax.WellFormed
import Jam.Proofs.Scopes.Arena
import Jam.Proofs.Peg.Lockstep
import Jam.Proofs.Text.Layout
import Jam.Proofs.Grammar.Alignment
import Jam.Proofs.Grammar.Gaps
import Jam.Proofs.Grammar.Phrases
import Jam.Proofs.Grammar.Sequences
import Jam.Proofs.Grammar.Shapes
import Jam.Proofs.Grammar.Marks
import Jam.Proofs.Grammar.Replay
import Jam.Proofs.Text.Shift
import Jam.Proofs.Syntax.Places
import Jam.Proofs.Syntax.Division
import Jam.Proofs.Syntax.Reflow
import Jam.Proofs.Syntax.Concatenation
import Jam.Proofs.Grammar.Greedy
import Jam.Proofs.Grammar.Truncation
import Jam.Proofs.Grammar.Enclosing
import Jam.Proofs.Syntax.Truncation
import Jam.Proofs.Scopes.Search
import Jam.Proofs.Peg.Progress
import Jam.Proofs.Grammar.Progress
import Jam.Proofs.Peg.Strung
import Jam.Proofs.Grammar.Placement
import Jam.Proofs.Text.Offsets
import Jam.Proofs.Text.Positions
import Jam.Proofs.Syntax.Pieces
import Jam.Proofs.Syntax.Traces
import Jam.Proofs.Syntax.Spans
import Jam.Proofs.Syntax.References
import Jam.Proofs.Grammar.Variables
import Jam.Proofs.Syntax.Variables
import Jam.Proofs.Syntax.Display
import Jam.Proofs.Grammar.Written
import Jam.Proofs.Syntax.Written
import Jam.Proofs.Eval.Written
import Jam.Proofs.Grammar.Following
import Jam.Proofs.Syntax.Precedence
import Jam.Proofs.Eval.Selection
import Jam.Proofs.Text.Stands
import Jam.Proofs.Grammar.Escapes
import Jam.Proofs.Syntax.Unescaping
import Jam.Proofs.Syntax.Origins
import Jam.Proofs.Grammar.Subscripts
import Jam.Proofs.Eval.Subscripts
import Jam.Proofs.Text.Outline
import Jam.Proofs.Text.Quoted
import Jam.Proofs.Syntax.Outline
import Jam.Proofs.Syntax.CodePoints
import Jam.Proofs.Eval.Assignments
import Jam.Proofs.Eval.Unrolling
import Jam.Proofs.Eval.Naming
import Jam.Proofs.Text.Lines
import Jam.Proofs.Text.Underline
import Jam.Proofs.Peg.Entries
import Jam.Proofs.Grammar.Seams
import Jam.Proofs.Syntax.Seams
import Jam.Proofs.Eval.Placing
import Jam.Proofs.Eval.ErrorReport
