import Lox.Syntax.Occurrence
import Lox.CommandLine
import Lox.Main
import Lox.Proofs.Parser.Forward
import Lox.Proofs.Parser.Loop
import Lox.Proofs.Syntax.Reading
import Lox.Proofs.Parser.Expression
import Lox.Proofs.Parser.Program
import Lox.Proofs.Syntax.Acceptance
import Lox.Proofs.Syntax.Canonical
import Lox.Proofs.Machine.Layout
import Lox.Proofs.Machine.Primitives
import Lox.Proofs.Machine.Rules
import Lox.Proofs.Machine.Watched
import Lox.Proofs.Resolution.Soundness
import Lox.Proofs.Session.Admission
import Lox.Proofs.Session.Following
import Lox.Proofs.Resolution.Joining
import Lox.Proofs.Twin.Code
import Lox.Proofs.Twin.Machine
import Lox.Proofs.Twin.Agreement
import Lox.Proofs.Twin.Rules
import Lox.Proofs.Parser.Relabeling
import Lox.Proofs.Session.Renumbering
import Lox.Proofs.Twin.Relabeling
import Lox.Proofs.Session.Twins
import Lox.Proofs.Session.Rejection
import Lox.Proofs.Session.Joining
import Lox.Proofs.Token.Grammar
import Lox.Proofs.Token.Segmentation
import Lox.Proofs.Receiver.Keeping
import Lox.Proofs.Receiver.Primitives
import Lox.Proofs.Receiver.Rules
import Lox.Proofs.Receiver.Reading
import Lox.Proofs.Session.Receivers
import Lox.Proofs.Renaming.Respelling
import Lox.Proofs.Resolution.Distinct
import Lox.Proofs.Syntax.Absence
import Lox.Proofs.Renaming.Scopes
import Lox.Proofs.Renaming.Walk
import Lox.Proofs.Renaming.Twins
import Lox.Proofs.Renaming.Reading
import Lox.Proofs.Renaming.Source
import Lox.Proofs.Session.Renaming
import Lox.Proofs.Machine.Contained
import Lox.Proofs.Session.Restoring
import Lox.Proofs.Session.Phases
import Lox.Proofs.Session.Identities
import Lox.Proofs.Session.Printing
import Lox.Proofs.Resolution.Lexical
import Lox.Proofs.Resolution.Denotation
import Lox.Proofs.Machine.Output
import Lox.Proofs.Trace.Basic
import Lox.Proofs.Trace.Evaluation
import Lox.Proofs.Session.Tracing
import Lox.Proofs.Session.Truncation
import Lox.Proofs.Syntax.Formed
import Lox.Proofs.Trace.Orderly
import Lox.Proofs.Trace.Calm
import Lox.Proofs.Trace.Path
import Lox.Proofs.Trace.Rules
import Lox.Proofs.Session.Paths
import Lox.Proofs.Trace.Properties
import Lox.Proofs.Session.Properties
import Lox.Proofs.Resolution.Offences
import Lox.Proofs.Resolution.Diagnosis
import Lox.Proofs.Machine.Activation
import Lox.Proofs.Session.Returning
import Lox.Proofs.Trace.Watched
import Lox.Proofs.Machine.Keeping
import Lox.Proofs.Machine.Widening
import Lox.Proofs.Trace.Globals
import Lox.Proofs.Session.Globals
import Lox.Proofs.Trace.Hereditary
import Lox.Proofs.Trace.Handing
import Lox.Proofs.Trace.Initializers
import Lox.Proofs.Session.Initializers
import Lox.Proofs.Parser.Renumbering
import Lox.Proofs.Parser.Unrolling
import Lox.Proofs.Session.Unrolling
import Lox.Proofs.Parser.Depth
import Lox.Proofs.Parser.Noticing
import Lox.Proofs.Parser.Foreign
import Lox.Proofs.Parser.Abreast
import Lox.Proofs.Parser.Lookahead
import Lox.Proofs.Parser.Recovery
import Lox.Proofs.Parser.Isolation
import Lox.Proofs.Parser.Viable
import Lox.Proofs.Parser.Prefix
import Lox.Proofs.Syntax.Lenient
import Lox.Proofs.Parser.Passing
import Lox.Proofs.Parser.Tolerance
import Lox.Proofs.Parser.Reporting
import Lox.Proofs.Frame.Addressing
import Lox.Proofs.Token.Spacing
import Lox.Proofs.Number.Rounding
import Lox.Proofs.Number.Written
import Lox.Proofs.Number.Bits
import Lox.Proofs.Session.Numbers
import Lox.Proofs.Number.Literal
import Lox.Proofs.Syntax.Lexed
import Lox.Proofs.Syntax.Sexp
import Lox.Proofs.Syntax.Unprinting
import Lox.Proofs.Syntax.Unambiguous
import Lox.Proofs.Frame.Rooted
import Lox.Proofs.Trace.Along
import Lox.Proofs.Trace.Growth
import Lox.Proofs.Session.Rooting
import Lox.Proofs.Parser.Walk
import Lox.Proofs.Parser.Progress
import Lox.Proofs.Machine.Composing
import Lox.Proofs.Host.Lines
import Lox.Proofs.Host.Strategy
import Lox.Proofs.Host.Interacting
import Lox.Proofs.Session.Dialogue
import Lox.Proofs.Session.Prompt
