import Pratt.Lexer.Session
import Pratt.Node.Describe
import Pratt.Node.Outline
import Pratt.Node.Render
import Pratt.Node.Same
import Pratt.Node.Walk
import Pratt.Parser.Session
import Pratt.Parser.TraceSwitch
import Pratt.Proofs.Gaps
import Pratt.Proofs.Pulls
import Pratt.Proofs.Recovery
import Pratt.Proofs.RoundTrip
import Pratt.Proofs.Totality
import Pratt.Proofs.Viability
import Pratt.Proofs.Factorisation
import Pratt.Proofs.ReadingOrder
import Pratt.Proofs.Concatenation
import Pratt.Proofs.Consumption
import Pratt.Proofs.Cutting
import Pratt.Proofs.Tracing
import Pratt.Proofs.Layout
import Pratt.Proofs.Coherence
import Pratt.Proofs.Integers
import Pratt.Proofs.Overlong
import Pratt.Proofs.Climbing
import Pratt.Proofs.Registration
import Pratt.Proofs.Parameters
import Pratt.Proofs.Skip
import Pratt.Proofs.Quoting
import Pratt.Proofs.Spelling
