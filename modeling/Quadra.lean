import Quadra.Binary64.Bits
import Quadra.Main
import Quadra.Proofs.Cursor
import Quadra.Proofs.Equation.Scan
import Quadra.Proofs.Equation.Sides
import Quadra.Proofs.Equation.Sums
import Quadra.Proofs.Equation.Reading
import Quadra.Proofs.Equation.Exactness
import Quadra.Proofs.Decimal.Layout
import Quadra.Proofs.Equation.Canonical
import Quadra.Proofs.Equation.RoundTrip
import Quadra.Proofs.Equation.Layout
import Quadra.Proofs.Equation.Transposition
import Quadra.Proofs.Equation.Faults
import Quadra.Proofs.Equation.FirstFault
import Quadra.Proofs.Equation.TermLoop
import Quadra.Proofs.Diagnostic.Snippet
import Quadra.Proofs.CommandLine.EventLog
import Quadra.Proofs.CommandLine.Rejection
import Quadra.Proofs.CommandLine.Outcome
import Quadra.Proofs.Report.Lossless
import Quadra.Proofs.Polynomial.Representation
import Quadra.Proofs.Solution.Shape
import Quadra.Proofs.Solution.Opposite
import Quadra.Proofs.Solution.Overflow
import Quadra.Proofs.Solution.IntegerQuadratic
import Quadra.Proofs.Fraction.Recovery
import Quadra.Proofs.Fraction.LowestTerms
import Quadra.Proofs.Fraction.Faithful
import Quadra.Proofs.Fraction.ExactConvergents
import Quadra.Proofs.Fraction.Opposite
import Quadra.Proofs.Numeric.RootAccuracy
import Quadra.Proofs.Numeric.Euclid
import Quadra.Proofs.Equation.NumberValues
import Quadra.Proofs.Equation.Displayed
import Quadra.Proofs.CommandLine.OptionOrder
import Quadra.Proofs.Report.Records
import Quadra.Proofs.Report.Colours
import Quadra.Proofs.Solution.NegativeZero
