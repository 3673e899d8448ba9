import Semicolon.Expr.Eval
import Semicolon.Grammar
import Semicolon.Main
import Semicolon.Node.Print
import Semicolon.Parse.Descent
import Semicolon.Parse.Words
import Semicolon.Proofs.Accounting
import Semicolon.Proofs.Barrier
import Semicolon.Proofs.Concatenation
import Semicolon.Proofs.Containment
import Semicolon.Proofs.CorrectPrefix
import Semicolon.Proofs.EmissionFaults
import Semicolon.Proofs.Offences
import Semicolon.Proofs.Places
import Semicolon.Proofs.Renaming
import Semicolon.Proofs.RoundTrip
import Semicolon.Proofs.Segmentation
import Semicolon.Proofs.SourceMeaning
import Semicolon.Proofs.Totality
import Semicolon.Proofs.TurnedComparisons
import Semicolon.Proofs.Histories
import Semicolon.Proofs.StraightLine
import Semicolon.Proofs.EventLog
