import Pseudocode.Main
import Pseudocode.Program.Render
import Pseudocode.Proofs.TypedRun
import Pseudocode.Proofs.PlaceIndependence
import Pseudocode.Proofs.Reporting
import Pseudocode.Proofs.Relayout
import Pseudocode.Proofs.TypedStore
import Pseudocode.Proofs.Truncation
import Pseudocode.Proofs.StandardInput
import Pseudocode.Proofs.Leniency
import Pseudocode.Proofs.Climbing
import Pseudocode.Proofs.ReadBack
import Pseudocode.Proofs.TypedSession
import Pseudocode.Proofs.Shape
import Pseudocode.Proofs.Atomicity
import Pseudocode.Proofs.NumeralAgreement
import Pseudocode.Proofs.Confinement
import Pseudocode.Proofs.IntArithmetic
import Pseudocode.Proofs.Comparing
import Pseudocode.Proofs.CallHistory
import Pseudocode.Proofs.DrawCount
import Pseudocode.Proofs.LineByLine
