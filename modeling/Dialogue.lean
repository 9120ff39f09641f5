import Dialogue.Report
import Dialogue.Proofs.Performance
import Dialogue.Proofs.Simulation
import Dialogue.Proofs.Charting
import Dialogue.Proofs.Outcome
import Dialogue.Proofs.Naming
import Dialogue.Proofs.Conditions
import Dialogue.Proofs.Pruning
import Dialogue.Proofs.Nesting
import Dialogue.Proofs.Closing
import Dialogue.Proofs.Visits
import Dialogue.Proofs.Protocol
import Dialogue.Proofs.References
import Dialogue.Proofs.Typing
import Dialogue.Proofs.Fatality
import Dialogue.Proofs.Revisits
import Dialogue.Proofs.Uniform
import Dialogue.Proofs.Reordering
import Dialogue.Proofs.Fitting
import Dialogue.Proofs.Numerals
import Dialogue.Proofs.Allocation
import Dialogue.Proofs.Leniency
import Dialogue.Proofs.Memoisation
import Dialogue.Proofs.Relocation
import Dialogue.Proofs.Growth
import Dialogue.Proofs.Placement
import Dialogue.Proofs.Interruption
import Dialogue.Proofs.Tenancy
import Dialogue.Proofs.Sharing
import Dialogue.Proofs.Rehearsal
import Dialogue.Proofs.Grammar
import Dialogue.Proofs.Logging
import Dialogue.Proofs.Renaming
import Dialogue.Proofs.Containers
import Dialogue.Proofs.Assembly
import Dialogue.Proofs.Records
import Dialogue.Proofs.Spelling
import Dialogue.Proofs.Arrangement
import Dialogue.Proofs.Rounding
import Dialogue.Proofs.Range
import Dialogue.Proofs.Shortest
import Dialogue.Proofs.Scalars
import Dialogue.Proofs.Readback
import Dialogue.Proofs.Recovery
