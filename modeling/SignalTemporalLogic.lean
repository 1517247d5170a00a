import SignalTemporalLogic.Scalar.Binary64
import SignalTemporalLogic.Time.Window
import SignalTemporalLogic.Trajectory.Sampled
import SignalTemporalLogic.Formula.Build
import SignalTemporalLogic.Formula.Horizon
import SignalTemporalLogic.Formula.Text
import SignalTemporalLogic.Robustness.Tree
import SignalTemporalLogic.Linear.Journal
import SignalTemporalLogic.Encoding.Group
import SignalTemporalLogic.Encoding.Encode
import SignalTemporalLogic.Feasibility.Search
import SignalTemporalLogic.Proofs.Completeness
import SignalTemporalLogic.Proofs.Soundness
import SignalTemporalLogic.Proofs.Evaluation
import SignalTemporalLogic.Proofs.Relations
import SignalTemporalLogic.Proofs.Signs
import SignalTemporalLogic.Proofs.Trees
import SignalTemporalLogic.Proofs.Plans
import SignalTemporalLogic.Proofs.Acceptance
import SignalTemporalLogic.Proofs.PreparedSessions
import SignalTemporalLogic.Proofs.Margins
import SignalTemporalLogic.Proofs.Correspondence
import SignalTemporalLogic.Proofs.Metering
import SignalTemporalLogic.Proofs.Refusals
import SignalTemporalLogic.Proofs.Tallies
import SignalTemporalLogic.Proofs.Naturality
import SignalTemporalLogic.Proofs.Origins
import SignalTemporalLogic.Proofs.SwitchSearch
import SignalTemporalLogic.Proofs.Binary64Offsets
import SignalTemporalLogic.Proofs.Templates
import SignalTemporalLogic.Proofs.Determination
import SignalTemporalLogic.Proofs.Shifts
import SignalTemporalLogic.Proofs.Policies
import SignalTemporalLogic.Proofs.Hints
import SignalTemporalLogic.Proofs.Accounting
import SignalTemporalLogic.Proofs.Binary64Order
import SignalTemporalLogic.Proofs.Gathering
import SignalTemporalLogic.Proofs.Connectives
import SignalTemporalLogic.Proofs.NestedWindows
import SignalTemporalLogic.Proofs.CheckedAccess
import SignalTemporalLogic.Proofs.NodeBudgets
import SignalTemporalLogic.Proofs.NormalForms
import SignalTemporalLogic.Proofs.ExactWindows
import SignalTemporalLogic.Proofs.Names
import SignalTemporalLogic.Proofs.Bindings
import SignalTemporalLogic.Proofs.StoredBounds
import SignalTemporalLogic.Proofs.GuardedEncoding
import SignalTemporalLogic.Proofs.StoredColumns
import SignalTemporalLogic.Proofs.RoundTrips
