import BundleTracker.Bytes.LittleEndian.Lemmas
import BundleTracker.Main
import BundleTracker.ServiceName
import BundleTracker.Proofs.Params.Table
import BundleTracker.Proofs.State.Binding
import BundleTracker.Proofs.Node.Settling
import BundleTracker.Proofs.Node.Delivery
import BundleTracker.Proofs.Node.Agreement
import BundleTracker.Proofs.Node.Failures
import BundleTracker.Proofs.Node.Provenance
import BundleTracker.Proofs.Node.Schedule
import BundleTracker.Proofs.Package.Heights
import BundleTracker.Proofs.Package.Runs
import BundleTracker.Proofs.Chain.Coherence
import BundleTracker.Proofs.Node.Coherence
import BundleTracker.Proofs.Node.Window
import BundleTracker.Proofs.Chain.Sequence
import BundleTracker.Proofs.Node.FirstBlock
import BundleTracker.Proofs.Chain.PeriodEnds
import BundleTracker.Proofs.Node.Replay
import BundleTracker.Proofs.Broadcast
import BundleTracker.Proofs.Node.Subscribers
import BundleTracker.Proofs.Candidate.Reference
import BundleTracker.Proofs.State.Boundary
import BundleTracker.Proofs.State.LifeSpan
import BundleTracker.Proofs.State.Representation
import BundleTracker.Proofs.Chain.LifeSpan
import BundleTracker.Proofs.Script.Instruction
import BundleTracker.Proofs.Script.Number
import BundleTracker.Proofs.Script.Deposit
import BundleTracker.Proofs.Script.Coinbase
import BundleTracker.Proofs.Script.Outputs
import BundleTracker.Proofs.Chain.Stalls
import BundleTracker.Proofs.Package.Document
import BundleTracker.Proofs.Params.Toml
