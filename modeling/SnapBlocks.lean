import SnapBlocks.Definition.Catalog
import SnapBlocks.Document.Restore
import SnapBlocks.Graph.Operation
import SnapBlocks.Program.Codec
import SnapBlocks.Program.Compile
import SnapBlocks.Program.Listing
import SnapBlocks.Project
import SnapBlocks.Proofs.Anchoring
import SnapBlocks.Proofs.Atomic
import SnapBlocks.Proofs.Branching
import SnapBlocks.Proofs.Chronicle
import SnapBlocks.Proofs.Copying
import SnapBlocks.Proofs.Distinct
import SnapBlocks.Proofs.Endless
import SnapBlocks.Proofs.Execution
import SnapBlocks.Proofs.Failures
import SnapBlocks.Proofs.Fitting
import SnapBlocks.Proofs.Footprint
import SnapBlocks.Proofs.Gestures
import SnapBlocks.Proofs.Literals
import SnapBlocks.Proofs.Nesting
import SnapBlocks.Proofs.ProjectText
import SnapBlocks.Proofs.Proximity
import SnapBlocks.Proofs.Refusal
import SnapBlocks.Proofs.Registration
import SnapBlocks.Proofs.Resetting
import SnapBlocks.Proofs.Restoring
import SnapBlocks.Proofs.Saturation
import SnapBlocks.Proofs.Snapping
import SnapBlocks.Proofs.Standstill
import SnapBlocks.Proofs.Storing
import SnapBlocks.Proofs.Tolerance
import SnapBlocks.Proofs.Verdict
import SnapBlocks.Run.Watch
