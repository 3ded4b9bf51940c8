import Transclude.Main
import Transclude.Measure.Script
import Transclude.Proofs.Allowance
import Transclude.Proofs.Comments
import Transclude.Proofs.Containment
import Transclude.Proofs.Escapes
import Transclude.Proofs.Grids
import Transclude.Proofs.Guards
import Transclude.Proofs.Loading
import Transclude.Proofs.Outlines
import Transclude.Proofs.Patterns
import Transclude.Proofs.Portable
import Transclude.Proofs.Positions
import Transclude.Proofs.Preview
import Transclude.Proofs.Progress
import Transclude.Proofs.Ranges
import Transclude.Proofs.Recall
import Transclude.Proofs.Renaming
import Transclude.Proofs.Regions
import Transclude.Proofs.Sealing
import Transclude.Proofs.Signatures
import Transclude.Proofs.Slugs
import Transclude.Proofs.Verifying
import Transclude.Proofs.Warnings
import Transclude.Release.Script
import Transclude.Workload.Store
