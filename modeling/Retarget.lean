import Retarget.CommandLine.Execution
import Retarget.Proofs.Tree.Entries
import Retarget.Proofs.Tree.Legality
import Retarget.Proofs.Change.Confined
import Retarget.Proofs.Change.Goal
import Retarget.Proofs.Marks
import Retarget.Proofs.Pass.Clearing
import Retarget.Proofs.Pass.Duplicate
import Retarget.Proofs.Pass.Fingerprint
import Retarget.Proofs.Pass.Renaming
import Retarget.Proofs.Pass.Verification
import Retarget.Proofs.Run.CleanTables
import Retarget.Proofs.Run.Containment
import Retarget.Proofs.Run.Derivation
import Retarget.Proofs.Run.Repetition
import Retarget.Proofs.Substitution.Order
import Retarget.Proofs.Pass.Idle
import Retarget.Proofs.Run.Verified
import Retarget.Proofs.Pass.Arrival
import Retarget.Proofs.Pass.Refusals
import Retarget.Proofs.Run.Guards
import Retarget.Proofs.Pass.Reach
import Retarget.Proofs.Run.Staging
import Retarget.Proofs.Pass.Around
import Retarget.Proofs.Run.Sequence
import Retarget.Proofs.Run.Reports
import Retarget.Proofs.Text.Lossy
import Retarget.Proofs.Fingerprint.Names
import Retarget.Proofs.Run.Accounts
import Retarget.Proofs.Change.Agreement
import Retarget.Proofs.Change.Paving
import Retarget.Proofs.Pass.Agreement
import Retarget.Proofs.Resolution.Climbing
import Retarget.Proofs.Run.Commuting
import Retarget.Proofs.Substitution.Listing
import Retarget.Proofs.Configuration.Written
import Retarget.Proofs.CommandLine.Verification
import Retarget.Proofs.CommandLine.Generation
import Retarget.Proofs.Run.Lossless
import Retarget.Proofs.Run.Protection
import Retarget.Proofs.Run.Reproduction
import Retarget.Proofs.Substitution.Occurrences
import Retarget.Proofs.Pass.Contents
import Retarget.Proofs.Pass.Leftovers
import Retarget.Proofs.Pass.Overlooked
import Retarget.Proofs.Substitution.Pieces
import Retarget.Proofs.Substitution.Hazards
import Retarget.Proofs.Substitution.Construction
import Retarget.Proofs.Configuration.Validity
import Retarget.Proofs.Text.Marked
import Retarget.Proofs.Pass.Traversal
import Retarget.Proofs.Run.Logging
import Retarget.Proofs.Configuration.Restating
import Retarget.Proofs.Pass.Foresight
