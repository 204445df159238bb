import RunoffAudit.Submission
import RunoffAudit.Search.Arena
import RunoffAudit.Search.Unchecked
import RunoffAudit.Main
import RunoffAudit.Screening
import RunoffAudit.Proofs.Order
import RunoffAudit.Proofs.Violation
import RunoffAudit.Proofs.Work
import RunoffAudit.Proofs.Survivors
import RunoffAudit.Proofs.Expansion
import RunoffAudit.Proofs.Growth
import RunoffAudit.Proofs.Leaves
import RunoffAudit.Proofs.Texts
import RunoffAudit.Proofs.Faults
import RunoffAudit.Proofs.Screening
import RunoffAudit.Proofs.Verification
import RunoffAudit.Proofs.Requirement
import RunoffAudit.Proofs.Explanation
import RunoffAudit.Proofs.ContestStatus
import RunoffAudit.Proofs.Selection
import RunoffAudit.Proofs.Trimming
import RunoffAudit.Proofs.Certificate
import RunoffAudit.Proofs.PossibleWinners
import RunoffAudit.Proofs.Indispensable
import RunoffAudit.Proofs.Agreement
import RunoffAudit.Proofs.Frontier
import RunoffAudit.Proofs.Exactness
import RunoffAudit.Proofs.Partition
import RunoffAudit.Proofs.AllowedOrders
import RunoffAudit.Proofs.Reach
import RunoffAudit.Proofs.Outline
import RunoffAudit.Proofs.Policies
import RunoffAudit.Proofs.TreePreservation
import RunoffAudit.Proofs.VerificationCost
import RunoffAudit.Proofs.ReadProblem
import RunoffAudit.Proofs.Paths
import RunoffAudit.Proofs.SavedFile
import RunoffAudit.Proofs.RoundTrip
import RunoffAudit.Proofs.WritableDocument
import RunoffAudit.Proofs.Rejection
import RunoffAudit.Proofs.LimitedCommands
import RunoffAudit.Proofs.CanonicalOrder
import RunoffAudit.Proofs.Relisting
import RunoffAudit.Proofs.Admission
import RunoffAudit.Proofs.Reports
import RunoffAudit.Proofs.FileCommands
import RunoffAudit.Proofs.WrittenTrim
import RunoffAudit.Proofs.BuiltArena
import RunoffAudit.Proofs.SearchEnds
import RunoffAudit.Proofs.FirstRecorded
import RunoffAudit.Proofs.SelectionShape
import RunoffAudit.Proofs.ExplanationSteps
import RunoffAudit.Proofs.ShortestRun
import RunoffAudit.Proofs.ExactDoubles
import RunoffAudit.Proofs.GreedyRounds
import RunoffAudit.Proofs.TrimShape
import RunoffAudit.Proofs.DoubledPlace
import RunoffAudit.Proofs.RepeatedAssertion
import RunoffAudit.Proofs.MalformedContests
import RunoffAudit.Proofs.NodesExplored
import RunoffAudit.Proofs.DocumentSchema
