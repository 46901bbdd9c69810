import RankPoly.Binary64.Reader
import RankPoly.Command.FileTree
import RankPoly.Main
import RankPoly.Proofs.Accounts
import RankPoly.Proofs.AppendOnly
import RankPoly.Proofs.Axis
import RankPoly.Proofs.Binding
import RankPoly.Proofs.Bounds
import RankPoly.Proofs.CallGraph
import RankPoly.Proofs.Clean
import RankPoly.Proofs.Convention
import RankPoly.Proofs.Fixpoint
import RankPoly.Proofs.Folding
import RankPoly.Proofs.Grammar
import RankPoly.Proofs.Heading
import RankPoly.Proofs.Invocation
import RankPoly.Proofs.Known
import RankPoly.Proofs.Lifting
import RankPoly.Proofs.Listing
import RankPoly.Proofs.Names
import RankPoly.Proofs.Nesting
import RankPoly.Proofs.Preservation
import RankPoly.Proofs.Promotion
import RankPoly.Proofs.Refreshing
import RankPoly.Proofs.Refusal
import RankPoly.Proofs.Rejection
import RankPoly.Proofs.Renaming
import RankPoly.Proofs.Reordering
import RankPoly.Proofs.Retention
import RankPoly.Proofs.RoundTrip
import RankPoly.Proofs.Scope.Branch
import RankPoly.Proofs.Settled
import RankPoly.Proofs.Settling
import RankPoly.Proofs.Transparency
import RankPoly.Proofs.Ty.Associative
import RankPoly.Proofs.Ty.Canonical
import RankPoly.Proofs.Ty.Indexing
import RankPoly.Proofs.Ty.Policy
import RankPoly.Proofs.WellTyped
import RankPoly.Proofs.Widening
import RankPoly.Proofs.Wrapper
import RankPoly.Stmt.Dump
import RankPoly.Ty.Dump
import RankPoly.Typed.Dump
