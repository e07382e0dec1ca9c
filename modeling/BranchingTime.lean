import BranchingTime.Formula.Render
import BranchingTime.Kripke.Dot
import BranchingTime.Kripke.Verdict
import BranchingTime.Precedence.Table
import BranchingTime.Proofs.Iteration
import BranchingTime.Proofs.Meaning
import BranchingTime.Proofs.Satisfaction
import BranchingTime.Proofs.Normalization
import BranchingTime.Proofs.Subformulas
import BranchingTime.Proofs.NormalForms
import BranchingTime.Proofs.DerivedOperators
import BranchingTime.Proofs.Duality
import BranchingTime.Proofs.RoundTrip
import BranchingTime.Proofs.Injectivity
import BranchingTime.Proofs.Turns
import BranchingTime.Proofs.Derivations
import BranchingTime.Proofs.Acceptance
import BranchingTime.Proofs.Unambiguity
import BranchingTime.Proofs.Leaves
import BranchingTime.Proofs.Canonical
import BranchingTime.Proofs.Unspellable
import BranchingTime.Proofs.Divisions
import BranchingTime.Proofs.Fusion
import BranchingTime.Proofs.Safety
import BranchingTime.Proofs.FiniteSets
import BranchingTime.Proofs.Analysis
import BranchingTime.Proofs.Bisimulation
import BranchingTime.Proofs.Concatenation
import BranchingTime.Proofs.TwoRuns
import BranchingTime.Proofs.Mirroring
import BranchingTime.Proofs.Reordering
import BranchingTime.Proofs.Counting
import BranchingTime.Proofs.Fixpoints
import BranchingTime.Proofs.Hooks
import BranchingTime.Proofs.Powers
import BranchingTime.Proofs.Refusals
import BranchingTime.Proofs.Labels
import BranchingTime.Proofs.OnDemand
import BranchingTime.Proofs.Ranges
import BranchingTime.Proofs.UnknownTokens
import BranchingTime.Proofs.Postfixes
import BranchingTime.Proofs.Defects
import BranchingTime.Proofs.Answers
import BranchingTime.Proofs.Drawing
import BranchingTime.Proofs.Enumeration
