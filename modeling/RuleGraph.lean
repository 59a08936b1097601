import RuleGraph.Decimal
import RuleGraph.Declaration
import RuleGraph.Evaluator
import RuleGraph.Folding.Run
import RuleGraph.Graph
import RuleGraph.Interpreter
import RuleGraph.NameTable
import RuleGraph.References
import RuleGraph.Unfoldable
import RuleGraph.Proofs.Blocks
import RuleGraph.Proofs.Links
import RuleGraph.Proofs.Substitution
import RuleGraph.Proofs.Filling
import RuleGraph.Proofs.ReferenceIndex
import RuleGraph.Proofs.Course
import RuleGraph.Proofs.Taint
import RuleGraph.Proofs.Consistency
import RuleGraph.Proofs.Changes
import RuleGraph.Proofs.Evaluation
import RuleGraph.Proofs.Meaning
import RuleGraph.Proofs.Preservation
import RuleGraph.Proofs.Faithful
import RuleGraph.Proofs.History
import RuleGraph.Proofs.Protection
import RuleGraph.Proofs.Accounting
import RuleGraph.Proofs.Quiescence
import RuleGraph.Proofs.Idempotence
import RuleGraph.Proofs.Staleness
import RuleGraph.Proofs.Overrides
import RuleGraph.Proofs.Enumeration
import RuleGraph.Proofs.Retention
import RuleGraph.Proofs.Termination
import RuleGraph.Proofs.Writing
import RuleGraph.Proofs.Pruning
import RuleGraph.Proofs.VisitingOrder
import RuleGraph.Proofs.Errors
import RuleGraph.Proofs.Stack
import RuleGraph.Proofs.Identity
import RuleGraph.Proofs.InternalNames
import RuleGraph.Proofs.Replacement
import RuleGraph.Proofs.Locality
import RuleGraph.Proofs.Patches
import RuleGraph.Proofs.Leftovers
import RuleGraph.Proofs.Searching
import RuleGraph.Proofs.Tables
import RuleGraph.Proofs.Resolution
import RuleGraph.Proofs.Grouping
import RuleGraph.Proofs.Symbols
import RuleGraph.Proofs.Reading
import RuleGraph.Proofs.InsertionOrder
import RuleGraph.Proofs.Unlinking
