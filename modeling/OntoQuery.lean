import OntoQuery.Substitution.Sharing
import OntoQuery.Json.Reader
import OntoQuery.Reformulation
import OntoQuery.Plan.Fold
import OntoQuery.Plan.Transform
import OntoQuery.Arena
import OntoQuery.Proofs.Unifier
import OntoQuery.Proofs.Order
import OntoQuery.Proofs.LeastModel
import OntoQuery.Proofs.RenamingApart
import OntoQuery.Proofs.Resolvent
import OntoQuery.Proofs.Variant
import OntoQuery.Proofs.Derivation
import OntoQuery.Proofs.Saturation
import OntoQuery.Proofs.UnfoldingTree
import OntoQuery.Proofs.Alternation
import OntoQuery.Proofs.PlanNodes
import OntoQuery.Proofs.PlanEdits
import OntoQuery.Proofs.PlanMeaning
import OntoQuery.Proofs.PlanOptimization
import OntoQuery.Proofs.Reformulation
import OntoQuery.Plan.Store
import OntoQuery.Plan.Store.Edit
import OntoQuery.Plan.Store.Optimize
import OntoQuery.Plan.Store.Transform
import OntoQuery.Proofs.StoredPlan
import OntoQuery.Proofs.AtomicEdit
import OntoQuery.Proofs.StoredEdits
import OntoQuery.Proofs.StoredRules
import OntoQuery.Proofs.StoredProposals
import OntoQuery.Proofs.StoredReads
import OntoQuery.Proofs.StoredTransform
import OntoQuery.Proofs.ReachablePlan
import OntoQuery.Proofs.StoredOptimization
import OntoQuery.Proofs.PlanValidity
import OntoQuery.Proofs.VariantLists
import OntoQuery.Proofs.UnfoldingLeaves
import OntoQuery.Proofs.SaturationLevels
import OntoQuery.Proofs.Dependence
import OntoQuery.Proofs.AcyclicUnfolding
import OntoQuery.Proofs.Conditions
import OntoQuery.Proofs.LargerBounds
import OntoQuery.Proofs.RulePlans
import OntoQuery.Proofs.UnfoldingResult
import OntoQuery.Proofs.SourcePlans
import OntoQuery.Proofs.SafeRules
import OntoQuery.Proofs.SameRules
import OntoQuery.Proofs.RewritingResult
import OntoQuery.Proofs.RuleOrder
import OntoQuery.Proofs.PlanNormalForm
import OntoQuery.Proofs.Composition
import OntoQuery.Proofs.SharedApplication
import OntoQuery.Proofs.Conjugation
import OntoQuery.Proofs.InverseRenaming
import OntoQuery.Proofs.RuleEncoding
import OntoQuery.Proofs.PlanSubstitution
import OntoQuery.Proofs.RemovedNodes
import OntoQuery.Proofs.PlanFolds
import OntoQuery.Proofs.ApplicableProposals
import OntoQuery.Proofs.RuleBounds
import OntoQuery.Proofs.DependencyAnalysis
import OntoQuery.Proofs.DepthBound
import OntoQuery.Proofs.TargetArity
import OntoQuery.Proofs.Agenda
import OntoQuery.Proofs.PendingRules
import OntoQuery.Proofs.Expansion
import OntoQuery.Proofs.SupplyHistory
import OntoQuery.Proofs.ArenaHistory
import OntoQuery.Proofs.PendingEquations
import OntoQuery.Proofs.SupplyCount
