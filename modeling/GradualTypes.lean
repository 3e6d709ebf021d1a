import GradualTypes.Workspace
import GradualTypes.Operation
import GradualTypes.Descriptor
import GradualTypes.Store.Subtyping
import GradualTypes.Store.Membership
import GradualTypes.Store.Pattern
import GradualTypes.Store.Substitution
import GradualTypes.Store.Rendering
import GradualTypes.Store.Occurrence
import GradualTypes.Proofs.Canonicity
import GradualTypes.Proofs.Walks
import GradualTypes.Proofs.Termination
import GradualTypes.Proofs.Preorder
import GradualTypes.Proofs.Equivalence
import GradualTypes.Proofs.Soundness
import GradualTypes.Proofs.Stability
import GradualTypes.Proofs.Reordering
import GradualTypes.Proofs.Collation
import GradualTypes.Proofs.Normalization
import GradualTypes.Proofs.Rebuilding
import GradualTypes.Proofs.Outlines
import GradualTypes.Proofs.Unpromoted
import GradualTypes.Proofs.Agreement
import GradualTypes.Proofs.Independence
import GradualTypes.Proofs.Delegation
import GradualTypes.Proofs.TupleStates
import GradualTypes.Proofs.Membership
import GradualTypes.Proofs.Widening
import GradualTypes.Proofs.Sharing
import GradualTypes.Proofs.Queries
import GradualTypes.Proofs.Permanence
import GradualTypes.Proofs.Closure
import GradualTypes.Proofs.Interning
import GradualTypes.Proofs.Nullability
import GradualTypes.Proofs.Instances
import GradualTypes.Proofs.Annotations
import GradualTypes.Proofs.Transparency
import GradualTypes.Proofs.Joins
import GradualTypes.Proofs.Meets
import GradualTypes.Proofs.Matching
import GradualTypes.Proofs.Masking
import GradualTypes.Proofs.Composition
import GradualTypes.Proofs.Copies
import GradualTypes.Proofs.Cascades
import GradualTypes.Proofs.Elementwise
import GradualTypes.Proofs.Footprint
import GradualTypes.Proofs.Traits
import GradualTypes.Proofs.Rejections
import GradualTypes.Proofs.Declarations
import GradualTypes.Proofs.Representatives
