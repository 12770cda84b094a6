import TypeBounds.Main
import TypeBounds.Stack
import TypeBounds.Proofs.Orders
import TypeBounds.Proofs.Substitution
import TypeBounds.Proofs.Refusals
import TypeBounds.Proofs.Flavors
import TypeBounds.Proofs.Footprint
import TypeBounds.Proofs.Representatives
import TypeBounds.Proofs.Elimination
import TypeBounds.Proofs.Intersections
import TypeBounds.Proofs.Condensation
import TypeBounds.Proofs.Signatures
import TypeBounds.Proofs.Hierarchy
import TypeBounds.Proofs.Forms
import TypeBounds.Proofs.Questions
import TypeBounds.Proofs.Termination
import TypeBounds.Proofs.Repetition
import TypeBounds.Proofs.NaturalOrder
import TypeBounds.Proofs.Freshness
import TypeBounds.Proofs.Forks
