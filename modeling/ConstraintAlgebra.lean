import ConstraintAlgebra.Main
import ConstraintAlgebra.Session
import ConstraintAlgebra.Text.Glyphless
import ConstraintAlgebra.Proofs.Allocation
import ConstraintAlgebra.Proofs.Atomicity
import ConstraintAlgebra.Proofs.Complements
import ConstraintAlgebra.Proofs.ConstantSums
import ConstraintAlgebra.Proofs.ConstraintTexts
import ConstraintAlgebra.Proofs.Decoding
import ConstraintAlgebra.Proofs.Equality
import ConstraintAlgebra.Proofs.Interning
import ConstraintAlgebra.Proofs.Listings
import ConstraintAlgebra.Proofs.PlacementCount
import ConstraintAlgebra.Proofs.PlacementFirst
import ConstraintAlgebra.Proofs.Posting
import ConstraintAlgebra.Proofs.Queries
import ConstraintAlgebra.Proofs.Ranges
import ConstraintAlgebra.Proofs.ScalarMembership
import ConstraintAlgebra.Proofs.Sequences
import ConstraintAlgebra.Proofs.Totality
import ConstraintAlgebra.Proofs.Unions
