import DiscreteMath.Main
import DiscreteMath.Proofs.Proposition.Productions
import DiscreteMath.Proofs.Proposition.Respelling
import DiscreteMath.Proofs.Reading
import DiscreteMath.Proofs.Sequence.Compilation
import DiscreteMath.Proofs.Sequence.Overflow
import DiscreteMath.Proofs.Sequence.Printing
import DiscreteMath.Proofs.SetAlgebra.Echo
import DiscreteMath.Proofs.SetAlgebra.Failure
import DiscreteMath.Proofs.SetAlgebra.Grammar
import DiscreteMath.Proofs.SetAlgebra.Hierarchy
import DiscreteMath.Proofs.SetAlgebra.Inclusion
import DiscreteMath.Proofs.SetAlgebra.Literal
import DiscreteMath.Proofs.SetAlgebra.PostfixOrder
import DiscreteMath.Proofs.SetAlgebra.Recovery
import DiscreteMath.Proofs.SetAlgebra.Rejection
import DiscreteMath.Proofs.SetAlgebra.Repetition
import DiscreteMath.Proofs.SetAlgebra.Representation
import DiscreteMath.Proofs.SetAlgebra.Samples
