import FlowFacts.Fault

/-!
Rows of coefficients. Elimination is the same for fractions and for bits, and for rows stored as
lists and rows packed into words, so it is written once over the two classes of this module:
`Scalar` for the coefficients and `Row` for the rows that hold them.

What can go wrong is part of both: a coefficient beyond the end of a row is neither read nor
written, rows that do not fit each other are not added, and nothing is divided by zero.
-/

namespace FlowFacts

/-- The arithmetic that elimination asks of coefficients. -/
class Scalar (S : Type) extends Zero S, One S, Add S, Neg S, Mul S where
  /-- One over a coefficient that is not zero. -/
  reciprocal : S → Except Fault S

/-- Things with a number of entries. -/
class Sized (R : Type) where
  length : R → Nat

/-- Rows of coefficients, counted from zero. -/
class Row (S : outParam Type) (R : Type) extends Sized R where
  /-- The row of a given length in which every coefficient is zero. -/
  zeros : Nat → R
  /-- The coefficient at a position of the row. -/
  get : R → Nat → Except Fault S
  /-- The row with the coefficient at one of its positions changed. -/
  put : R → Nat → S → Except Fault R
  /-- Every coefficient multiplied by a number. -/
  scale : S → R → R
  /-- `plus r k p` is the row `r + k * p`. -/
  plus : R → S → R → Except Fault R
  /-- The first `n` coefficients of a row that has one more. -/
  init : Nat → R → Except Fault R
  /-- The position of the first coefficient that is not zero. -/
  lead : R → Option Nat
  length_scale : ∀ (k : S) (r : R), length (scale k r) = length r
  length_plus : ∀ {r : R} {k : S} {p q : R}, plus r k p = .ok q → length q = length r

end FlowFacts
