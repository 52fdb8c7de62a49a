import FlowFacts.Linear.Matrix

/-!
Gauss–Jordan elimination. Columns are taken from left to right. In each one the first unused row
with a coefficient there becomes a pivot row: it changes places with the first unused row, is scaled
to have a one, and every other row, used or not, is cleared in that column. What remains unused at
the end is zero.

`RowMatrix.rrefMinimal` keeps the pivot rows only. It depends on nothing but the row space of its
argument, which is why systems of equations can be compared by comparing their rows.
-/

namespace FlowFacts

/-- A row among others: those before it, the row, and those after it. -/
structure Split (R : Type) where
  before : List R
  pivot : R
  after : List R

namespace Split

variable {R : Type}

/-- One more row in front. -/
def behind (r : R) (s : Split R) : Split R := { s with before := r :: s.before }

/-- The other rows in their order. -/
def others (s : Split R) : List R := s.before ++ s.after

/-- The other rows when the row has changed places with the first. -/
def swapped (s : Split R) : List R :=
  match s.before with
  | [] => s.after
  | r :: between => between ++ r :: s.after

end Split

/-- A matrix on its way to reduced form: the pivot rows in order, and the rows not yet used. -/
structure Reduction (R : Type) where
  pivots : List R
  unused : List R

namespace Reduction

variable {S R : Type} [Scalar S] [DecidableEq S] [Row S R]

/-- The first row with a coefficient in a column. -/
def findPivot (column : Nat) : List R → Except Fault (Option (Split R))
  | [] => .ok none
  | r :: rest => do
    if (← Row.get r column) ≠ 0 then return some ⟨[], r, rest⟩
    else return (← findPivot column rest).map (·.behind r)

/-- The row `r` with the multiple of the pivot row `p` removed that clears its column. -/
def clear (column : Nat) (p r : R) : Except Fault R := do
  let k ← Row.get r column
  if k = 0 then return r else Row.plus r (-k) p

/-- The work on one column. -/
def step (t : Reduction R) (column : Nat) : Except Fault (Reduction R) := do
  match ← findPivot column t.unused with
  | none => return t
  | some s =>
    let p := Row.scale (← Scalar.reciprocal (← Row.get s.pivot column)) s.pivot
    let pivots ← t.pivots.mapM (clear column p)
    let unused ← s.swapped.mapM (clear column p)
    return ⟨pivots ++ [p], unused⟩

/-- The work on the first columns of some rows. -/
def run (columns : Nat) (rows : List R) : Except Fault (Reduction R) :=
  (List.range columns).foldlM step ⟨[], rows⟩

end Reduction

namespace RowMatrix

variable {S R : Type} [Scalar S] [DecidableEq S] [Row S R]

/-- The reduced form, zero rows kept at the end. -/
def rref (m : RowMatrix R) : Except Fault (RowMatrix R) := do
  let t ← Reduction.run m.columns m.rows
  ofRows m.columns (t.pivots ++ t.unused)

/-- The reduced form without zero rows. -/
def rrefMinimal (m : RowMatrix R) : Except Fault (RowMatrix R) := do
  let t ← Reduction.run m.columns m.rows
  ofRows m.columns t.pivots

end RowMatrix

end FlowFacts
