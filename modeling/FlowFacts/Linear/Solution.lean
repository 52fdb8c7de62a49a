import FlowFacts.Linear.Elimination

/-!
Solutions of reduced systems: a basis of the vectors that every row sends to zero, one solution of a
system with constants, and the test for a row that no vector satisfies.

These readings make sense of matrices in reduced form. They are defined on all matrices, and the
order in which rows are read is fixed: where two rows lead with the same column, the later row
decides for `kernel` and the earlier row for `backSubstitute`.
-/

namespace FlowFacts

namespace RowMatrix

variable {S R : Type} [Scalar S] [DecidableEq S] [Row S R]

/-- The rows that are not zero, each with its leading column. -/
def leadingRows (m : RowMatrix R) : List (Nat × R) :=
  m.rows.filterMap fun r => (Row.lead r).map fun c => (c, r)

/-- For each column whether some row leads there. -/
def pivotMarks (m : RowMatrix R) : Except Fault (List Bool) :=
  m.leadingRows.foldlM (fun marks q => setEntry marks q.1 true) (List.replicate m.columns false)

/-- The kernel vector of a free column: minus one there, and in the leading column of each row
that row's coefficient in the free column. -/
def kernelVector (columns : Nat) (leading : List (Nat × R)) (free : Nat) : Except Fault R := do
  let v ← Row.put (Row.zeros columns) free (-1)
  leading.foldlM (fun v q => do Row.put v q.1 (← Row.get q.2 free)) v

/-- A basis of the vectors that every row sends to zero, one for each column in which no row
leads. -/
def kernel (m : RowMatrix R) : Except Fault (List R) := do
  let marks ← m.pivotMarks
  let free ← (List.range m.columns).filterM fun c => do return !(← entryAt marks c)
  free.mapM (kernelVector m.columns m.leadingRows)

/-- The sum of the products of the coefficients of two rows, one column left out. -/
def sumWithout (r : R) (column : Nat) (x : R) : Except Fault S :=
  ((List.range (Sized.length x)).filter (· ≠ column)).foldlM
    (fun acc j => do return acc + (← Row.get r j) * (← Row.get x j)) 0

/-- The vector with the variable in column `c` chosen so that a row that leads there vanishes. -/
def solveFor (r : R) (c : Nat) (x : R) : Except Fault R := do
  Row.put x c (-(← sumWithout r c x) * (← Scalar.reciprocal (← Row.get r c)))

/-- Solves the rows from the last to the first, each for its leading variable. The last entry of
the vector stands for the constants and is one. There is no solution if a row has a constant and no
variable. -/
def solveRows (last : Nat) : List R → R → Except Fault (Option R)
  | [], x => .ok (some x)
  | r :: rest, x => do
    match ← solveRows last rest x with
    | none => return none
    | some y =>
      match Row.lead r with
      | none => return some y
      | some c => if c = last then return none else return some (← solveFor r c y)

/-- One solution of a system with constants, zero in the columns in which no row leads. -/
def backSubstitute (m : RowMatrix R) : Except Fault (Option R) :=
  if m.columns = 0 then .error .noConstants
  else do
    let last := m.columns - 1
    match ← solveRows last m.rows (← Row.put (Row.zeros m.columns) last 1) with
    | none => return none
    | some y => return some (← Row.init last y)

/-- Whether some row has a constant and no variable. -/
def isInconsistent (m : RowMatrix R) : Bool :=
  m.rows.any fun r => Row.lead r == some (m.columns - 1)

end RowMatrix

end FlowFacts
