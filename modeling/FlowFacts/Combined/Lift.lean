import FlowFacts.Bits
import FlowFacts.Combined.Product

/-!
Parities from sums. The equations known of the variables, scaled to whole numbers and read modulo
two, say which parities the variables can have together. The lift analysis tracks the equations only,
and answers assertions about parities by going through those that are possible.
-/

namespace FlowFacts

namespace Frame

/-- The equations of a system modulo two. -/
def paritySystem (f : Frame) (m : RationalMatrix) : Except Fault BitMatrix :=
  RowMatrix.ofRows f.width ((RationalMatrix.integerRows m).map fun r =>
    BitRow.ofList (r.map fun n => n % 2 ≠ 0))

/-- The rows that a row reaches by adding some of the directions, the choice for the last direction
changing slowest. -/
def translates (origin : BitRow) (directions : List BitRow) : Except Fault (List BitRow) :=
  directions.foldlM (fun rows d => do return rows ++ (← rows.mapM (·.xor d))) [origin]

/-- The parity of the variable in a column, from its bit. -/
def parityEntry (f : Frame) (q : Nat × Bool) : Except Fault (Entry Parity) := do
  return ⟨← entryAt f.names q.1, if q.2 then .odd else .even⟩

/-- The parities of the variables in some columns, from the bits there. -/
def parityPoint (f : Frame) (relevant : List Nat) (bits : BitRow) : Except Fault ParityMap := do
  return .ofEntries .top (← (relevant.zip bits.toList).mapM f.parityEntry)

/-- The parities that the variables in some columns can have together, or `none` if the equations
have no solution modulo two. Without equations a map that says nothing stands for all of them.

With `k` directions there are `2 ^ k` maps. From 64 directions on the answer is a fault. Below that
the list is built however long it is: that a memory cannot hold it for the last few of these `k`,
from about 58 on, is left out. -/
def parityPoints (f : Frame) (s : Relations) (relevant : List Nat) :
    Except Fault (Option (List ParityMap)) :=
  match s with
  | .bottom => .ok none
  | .top => .ok (some [.uniform .top])
  | .system m => do
    let system ← (← f.paritySystem m).rrefMinimal
    match ← system.backSubstitute with
    | none => return none
    | some particular =>
      let kernel ← (← system.dropLastColumn).kernel
      let origin ← particular.project relevant
      let projected ← kernel.mapM (·.project relevant)
      let directions ← (← RowMatrix.ofRows relevant.length projected).rrefMinimal
      if 64 ≤ directions.height then throw (.tooManyDirections directions.height)
      return some (← (← translates origin directions.rows).mapM (f.parityPoint relevant))

/-- The columns of the parity atoms of some clauses, in ascending order. -/
def parityColumns (f : Frame) (clauses : List Clause) : Except Fault (List Nat) := do
  return (SortedSet.ofList (← (clauses.flatten.flatMap Atom.parityNames).mapM f.column)).toList

/-- An assertion whose sum atoms are proved holds if every possible assignment of parities to the
variables it names is covered by a clause. -/
def liftCheck (f : Frame) (a : Assertion) (s : Relations) : Except Fault Verdict := do
  if s.isBottom then return .proved
  let remaining ← f.dischargeSums s a.clauses
  if remaining.any List.isEmpty then return .proved
  if remaining.isEmpty || s.isTop then return .violated
  match ← f.parityPoints s (← f.parityColumns remaining) with
  | none => return .proved
  | some points =>
    let facts := remaining.map ParityMap.ofClause
    return .ofBool (points.all fun p => ParityState.satisfies (.ofDisjuncts [p]) facts)

end Frame

/-- The sum analysis with parity assertions answered modulo two. -/
def liftAnalysis (f : Frame) : Analysis Relations where
  initial := .top
  transfer := f.transfer
  check := f.liftCheck
  render := f.render

end FlowFacts
