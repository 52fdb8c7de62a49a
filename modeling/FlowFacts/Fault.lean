/-!
The ways a request can be refused: an operation whose arguments do not fit answers with a `Fault`,
and `Fault.message` is the one place that puts a fault into words.

Lists are read and written through `entryAt` and `setEntry`, which answer with a fault beyond the
end. No default stands in for an entry that is not there, so a computation that gives a result has
looked up nothing that did not exist.
-/

namespace FlowFacts

/-- Why an operation has no result. -/
inductive Fault where
  /-- A fraction was written over zero. -/
  | zeroDenominator
  /-- A fraction was divided by zero. -/
  | zeroDivisor
  /-- A row is not as wide as the matrix it should join. -/
  | rowWidth
  /-- A row or an entry was asked for beyond the last one. -/
  | outOfBounds
  /-- Two matrices of different widths were stacked. -/
  | stackWidth
  /-- A matrix without columns has no last column. -/
  | noColumns
  /-- A system without columns has no variables to count. -/
  | noVariableColumns
  /-- A system without columns has no constants. -/
  | noConstants
  /-- A point has another dimension than the equations that should pass through it. -/
  | pointDimension
  /-- A vector has another dimension than the matrix it should be multiplied with. -/
  | vectorDimension
  /-- A bit was asked for beyond the last one. -/
  | bitIndex (index length : Nat)
  /-- Two bit rows of different lengths were added. -/
  | bitLengths
  /-- An empty bit row has no last bit. -/
  | noBits
  /-- A system that should have a solution has none. -/
  | inconsistent
  /-- A variable has no column. -/
  | undeclared (name : String)
  /-- There are too many parity assignments to list. -/
  | tooManyDirections (count : Nat)
  /-- A drawing needs one state text for each node. -/
  | stateCount
  deriving DecidableEq, Repr

/-- What a fault says to a reader. -/
def Fault.message : Fault → String
  | zeroDenominator => "fraction with zero denominator"
  | zeroDivisor => "division by zero fraction"
  | rowWidth => "row width does not match column count"
  | outOfBounds => "index out of bounds"
  | stackWidth => "stacking matrices of different widths"
  | noColumns => "matrix has no columns to drop"
  | noVariableColumns => "attempt to subtract with overflow"
  | noConstants => "augmented system needs a constant column"
  | pointDimension => "point dimension does not match column count"
  | vectorDimension => "vector dimension does not match column count"
  | bitIndex index length => s!"bit index {index} out of range {length}"
  | bitLengths => "adding rows of different lengths"
  | noBits => "cannot truncate an empty row"
  | inconsistent => "stored systems are consistent"
  | undeclared name => s!"undeclared variable `{name}`"
  | tooManyDirections count => s!"too many free parity directions: {count}"
  | stateCount => "one state per node"

/-- Where two steps one after the other have a result, the first one has. -/
theorem ok_of_bind {ε α β : Type} {x : Except ε α} {f : α → Except ε β} {b : β}
    (h : x >>= f = .ok b) : ∃ a, x = .ok a ∧ f a = .ok b := by
  cases x with
  | error e => cases h
  | ok a => exact ⟨a, rfl, h⟩

/-! ## Entries of lists -/

section Entries

variable {α : Type}

/-- The entry at a position of a list. -/
def entryAt (xs : List α) (i : Nat) : Except Fault α :=
  match xs[i]? with
  | some x => .ok x
  | none => .error .outOfBounds

/-- The list with the entry at one of its positions changed. -/
def setEntry (xs : List α) (i : Nat) (x : α) : Except Fault (List α) :=
  if i < xs.length then .ok (xs.set i x) else .error .outOfBounds

theorem entryAt_eq_ok {xs : List α} {i : Nat} {x : α} : entryAt xs i = .ok x ↔ xs[i]? = some x := by
  unfold entryAt
  cases xs[i]? <;> simp

theorem entryAt_of_lt {xs : List α} {i : Nat} (h : i < xs.length) : entryAt xs i = .ok xs[i] :=
  entryAt_eq_ok.2 (List.getElem?_eq_getElem h)

theorem setEntry_of_lt {xs : List α} {i : Nat} (h : i < xs.length) (x : α) :
    setEntry xs i x = .ok (xs.set i x) := if_pos h

end Entries

end FlowFacts
