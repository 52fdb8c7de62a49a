import FlowFacts.Affine.Frame
import FlowFacts.Analysis.Basic

/-!
The sum analysis: affine relations between the variables, changed by assignments, cut down by
assumptions, and asked whether sums agree.
-/

namespace FlowFacts

namespace Frame

/-- The row `r` with the multiple of the row `p` removed that clears a column. -/
def cancel (c : Nat) (p r : List Fraction) : Except Fault (List Fraction) := do
  let k ← entryAt r c
  if k = 0 then return r else Row.plus r (-(← k.quotient (← entryAt p c))) p

/-- What is still known when a variable may have changed: its first equation is used to remove it
from the others and is then dropped. -/
def forget (f : Frame) (s : Relations) (x : String) : Except Fault Relations :=
  match s with
  | .bottom | .top => .ok s
  | .system m => do
    let c ← f.column x
    match ← Reduction.findPivot c m.rows with
    | none => return s
    | some found =>
      let rows ← found.others.mapM (cancel c found.pivot)
      Relations.ofEquations (← RowMatrix.ofRows f.width rows)

/-- The row of an equation with `x - k` in the place of the variable `x` of a column. -/
def shiftRow (c last : Nat) (k : Int) (r : List Fraction) : Except Fault (List Fraction) := do
  setEntry r last ((← entryAt r last) - (← entryAt r c) * Fraction.ofInt k)

/-- What is known after `x := x + k`: every equation with `x - k` in the place of `x`. -/
def shift (f : Frame) (s : Relations) (x : String) (k : Int) : Except Fault Relations :=
  match s with
  | .bottom | .top => .ok s
  | .system m => do
    let rows ← m.rows.mapM (shiftRow (← f.column x) f.names.length k)
    Relations.ofEquations (← RowMatrix.ofRows f.width rows)

/-- What is known after `x := x + k` in either encoding. Without constants nothing is known of the
new value, unless it is the old one. -/
def increment (f : Frame) (s : Relations) (x : String) (k : Int) : Except Fault Relations :=
  if k = 0 then .ok s
  else
    match f.encoding with
    | .affine => f.shift s x k
    | .homogeneous => f.forget s x

def assign (f : Frame) (s : Relations) (x : String) (value : Value) : Except Fault Relations := do
  if s.isBottom then return .bottom
  if value.reads = some x then return ← f.increment s x value.offset
  match ← f.valueEquation x value with
  | none => f.forget s x
  | some e =>
    if ← Domain.le s e then return s
    Relations.meet (← f.forget s x) e

/-- An equation is added. The negation of an equation that is known leaves nothing, and any other
says nothing. -/
def assume (f : Frame) (s : Relations) : Condition → Except Fault Relations
  | .always => .ok s
  | .never => .ok .bottom
  | .equal x value => do
    if value.reads = some x then return if value.offset = 0 then s else .bottom
    match ← f.valueEquation x value with
    | some e => Relations.meet s e
    | none => return s
  | .unequal x value => do
    if value.reads = some x then return if value.offset = 0 then .bottom else s
    match ← f.valueEquation x value with
    | some e => return if ← Domain.le s e then .bottom else s
    | none => return s

def transfer (f : Frame) (statement : Statement) (s : Relations) : Except Fault Relations :=
  match statement with
  | .skip | .assert _ => .ok s
  | .assign x value => f.assign s x value
  | .assume c => f.assume s c

/-- The equations of the sum atoms of a clause, met one after the other. -/
def sumConstraint (f : Frame) (clause : Clause) : Except Fault Relations :=
  clause.foldlM (fun s atom =>
    match atom with
    | .sum left right => do Relations.meet s (← f.sumEquation left right)
    | .even _ | .odd _ => return s) .top

/-- Whether the sum atoms of a clause hold in a state. -/
def provesSums (f : Frame) (s : Relations) (clause : Clause) : Except Fault Bool := do
  Domain.le s (← f.sumConstraint clause)

def check (f : Frame) (a : Assertion) (s : Relations) : Except Fault Verdict := do
  if s.isBottom then return .proved
  if a.hasParity then return .unsupported
  return .ofBool (← a.clauses.anyM (f.provesSums s))

end Frame

/-- The sum analysis over the variables of a frame. -/
def sumAnalysis (f : Frame) : Analysis Relations where
  initial := .top
  transfer := f.transfer
  check := f.check
  render := f.render

end FlowFacts
