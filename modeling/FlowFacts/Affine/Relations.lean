import FlowFacts.Domain.Basic
import FlowFacts.Linear.Rational

/-!
Affine relations. What is known of the variables is a system of linear equations over the rationals,
kept in reduced form: the points that satisfy it are an affine subspace, and equal subspaces have
equal systems.
-/

namespace FlowFacts

inductive Relations where
  /-- No point. -/
  | bottom
  /-- Every point. -/
  | top
  /-- The solutions of a consistent system in reduced form that has at least one equation. -/
  | system (equations : RationalMatrix)
  deriving DecidableEq

namespace Relations

/-- The solutions of a system in reduced form. -/
def ofReduced (m : RationalMatrix) : Relations :=
  if m.isEmpty then top else if m.isInconsistent then bottom else system m

/-- The solutions of any system. -/
def ofEquations (equations : RationalMatrix) : Except Fault Relations := do
  return ofReduced (← equations.rrefMinimal)

def isBottom : Relations → Bool
  | bottom => true
  | _ => false

def isTop : Relations → Bool
  | top => true
  | _ => false

/-- A point of the subspace that a system describes. -/
def point : Relations → Except Fault (Option (List Fraction))
  | system m => m.backSubstitute
  | bottom | top => .ok none

/-- A solution of a system that is supposed to have one. -/
def solution (m : RationalMatrix) : Except Fault (List Fraction) := do
  match ← m.backSubstitute with
  | some p => .ok p
  | none => .error .inconsistent

/-- The smallest affine subspace around the solutions of two systems. Its directions are those of
both. If the two share a point it passes through that point, otherwise it has the direction from a
point of one to a point of the other as well, and passes halfway between them. -/
def hull (a b : RationalMatrix) : Except Fault Relations := do
  if a.columns = 0 then throw .noVariableColumns
  let directions := (← (← a.dropLastColumn).kernel) ++ (← (← b.dropLastColumn).kernel)
  let common ← (← (← a.stack b).rrefMinimal).backSubstitute
  let (directions, origin) ← match common with
    | some p => pure (directions, p)
    | none => do
      let v ← solution a
      let w ← solution b
      pure (directions ++ [Fraction.difference v w], Fraction.midpoint v w)
  let equations ← RationalMatrix.spanEquations (a.columns - 1) directions
  ofEquations (← RationalMatrix.withOffset equations origin)

def meet : Relations → Relations → Except Fault Relations
  | bottom, _ => .ok bottom
  | _, bottom => .ok bottom
  | top, s => .ok s
  | s, top => .ok s
  | system a, system b => do ofEquations (← a.stack b)

def join : Relations → Relations → Except Fault Relations
  | top, _ => .ok top
  | _, top => .ok top
  | bottom, s => .ok s
  | s, bottom => .ok s
  | system a, system b => if a = b then .ok (system a) else hull a b

/-- One system implies another if adding the other's equations does not raise its rank. -/
def compare : Relations → Relations → Except Fault Comparison
  | bottom, bottom => .ok .equal
  | top, top => .ok .equal
  | bottom, _ => .ok .less
  | _, top => .ok .less
  | _, bottom => .ok .more
  | top, _ => .ok .more
  | system a, system b => do
    let rank := (← (← a.stack b).rrefMinimal).height
    if rank = a.height then
      return if rank = b.height then .equal else .less
    else
      return if rank = b.height then .more else .incomparable

instance : Domain Relations where
  bottom := bottom
  top := top
  meet := meet
  join := join
  compare := compare
  isBottom := isBottom
  isTop := isTop

def render : Relations → String
  | bottom => "⊥"
  | top => "⊤"
  | system m => RationalMatrix.render m

end Relations

end FlowFacts
