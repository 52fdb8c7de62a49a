import FlowFacts.Domain.Basic

/-!
Pairs of facts, one from each of two domains, ordered half by half.
-/

namespace FlowFacts

namespace Product

variable {A B : Type} [Domain A] [Domain B]

def meet (x y : A × B) : Except Fault (A × B) :=
  return (← Domain.meet x.1 y.1, ← Domain.meet x.2 y.2)

def join (x y : A × B) : Except Fault (A × B) :=
  return (← Domain.join x.1 y.1, ← Domain.join x.2 y.2)

/-- The second halves are not looked at when the first halves are incomparable. -/
def compare (x y : A × B) : Except Fault Comparison := do
  let first ← Domain.compare x.1 y.1
  if first = .incomparable then return first
  return first.combine (← Domain.compare x.2 y.2)

instance : Domain (A × B) where
  bottom := (Domain.bottom, Domain.bottom)
  top := (Domain.top, Domain.top)
  meet := meet
  join := join
  compare := compare

/-- Whether one of the halves already says that nothing is possible. -/
def hasBottom (x : A × B) : Bool := Domain.isBottom x.1 || Domain.isBottom x.2

end Product

end FlowFacts
