import FlowFacts.Domain.Comparison
import FlowFacts.Fault

/-!
Domains of facts: an order with a least and a greatest element, joins and meets. Two elements that
speak about different numbers of variables cannot be combined, so joining, meeting and comparing may
end in a fault.
-/

namespace FlowFacts

/-- What a comparison has found. One that ended in a fault has found nothing. Runs ask this of maps
of parities only, which are always compared without a fault. -/
def Comparison.ofResult : Except Fault Comparison → Comparison
  | .ok c => c
  | .error _ => incomparable

class Domain (D : Type) where
  bottom : D
  top : D
  meet : D → D → Except Fault D
  join : D → D → Except Fault D
  compare : D → D → Except Fault Comparison
  /-- Whether an element is the least one. A domain that has no shorter way compares the two. -/
  isBottom : D → Bool := fun x => Comparison.ofResult (compare x bottom) = .equal
  /-- Whether an element is the greatest one. -/
  isTop : D → Bool := fun x => Comparison.ofResult (compare x top) = .equal

namespace Domain

variable {D : Type} [Domain D]

def le (a b : D) : Except Fault Bool := return (← compare a b).isLe

/-- The join of a list, taken from the left. -/
def joinMany (xs : List D) : Except Fault D := xs.foldlM join bottom

/-- The meet of a list, taken from the left. -/
def meetMany (xs : List D) : Except Fault D := xs.foldlM meet top

end Domain

end FlowFacts
