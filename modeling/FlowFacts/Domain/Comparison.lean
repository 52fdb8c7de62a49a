/-!
The four ways in which two elements of a partial order can stand to each other.
-/

namespace FlowFacts

inductive Comparison where
  | less
  | equal
  | more
  | incomparable
  deriving DecidableEq, Repr

namespace Comparison

def isLe : Comparison → Bool
  | less | equal => true
  | more | incomparable => false

def isGe : Comparison → Bool
  | more | equal => true
  | less | incomparable => false

def reverse : Comparison → Comparison
  | less => more
  | more => less
  | c => c

/-- How two pairs compare, from how their halves compare. -/
def combine : Comparison → Comparison → Comparison
  | equal, c => c
  | c, equal => c
  | c, d => if c = d then c else incomparable

end Comparison

end FlowFacts
