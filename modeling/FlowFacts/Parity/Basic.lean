import FlowFacts.Domain.Disjunction
import FlowFacts.Domain.Pointwise

/-!
Parities. What is known of one number is that it is even, that it is odd, nothing (`top`), or that
there is no such number (`bottom`). A `ParityMap` says this of every variable, and a `ParityState`
lists maps of which one describes the state.
-/

namespace FlowFacts

inductive Parity where
  | bottom
  | even
  | odd
  | top
  deriving DecidableEq, Ord, Repr

namespace Parity

instance : Std.TransOrd Parity where
  eq_swap {a b} := by cases a <;> cases b <;> rfl
  isLE_trans {a b c} := by cases a <;> cases b <;> cases c <;> decide

/-- The parity of an integer. -/
def of (n : Int) : Parity := if n % 2 = 0 then even else odd

def flip : Parity → Parity
  | even => odd
  | odd => even
  | p => p

/-- The parity of `x + n`, from that of `x`. -/
def shift (p : Parity) (n : Int) : Parity := if n % 2 = 0 then p else p.flip

def meet (p q : Parity) : Parity :=
  if p = top then q else if q = top then p else if p = q then p else bottom

def join (p q : Parity) : Parity :=
  if p = bottom then q else if q = bottom then p else if p = q then p else top

def compare (p q : Parity) : Comparison :=
  if p = q then .equal
  else if p = bottom ∨ q = top then .less
  else if q = bottom ∨ p = top then .more
  else .incomparable

def le (p q : Parity) : Bool := (compare p q).isLe

instance : Domain Parity where
  bottom := bottom
  top := top
  meet p q := .ok (meet p q)
  join p q := .ok (join p q)
  compare p q := .ok (compare p q)

def render : Parity → String
  | bottom => "⊥"
  | even => "even"
  | odd => "odd"
  | top => "⊤"

end Parity

/-- A parity for every variable. -/
abbrev ParityMap := VarMap Parity

namespace ParityMap

/-- Whether a map says at least as much as another of every variable, by the comparison of maps.
That one never fails for parities. -/
def le (a b : ParityMap) : Bool := (Comparison.ofResult (Domain.compare a b)).isLe

/-- Whether a map gives some variable, or all but finitely many, a parity no number has. -/
def hasBottom (m : ParityMap) : Bool := m.values.any (· = .bottom)

def render (m : ParityMap) : String := VarMap.render Parity.render m

end ParityMap

/-- Alternatives of parities. -/
abbrev ParityState := Disjunction ParityMap

namespace ParityState

/-- Drops the maps that describe no state and those that say more than another one does. -/
def reduce (maps : List ParityMap) : ParityState :=
  let live := (SortedSet.ofList (maps.filter fun m => !ParityMap.hasBottom m)).toList
  .ofDisjuncts (live.filter fun m => !live.any fun e => e ≠ m && ParityMap.le m e)

/-- Replaces every alternative of a state by the alternatives that follow from it. -/
def mapDisjuncts (f : ParityMap → List ParityMap) : ParityState → ParityState
  | .bottom => .bottom
  | s => reduce (s.expand.flatMap f)

/-- Whether every alternative of a state is covered by one of some maps. -/
def satisfies (s : ParityState) (facts : List ParityMap) : Bool :=
  s.expand.all fun m => facts.any fun fact => ParityMap.le m fact

def render (s : ParityState) : String := Disjunction.render ParityMap.render s

end ParityState

end FlowFacts
