import FlowFacts.Analysis.Basic
import FlowFacts.Parity.Basic
import FlowFacts.Program.Statement

/-!
The parity analysis. A map that knows nothing of a variable is split into an even and an odd
alternative as soon as another variable is related to it, so the relation is not lost.
-/

namespace FlowFacts

namespace ParityMap

/-- The alternatives after `x := u + k`. -/
def copy (x u : String) (k : Int) (m : ParityMap) : List ParityMap :=
  if u = x ∨ m.get u ≠ .top then [m.set x ((m.get u).shift k)]
  else [.even, .odd].map fun p => (m.set u p).set x (p.shift k)

/-- The alternatives after `x := value`. -/
def assign (x : String) (value : Value) (m : ParityMap) : List ParityMap :=
  match value with
  | .const c => [m.set x (.of c)]
  | .unknown => [m.set x .top]
  | .var u => m.copy x u 0
  | .plus u c => m.copy x u c
  | .minus u c => m.copy x u (-c)

/-- The alternatives in which `x` has a given parity. -/
def restrict (x : String) (p : Parity) (m : ParityMap) : List ParityMap :=
  [m.set x ((m.get x).meet p)]

/-- The alternatives in which `x = u + k`, for two different variables. -/
def relate (x u : String) (k : Int) (m : ParityMap) : List ParityMap :=
  if m.get x = .top ∧ m.get u = .top then
    [.even, .odd].map fun p => (m.set u p).set x (p.shift k)
  else
    let p := (m.get x).meet ((m.get u).shift k)
    [(m.set x p).set u (p.shift k)]

/-- What a map and a parity atom say together. -/
def withAtom (m : ParityMap) : Atom → ParityMap
  | .even x => m.set x ((m.get x).meet .even)
  | .odd x => m.set x ((m.get x).meet .odd)
  | .sum _ _ => m

/-- What the parity atoms of a clause say together. -/
def ofClause (atoms : Clause) : ParityMap := atoms.foldl withAtom (.uniform .top)

end ParityMap

namespace ParityState

/-- What is left of a state in which `x = u + k`. A variable equals itself plus zero only. -/
def assumeCopy (x u : String) (k : Int) (s : ParityState) : ParityState :=
  if u = x then if k = 0 then s else .bottom
  else s.mapDisjuncts (ParityMap.relate x u k)

/-- Of the inequalities only `x != x` can be refuted from parities. -/
def assume (s : ParityState) : Condition → ParityState
  | .always => s
  | .never => .bottom
  | .unequal x value => if value.reads = some x ∧ value.offset = 0 then .bottom else s
  | .equal _ .unknown => s
  | .equal x (.const c) => s.mapDisjuncts (ParityMap.restrict x (.of c))
  | .equal x (.var u) => assumeCopy x u 0 s
  | .equal x (.plus u c) => assumeCopy x u c s
  | .equal x (.minus u c) => assumeCopy x u (-c) s

def transfer (statement : Statement) (s : ParityState) : ParityState :=
  match statement with
  | .skip | .assert _ => s
  | .assign x value => s.mapDisjuncts (ParityMap.assign x value)
  | .assume c => s.assume c

/-- An assertion holds where no state is possible, and otherwise if each alternative is covered by
a clause. -/
def check (a : Assertion) (s : ParityState) : Verdict :=
  if s.isBottom then .proved
  else if a.hasSum then .unsupported
  else .ofBool (s.satisfies (a.clauses.map ParityMap.ofClause))

end ParityState

def parityAnalysis : Analysis ParityState where
  initial := Domain.top
  transfer statement s := .ok (s.transfer statement)
  check a s := .ok (s.check a)
  render s := .ok s.render

end FlowFacts
