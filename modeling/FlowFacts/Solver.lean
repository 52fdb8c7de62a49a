import FlowFacts.Analysis.Basic
import FlowFacts.Graph.Basic

/-!
The solver. What is known at a node is the join of what each arc into it makes of what is known at
its source. Nodes wait in a queue; the first one is evaluated, and when what is known there changes
the nodes after it are queued again. A run ends when the queue is empty, or when it has evaluated as
many nodes as it may.
-/

namespace FlowFacts

/-- What a run has found out about an assertion. -/
inductive Outcome (D : Type) where
  | proved
  | violated (state : D)
  | unsupported
  deriving DecidableEq

namespace Outcome

variable {D : Type}

def verdict : Outcome D → Verdict
  | proved => .proved
  | violated _ => .violated
  | unsupported => .unsupported

def ofVerdict (state : D) : Verdict → Outcome D
  | .proved => proved
  | .violated => violated state
  | .unsupported => unsupported

end Outcome

/-- An assertion, the label of the point where it stands, and its outcome. -/
structure Finding (D : Type) where
  label : Nat
  assertion : Assertion
  outcome : Outcome D
  deriving DecidableEq

/-- The outcome in words. -/
def Finding.render (f : Finding String) : String :=
  let outcome := match f.outcome with
    | .proved => "passed"
    | .violated state => "failed in state " ++ state
    | .unsupported => "unsupported"
  renderLabel f.label ++ " assert " ++ f.assertion.render ++ ": " ++ outcome

/-- What a run ends with. -/
structure FixedPoint (D : Type) where
  states : List D
  findings : List (Finding D)
  rounds : Nat
  /-- Whether the queue was emptied. -/
  converged : Bool
  deriving DecidableEq

/-- Where the work on the queue has stopped. -/
structure Halt (D : Type) where
  states : List D
  /-- The rounds that were not used. -/
  unspent : Nat
  converged : Bool

namespace Solver

variable {D : Type} [Domain D]

/-- What is known at a node, from what is known at the others. -/
def evaluate (g : Graph) (a : Analysis D) (states : List D) (node : Nat) : Except Fault D := do
  let arcs ← g.arcsAt (← g.incoming node)
  arcs.foldlM (fun acc arc => do
    Domain.join acc (← a.transfer arc.statement (← entryAt states arc.source))) Domain.bottom

/-- The queue from its first node to which an arc leads. -/
def awaiting (g : Graph) : List Nat → Except Fault (List Nat)
  | [] => .ok []
  | node :: queue => do
    if (← g.incoming node).isEmpty then awaiting g queue else return node :: queue

/-- Evaluates queued nodes for as many rounds as are left. A node that no arc leads to is passed
over and takes no round. -/
def work (g : Graph) (a : Analysis D) : Nat → List D → List Nat → Except Fault (Halt D)
  | rounds, states, queue =>
    match awaiting g queue with
    | .error fault => .error fault
    | .ok [] => .ok ⟨states, rounds, true⟩
    | .ok (node :: queue) =>
      match rounds with
      | 0 => .ok ⟨states, 0, false⟩
      | rounds + 1 => do
        let next ← evaluate g a states node
        let old ← entryAt states node
        if (← Domain.compare next old) = .equal then work g a rounds states queue
        else work g a rounds (← setEntry states node next) (queue ++ (← g.successors node))

/-- What a run starts from: nothing is known to be possible, except at the entry. -/
def start (g : Graph) (a : Analysis D) : List D :=
  (List.range g.size).map fun n => if n = g.entry then a.initial else Domain.bottom

/-- The outcomes of the assertions, in the order of their arcs. -/
def judge (g : Graph) (a : Analysis D) (states : List D) : List Arc → Except Fault (List (Finding D))
  | [] => .ok []
  | arc :: rest => do
    match arc.statement with
    | .assert assertion =>
      let state ← entryAt states arc.source
      let verdict ← a.check assertion state
      let found := ⟨← entryAt g.labels arc.source, assertion, .ofVerdict state verdict⟩
      return found :: (← judge g a states rest)
    | .skip | .assign _ _ | .assume _ => judge g a states rest

/-- A whole run of at most a given number of rounds. -/
def solve (g : Graph) (a : Analysis D) (cap : Nat) : Except Fault (FixedPoint D) := do
  let halt ← work g a cap (start g a) (List.range g.size)
  let findings ← judge g a halt.states g.arcs
  return ⟨halt.states, findings, cap - halt.unspent, halt.converged⟩

/-- The number of rounds a run may take if nothing else is asked for. -/
def defaultCap : Nat := 10000

end Solver

/-- Writes the states of a finding as texts. -/
def Finding.mapM {D E : Type} (write : D → Except Fault E) (f : Finding D) :
    Except Fault (Finding E) := do
  match f.outcome with
  | .proved => return ⟨f.label, f.assertion, .proved⟩
  | .unsupported => return ⟨f.label, f.assertion, .unsupported⟩
  | .violated state => return ⟨f.label, f.assertion, .violated (← write state)⟩

/-- Writes all states of a run as texts. -/
def FixedPoint.mapM {D E : Type} (write : D → Except Fault E) (p : FixedPoint D) :
    Except Fault (FixedPoint E) := do
  let states ← p.states.mapM write
  let findings ← p.findings.mapM (·.mapM write)
  return ⟨states, findings, p.rounds, p.converged⟩

end FlowFacts
