import FlowFacts.Combined.Lift
import FlowFacts.Solver

/-!
Reports. There are five kinds of analysis; a report is what one of them finds out about a program,
written out for a reader.
-/

namespace FlowFacts

/-- The kinds of analysis. -/
inductive Kind where
  | parity
  | sum
  | product
  | lift
  | homogeneousLift
  deriving DecidableEq, Repr

namespace Kind

def all : List Kind := [parity, sum, product, lift, homogeneousLift]

def name : Kind → String
  | parity => "parity"
  | sum => "sum"
  | product => "product"
  | lift => "sum-parity"
  | homogeneousLift => "homogeneous-sum-parity"

/-- The kind of a given name. -/
def ofName? (name : String) : Option Kind := all.find? fun k => k.name = name

def unknownMessage (name : String) : String := "unknown analysis `" ++ name ++ "`"

/-- What an analysis of a kind knows at a node. -/
abbrev State : Kind → Type
  | parity => ParityState
  | product => ProductState
  | sum | lift | homogeneousLift => Relations

instance (k : Kind) : Domain k.State :=
  match k with
  | parity => inferInstanceAs (Domain ParityState)
  | product => inferInstanceAs (Domain ProductState)
  | sum | lift | homogeneousLift => inferInstanceAs (Domain Relations)

/-- The analysis of a kind, over some variables in the order of their columns. -/
def analysis (k : Kind) (names : List String) : Analysis k.State :=
  match k with
  | parity => parityAnalysis
  | sum => sumAnalysis ⟨names, .affine⟩
  | product => productAnalysis ⟨names, .affine⟩
  | lift => liftAnalysis ⟨names, .affine⟩
  | homogeneousLift => liftAnalysis ⟨names, .homogeneous⟩

end Kind

structure Report where
  kind : Kind
  labels : List Nat
  states : List String
  findings : List (Finding String)
  rounds : Nat
  converged : Bool
  deriving DecidableEq

namespace Report

def verdicts (r : Report) : List Verdict := r.findings.map (·.outcome.verdict)

def allProved (r : Report) : Bool := r.verdicts.all (· = .proved)

/-- What an analysis of a kind finds out in at most a given number of rounds. -/
def run (g : Graph) (k : Kind) (cap : Nat) : Except Fault Report := do
  let a := k.analysis g.names
  let p ← (← Solver.solve g a cap).mapM a.render
  return ⟨k, g.labels, p.states, p.findings, p.rounds, p.converged⟩

end Report

end FlowFacts
