import FlowFacts.Affine.Analysis
import FlowFacts.Domain.Product
import FlowFacts.Parity.Analysis

/-!
The product analysis: parities and sums side by side. An assertion is split, its sum atoms going to
one half and its parity atoms to the other.
-/

namespace FlowFacts

namespace Frame

/-- The parity atoms of the clauses whose sum atoms are proved. -/
def dischargeSums (f : Frame) (s : Relations) : List Clause → Except Fault (List Clause)
  | [] => .ok []
  | clause :: rest => do
    let proved ← if clause.any Atom.isSum then f.provesSums s clause else pure true
    let kept ← dischargeSums f s rest
    return if proved then clause.filter Atom.isParity :: kept else kept

end Frame

abbrev ProductState := ParityState × Relations

namespace ProductState

def transfer (f : Frame) (statement : Statement) (s : ProductState) : Except Fault ProductState :=
  return (s.1.transfer statement, ← f.transfer statement s.2)

def check (f : Frame) (a : Assertion) (s : ProductState) : Except Fault Verdict := do
  if Product.hasBottom s then return .proved
  let remaining ← f.dischargeSums s.2 a.clauses
  if remaining.any List.isEmpty then return .proved
  if remaining.isEmpty then return .violated
  return .ofBool (s.1.satisfies (remaining.map ParityMap.ofClause))

def render (f : Frame) (s : ProductState) : Except Fault String :=
  return s.1.render ++ " | " ++ (← f.render s.2)

end ProductState

/-- Both analyses at once, over the variables of a frame. -/
def productAnalysis (f : Frame) : Analysis ProductState where
  initial := Domain.top
  transfer := ProductState.transfer f
  check := ProductState.check f
  render := ProductState.render f

end FlowFacts
