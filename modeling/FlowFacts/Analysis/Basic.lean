import FlowFacts.Domain.Basic
import FlowFacts.Program.Statement

/-!
Analyses. An analysis says how a statement changes what is known, and what the facts known at a point
say about an assertion there.
-/

namespace FlowFacts

/-- What an analysis can say about an assertion. -/
inductive Verdict where
  | proved
  | violated
  /-- The assertion speaks of things that the analysis does not track. -/
  | unsupported
  deriving DecidableEq, Repr

namespace Verdict

def ofBool (holds : Bool) : Verdict := if holds then proved else violated

def name : Verdict → String
  | proved => "proved"
  | violated => "violated"
  | unsupported => "unsupported"

end Verdict

/-- An analysis whose facts are the elements of `D`. -/
structure Analysis (D : Type) where
  /-- What is known where a program starts. -/
  initial : D
  transfer : Statement → D → Except Fault D
  check : Assertion → D → Except Fault Verdict
  render : D → Except Fault String

end FlowFacts
