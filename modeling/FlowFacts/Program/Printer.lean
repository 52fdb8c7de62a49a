import FlowFacts.Program.Statement

/-!
How programs are written: the variables on the first line, then an edge on each line.
-/

namespace FlowFacts

def Value.render : Value → String
  | const c => toString c
  | var u => u
  | plus u c => s!"{u} + {c}"
  | minus u c => s!"{u} - {c}"
  | unknown => "?"

def Condition.render : Condition → String
  | always => "true"
  | never => "false"
  | equal x value => x ++ " = " ++ value.render
  | unequal x value => x ++ " != " ++ value.render

def Atom.render : Atom → String
  | even x => "EVEN " ++ x
  | odd x => "ODD " ++ x
  | sum left right => "SUM " ++ " ".intercalate left ++ " = SUM " ++ " ".intercalate right

def Clause.render (c : Clause) : String := "(" ++ " ".intercalate (c.map Atom.render) ++ ")"

def Assertion.render (a : Assertion) : String := " ".intercalate (a.clauses.map Clause.render)

def Statement.render : Statement → String
  | skip => "skip"
  | assign x value => x ++ " := " ++ value.render
  | assume c => "assume(" ++ c.render ++ ")"
  | assert a => "assert " ++ a.render

/-- Program points are written `L0`, `L1`, and so on. -/
def renderLabel (label : Nat) : String := "L" ++ toString label

def Edge.render (e : Edge) : String :=
  renderLabel e.source ++ " " ++ e.statement.render ++ " " ++ renderLabel e.target

def Program.render (p : Program) : String :=
  " ".intercalate p.declared.toList ++ "\n" ++ String.join (p.edges.map fun e => e.render ++ "\n")

end FlowFacts
