import FlowFacts.Fault
import FlowFacts.Program.Printer
import FlowFacts.Text.Quoted

/-!
Flow graphs. The nodes of a program's graph are its labels in ascending order, numbered from zero,
and its arcs are the program's edges in their order. A graph is built for programs that declare what
they use, branch on conditions only, and start at one point.
-/

namespace FlowFacts

/-- A statement that leads from one node to another. -/
structure Arc where
  source : Nat
  target : Nat
  statement : Statement
  deriving DecidableEq

structure Graph where
  names : List String
  /-- The label of each node. -/
  labels : List Nat
  arcs : List Arc
  /-- The node at which a program starts. -/
  entry : Nat
  deriving DecidableEq

/-- Why a program has no graph. -/
inductive GraphError where
  | variableMismatch (undeclared unused : List String)
  | ambiguousBranch (label : Nat)
  | noEntry
  | multipleEntries (labels : List Nat)
  deriving DecidableEq

def GraphError.message : GraphError → String
  | variableMismatch undeclared unused =>
    "variable mismatch: undeclared " ++ quotedList undeclared ++ ", declared but unused "
      ++ quotedList unused
  | ambiguousBranch label =>
    "node " ++ renderLabel label ++ " mixes a non-assume statement with other outgoing edges"
  | noEntry => "no entry node: every node has an incoming edge"
  | multipleEntries labels =>
    "multiple entry nodes: " ++ ", ".intercalate (labels.map renderLabel)

/-! ## Arcs at a node -/

/-- A label, with the positions of the arcs that lead to it and of those that leave it. -/
structure Node where
  label : Nat
  incoming : List Nat
  outgoing : List Nat
  deriving DecidableEq

/-- Whether several arcs leave a node and one of them is not an assumption. A position at which
there is no arc does not count; the lists of a graph have none. -/
def Node.isAmbiguous (arcs : List Arc) (n : Node) : Bool :=
  1 < n.outgoing.length && n.outgoing.any fun i => arcs[i]?.any fun a => !a.statement.isAssume

namespace Arc

/-- Enters an arc, given with its position, in the lists of the two nodes between which it runs. An
end that is no node is left out; the arcs of a program have none. -/
def enter (nodes : List Node) (q : Arc × Nat) : List Node :=
  (nodes.modify q.1.source fun n => { n with outgoing := n.outgoing ++ [q.2] }).modify q.1.target
    fun n => { n with incoming := n.incoming ++ [q.2] }

/-- The nodes of some labels, after all arcs have been entered one after the other. -/
def nodes (labels : List Nat) (arcs : List Arc) : List Node :=
  arcs.zipIdx.foldl enter (labels.map fun l => ⟨l, [], []⟩)

end Arc

namespace Graph

variable (g : Graph)

def size : Nat := g.labels.length

/-- The nodes with their lists of arcs. -/
def nodes : List Node := Arc.nodes g.labels g.arcs

/-- The positions of the arcs that lead to a node. -/
def incoming (node : Nat) : Except Fault (List Nat) := return (← entryAt g.nodes node).incoming

/-- The positions of the arcs that leave a node. -/
def outgoing (node : Nat) : Except Fault (List Nat) := return (← entryAt g.nodes node).outgoing

/-- The arcs at some positions. -/
def arcsAt (positions : List Nat) : Except Fault (List Arc) := positions.mapM (entryAt g.arcs)

/-- The nodes to which arcs lead from a node, one for each arc. -/
def successors (node : Nat) : Except Fault (List Nat) := do
  return (← g.arcsAt (← g.outgoing node)).map (·.target)

/-- The node with a label. -/
def find? (label : Nat) : Option Nat := g.labels.findIdx? (· = label)

end Graph

/-! ## The graph of a program -/

namespace Program

variable (p : Program)

/-- The variables that the statements mention. -/
def used : SortedSet String := .ofList (p.edges.flatMap fun e => e.statement.mentions)

def labels : SortedSet Nat := .ofList (p.edges.flatMap fun e => [e.source, e.target])

/-- The edges as arcs between the numbers of the labels. -/
def arcs : List Arc :=
  let labels := p.labels.toList
  p.edges.map fun e => ⟨labels.idxOf e.source, labels.idxOf e.target, e.statement⟩

/-- The nodes with their lists of arcs. -/
def nodes : List Node := Arc.nodes p.labels.toList p.arcs

/-- The graph of a program, or the first thing that is wrong with it. -/
def graph : Except GraphError Graph :=
  if p.used ≠ p.declared then
    .error (.variableMismatch (p.used.diff p.declared).toList (p.declared.diff p.used).toList)
  else
    match p.nodes.find? (Node.isAmbiguous p.arcs) with
    | some node => .error (.ambiguousBranch node.label)
    | none =>
      match p.nodes.zipIdx.filter fun q => q.1.incoming.isEmpty with
      | [] => .error .noEntry
      | [entry] => .ok ⟨p.declared.toList, p.labels.toList, p.arcs, entry.2⟩
      | several => .error (.multipleEntries (several.map (·.1.label)))

end Program

end FlowFacts
