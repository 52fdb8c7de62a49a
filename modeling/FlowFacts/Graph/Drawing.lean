import FlowFacts.Fault
import FlowFacts.Graph.Basic

/-!
Flow graphs as drawings in the DOT language. A node shows its label and, below it, what is known
there; an arc shows its statement. Inside the quotation marks of a label a backslash stands before
each quotation mark and each backslash.
-/

namespace FlowFacts

/-- The shapes of nodes and the styles of arcs. -/
structure Style where
  nodeShape : String := "box"
  entryShape : String := "doublecircle"
  arcStyle : String := "solid"
  assumeStyle : String := "dashed"
  assertStyle : String := "bold"

namespace Drawing

/-- A backslash before each character that is the given one. -/
def escapeEach (mark : Char) (text : List Char) : List Char :=
  text.flatMap fun c => if c = mark then ['\\', c] else [c]

/-- Backslashes are escaped first. Those that come with the quotation marks stay single. -/
def escape (text : String) : String :=
  String.ofList (escapeEach '"' (escapeEach '\\' text.toList))

/-- The style of an arc follows from its statement. -/
def arcStyle (style : Style) : Statement → String
  | .assume _ => style.assumeStyle
  | .assert _ => style.assertStyle
  | .skip | .assign _ _ => style.arcStyle

/-- The text of a node: its label and, on a line of its own, the state given for it. -/
def nodeText (label : Nat) (state : Option String) : String :=
  match state with
  | none => renderLabel label
  | some s => renderLabel label ++ "\\n" ++ escape s

def nodeLine (style : Style) (entry node : Nat) (text : String) : String :=
  let shape := if node = entry then "shape=" ++ style.entryShape ++ ", " else ""
  toString node ++ " [" ++ shape ++ "label=\"" ++ text ++ "\"];\n"

def arcLine (style : Style) (a : Arc) : String :=
  toString a.source ++ " -> " ++ toString a.target ++ " [style=" ++ arcStyle style a.statement
    ++ ", label=\"" ++ escape a.statement.render ++ "\"];\n"

end Drawing

/-- The drawing of a graph, with a state text for each node or with none. -/
def Graph.draw (g : Graph) (states : Option (List String)) (style : Style) :
    Except Fault String :=
  if states.any (·.length ≠ g.size) then .error .stateCount
  else
    let nodes := g.labels.zipIdx.map fun (label, node) =>
      Drawing.nodeLine style g.entry node
        (Drawing.nodeText label (states.bind fun texts => texts[node]?))
    .ok ("digraph \x7b\n" ++ "node [shape=" ++ style.nodeShape ++ "];\n" ++ String.join nodes
      ++ String.join (g.arcs.map (Drawing.arcLine style)) ++ "\x7d\n")

end FlowFacts
