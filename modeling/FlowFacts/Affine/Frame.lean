import FlowFacts.Affine.Relations
import FlowFacts.Program.Statement

/-!
Frames. A `Frame` gives each variable of a program a column, so that equations between variables
become rows. The constants stand in one more column at the end.
-/

namespace FlowFacts

/-- Which equations are kept: all of them, or those without constants only. -/
inductive Encoding where
  | affine
  | homogeneous
  deriving DecidableEq, Repr

def Encoding.name : Encoding → String
  | affine => "affine"
  | homogeneous => "homogeneous"

/-- The variables in the order of their columns, and which equations between them are kept. -/
structure Frame where
  names : List String
  encoding : Encoding

namespace Frame

/-- The last position of a name. -/
def lastIndex? (name : String) : List String → Option Nat
  | [] => none
  | v :: rest =>
    match lastIndex? name rest with
    | some i => some (i + 1)
    | none => if v = name then some 0 else none

/-- The column of a variable. A name that was given two columns has the later one. -/
def column (f : Frame) (name : String) : Except Fault Nat :=
  match lastIndex? name f.names with
  | some i => .ok i
  | none => .error (.undeclared name)

/-- The width of a row: one column for each variable, and one for the constant. -/
def width (f : Frame) : Nat := f.names.length + 1

/-- A row that says nothing. -/
def blankRow (f : Frame) : List Fraction := List.replicate f.width 0

/-- What a single row says. -/
def single (f : Frame) (row : List Fraction) : Except Fault Relations := do
  Relations.ofEquations (← RowMatrix.ofRows f.width [row])

/-- The equation `x = value`, if there is one and the frame keeps it. A variable is not equated with
itself. -/
def valueEquation (f : Frame) (x : String) (value : Value) : Except Fault (Option Relations) := do
  let row ← setEntry f.blankRow (← f.column x) 1
  match value with
  | .unknown => return none
  | .const k =>
    if f.encoding = .homogeneous ∧ k ≠ 0 then return none
    else return some (← f.single (← setEntry row f.names.length (Fraction.ofInt (-k))))
  | .var u | .plus u _ | .minus u _ =>
    if u = x ∨ (f.encoding = .homogeneous ∧ value.offset ≠ 0) then return none
    else
      let row ← setEntry row (← f.column u) (-1)
      return some (← f.single (← setEntry row f.names.length (Fraction.ofInt (-value.offset))))

/-- A number added to the coefficient of a variable. -/
def addTo (f : Frame) (k : Fraction) (row : List Fraction) (x : String) :
    Except Fault (List Fraction) := do
  let c ← f.column x
  setEntry row c ((← entryAt row c) + k)

/-- The equation that says that the variables on the left and on the right have the same sum. -/
def sumEquation (f : Frame) (left right : List String) : Except Fault Relations := do
  let row ← left.foldlM (f.addTo 1) f.blankRow
  f.single (← right.foldlM (f.addTo (-1)) row)

/-! ## Text -/

/-- Adds a term to a sum. The first term has its sign in front, later ones between blanks, and a
coefficient of one is left out. -/
def addTerm (text : String) (name : String) (coefficient : Fraction) : String :=
  let negative := coefficient.numer < 0
  let magnitude := if negative then -coefficient else coefficient
  let sign :=
    if text.isEmpty then if negative then "-" else ""
    else if negative then " - " else " + "
  let factor := if magnitude = 1 then "" else magnitude.render
  text ++ sign ++ factor ++ name

/-- A row as an equation, its constant on the right. -/
def renderRow (f : Frame) (row : List Fraction) : Except Fault String := do
  let terms := (f.names.zip row).filter fun (_, c) => c ≠ 0
  let text := terms.foldl (fun text (name, c) => addTerm text name c) ""
  let constant ← entryAt row f.names.length
  return text ++ " = " ++ (-constant).render

/-- The equations of a state in terms of the variables. -/
def render (f : Frame) : Relations → Except Fault String
  | .bottom => .ok "⊥"
  | .top => .ok "⊤"
  | .system m => return " ∧ ".intercalate (← m.rows.mapM f.renderRow)

end Frame

end FlowFacts
