import FlowFacts.Linear.Row

/-!
Matrices as lists of rows of one width. As a system of equations the last column holds the
constants: the row `a₀ … aₙ₋₁ k` reads `a₀ x₀ + … + aₙ₋₁ xₙ₋₁ + k = 0`.
-/

namespace FlowFacts

/-- Rows that all have the same number of columns. There may be no rows and there may be no
columns. -/
structure RowMatrix (R : Type) [Sized R] where
  columns : Nat
  rows : List R
  width : ∀ r ∈ rows, Sized.length r = columns
  deriving DecidableEq

namespace RowMatrix

section Sized

variable {R : Type} [Sized R]

/-- The matrix of some rows, if each has the width asked for. -/
def ofRows (columns : Nat) (rows : List R) : Except Fault (RowMatrix R) :=
  if h : ∀ r ∈ rows, Sized.length r = columns then .ok ⟨columns, rows, h⟩ else .error .rowWidth

def height (m : RowMatrix R) : Nat := m.rows.length

def isEmpty (m : RowMatrix R) : Bool := m.rows.isEmpty

def row (m : RowMatrix R) (i : Nat) : Except Fault R := entryAt m.rows i

def pushRow (m : RowMatrix R) (r : R) : Except Fault (RowMatrix R) :=
  if h : Sized.length r = m.columns then
    .ok ⟨m.columns, m.rows ++ [r], by
      intro s hs
      rcases List.mem_append.mp hs with hs | hs
      · exact m.width s hs
      · rw [List.mem_singleton.mp hs]; exact h⟩
  else .error .rowWidth

/-- The rows of one matrix above those of another. -/
def stack (a b : RowMatrix R) : Except Fault (RowMatrix R) :=
  if h : a.columns = b.columns then
    .ok ⟨a.columns, a.rows ++ b.rows, by
      intro r hr
      rcases List.mem_append.mp hr with hr | hr
      · exact a.width r hr
      · rw [h]; exact b.width r hr⟩
  else .error .stackWidth

theorem length_mem_set {m : RowMatrix R} {i : Nat} {x : R} (hx : Sized.length x = m.columns)
    {r : R} (hr : r ∈ m.rows.set i x) : Sized.length r = m.columns := by
  rcases List.mem_or_eq_of_mem_set hr with hr | rfl
  · exact m.width r hr
  · exact hx

/-- A row replaced by another of the same width. -/
def setRow (m : RowMatrix R) (i : Nat) (x : R) (hx : Sized.length x = m.columns) : RowMatrix R :=
  ⟨m.columns, m.rows.set i x, fun _ => length_mem_set hx⟩

/-- Two rows changing places. -/
def swapRows (m : RowMatrix R) (i j : Nat) : Except Fault (RowMatrix R) :=
  match hi : m.rows[i]?, hj : m.rows[j]? with
  | some a, some b =>
    have ha : Sized.length a = m.columns := m.width a (List.mem_of_getElem? hi)
    have hb : Sized.length b = m.columns := m.width b (List.mem_of_getElem? hj)
    .ok ((m.setRow i b hb).setRow j a ha)
  | _, _ => .error .outOfBounds

end Sized

section Row

variable {S R : Type} [Row S R]

/-- One row multiplied by a number. -/
def scaleRow (m : RowMatrix R) (i : Nat) (k : S) : Except Fault (RowMatrix R) :=
  match h : m.rows[i]? with
  | some r =>
    .ok (m.setRow i (Row.scale k r)
      (by rw [Row.length_scale]; exact m.width r (List.mem_of_getElem? h)))
  | none => .error .outOfBounds

/-- A multiple of one row added to another. Adding nothing, or a row to itself, leaves the matrix
as it is, whatever the positions. -/
def addScaledRow [Zero S] [DecidableEq S] (m : RowMatrix R) (source target : Nat) (k : S) :
    Except Fault (RowMatrix R) :=
  if k = 0 ∨ source = target then .ok m
  else
    match m.rows[source]?, hr : m.rows[target]? with
    | some p, some r =>
      match h : Row.plus r k p with
      | .ok q => .ok (m.setRow target q
          (by rw [Row.length_plus h]; exact m.width r (List.mem_of_getElem? hr)))
      | .error e => .error e
    | _, _ => .error .outOfBounds

/-- The matrix without its last column: a system without its constants. -/
def dropLastColumn (m : RowMatrix R) : Except Fault (RowMatrix R) :=
  if m.columns = 0 then .error .noColumns
  else do ofRows (m.columns - 1) (← m.rows.mapM (Row.init (m.columns - 1)))

/-- The position of the first coefficient of each row. -/
def leads (m : RowMatrix R) : List (Option Nat) := m.rows.map Row.lead

end Row

end RowMatrix

end FlowFacts
