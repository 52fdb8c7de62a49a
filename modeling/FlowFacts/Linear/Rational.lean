import FlowFacts.Fraction
import FlowFacts.Linear.Solution

/-!
Matrices of fractions: linear systems over the rationals, the equations of a span, and rows scaled
to whole numbers.
-/

namespace FlowFacts

instance : Scalar Fraction where
  reciprocal := Fraction.reciprocal

namespace Fraction

/-- `r + k * p`. Most entries of a row are zero, and those of `p` take no arithmetic. Entries of `r`
beyond the end of `p` stay as they are. -/
def addScaled : List Fraction → Fraction → List Fraction → List Fraction
  | x :: r, k, y :: p => (if y = 0 then x else x + y * k) :: addScaled r k p
  | r, _, [] => r
  | [], _, _ => []

theorem length_addScaled (r : List Fraction) (k : Fraction) (p : List Fraction) :
    (addScaled r k p).length = r.length := by
  fun_induction addScaled r k p <;> simp_all

instance : Row Fraction (List Fraction) where
  length := List.length
  zeros n := List.replicate n 0
  get := entryAt
  put := setEntry
  scale k r := r.map (· * k)
  plus r k p := .ok (addScaled r k p)
  init n r := if n ≤ r.length then .ok (r.take n) else .error .outOfBounds
  lead r := r.findIdx? (· ≠ 0)
  length_scale := by simp
  length_plus := by
    rintro r k p _ ⟨⟩
    exact length_addScaled r k p

/-- A row multiplied by the least common denominator of its entries and divided by the greatest
common divisor of what results. A row of zeros stays as it is. -/
def integerRow (r : List Fraction) : List Int :=
  let l := r.foldl (fun acc x => acc.lcm x.denom) 1
  let scaled : List Int := r.map fun x => x.numer * ((l / x.denom : Nat) : Int)
  let g := scaled.foldl (fun acc x => acc.gcd x.natAbs) 0
  if g = 0 then scaled else scaled.map (· / (g : Int))

end Fraction

/-- A matrix of fractions. -/
abbrev RationalMatrix := RowMatrix (List Fraction)

namespace RationalMatrix

/-- The entry of a row and a column. -/
def entry (m : RationalMatrix) (i j : Nat) : Except Fault Fraction := do
  entryAt (← m.row i) j

/-- Ones on the diagonal. -/
def identity (size : Nat) : Except Fault RationalMatrix := do
  RowMatrix.ofRows size (← (List.range size).mapM (Fraction.unitVector size))

/-- Adds to each row of a homogeneous system the constant that makes it pass through a point. -/
def withOffset (m : RationalMatrix) (point : List Fraction) : Except Fault RationalMatrix :=
  if point.length = m.columns then
    .ok ⟨m.columns + 1, m.rows.map fun r => r ++ [-Fraction.dot r point], by
      intro r hr
      obtain ⟨s, hs, rfl⟩ := List.mem_map.mp hr
      have h : s.length = m.columns := m.width s hs
      show (s ++ _).length = _
      simp [h]⟩
  else .error .pointDimension

def mulVector (m : RationalMatrix) (v : List Fraction) : Except Fault (List Fraction) :=
  if v.length = m.columns then .ok (m.rows.map fun r => Fraction.dot r v)
  else .error .vectorDimension

def integerRows (m : RationalMatrix) : List (List Int) := m.rows.map Fraction.integerRow

/-- Equations without constants whose solutions are the combinations of some vectors. -/
def spanEquations (columns : Nat) (directions : List (List Fraction)) :
    Except Fault RationalMatrix := do
  let basis ← (← RowMatrix.ofRows columns directions).rrefMinimal
  if basis.isEmpty then identity columns
  else (← RowMatrix.ofRows columns (← basis.kernel)).rrefMinimal

/-! ## Text -/

/-- A text moved to the right end of a field. -/
def padLeft (width : Nat) (text : String) : String :=
  "".pushn ' ' (width - text.length) ++ text

/-- One bracketed line for each row, the entries of a column right-aligned. -/
def render (m : RationalMatrix) : String :=
  let cells := m.rows.map (·.map Fraction.render)
  let widths := cells.foldl (fun acc row => acc.zipWith (fun w cell => max w cell.length) row)
    (List.replicate m.columns 0)
  let line (row : List String) :=
    "[" ++ String.join (widths.zipWith (fun w cell => " " ++ padLeft w cell) row) ++ " ]"
  "\n".intercalate (cells.map line)

end RationalMatrix

end FlowFacts
