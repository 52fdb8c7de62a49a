import FlowFacts.Fault

/-!
Exact fractions. A `Fraction` is kept in lowest terms over a positive denominator, so two fractions
are the same value exactly when they are the same number, and systems of equations over them have
one written form.

Sums, differences and products are total. `Fraction.quotient` and `Fraction.reciprocal` refuse a
zero divisor. What is divided otherwise is divided by a common divisor of numbers that are not all
zero.
-/

namespace FlowFacts

/-- A number `numer / denom` in lowest terms. -/
structure Fraction where
  numer : Int
  denom : Nat
  denom_pos : 0 < denom
  coprime : numer.natAbs.Coprime denom
  deriving DecidableEq

namespace Fraction

/-- The number `n / d`, brought to lowest terms. -/
def reduced (n : Int) (d : Nat) (h : 0 < d) : Fraction where
  numer := n / (n.natAbs.gcd d : Nat)
  denom := d / n.natAbs.gcd d
  denom_pos := Nat.div_pos (Nat.le_of_dvd h (Nat.gcd_dvd_right _ _)) (Nat.gcd_pos_of_pos_right _ h)
  coprime := by
    rw [Int.natAbs_ediv_of_dvd (Int.ofNat_dvd_left.mpr (Nat.gcd_dvd_left _ _)), Int.natAbs_natCast]
    exact Nat.coprime_div_gcd_div_gcd (Nat.gcd_pos_of_pos_right _ h)

/-- An integer, over one. -/
def ofInt (n : Int) : Fraction where
  numer := n
  denom := 1
  denom_pos := Nat.one_pos
  coprime := Nat.coprime_one_right _

/-- The number `n / d` for two integers of which the second is not zero. -/
def ratio (n d : Int) (h : d ≠ 0) : Fraction :=
  reduced (n * d.sign) d.natAbs (Int.natAbs_pos.mpr h)

/-- The number `n / d` for any two integers, unless `d` is zero. -/
def ofRatio (n d : Int) : Except Fault Fraction :=
  if h : d = 0 then .error .zeroDenominator else .ok (ratio n d h)

instance : Zero Fraction := ⟨ofInt 0⟩

instance : One Fraction := ⟨ofInt 1⟩

/-- The sum of two numbers, over their denominator if they have the same one. -/
def add (a b : Fraction) : Fraction :=
  if a.denom = b.denom then reduced (a.numer + b.numer) a.denom a.denom_pos
  else
    reduced (a.numer * b.denom + b.numer * a.denom) (a.denom * b.denom)
      (Nat.mul_pos a.denom_pos b.denom_pos)

def neg (a : Fraction) : Fraction where
  numer := -a.numer
  denom := a.denom
  denom_pos := a.denom_pos
  coprime := by rw [Int.natAbs_neg]; exact a.coprime

/-- The difference of two numbers, over their denominator if they have the same one. -/
def sub (a b : Fraction) : Fraction :=
  if a.denom = b.denom then reduced (a.numer - b.numer) a.denom a.denom_pos
  else
    reduced (a.numer * b.denom - b.numer * a.denom) (a.denom * b.denom)
      (Nat.mul_pos a.denom_pos b.denom_pos)

def mul (a b : Fraction) : Fraction :=
  reduced (a.numer * b.numer) (a.denom * b.denom) (Nat.mul_pos a.denom_pos b.denom_pos)

instance : Add Fraction := ⟨add⟩

instance : Neg Fraction := ⟨neg⟩

instance : Sub Fraction := ⟨sub⟩

instance : Mul Fraction := ⟨mul⟩

/-- One over a number that is not zero. -/
def reciprocal (a : Fraction) : Except Fault Fraction :=
  if h : a.numer = 0 then .error .zeroDivisor else .ok (ratio a.denom a.numer h)

/-- A number divided by one that is not zero. -/
def quotient (a b : Fraction) : Except Fault Fraction :=
  if h : b.numer = 0 then .error .zeroDivisor
  else .ok (ratio (a.numer * b.denom) (a.denom * b.numer)
    (Int.mul_ne_zero (Int.natCast_ne_zero.mpr (Nat.ne_of_gt a.denom_pos)) h))

/-- Fractions are ordered as numbers. -/
instance : Ord Fraction where
  compare a b := compare (a.numer * b.denom) (b.numer * a.denom)

def isInteger (a : Fraction) : Bool := a.denom == 1

/-- Halfway between zero and one. -/
def half : Fraction := reduced 1 2 Nat.two_pos

/-- An integer is written alone, any other number as `n/d`. -/
def render (a : Fraction) : String :=
  if a.isInteger then toString a.numer else s!"{a.numer}/{a.denom}"

/-! ## Lists as vectors

Where two vectors of different lengths meet, the longer one counts only as far as the shorter one
goes. -/

def dot (a b : List Fraction) : Fraction := (List.zipWith (· * ·) a b).foldl (· + ·) 0

def difference (a b : List Fraction) : List Fraction := List.zipWith (· - ·) a b

/-- The point halfway between two points. -/
def midpoint (a b : List Fraction) : List Fraction := List.zipWith (fun x y => (x + y) * half) a b

/-- A one at a given position among zeros. -/
def unitVector (size index : Nat) : Except Fault (List Fraction) :=
  setEntry (List.replicate size 0) index 1

end Fraction

end FlowFacts
