import Mathlib
import FlowFacts.Proofs.Rationals

/-!
# Arithmetic on fractions is arithmetic on rational numbers

A `Fraction.Term` is a calculation with fractions: it starts from ratios and integers and goes on with the four operations,
reciprocals and negatives, in any order and to any depth. `Fraction.Term.compute` carries it out on fractions, and
`Fraction.Term.value` says what it comes to in `ℚ`. The two agree on every term, on the ones that divide by zero as well
(`Fraction.Term.map_compute`), because each operation on fractions is the rational one.

The order of fractions compares cross products. Denominators are positive, so this is the order of `ℚ`
(`Fraction.compare_eq`).
-/

namespace FlowFacts

namespace Fraction

/-! ## Operations that can fail -/

theorem map_ofRatio (n d : Int) :
    toRat <$> ofRatio n d = if d = 0 then .error .zeroDenominator else .ok ((n : ℚ) / d) := by
  unfold ofRatio
  split
  · rfl
  · next h => exact congrArg Except.ok (toRat_ratio n d h)

theorem map_reciprocal (a : Fraction) :
    toRat <$> a.reciprocal = if a.toRat = 0 then .error .zeroDivisor else .ok a.toRat⁻¹ := by
  by_cases h : a.toRat = 0
  · rw [if_pos h, reciprocal, dif_pos (numer_eq_zero.2 h)]
    rfl
  · obtain ⟨b, hb, hval⟩ := reciprocal_of_ne (mt toRat_eq_zero.2 h)
    rw [if_neg h, hb, ← hval]
    rfl

theorem map_quotient (a b : Fraction) :
    toRat <$> quotient a b = if b.toRat = 0 then .error .zeroDivisor else .ok (a.toRat / b.toRat) := by
  by_cases h : b.toRat = 0
  · rw [if_pos h, quotient, dif_pos (numer_eq_zero.2 h)]
    rfl
  · obtain ⟨c, hc, hval⟩ := quotient_of_ne a (mt toRat_eq_zero.2 h)
    rw [if_neg h, hc, ← hval]
    rfl

/-! ## The order -/

/-- Cross products compare like the fractions: they are the fractions, times both denominators. -/
theorem compare_eq (a b : Fraction) : compare a b = compare a.toRat b.toRat := by
  have hpos : (0 : ℚ) < a.denom * b.denom :=
    mul_pos (Nat.cast_pos.2 a.denom_pos) (Nat.cast_pos.2 b.denom_pos)
  have hleft : ((a.numer * b.denom : Int) : ℚ) = a.toRat * (a.denom * b.denom) := by
    rw [toRat_eq_div, ← mul_assoc, div_mul_cancel₀ _ a.denom_ne_zero]
    push_cast
    rfl
  have hright : ((b.numer * a.denom : Int) : ℚ) = b.toRat * (a.denom * b.denom) := by
    rw [toRat_eq_div, mul_comm (a.denom : ℚ), ← mul_assoc, div_mul_cancel₀ _ b.denom_ne_zero]
    push_cast
    rfl
  show compare (a.numer * b.denom) (b.numer * a.denom) = _
  rw [← cmp_eq_compare, ← cmp_eq_compare, ← Int.cast_strictMono (R := ℚ).cmp_map_eq, hleft, hright,
    cmp_mul_pos_right hpos]

/-! ## Terms -/

/-- Calculations with fractions. -/
inductive Term where
  | ratio (n d : Int)
  | integer (n : Int)
  | add (s t : Term)
  | sub (s t : Term)
  | mul (s t : Term)
  | div (s t : Term)
  | recip (t : Term)
  | neg (t : Term)

namespace Term

/-- The fraction that a calculation ends with, or why it stops. -/
def compute : Term → Except Fault Fraction
  | ratio n d => ofRatio n d
  | integer n => .ok (ofInt n)
  | add s t => do return (← s.compute) + (← t.compute)
  | sub s t => do return (← s.compute) - (← t.compute)
  | mul s t => do return (← s.compute) * (← t.compute)
  | div s t => do quotient (← s.compute) (← t.compute)
  | recip t => do reciprocal (← t.compute)
  | neg t => do return -(← t.compute)

/-- The rational number that a calculation comes to. It comes to none if a ratio is over zero or something is divided
by zero. -/
def value : Term → Except Fault ℚ
  | ratio n d => if d = 0 then .error .zeroDenominator else .ok (n / d)
  | integer n => .ok n
  | add s t => do return (← s.value) + (← t.value)
  | sub s t => do return (← s.value) - (← t.value)
  | mul s t => do return (← s.value) * (← t.value)
  | div s t => do
    let x ← s.value
    let y ← t.value
    if y = 0 then .error .zeroDivisor else .ok (x / y)
  | recip t => do
    let x ← t.value
    if x = 0 then .error .zeroDivisor else .ok x⁻¹
  | neg t => do return -(← t.value)

/-- The operations commute with reading fractions as numbers, and so do calculations. -/
theorem map_compute (t : Term) : toRat <$> t.compute = t.value := by
  induction t with
  | ratio n d => exact map_ofRatio n d
  | integer n => exact congrArg Except.ok (toRat_ofInt n)
  | add s t ihs iht => simp only [compute, value, ← ihs, ← iht, map_bind, bind_map_left, map_pure, toRat_add]
  | sub s t ihs iht => simp only [compute, value, ← ihs, ← iht, map_bind, bind_map_left, map_pure, toRat_sub]
  | mul s t ihs iht => simp only [compute, value, ← ihs, ← iht, map_bind, bind_map_left, map_pure, toRat_mul]
  | div s t ihs iht => simp only [compute, value, ← ihs, ← iht, map_bind, bind_map_left, map_quotient]
  | recip t ih => simp only [compute, value, ← ih, map_bind, bind_map_left, map_reciprocal]
  | neg t ih => simp only [compute, value, ← ih, map_bind, bind_map_left, map_pure, toRat_neg]

/-- A calculation with fractions comes to the rational number that it should, and stops exactly where that number is not
defined. It ends in lowest terms over a positive denominator, so that two results are the same fraction exactly if they
are the same number, and they are ordered as numbers. -/
theorem compute_exact (s t : Term) :
    s.compute.map (fun a => (a.numer : ℚ) / a.denom) = s.value ∧
      ∀ a, s.compute = .ok a → 0 < a.denom ∧ a.numer.natAbs.Coprime a.denom ∧
        ∀ b, t.compute = .ok b →
          (a = b ↔ (a.numer : ℚ) / a.denom = b.numer / b.denom) ∧
          compare a b = compare ((a.numer : ℚ) / a.denom) (b.numer / b.denom) := by
  simp only [← toRat_eq_div]
  refine ⟨map_compute s, fun a _ => ⟨a.denom_pos, a.coprime, fun b _ => ⟨?_, compare_eq a b⟩⟩⟩
  exact toRat_injective.eq_iff.symm

/-- One over minus two, and four sixths more. -/
def pastHalf : Term := add (ratio 1 (-2)) (ratio 4 6)

/-- One over the sum of three and three. -/
def overSix : Term := recip (add (integer 3) (integer 3))

/-- Both calculations end with one sixth, and a division by six halves less three is refused. -/
theorem compute_exact_sixth :
    (∃ a b, pastHalf.compute = .ok a ∧ overSix.compute = .ok b ∧ a = b ∧ (a.numer : ℚ) / a.denom = 1 / 6) ∧
      (div pastHalf (sub (ratio 6 2) (integer 3))).compute = .error .zeroDivisor := by
  have hpast : pastHalf.compute = .ok (reduced 1 6 (by decide)) := rfl
  have hover : overSix.compute = .ok (reduced 1 6 (by decide)) := rfl
  have hpair := ((compute_exact pastHalf overSix).2 _ hpast).2.2 _ hover
  refine ⟨⟨_, _, hpast, hover, hpair.1.2 rfl, ?_⟩, rfl⟩
  rw [← toRat_eq_div, toRat_reduced]
  norm_num

end Term

end Fraction

end FlowFacts
