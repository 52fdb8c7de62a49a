import Mathlib
import FlowFacts.Fraction

/-!
# Fractions are rational numbers

`Fraction.toRat` reads a fraction as a rational number. Lowest terms make it injective, and it turns
the operations on fractions into those of the field `ℚ`, so what is known of `ℚ` can be used for
matrices of fractions.
-/

namespace FlowFacts

namespace Fraction

/-- The rational number that a fraction writes down. -/
def toRat (a : Fraction) : ℚ := ⟨a.numer, a.denom, a.denom_pos.ne', a.coprime⟩

theorem toRat_injective : Function.Injective toRat := by
  intro a b h
  cases a; cases b
  simp only [toRat, Rat.mk'.injEq] at h
  obtain ⟨rfl, rfl⟩ := h
  rfl

theorem toRat_eq_div (a : Fraction) : a.toRat = a.numer / a.denom := (Rat.num_div_den a.toRat).symm

theorem toRat_reduced (n : Int) (d : Nat) (h : 0 < d) : (reduced n d h).toRat = n / d := by
  have hg : ((n.natAbs.gcd d : Nat) : ℚ) ≠ 0 :=
    Nat.cast_ne_zero.mpr (Nat.gcd_pos_of_pos_right _ h).ne'
  have hn : ((n.natAbs.gcd d : Nat) : Int) ∣ n := Int.ofNat_dvd_left.mpr (Nat.gcd_dvd_left _ _)
  rw [toRat_eq_div]
  simp only [reduced]
  rw [Int.cast_div hn (by exact_mod_cast hg), Nat.cast_div (Nat.gcd_dvd_right _ _) hg,
    Int.cast_natCast, div_div_div_cancel_right₀ hg]

@[simp] theorem toRat_ofInt (n : Int) : (ofInt n).toRat = n := by
  rw [toRat_eq_div]; simp [ofInt]

@[simp] theorem toRat_zero : toRat 0 = 0 := by
  rw [show (0 : Fraction) = ofInt 0 from rfl, toRat_ofInt, Int.cast_zero]

@[simp] theorem toRat_one : toRat 1 = 1 := by
  rw [show (1 : Fraction) = ofInt 1 from rfl, toRat_ofInt, Int.cast_one]

theorem denom_ne_zero (a : Fraction) : (a.denom : ℚ) ≠ 0 := Nat.cast_ne_zero.mpr a.denom_pos.ne'

@[simp] theorem toRat_add (a b : Fraction) : (a + b).toRat = a.toRat + b.toRat := by
  have ha := a.denom_ne_zero
  have hb := b.denom_ne_zero
  rw [show a + b = add a b from rfl, add, toRat_eq_div a, toRat_eq_div b]
  split
  · next h => rw [toRat_reduced, h, Int.cast_add, add_div]
  · rw [toRat_reduced]
    push_cast
    field_simp

@[simp] theorem toRat_neg (a : Fraction) : (-a).toRat = -a.toRat := by
  rw [show -a = neg a from rfl, toRat_eq_div, toRat_eq_div a, neg]
  push_cast
  ring

@[simp] theorem toRat_sub (a b : Fraction) : (a - b).toRat = a.toRat - b.toRat := by
  have ha := a.denom_ne_zero
  have hb := b.denom_ne_zero
  rw [show a - b = sub a b from rfl, sub, toRat_eq_div a, toRat_eq_div b]
  split
  · next h => rw [toRat_reduced, h, Int.cast_sub, sub_div]
  · rw [toRat_reduced]
    push_cast
    field_simp

@[simp] theorem toRat_mul (a b : Fraction) : (a * b).toRat = a.toRat * b.toRat := by
  rw [show a * b = mul a b from rfl, mul, toRat_reduced, toRat_eq_div a, toRat_eq_div b,
    div_mul_div_comm]
  push_cast
  rfl

theorem toRat_ratio (n d : Int) (h : d ≠ 0) : (ratio n d h).toRat = n / d := by
  -- The sign of the denominator has moved to the numerator.
  have habs : ((d.natAbs : Nat) : ℚ) = d.sign * d := by
    rw [← Int.cast_natCast, ← Int.cast_mul, Int.sign_mul_self_eq_natAbs]
  have hsign : (d.sign : ℚ) ≠ 0 := Int.cast_ne_zero.2 (Int.sign_eq_zero_iff_zero.not.2 h)
  rw [ratio, toRat_reduced, habs, Int.cast_mul, mul_comm (n : ℚ), mul_div_mul_left _ _ hsign]

theorem toRat_eq_zero {a : Fraction} : a.toRat = 0 ↔ a = 0 := by
  rw [← toRat_zero]; exact toRat_injective.eq_iff

theorem numer_eq_zero {a : Fraction} : a.numer = 0 ↔ a.toRat = 0 := by
  rw [toRat_eq_div, div_eq_zero_iff, or_iff_left a.denom_ne_zero, Int.cast_eq_zero]

/-- A number other than zero can be divided by. -/
theorem quotient_of_ne (a : Fraction) {b : Fraction} (h : b ≠ 0) :
    ∃ c, a.quotient b = .ok c ∧ c.toRat = a.toRat / b.toRat := by
  refine ⟨_, dif_neg (mt numer_eq_zero.1 (mt toRat_eq_zero.1 h)), ?_⟩
  rw [toRat_ratio, toRat_eq_div a, toRat_eq_div b, div_div_div_eq]
  push_cast
  rfl

theorem reciprocal_of_ne {a : Fraction} (h : a ≠ 0) : ∃ b, a.reciprocal = .ok b ∧ b.toRat = a.toRat⁻¹ := by
  refine ⟨_, dif_neg (mt numer_eq_zero.1 (mt toRat_eq_zero.1 h)), ?_⟩
  rw [toRat_ratio, toRat_eq_div a, inv_div]
  push_cast
  rfl

@[simp] theorem toRat_half : half.toRat = 1 / 2 := by
  rw [half, toRat_reduced]; norm_num

/-- The dot product of fractions is the dot product of rational numbers. -/
theorem toRat_dot (a b : List Fraction) :
    (dot a b).toRat = (List.zipWith (fun x y => x.toRat * y.toRat) a b).sum := by
  have fold (xs : List Fraction) (acc : Fraction) :
      (xs.foldl (· + ·) acc).toRat = acc.toRat + (xs.map toRat).sum := by
    induction xs generalizing acc with
    | nil => simp
    | cons x xs ih => rw [List.foldl_cons, ih, toRat_add, List.map_cons, List.sum_cons, add_assoc]
  rw [dot, fold, toRat_zero, zero_add, List.map_zipWith]
  simp only [toRat_mul]

end Fraction

end FlowFacts
