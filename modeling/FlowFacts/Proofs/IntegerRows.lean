import Mathlib
import FlowFacts.Proofs.RowVectors

/-!
# Rows scaled to integers

`Fraction.integerRow` multiplies a row by the least common denominator of its entries and divides by the greatest common
divisor of what results. Both numbers are folds over the row. The first is a multiple of every denominator, and the
divisors of the second are the common divisors of the entries, so neither division has a remainder
(`Fraction.integerRow_cases`). The integers are then the fractions times one positive number (`Fraction.integerRow_spec`)
and have no common factor (`Fraction.isUnit_of_dvd_integerRow`).

`RationalMatrix.integerRows_primitive` says this of every row of a matrix, and what comes of it: integers satisfy the
scaled row exactly if they satisfy the row, and a row that is not zero is not zero modulo two either.
-/

namespace FlowFacts

/-! ## A common denominator, and a common divisor -/

namespace Fraction

theorem foldl_lcm_pos (r : List Fraction) {acc : Nat} (h : 0 < acc) :
    0 < r.foldl (fun acc x => acc.lcm x.denom) acc := by
  induction r generalizing acc with
  | nil => exact h
  | cons y rest ih => exact ih (Nat.lcm_pos h y.denom_pos)

theorem dvd_foldl_lcm (r : List Fraction) (acc : Nat) :
    acc ∣ r.foldl (fun acc x => acc.lcm x.denom) acc ∧
      ∀ x ∈ r, x.denom ∣ r.foldl (fun acc x => acc.lcm x.denom) acc := by
  induction r generalizing acc with
  | nil => exact ⟨dvd_rfl, nofun⟩
  | cons y rest ih =>
    obtain ⟨hacc, hall⟩ := ih (acc.lcm y.denom)
    refine ⟨(Nat.dvd_lcm_left _ _).trans hacc, fun x hx => ?_⟩
    rcases List.mem_cons.1 hx with rfl | hx
    · exact (Nat.dvd_lcm_right _ _).trans hacc
    · exact hall x hx

theorem foldl_gcd_nonneg (xs : List Int) {acc : Int} (h : 0 ≤ acc) :
    0 ≤ xs.foldl (fun acc x => ((acc.gcd x.natAbs : Nat) : Int)) acc := by
  induction xs generalizing acc with
  | nil => exact h
  | cons y rest ih => exact ih (Int.natCast_nonneg _)

theorem dvd_foldl_gcd {xs : List Int} {acc d : Int} :
    d ∣ xs.foldl (fun acc x => ((acc.gcd x.natAbs : Nat) : Int)) acc ↔ d ∣ acc ∧ ∀ x ∈ xs, d ∣ x := by
  induction xs generalizing acc with
  | nil => simp
  | cons y rest ih => rw [List.foldl_cons, ih, Int.dvd_coe_gcd_iff, Int.dvd_natAbs, List.forall_mem_cons, and_assoc]

/-- A row is multiplied by a common denominator, and what results is divided by its greatest common divisor unless
it is zero. -/
theorem integerRow_cases (r : List Fraction) : ∃ (l : Nat) (scaled : List Int) (g : Int), 0 < l ∧ 0 ≤ g ∧
    (∀ i, (scaled.getD i 0 : ℚ) = l * (r.getD i 0).toRat) ∧ (∀ d, d ∣ g ↔ ∀ n ∈ scaled, d ∣ n) ∧
    integerRow r = if g = 0 then scaled else scaled.map (· / g) := by
  refine ⟨r.foldl (fun acc x => acc.lcm x.denom) 1, _, _, foldl_lcm_pos r one_pos, foldl_gcd_nonneg _ le_rfl, fun i => ?_,
    fun d => ?_, rfl⟩
  · rw [List.getD_eq_getElem?_getD, List.getD_eq_getElem?_getD, List.getElem?_map]
    cases hi : r[i]? with
    | none => simp
    | some x =>
      have hdvd := (dvd_foldl_lcm r 1).2 x (List.mem_of_getElem? hi)
      simp only [Option.map_some, Option.getD_some, toRat_eq_div]
      rw [Int.cast_mul, Int.cast_natCast, Nat.cast_div hdvd (denom_ne_zero x)]
      ring
  · rw [dvd_foldl_gcd, and_iff_right (dvd_zero d)]

/-- The integers of a row are its fractions times one positive number. -/
theorem integerRow_spec (r : List Fraction) :
    ∃ c : ℚ, 0 < c ∧ ∀ i, ((integerRow r).getD i 0 : ℚ) = c * (r.getD i 0).toRat := by
  obtain ⟨l, scaled, g, hl, hg, hscaled, hdvd, hrow⟩ := integerRow_cases r
  rw [hrow]
  by_cases hzero : g = 0
  · refine ⟨l, by exact_mod_cast hl, fun i => ?_⟩
    rw [if_pos hzero, hscaled]
  · have hpos : 0 < g := by omega
    refine ⟨l / g, by positivity, fun i => ?_⟩
    have hentry : g ∣ scaled.getD i 0 := by
      rw [List.getD_eq_getElem?_getD]
      cases hi : scaled[i]? with
      | none => exact dvd_zero _
      | some x => exact (hdvd g).1 dvd_rfl x (List.mem_of_getElem? hi)
    have hdiv : (scaled.map (· / g)).getD i 0 = scaled.getD i 0 / g := by
      rw [List.getD_eq_getElem?_getD, List.getD_eq_getElem?_getD, List.getElem?_map]
      cases scaled[i]? <;> simp
    rw [if_neg hzero, hdiv, Int.cast_div hentry (by exact_mod_cast hzero), hscaled]
    ring

/-- The integers of a row that is not zero have no common divisor but units. -/
theorem isUnit_of_dvd_integerRow {r : List Fraction} {i : Nat} (hi : r.getD i 0 ≠ 0) {d : Int}
    (hd : ∀ n ∈ integerRow r, d ∣ n) : IsUnit d := by
  obtain ⟨l, scaled, g, hl, hg, hscaled, hdvd, hrow⟩ := integerRow_cases r
  have hzero : g ≠ 0 := by
    rintro rfl
    have hentry : scaled.getD i 0 = 0 := by
      rw [List.getD_eq_getElem?_getD]
      cases hn : scaled[i]? with
      | none => rfl
      | some n => exact zero_dvd_iff.1 ((hdvd 0).1 dvd_rfl n (List.mem_of_getElem? hn))
    have hprod := hscaled i
    rw [hentry, Int.cast_zero, eq_comm, mul_eq_zero, toRat_eq_zero] at hprod
    exact hprod.elim (fun h => hl.ne' (by exact_mod_cast h)) hi
  rw [hrow, if_neg hzero] at hd
  have hmul : d * g ∣ g := by
    refine (hdvd _).2 fun n hn => ?_
    obtain ⟨k, hk⟩ := hd _ (List.mem_map_of_mem hn)
    refine ⟨k, ?_⟩
    rw [mul_right_comm, ← hk, Int.ediv_mul_cancel ((hdvd g).1 dvd_rfl n hn)]
  obtain ⟨k, hk⟩ := hmul
  refine IsUnit.of_mul_eq_one k (mul_right_cancel₀ hzero ?_)
  rw [one_mul, mul_right_comm]
  exact hk.symm

theorem length_integerRow (r : List Fraction) : (integerRow r).length = r.length := by
  unfold integerRow
  dsimp only
  split <;> simp

end Fraction

/-! ## Integers without a common factor -/

/-- Integers without a common factor that are the fractions of a row times one number. -/
structure Primitive {n : Nat} (row : List Fraction) (z : Fin n → ℤ) : Prop where
  multiple : ∃ c : ℚ, ∀ i, (z i : ℚ) = c * (row.getD i 0).toRat
  coprime : ∀ d : ℤ, (∀ i, d ∣ z i) → IsUnit d

namespace Primitive

variable {n : Nat} {row : List Fraction} {z w : Fin n → ℤ}

theorem exists_odd (h : Primitive row z) : ∃ i, (z i : ZMod 2) = 1 := by
  by_contra hnone
  have heven : ∀ i, (2 : ℤ) ∣ z i := by
    intro i
    have hzero : (z i : ZMod 2) = 0 := (zmod_eq_zero_or_one _).resolve_right fun hone => hnone ⟨i, hone⟩
    exact_mod_cast (ZMod.intCast_zmod_eq_zero_iff_dvd _ 2).1 hzero
  rcases Int.isUnit_iff.1 (h.coprime 2 heven) with hunit | hunit
  · omega
  · omega

/-- Modulo two it does not matter how a row was scaled. -/
theorem intCast_eq (hz : Primitive row z) (hw : Primitive row w) (i : Fin n) : (z i : ZMod 2) = w i := by
  obtain ⟨c, hc⟩ := hz.multiple
  obtain ⟨e, he⟩ := hw.multiple
  have hcross : ∀ i j, (z i : ZMod 2) * w j = z j * w i := by
    intro i j
    have hrat : (z i : ℚ) * w j = z j * w i := by
      rw [hc, hc, he, he]
      ring
    have hint : z i * w j = z j * w i := by exact_mod_cast hrat
    exact_mod_cast congrArg (Int.cast : ℤ → ZMod 2) hint
  -- Where one of them is odd, the other is the factor between the two, which cannot be even.
  obtain ⟨j, hj⟩ := hw.exists_odd
  have hfactor : ∀ i, (z i : ZMod 2) = z j * w i := by
    intro i
    rw [← hcross i j, hj, mul_one]
  obtain ⟨k, hk⟩ := hz.exists_odd
  have hone : (z j : ZMod 2) = 1 := by
    refine (zmod_eq_zero_or_one _).resolve_left fun hzero => ?_
    have hprod := hfactor k
    rw [hk, hzero, zero_mul] at hprod
    exact one_ne_zero hprod
  rw [hfactor i, hone, one_mul]

end Primitive

theorem Fraction.primitive_integerRow {n i : Nat} {row : List Fraction} (hlen : row.length = n)
    (hi : row.getD i 0 ≠ 0) : Primitive row fun j : Fin n => (integerRow row).getD j 0 := by
  obtain ⟨c, -, hc⟩ := integerRow_spec row
  refine ⟨⟨c, fun j => hc j⟩, fun d hd => isUnit_of_dvd_integerRow hi fun a ha => ?_⟩
  obtain ⟨j, hj, rfl⟩ := List.getElem_of_mem ha
  have hdvd := hd ⟨j, by rwa [length_integerRow, hlen] at hj⟩
  rwa [List.getD_eq_getElem _ _ hj] at hdvd

/-! ## Equations -/

/-- The value of an equation that was scaled is the value it had, scaled. -/
theorem sum_scaled {ι : Type} {s : Finset ι} {a : ι → ℚ} {b c : ℚ} {z x : ι → ℤ} {y : ℤ}
    (hz : ∀ i ∈ s, (z i : ℚ) = c * a i) (hy : (y : ℚ) = c * b) :
    ((∑ i ∈ s, z i * x i + y : ℤ) : ℚ) = c * (∑ i ∈ s, a i * x i + b) := by
  push_cast
  rw [mul_add, Finset.mul_sum, hy]
  congr 1
  exact Finset.sum_congr rfl fun i hi => by rw [hz i hi, mul_assoc]

/-- An equation that integers satisfy can be scaled to integers and read modulo two. -/
theorem sum_mod_two {ι : Type} {s : Finset ι} {a : ι → ℚ} {b c : ℚ} {z x : ι → ℤ} {y : ℤ}
    (hz : ∀ i ∈ s, (z i : ℚ) = c * a i) (hy : (y : ℚ) = c * b) (h : ∑ i ∈ s, a i * x i + b = 0) :
    ∑ i ∈ s, (z i : ZMod 2) * x i + y = 0 := by
  have hrat := sum_scaled (x := x) hz hy
  rw [h, mul_zero] at hrat
  have hzmod := congrArg (Int.cast : ℤ → ZMod 2) (Int.cast_eq_zero.1 hrat)
  push_cast at hzmod
  exact hzmod

namespace Fraction

/-- Integers satisfy the equation of a row, its constant in column `n`, exactly if they satisfy that of the scaled row. -/
theorem integerRow_equation (row : List Fraction) (n : Nat) (x : Fin n → ℤ) :
    ∑ i : Fin n, (integerRow row).getD i 0 * x i + (integerRow row).getD n 0 = 0 ↔
      ∑ i : Fin n, (row.getD i 0).toRat * x i + (row.getD n 0).toRat = 0 := by
  obtain ⟨c, hc, hrow⟩ := integerRow_spec row
  have hscaled := sum_scaled (s := Finset.univ) (x := x) (fun i _ => hrow i) (hrow n)
  rw [← Int.cast_eq_zero (α := ℚ), hscaled, mul_eq_zero, or_iff_right hc.ne']

theorem map_integerRow (row : List Fraction) :
    ∃ c : ℚ, 0 < c ∧ (integerRow row).map (Int.cast : ℤ → ℚ) = row.map fun a => c * a.toRat := by
  obtain ⟨c, hc, hrow⟩ := integerRow_spec row
  refine ⟨c, hc, List.ext_getElem (by simp [length_integerRow]) fun i hi hj => ?_⟩
  rw [List.length_map] at hi hj
  have hentry := hrow i
  rw [List.getD_eq_getElem _ _ hi, List.getD_eq_getElem _ _ hj] at hentry
  rwa [List.getElem_map, List.getElem_map]

variable {row : List Fraction} {i : Nat}

theorem gcd_integerRow (hi : row.getD i 0 ≠ 0) : Multiset.gcd (integerRow row : Multiset ℤ) = 1 := by
  rw [← Multiset.normalize_gcd, normalize_eq_one]
  exact isUnit_of_dvd_integerRow hi fun n hn => Multiset.gcd_dvd hn

theorem exists_odd_integerRow (hi : row.getD i 0 ≠ 0) : ∃ n ∈ integerRow row, Odd n := by
  obtain ⟨j, hj⟩ := (primitive_integerRow rfl hi).exists_odd
  have hlen : (j : Nat) < (integerRow row).length := by
    rw [length_integerRow]
    exact j.isLt
  rw [List.getD_eq_getElem _ _ hlen] at hj
  exact ⟨_, List.getElem_mem hlen, ZMod.intCast_eq_one_iff_odd.1 hj⟩

end Fraction

/-! ## The rows of a matrix -/

namespace RationalMatrix

/-- Each row of a matrix is scaled to integers by one positive number. Unless it is zero, they have the greatest common
divisor one, so that not all of them are even. Integers satisfy the scaled row exactly if they satisfy the row, be it an
equation without a constant or one in `n` variables with the constant in the column after them. -/
theorem integerRows_primitive (m : RationalMatrix) :
    List.Forall₂ (fun (row : List Fraction) (z : List ℤ) =>
      (∃ c : ℚ, 0 < c ∧ z.map (Int.cast : ℤ → ℚ) = row.map fun a => c * a.toRat) ∧
      ((∃ a ∈ row, a ≠ 0) → Multiset.gcd (z : Multiset ℤ) = 1 ∧ ∃ n ∈ z, Odd n) ∧
      (∀ x : Fin m.columns → ℤ,
        ∑ i : Fin m.columns, z.getD i 0 * x i = 0 ↔ ∑ i : Fin m.columns, (row.getD i 0).toRat * x i = 0) ∧
      ∀ (n : Nat) (x : Fin n → ℤ), ∑ i : Fin n, z.getD i 0 * x i + z.getD n 0 = 0 ↔
        ∑ i : Fin n, (row.getD i 0).toRat * x i + (row.getD n 0).toRat = 0) m.rows m.integerRows := by
  rw [integerRows, List.forall₂_map_right_iff, List.forall₂_same]
  intro row hrow
  have hlen : row.length = m.columns := m.width row hrow
  refine ⟨Fraction.map_integerRow row, ?_, fun x => ?_, Fraction.integerRow_equation row⟩
  · rintro ⟨a, ha, hne⟩
    obtain ⟨i, hi, rfl⟩ := List.getElem_of_mem ha
    rw [← List.getD_eq_getElem _ 0 hi] at hne
    exact ⟨Fraction.gcd_integerRow hne, Fraction.exists_odd_integerRow hne⟩
  · -- Beyond the last column there is nothing but zero.
    have hequation := Fraction.integerRow_equation row m.columns x
    rwa [List.getD_eq_default _ _ (by rw [Fraction.length_integerRow, hlen]), List.getD_eq_default _ _ hlen.le,
      Fraction.toRat_zero, add_zero, add_zero] at hequation

/-- An equation with a denominator of three and a factor of two, and one that says nothing. -/
def thirds : RationalMatrix :=
  ⟨3, [[.reduced 4 3 (by decide), .ofInt (-2), .reduced 10 3 (by decide)], [0, 0, 0]], by decide⟩

/-- The first row becomes `2 x - 3 y + 5 = 0`. With its factor of two it would say nothing modulo two. -/
theorem integerRows_primitive_thirds :
    thirds.integerRows = [[2, -3, 5], [0, 0, 0]] ∧ Multiset.gcd (([2, -3, 5] : List ℤ) : Multiset ℤ) = 1 ∧
      (∃ n ∈ ([2, -3, 5] : List ℤ), Odd n) ∧
      ∀ x : Fin 2 → ℤ, 2 * x 0 + -3 * x 1 + 5 = 0 ↔ (4 / 3 : ℚ) * x 0 + -2 * x 1 + 10 / 3 = 0 := by
  have hrows : thirds.integerRows = [[2, -3, 5], [0, 0, 0]] := by decide +kernel
  have hall := integerRows_primitive thirds
  rw [hrows] at hall
  obtain ⟨⟨-, hgcd, -, hequation⟩, -⟩ := List.forall₂_cons.1 hall
  obtain ⟨hone, hodd⟩ := hgcd (by decide)
  refine ⟨hrows, hone, hodd, fun x => ?_⟩
  simpa [Fin.sum_univ_two, Fraction.toRat_reduced] using hequation 2 x

end RationalMatrix

end FlowFacts
