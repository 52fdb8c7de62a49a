import Mathlib
import FlowFacts.Bits
import FlowFacts.Linear.Rational
import FlowFacts.Proofs.Faults
import FlowFacts.Proofs.Rationals

/-!
# Rows are vectors over a field

Elimination is written once for all rows, and so is its theory. A `VectorRow` says that the rows of a
type write down vectors over a field `K`: `Row.vec` reads a row as a function from columns to `K`,
zero beyond the end, and the operations on rows become those on vectors. It also says when these
operations succeed: coefficients are read and written at the positions of a row, rows of one length are
added, and numbers other than zero have a reciprocal. Lists of fractions are vectors over `ℚ`, packed
bits are vectors over `ZMod 2`.

`rowSpace` is the span of some rows, `nullSpace` the vectors that every row sends to zero.
-/

namespace FlowFacts

/-- Rows that write down vectors over a field. -/
class VectorRow (K : outParam Type) (S : outParam Type) (R : Type) [Field K] [Scalar S] [Row S R] where
  /-- The number that a coefficient stands for. -/
  val : S → K
  val_injective : Function.Injective val
  val_zero : val 0 = 0
  val_one : val 1 = 1
  val_add : ∀ a b, val (a + b) = val a + val b
  val_neg : ∀ a, val (-a) = -val a
  val_mul : ∀ a b, val (a * b) = val a * val b
  reciprocal_of_ne : ∀ {a : S}, a ≠ 0 → ∃ b, Scalar.reciprocal a = .ok b ∧ val b = (val a)⁻¹
  /-- The coefficient at a position, zero beyond the end. -/
  coeff : R → Nat → S
  coeff_of_length_le : ∀ {r : R} {i : Nat}, Sized.length r ≤ i → coeff r i = 0
  get_of_lt : ∀ {r : R} {i : Nat}, i < Sized.length r → Row.get r i = .ok (coeff r i)
  length_zeros : ∀ n : Nat, Sized.length (Row.zeros n : R) = n
  coeff_zeros : ∀ n i : Nat, coeff (Row.zeros n) i = 0
  put_of_lt : ∀ {r : R} {i : Nat} (k : S), i < Sized.length r → ∃ q, Row.put r i k = .ok q ∧
    Sized.length q = Sized.length r ∧ ∀ j, coeff q j = if j = i then k else coeff r j
  val_scale : ∀ (k : S) (r : R) (i : Nat), val (coeff (Row.scale k r) i) = val k * val (coeff r i)
  plus_of_length : ∀ {r p : R} (k : S), Sized.length p = Sized.length r → ∃ q, Row.plus r k p = .ok q ∧
    ∀ i, val (coeff q i) = val (coeff r i) + val k * val (coeff p i)
  init_of_length : ∀ {n : Nat} {r : R}, Sized.length r = n + 1 → ∃ q, Row.init n r = .ok q ∧
    Sized.length q = n ∧ ∀ i < n, coeff q i = coeff r i
  of_lead_none : ∀ {r : R}, Row.lead r = none → ∀ i, coeff r i = 0
  of_lead_some : ∀ {r : R} {c : Nat}, Row.lead r = some c → coeff r c ≠ 0 ∧ ∀ j < c, coeff r j = 0

section Vector

variable {K S R : Type} [Field K] [Scalar S] [Row S R] [VectorRow K S R]

/-- The vector of a row, zero beyond the end. -/
def Row.vec (r : R) : Nat → K := fun i => VectorRow.val R (VectorRow.coeff r i)

namespace Row

theorem vec_eq_zero {r : R} {i : Nat} : vec r i = 0 ↔ VectorRow.coeff r i = 0 := by
  rw [vec, ← VectorRow.val_zero (R := R)]
  exact (VectorRow.val_injective (R := R)).eq_iff

theorem vec_of_length_le {r : R} {i : Nat} (h : Sized.length r ≤ i) : vec r i = 0 :=
  vec_eq_zero.2 (VectorRow.coeff_of_length_le h)

/-- A coefficient that is read is the entry of the vector. -/
theorem exists_get {r : R} {i : Nat} (h : i < Sized.length r) :
    ∃ k : S, get r i = .ok k ∧ VectorRow.val R k = vec r i := ⟨_, VectorRow.get_of_lt h, rfl⟩

theorem vec_zeros (n : Nat) : vec (zeros n : R) = 0 := by
  funext i
  exact vec_eq_zero.2 (VectorRow.coeff_zeros n i)

theorem exists_put {r : R} {i : Nat} (k : S) (h : i < Sized.length r) :
    ∃ q : R, put r i k = .ok q ∧ Sized.length q = Sized.length r ∧
      vec q = Function.update (vec r) i (VectorRow.val R k) := by
  obtain ⟨q, hq, hlen, hcoeff⟩ := VectorRow.put_of_lt k h
  refine ⟨q, hq, hlen, ?_⟩
  funext j
  rw [vec, hcoeff, Function.update_apply]
  split
  · rfl
  · rfl

theorem vec_scale (k : S) (r : R) : vec (scale k r) = VectorRow.val R k • vec r := by
  funext i
  exact VectorRow.val_scale k r i

theorem exists_plus {r p : R} (k : S) (h : Sized.length p = Sized.length r) :
    ∃ q : R, plus r k p = .ok q ∧ vec q = vec r + VectorRow.val R k • vec p := by
  obtain ⟨q, hq, hcoeff⟩ := VectorRow.plus_of_length k h
  exact ⟨q, hq, funext hcoeff⟩

theorem lead_eq_none {r : R} : lead r = none ↔ vec r = 0 := by
  constructor
  · intro h
    funext i
    exact vec_eq_zero.2 (VectorRow.of_lead_none h i)
  · intro h
    cases hl : lead r with
    | none => rfl
    | some c => exact absurd (vec_eq_zero.1 (congrFun h c)) (VectorRow.of_lead_some hl).1

/-- A row leads with the first column in which its vector is not zero. -/
theorem lead_eq_some {r : R} {c : Nat} : lead r = some c ↔ vec r c ≠ 0 ∧ ∀ j < c, vec r j = 0 := by
  constructor
  · intro h
    obtain ⟨hc, hlt⟩ := VectorRow.of_lead_some h
    exact ⟨fun h0 => hc (vec_eq_zero.1 h0), fun j hj => vec_eq_zero.2 (hlt j hj)⟩
  · rintro ⟨hc, hlt⟩
    cases hl : lead r with
    | none => exact absurd (congrFun (lead_eq_none.1 hl) c) hc
    | some d =>
      obtain ⟨hd, hdlt⟩ := VectorRow.of_lead_some hl
      rcases lt_trichotomy c d with h | rfl | h
      · exact absurd (vec_eq_zero.2 (hdlt c h)) hc
      · rfl
      · exact absurd (vec_eq_zero.1 (hlt d h)) hd

end Row

/-! ## Spans and null spaces -/

/-- The combinations of some rows. -/
def rowSpace (rows : List R) : Submodule K (Nat → K) := Submodule.span K {v | ∃ r ∈ rows, Row.vec r = v}

theorem vec_mem_rowSpace {rows : List R} {r : R} (h : r ∈ rows) : Row.vec r ∈ rowSpace rows :=
  Submodule.subset_span ⟨r, h, rfl⟩

theorem rowSpace_le {rows : List R} {W : Submodule K (Nat → K)} :
    rowSpace rows ≤ W ↔ ∀ r ∈ rows, Row.vec r ∈ W := by
  rw [rowSpace, Submodule.span_le]
  constructor
  · intro h r hr
    exact h ⟨r, hr, rfl⟩
  · rintro h _ ⟨r, hr, rfl⟩
    exact h r hr

theorem rowSpace_singleton (r : R) : rowSpace [r] = Submodule.span K {Row.vec r} := by
  rw [rowSpace]
  congr 1
  ext v
  simp [eq_comm]

theorem rowSpace_append (rows others : List R) :
    rowSpace (rows ++ others) = rowSpace rows ⊔ rowSpace others := by
  apply le_antisymm
  · refine rowSpace_le.2 fun r hr => ?_
    rcases List.mem_append.1 hr with hr | hr
    · exact Submodule.mem_sup_left (vec_mem_rowSpace hr)
    · exact Submodule.mem_sup_right (vec_mem_rowSpace hr)
  · refine sup_le (rowSpace_le.2 fun r hr => ?_) (rowSpace_le.2 fun r hr => ?_)
    · exact vec_mem_rowSpace (List.mem_append_left _ hr)
    · exact vec_mem_rowSpace (List.mem_append_right _ hr)

instance finite_rowSpace (rows : List R) : FiniteDimensional K (rowSpace rows : Submodule K (Nat → K)) := by
  refine FiniteDimensional.span_of_finite K (Set.Finite.subset (List.finite_toSet (rows.map Row.vec)) ?_)
  rintro _ ⟨r, hr, rfl⟩
  exact List.mem_map_of_mem hr

/-- Combinations of rows of one width are zero beyond it. -/
theorem eq_zero_of_mem_rowSpace {rows : List R} {n : Nat} (hw : ∀ r ∈ rows, Sized.length r = n)
    {v : Nat → K} (hv : v ∈ rowSpace rows) {i : Nat} (hi : n ≤ i) : v i = 0 := by
  have hle : rowSpace rows ≤ LinearMap.ker (LinearMap.proj i : (Nat → K) →ₗ[K] K) :=
    rowSpace_le.2 fun r hr => Row.vec_of_length_le (by rw [hw r hr]; exact hi)
  exact hle hv

end Vector

/-- The sum of the products of the first `n` entries of two vectors. -/
def dotTo {K : Type} [Field K] (n : Nat) (v x : Nat → K) : K := ∑ i ∈ Finset.range n, v i * x i

section Dot

variable {K : Type} [Field K] (n : Nat)

@[simp] theorem dotTo_zero_left (x : Nat → K) : dotTo n 0 x = 0 := by simp [dotTo]

theorem dotTo_comm (v x : Nat → K) : dotTo n v x = dotTo n x v :=
  Finset.sum_congr rfl fun _ _ => mul_comm _ _

@[simp] theorem dotTo_add_right (v x y : Nat → K) : dotTo n v (x + y) = dotTo n v x + dotTo n v y := by
  simp only [dotTo, Pi.add_apply, mul_add, Finset.sum_add_distrib]

@[simp] theorem dotTo_smul_right (k : K) (v x : Nat → K) : dotTo n v (k • x) = k * dotTo n v x := by
  simp only [dotTo, Pi.smul_apply, smul_eq_mul, Finset.mul_sum]
  exact Finset.sum_congr rfl fun _ _ => by ring

@[simp] theorem dotTo_add_left (v w x : Nat → K) : dotTo n (v + w) x = dotTo n v x + dotTo n w x := by
  rw [dotTo_comm, dotTo_add_right, dotTo_comm n x v, dotTo_comm n x w]

@[simp] theorem dotTo_smul_left (k : K) (v x : Nat → K) : dotTo n (k • v) x = k * dotTo n v x := by
  rw [dotTo_comm, dotTo_smul_right, dotTo_comm n x v]

@[simp] theorem dotTo_sub_right (v x y : Nat → K) : dotTo n v (x - y) = dotTo n v x - dotTo n v y := by
  rw [sub_eq_add_neg, ← neg_one_smul K y, dotTo_add_right, dotTo_smul_right]; ring

@[simp] theorem dotTo_sub_left (v w x : Nat → K) : dotTo n (v - w) x = dotTo n v x - dotTo n w x := by
  rw [dotTo_comm, dotTo_sub_right, dotTo_comm n x v, dotTo_comm n x w]

/-- The vectors that a given vector is sent to zero by. -/
def annihilator (x : Nat → K) : Submodule K (Nat → K) where
  carrier := {v | dotTo n v x = 0}
  zero_mem' := dotTo_zero_left n x
  add_mem' := by
    intro v w (hv : dotTo n v x = 0) (hw : dotTo n w x = 0)
    show dotTo n (v + w) x = 0
    rw [dotTo_add_left, hv, hw, add_zero]
  smul_mem' := by
    intro k v (hv : dotTo n v x = 0)
    show dotTo n (k • v) x = 0
    rw [dotTo_smul_left, hv, mul_zero]

theorem mem_annihilator {v x : Nat → K} : v ∈ annihilator n x ↔ dotTo n v x = 0 := Iff.rfl

end Dot

section NullSpace

variable {K S R : Type} [Field K] [Scalar S] [Row S R] [VectorRow K S R]

/-- The vectors that every row sends to zero, read in the first `n` columns. -/
def nullSpace (n : Nat) (rows : List R) : Set (Nat → K) := {x | ∀ r ∈ rows, dotTo n (Row.vec r) x = 0}

theorem mem_nullSpace_iff {n : Nat} {rows : List R} {x : Nat → K} :
    x ∈ nullSpace n rows ↔ rowSpace rows ≤ annihilator n x := by
  rw [rowSpace_le]; rfl

/-- The null space depends on the row space only. -/
theorem nullSpace_anti {n : Nat} {rows others : List R} (h : rowSpace rows ≤ rowSpace others) :
    (nullSpace n others : Set (Nat → K)) ⊆ nullSpace n rows := by
  intro x hx
  exact mem_nullSpace_iff.2 (h.trans (mem_nullSpace_iff.1 hx))

end NullSpace

/-! ## Lists of fractions -/

theorem Fraction.getD_addScaled (k : Fraction) {r p : List Fraction} (h : p.length = r.length) (i : Nat) :
    ((Fraction.addScaled r k p).getD i 0).toRat = (r.getD i 0).toRat + k.toRat * (p.getD i 0).toRat := by
  induction r generalizing p i with
  | nil =>
    obtain rfl := List.length_eq_zero_iff.1 h
    simp [addScaled]
  | cons x r ih =>
    obtain ⟨y, p, rfl⟩ := List.exists_cons_of_length_eq_add_one h
    rw [addScaled]
    cases i with
    | zero =>
      simp only [List.getD_cons_zero]
      split
      · next h0 => simp [h0]
      · simp [mul_comm]
    | succ i => simpa only [List.getD_cons_succ] using ih (by simpa using h) i

instance : VectorRow ℚ Fraction (List Fraction) where
  val := Fraction.toRat
  val_injective := Fraction.toRat_injective
  val_zero := Fraction.toRat_zero
  val_one := Fraction.toRat_one
  val_add := Fraction.toRat_add
  val_neg := Fraction.toRat_neg
  val_mul := Fraction.toRat_mul
  reciprocal_of_ne := Fraction.reciprocal_of_ne
  coeff r i := r.getD i 0
  coeff_of_length_le h := List.getD_eq_default _ _ h
  get_of_lt {r i} h := by
    have h : i < r.length := h
    rw [List.getD_eq_getElem _ _ h]
    exact entryAt_of_lt h
  length_zeros _ := List.length_replicate
  coeff_zeros n i := by
    show (List.replicate n (0 : Fraction)).getD i 0 = 0
    rw [List.getD_eq_getElem?_getD, List.getElem?_replicate]
    split <;> rfl
  put_of_lt {r i} k h := by
    have h : i < r.length := h
    refine ⟨r.set i k, setEntry_of_lt h k, List.length_set, fun j => ?_⟩
    rw [List.getD_eq_getElem?_getD]
    by_cases hij : j = i
    · rw [if_pos hij, hij, List.getElem?_set_self h, Option.getD_some]
    · rw [if_neg hij, List.getElem?_set_ne (Ne.symm hij), ← List.getD_eq_getElem?_getD]
  val_scale k r i := by
    show ((r.map (· * k)).getD i 0).toRat = k.toRat * (r.getD i 0).toRat
    by_cases hi : i < r.length
    · rw [List.getD_eq_getElem _ _ (by simpa using hi), List.getD_eq_getElem _ _ hi]
      simp [mul_comm]
    · rw [List.getD_eq_default _ _ (by simpa using hi), List.getD_eq_default _ _ (by simpa using hi)]
      simp
  plus_of_length k h := ⟨_, rfl, Fraction.getD_addScaled k h⟩
  init_of_length {n r} h := by
    have h : r.length = n + 1 := h
    refine ⟨r.take n, if_pos (by omega), ?_, fun i hi => ?_⟩
    · show (r.take n).length = n
      simp [h]
    · rw [List.getD_eq_getElem _ _ (by simp [h, hi]), List.getD_eq_getElem _ _ (by omega), List.getElem_take]
  of_lead_none {r} h i := by
    have h : r.findIdx? (· ≠ 0) = none := h
    show r.getD i 0 = 0
    by_cases hi : i < r.length
    · rw [List.getD_eq_getElem _ _ hi]
      simpa using List.findIdx?_eq_none_iff.1 h _ (List.getElem_mem hi)
    · exact List.getD_eq_default _ _ (by simpa using hi)
  of_lead_some {r c} h := by
    have h : r.findIdx? (· ≠ 0) = some c := h
    obtain ⟨hc, hne, hlt⟩ := List.findIdx?_eq_some_iff_getElem.1 h
    refine ⟨?_, fun j hj => ?_⟩
    · show r.getD c 0 ≠ 0
      rw [List.getD_eq_getElem _ _ hc]
      simpa using hne
    · show r.getD j 0 = 0
      rw [List.getD_eq_getElem _ _ (hj.trans hc)]
      simpa using hlt j hj

theorem vec_fractions (r : List Fraction) (i : Nat) : Row.vec r i = (r.getD i 0).toRat := rfl

/-! ## Rows of bits -/

namespace Bits

theorem exists_bit_of_ne_zero {w : UInt64} (h : w ≠ 0) : ∃ j < 64, w.toBitVec.getLsbD j = true := by
  by_contra hn
  push Not at hn
  apply h
  rw [← UInt64.toBitVec_inj]
  refine BitVec.eq_of_getLsbD_eq fun i hi => ?_
  simpa using hn i hi

/-- The lowest bit of a word other than zero is set, and those below it are not. -/
theorem lowestBit_spec {w : UInt64} (h : w ≠ 0) :
    lowestBit w < 64 ∧ w.toBitVec.getLsbD (lowestBit w) = true ∧
      ∀ j < lowestBit w, w.toBitVec.getLsbD j = false := by
  obtain ⟨k, hk, hbit⟩ := exists_bit_of_ne_zero h
  cases hf : (List.range 64).find? fun j => w.toBitVec.getLsbD j with
  | none => exact absurd hbit (by simpa using List.find?_eq_none.1 hf k (List.mem_range.2 hk))
  | some c =>
    have hc : lowestBit w = c := by rw [lowestBit, hf]; rfl
    obtain ⟨hset, i, hi, hic, hlt⟩ := List.find?_eq_some_iff_getElem.1 hf
    have hi64 : i < 64 := by simpa using hi
    obtain rfl : i = c := by simpa using hic
    rw [hc]
    refine ⟨hi64, hset, fun j hj => ?_⟩
    simpa using hlt j hj

end Bits

namespace BitRow

@[simp] theorem length_toList (r : BitRow) : r.toList.length = r.length := by
  simp [toList]

@[simp] theorem getElem_toList (r : BitRow) (i : Nat) (h : i < r.toList.length) : r.toList[i] = r.bit i := by
  simp [toList]

theorem bit_add (r s : BitRow) (h : s.length = r.length) (i : Nat) : (r.add s h).bit i = (r.bit i ^^ s.bit i) :=
  Bits.bitAt_zipWith_xor (by rw [r.wordCount, s.wordCount, h]) i

theorem bit_put {r : BitRow} {i : Nat} (h : i < r.length) (b : Bool) (k : Nat) :
    (r.put i h b).bit k = if k = i then b else r.bit k :=
  Bits.bitAt_modify (by rw [r.wordCount]; omega) b k

theorem bit_ofFn (n : Nat) (f : Nat → Bool) (i : Nat) : (ofFn n f).bit i = (decide (i < n) && f i) :=
  Bits.bitAt_wordsOf n f i

theorem bit_eq_false_of_word {r : BitRow} {i : Nat} (h : r.words.getD (i / 64) 0 = 0) : r.bit i = false := by
  rw [bit, Bits.bitAt, h]; simp

theorem firstOne_none {r : BitRow} (h : r.firstOne = none) (i : Nat) : r.bit i = false := by
  rw [firstOne, Option.map_eq_none_iff, List.find?_eq_none] at h
  apply bit_eq_false_of_word
  by_cases hi : i / 64 < r.words.length
  · rw [List.getD_eq_getElem _ _ hi]
    simpa using h (r.words[i / 64], i / 64) (by
      rw [List.mem_zipIdx_iff_getElem?]; simp [hi])
  · exact List.getD_eq_default _ _ (by simpa using hi)

theorem firstOne_some {r : BitRow} {c : Nat} (h : r.firstOne = some c) :
    r.bit c = true ∧ ∀ j < c, r.bit j = false := by
  rw [firstOne, Option.map_eq_some_iff] at h
  obtain ⟨⟨w, i⟩, hf, rfl⟩ := h
  obtain ⟨hw, k, hk, hget, hlt⟩ := List.find?_eq_some_iff_getElem.1 hf
  have hk' : k < r.words.length := by simpa using hk
  simp only [List.getElem_zipIdx, zero_add, Prod.mk.injEq] at hget
  obtain ⟨hword, rfl⟩ := hget
  have hw0 : w ≠ 0 := by simpa using hw
  obtain ⟨hlow, hset, hbelow⟩ := Bits.lowestBit_spec hw0
  have hat : r.words.getD k 0 = w := by rw [List.getD_eq_getElem _ _ hk', hword]
  refine ⟨?_, fun j hj => ?_⟩
  · rw [bit, Bits.bitAt, show (k * 64 + Bits.lowestBit w) / 64 = k by omega,
      show (k * 64 + Bits.lowestBit w) % 64 = Bits.lowestBit w by omega, hat, hset]
  · -- Below the word of the first one all words are zero, in it the bits before the lowest one are.
    have hj : j < k * 64 + Bits.lowestBit w := hj
    rcases Nat.lt_or_ge (j / 64) k with hjk | hjk
    · apply bit_eq_false_of_word
      rw [List.getD_eq_getElem _ _ (hjk.trans hk')]
      simpa using hlt (j / 64) hjk
    · have hjd : j / 64 = k := by omega
      rw [bit, Bits.bitAt, hjd, hat]
      exact hbelow _ (by omega)

end BitRow

theorem zmod_eq_zero_or_one : ∀ k : ZMod 2, k = 0 ∨ k = 1 := by decide

/-- The number of a bit, modulo two. -/
def bitVal (b : Bool) : ZMod 2 := if b then 1 else 0

instance : VectorRow (ZMod 2) Bool BitRow where
  val := bitVal
  val_injective := by decide
  val_zero := rfl
  val_one := rfl
  val_add := by decide
  val_neg := by decide
  val_mul := by decide
  reciprocal_of_ne {b} h := by
    obtain rfl : b = true := Bool.eq_true_of_not_eq_false h
    exact ⟨true, rfl, inv_one.symm⟩
  coeff := BitRow.bit
  coeff_of_length_le {r i} h := r.clean i h
  get_of_lt h := if_pos h
  length_zeros _ := rfl
  coeff_zeros n i := Bits.bitAt_replicate _ i
  put_of_lt k h := ⟨_, dif_pos h, rfl, BitRow.bit_put h k⟩
  val_scale k r i := by
    cases k with
    | true => exact (one_mul _).symm
    | false =>
      show bitVal ((BitRow.zeros r.length).bit i) = 0 * _
      rw [BitRow.bit, BitRow.zeros, Bits.bitAt_replicate, zero_mul]
      rfl
  plus_of_length {r p} k h := by
    have h : p.length = r.length := h
    cases k with
    | true =>
      refine ⟨r.add p h, dif_pos h, fun i => ?_⟩
      rw [BitRow.bit_add]
      cases r.bit i <;> cases p.bit i <;> rfl
    | false => exact ⟨r, rfl, fun i => by rw [show bitVal false = 0 from rfl, zero_mul, add_zero]⟩
  init_of_length {n r} h := by
    have h : r.length = n + 1 := h
    refine ⟨BitRow.ofFn (r.length - 1) r.bit, if_neg (by omega), ?_, fun i hi => ?_⟩
    · show r.length - 1 = n
      omega
    · rw [BitRow.bit_ofFn, decide_eq_true (by omega), Bool.true_and]
  of_lead_none h i := BitRow.firstOne_none h i
  of_lead_some {r c} h := by
    obtain ⟨hc, hlt⟩ := BitRow.firstOne_some h
    refine ⟨?_, hlt⟩
    show r.bit c ≠ false
    simp [hc]

theorem vec_bits (r : BitRow) (i : Nat) : Row.vec r i = bitVal (r.bit i) := rfl

end FlowFacts
