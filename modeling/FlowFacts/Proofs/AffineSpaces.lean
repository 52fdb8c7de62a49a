import Mathlib
import FlowFacts.Proofs.LinearSystems

/-!
# Affine subspaces by equations

What a system of equations says about the points that solve it. An equation that vanishes at every
solution of a consistent system is a combination of its rows (`mem_rowSpace_of_vanishing`), so systems
can be compared by their row spaces. In the other direction, `RationalMatrix.spanEquations_spec` and
`RationalMatrix.withOffset_spec` say that the equations computed for a span and an offset have exactly
the points of that translated span as their solutions.
-/

namespace FlowFacts

/-! ## Equations at points -/

section Equations

variable {K S R : Type} [Field K] [Scalar S] [Row S R] [VectorRow K S R] {n : Nat}

omit [Scalar S] [Row S R] [VectorRow K S R] in
theorem equationAt_add (v x d : Nat → K) : equationAt n v (x + d) = equationAt n v x + dotTo n v d := by
  rw [equationAt, equationAt, dotTo_add_right]; ring

omit [Scalar S] [Row S R] [VectorRow K S R] in
theorem equationAt_of_one (v : Nat → K) {x : Nat → K} (hx : x n = 1) : equationAt n v x = dotTo (n + 1) v x := by
  rw [equationAt, dotTo, dotTo, Finset.sum_range_succ, hx, mul_one]

theorem solutions_anti {rows others : List R} (h : rowSpace rows ≤ rowSpace others) :
    (solutions n others : Set (Nat → K)) ⊆ solutions n rows := by
  intro x hx
  exact mem_solutions_iff.2 (nullSpace_anti h (mem_solutions_iff.1 hx))

theorem solutions_congr {rows others : List R} (h : rowSpace rows = rowSpace others) :
    (solutions n rows : Set (Nat → K)) = solutions n others :=
  Set.Subset.antisymm (solutions_anti h.ge) (solutions_anti h.le)

theorem solutions_append (rows others : List R) :
    (solutions n (rows ++ others) : Set (Nat → K)) = solutions n rows ∩ solutions n others := by
  ext x
  constructor
  · intro h
    exact ⟨fun r hr => h r (List.mem_append_left _ hr), fun r hr => h r (List.mem_append_right _ hr)⟩
  · rintro ⟨h1, h2⟩ r hr
    rcases List.mem_append.1 hr with hr | hr
    · exact h1 r hr
    · exact h2 r hr

/-- A row that leads with the constant has no solution. -/
theorem solutions_eq_empty {rows : List R} {r : R} (hr : r ∈ rows) (hlead : Row.lead r = some n) :
    (solutions n rows : Set (Nat → K)) = ∅ := by
  obtain ⟨hne, hlt⟩ := Row.lead_eq_some.1 hlead
  refine Set.eq_empty_of_forall_notMem fun x hx => hne ?_
  have h0 : dotTo n (Row.vec r) x = 0 := Finset.sum_eq_zero fun i hi => by
    rw [hlt i (Finset.mem_range.1 hi), zero_mul]
  have := hx r hr
  rwa [equationAt, h0, zero_add] at this

/-- An equation that vanishes at every solution of a consistent reduced system is a combination of
its rows. -/
theorem mem_rowSpace_of_vanishing {m : RowMatrix R} (h : IsReduced m.rows) (hcol : m.columns = n + 1)
    (hne : (solutions n m.rows : Set (Nat → K)).Nonempty) {v : Nat → K} (hsupp : ∀ i, n + 1 ≤ i → v i = 0)
    (hv : ∀ x ∈ solutions n m.rows, equationAt n v x = 0) : v ∈ rowSpace m.rows := by
  obtain ⟨p, hp⟩ := hne
  have hpnull := mem_solutions_iff.1 hp
  have hpv : dotTo (n + 1) v (Function.update p n 1) = 0 := by rw [← equationAt_eq_dotTo, hv p hp]
  refine RowMatrix.mem_rowSpace_of_kernel h (fun k hk => ?_) (by rw [hcol]; exact hsupp)
  have hknull := RowMatrix.kernel_subset_nullSpace h hk
  rw [hcol] at hknull ⊢
  -- The kernel vector, moved into the plane of the points with a one for the constant.
  let y : Nat → K := Function.update p n 1 + (Row.vec k - Row.vec k n • Function.update p n 1)
  have hone : y n = 1 := by simp [y]
  have hmem : y ∈ solutions n m.rows := by
    intro r hr
    rw [equationAt_of_one _ hone]
    simp only [y, dotTo_add_right, dotTo_sub_right, dotTo_smul_right, hpnull r hr, hknull r hr]
    ring
  have hvy := hv y hmem
  rw [equationAt_of_one _ hone] at hvy
  simpa only [y, dotTo_add_right, dotTo_sub_right, dotTo_smul_right, hpv, zero_add, mul_zero, sub_zero] using hvy

end Equations

/-! ## The span of some vectors, moved to a point -/

theorem Fraction.toRat_dot_eq (a b : List Fraction) :
    (Fraction.dot a b).toRat = dotTo a.length (Row.vec a) (Row.vec b) := by
  rw [toRat_dot]
  induction a generalizing b with
  | nil => simp [dotTo]
  | cons x a ih =>
    cases b with
    | nil =>
      rw [List.zipWith_nil_right, List.sum_nil, dotTo]
      exact (Finset.sum_eq_zero fun i _ => by simp [vec_fractions]).symm
    | cons y b =>
      rw [List.zipWith_cons_cons, List.sum_cons, ih, dotTo, dotTo, List.length_cons, Finset.sum_range_succ', add_comm]
      rfl

/-- The first `n` entries of a vector. -/
def firstOf {K : Type} [Zero K] (n : Nat) (x : Nat → K) : Nat → K := fun i => if i < n then x i else 0

theorem dotTo_firstOf {K : Type} [Field K] (n : Nat) (v x : Nat → K) : dotTo n v (firstOf n x) = dotTo n v x :=
  Finset.sum_congr rfl fun i hi => by rw [firstOf, if_pos (Finset.mem_range.1 hi)]

theorem firstOf_of_le {K : Type} [Zero K] {n i : Nat} (x : Nat → K) (h : n ≤ i) : firstOf n x i = 0 :=
  if_neg (by omega)

theorem firstOf_eq_self {K : Type} [Zero K] {n : Nat} {x : Nat → K} (h : ∀ i, n ≤ i → x i = 0) : firstOf n x = x := by
  funext i
  by_cases hi : i < n
  · exact if_pos hi
  · rw [h i (by omega)]
    exact if_neg hi

theorem firstOf_add {K : Type} [Field K] (n : Nat) (x y : Nat → K) :
    firstOf n (x + y) = firstOf n x + firstOf n y := by
  funext i
  by_cases hi : i < n <;> simp [firstOf, hi]

theorem firstOf_smul {K : Type} [Field K] (n : Nat) (k : K) (x : Nat → K) : firstOf n (k • x) = k • firstOf n x := by
  funext i
  by_cases hi : i < n <;> simp [firstOf, hi]

/-! ## Directions -/

section Directions

variable {K S R : Type} [Field K] [Scalar S] [Row S R] [VectorRow K S R] {n : Nat}

/-- The row without its last coefficient. -/
def Row.truncated (n : Nat) (r : R) : R := resultOr r (Row.init n r)

theorem Row.truncated_spec {r : R} (h : Sized.length r = n + 1) :
    Row.init n r = .ok (truncated n r) ∧ Sized.length (truncated n r) = n ∧
      Row.vec (truncated n r) = firstOf n (Row.vec r) := by
  obtain ⟨q, hq, hlen, hcoeff⟩ := VectorRow.init_of_length h
  rw [truncated, hq]
  refine ⟨rfl, hlen, funext fun i => ?_⟩
  by_cases hi : i < n
  · rw [firstOf, if_pos hi, Row.vec, resultOr, hcoeff i hi]
    rfl
  · rw [firstOf_of_le _ (by omega)]
    exact Row.vec_of_length_le (by rw [resultOr, hlen]; omega)

/-- In a system without a contradiction every row leads with a variable. -/
theorem lead_lt_of_consistent {K S R : Type} [Field K] [Scalar S] [Row S R] [VectorRow K S R] {n : Nat} {m : RowMatrix R}
    (hcol : m.columns = n + 1) (hcons : ∀ r ∈ m.rows, Row.lead r ≠ some n) {r : R} (hr : r ∈ m.rows) {c : Nat}
    (hc : Row.lead r = some c) : c < n := by
  have hlt := Row.lead_lt_length hc
  rw [m.width r hr, hcol] at hlt
  have hne : c ≠ n := fun e => hcons r hr (e ▸ hc)
  omega

/-- Cutting off a column in which no row leads keeps the reduced form. -/
theorem isReduced_truncated {rows : List R} (h : IsReduced rows) (hw : ∀ r ∈ rows, Sized.length r = n + 1)
    (hlt : ∀ r ∈ rows, ∀ c, Row.lead r = some c → c < n) : IsReduced (rows.map (Row.truncated n)) := by
  have hvec : ∀ r ∈ rows, ∀ c < n, Row.vec (Row.truncated n r) c = Row.vec r c := fun r hr c hc => by
    rw [(Row.truncated_spec (hw r hr)).2.2, firstOf, if_pos hc]
  refine h.map (fun r hr c hc => ?_) fun r hr q hq c hc => hvec r hr c (hlt q hq c hc)
  obtain ⟨hne, hzero⟩ := Row.lead_eq_some.1 hc
  have hcn := hlt r hr c hc
  refine Row.lead_eq_some.2 ⟨?_, fun j hj => ?_⟩
  · rwa [hvec r hr c hcn]
  · rw [hvec r hr j (hj.trans hcn)]
    exact hzero j hj

theorem nullSpace_truncated {rows : List R} (hw : ∀ r ∈ rows, Sized.length r = n + 1) :
    (nullSpace n (rows.map (Row.truncated n)) : Set (Nat → K)) = nullSpace n rows := by
  have hrow : ∀ r ∈ rows, ∀ x : Nat → K, dotTo n (Row.vec (Row.truncated n r)) x = dotTo n (Row.vec r) x := by
    intro r hr x
    rw [(Row.truncated_spec (hw r hr)).2.2, dotTo_comm, dotTo_firstOf, dotTo_comm]
  ext x
  constructor
  · intro hx r hr
    rw [← hrow r hr]
    exact hx _ (List.mem_map_of_mem hr)
  · intro hx s hs
    obtain ⟨r, hr, rfl⟩ := List.mem_map.1 hs
    rw [hrow r hr]
    exact hx r hr

include K in
theorem dropLastColumn_eq {m : RowMatrix R} (hcol : m.columns = n + 1) :
    ∃ t, m.dropLastColumn = .ok t ∧ t.columns = n ∧ t.rows = m.rows.map (Row.truncated n) := by
  have hspec := fun r hr => Row.truncated_spec (n := n) ((m.width r hr).trans hcol)
  have hwidth : ∀ q ∈ m.rows.map (Row.truncated n), Sized.length q = n := by
    intro q hq
    obtain ⟨r, hr, rfl⟩ := List.mem_map.1 hq
    exact (hspec r hr).2.1
  refine ⟨⟨n, m.rows.map (Row.truncated n), hwidth⟩, ?_, rfl, rfl⟩
  simp only [RowMatrix.dropLastColumn, hcol, Nat.add_one_ne_zero, if_false, Nat.add_one_sub_one,
    mapM_eq_map fun r hr => (hspec r hr).1, bind, Except.bind]
  exact RowMatrix.ofRows_ok hwidth

/-- A reduced system without a contradiction is still reduced without its constants. -/
theorem dropLastColumn_spec {m : RowMatrix R} (hred : IsReduced m.rows) (hcol : m.columns = n + 1)
    (hcons : ∀ r ∈ m.rows, Row.lead r ≠ some n) :
    ∃ t, m.dropLastColumn = .ok t ∧ t.columns = n ∧ IsReduced t.rows ∧
      (nullSpace n t.rows : Set (Nat → K)) = nullSpace n m.rows := by
  obtain ⟨t, ht, htcol, hrows⟩ := dropLastColumn_eq hcol
  have hw : ∀ r ∈ m.rows, Sized.length r = n + 1 := fun r hr => (m.width r hr).trans hcol
  refine ⟨t, ht, htcol, ?_, by rw [hrows, nullSpace_truncated hw]⟩
  rw [hrows]
  exact isReduced_truncated hred hw fun r hr c hc => lead_lt_of_consistent hcol hcons hr hc

/-- Directions of a set of points: they lead from any of its points to any other, and an equation that
vanishes on the set does not change along them. -/
structure Directed (n : Nat) (A : Set (Nat → K)) (directions : List R) : Prop where
  leads : ∀ x ∈ A, ∀ y ∈ A, firstOf n (x - y) ∈ rowSpace directions
  still : ∀ v : Nat → K, (∀ x ∈ A, equationAt n v x = 0) → ∀ d ∈ directions, dotTo n v (Row.vec d) = 0

/-- The kernel of the coefficients of a system holds directions of its solutions. -/
theorem exists_directions {m : RowMatrix R} (hred : IsReduced m.rows) (hcol : m.columns = n + 1)
    (hcons : ∀ r ∈ m.rows, Row.lead r ≠ some n) :
    ∃ t, m.dropLastColumn = .ok t ∧ t.kernel = .ok t.kernelBasis ∧ (∀ k ∈ t.kernelBasis, Sized.length k = n) ∧
      Directed n (solutions n m.rows) t.kernelBasis := by
  obtain ⟨t, ht, htcol, htred, hnull⟩ := dropLastColumn_spec hred hcol hcons
  refine ⟨t, ht, RowMatrix.kernel_eq, fun k hk => (RowMatrix.length_of_mem_kernel hk).trans htcol, ?_, ?_⟩
  · intro x hx y hy
    refine RowMatrix.mem_rowSpace_kernel htred ?_ fun i hi => firstOf_of_le _ (by omega)
    rw [htcol, hnull]
    intro r hr
    have h1 := hx r hr
    have h2 := hy r hr
    rw [equationAt] at h1 h2
    rw [dotTo_firstOf, dotTo_sub_right, eq_neg_of_add_eq_zero_left h1, eq_neg_of_add_eq_zero_left h2, sub_self]
  · intro v hv k hk
    rcases RowMatrix.backSubstitute_cases hred hcol with ⟨p, -, -, hp, -⟩ | ⟨-, r, hr, hlead⟩
    · have hknull : Row.vec k ∈ nullSpace n m.rows := by
        rw [← hnull, ← htcol]
        exact RowMatrix.kernel_subset_nullSpace htred hk
      have hpk : Row.vec p + Row.vec k ∈ solutions n m.rows := by
        intro r hr
        rw [equationAt_add, hp r hr, hknull r hr, add_zero]
      have h1 := hv _ hpk
      rwa [equationAt_add, hv _ hp, zero_add] at h1
    · exact absurd hlead (hcons r hr)

end Directions

namespace RationalMatrix

variable {n : Nat}

/-- The rows of the identity. -/
def units (n : Nat) : List (List Fraction) := (List.range n).map fun i => (List.replicate n 0).set i 1

theorem vec_unit {i : Nat} (hi : i < n) (j : Nat) :
    Row.vec ((List.replicate n (0 : Fraction)).set i 1) j = if j = i then 1 else 0 := by
  rw [vec_fractions, List.getD_eq_getElem?_getD]
  by_cases hj : j = i
  · rw [if_pos hj, hj, List.getElem?_set_self (by simpa using hi), Option.getD_some, Fraction.toRat_one]
  · rw [if_neg hj, List.getElem?_set_ne (Ne.symm hj), List.getElem?_replicate]
    split <;> exact Fraction.toRat_zero

theorem identity_eq : ∃ m, identity n = .ok m ∧ m.columns = n ∧ m.rows = units n := by
  have hwidth : ∀ r ∈ units n, r.length = n := by
    intro r hr
    obtain ⟨i, -, rfl⟩ := List.mem_map.1 hr
    simp
  refine ⟨⟨n, units n, hwidth⟩, ?_, rfl, rfl⟩
  have hunits : (List.range n).mapM (Fraction.unitVector n) = .ok (units n) :=
    mapM_eq_map fun i hi => setEntry_of_lt (by simpa using hi) 1
  simp only [identity, hunits, bind, Except.bind]
  exact RowMatrix.ofRows_ok hwidth

theorem nullSpace_units {x : Nat → ℚ} : x ∈ nullSpace n (units n) ↔ ∀ i < n, x i = 0 := by
  have hdot : ∀ i < n, dotTo n (Row.vec ((List.replicate n (0 : Fraction)).set i 1)) x = x i := by
    intro i hi
    rw [dotTo, Finset.sum_eq_single_of_mem i (Finset.mem_range.2 hi)]
    · rw [vec_unit hi, if_pos rfl, one_mul]
    · intro j _ hji
      rw [vec_unit hi, if_neg hji, zero_mul]
  constructor
  · intro h i hi
    rw [← hdot i hi]
    exact h _ (List.mem_map_of_mem (List.mem_range.2 hi))
  · intro h r hr
    obtain ⟨i, hi, rfl⟩ := List.mem_map.1 hr
    rw [hdot i (List.mem_range.1 hi)]
    exact h i (List.mem_range.1 hi)

theorem isReduced_units : IsReduced (units n) := by
  have hlead : ∀ i < n, Row.lead ((List.replicate n (0 : Fraction)).set i 1) = some i := by
    intro i hi
    refine Row.lead_eq_some.2 ⟨?_, fun j hj => ?_⟩
    · rw [vec_unit hi, if_pos rfl]
      exact one_ne_zero
    · rw [vec_unit hi, if_neg hj.ne]
  refine ⟨fun r hr => ?_, List.pairwise_map.2 ?_, fun r hr q hq c hqc hrc => ?_⟩
  · obtain ⟨i, hi, rfl⟩ := List.mem_map.1 hr
    rw [List.mem_range] at hi
    exact ⟨i, hlead i hi, by rw [vec_unit hi, if_pos rfl]⟩
  · refine List.pairwise_lt_range.imp_of_mem fun {i j} hi hj hij c d hc hd => ?_
    rw [hlead i (List.mem_range.1 hi)] at hc
    rw [hlead j (List.mem_range.1 hj)] at hd
    rwa [← Option.some.inj hc, ← Option.some.inj hd]
  · obtain ⟨i, hi, rfl⟩ := List.mem_map.1 hr
    rw [List.mem_range] at hi
    rw [hlead i hi] at hrc
    rw [vec_unit hi, if_neg fun hci => hrc (congrArg some hci.symm)]

/-- The equations of a span vanish exactly on the combinations of the vectors: they are the kernel of
the kernel. -/
theorem spanEquations_spec {directions : List (List Fraction)} (h : ∀ d ∈ directions, d.length = n) :
    ∃ e, spanEquations n directions = .ok e ∧ e.columns = n ∧ IsReduced e.rows ∧
      ∀ x : Nat → ℚ, x ∈ nullSpace n e.rows ↔ firstOf n x ∈ rowSpace directions := by
  obtain ⟨basis, hbasis, hcol, hred, hspace⟩ := RowMatrix.exists_rrefMinimal (⟨n, directions, h⟩ : RationalMatrix)
  have hcol : basis.columns = n := hcol
  simp only [spanEquations, RowMatrix.ofRows_ok h, hbasis, RowMatrix.kernel_eq, bind, Except.bind]
  split
  · next hempty =>
    -- Nothing but zero is spanned, and the identity says just that.
    have hnil : basis.rows = [] := List.isEmpty_iff.1 hempty
    obtain ⟨one, hone, honecol, honerows⟩ := identity_eq (n := n)
    refine ⟨one, hone, honecol, honerows ▸ isReduced_units, fun x => ?_⟩
    rw [honerows, nullSpace_units, ← hspace, hnil]
    constructor
    · intro hx
      have h0 : firstOf n x = 0 := by
        funext i
        by_cases hi : i < n
        · exact (if_pos hi).trans (hx i hi)
        · exact if_neg hi
      rw [h0]
      exact zero_mem _
    · intro hx i hi
      have h0 : firstOf n x ∈ (⊥ : Submodule ℚ (Nat → ℚ)) := (rowSpace_le.2 (by simp)) hx
      have := congrFun ((Submodule.mem_bot ℚ).1 h0) i
      rwa [firstOf, if_pos hi] at this
  · have hk : ∀ k ∈ basis.kernelBasis, k.length = n := fun k hk => (RowMatrix.length_of_mem_kernel hk).trans hcol
    obtain ⟨e, he, hecol, hered, hker⟩ := RowMatrix.exists_rrefMinimal (⟨n, basis.kernelBasis, hk⟩ : RationalMatrix)
    rw [RowMatrix.ofRows_ok hk]
    refine ⟨e, he, hecol, hered, fun x => ?_⟩
    constructor
    · intro hx
      rw [← hspace]
      refine RowMatrix.mem_rowSpace_of_kernel hred (fun k hk => ?_) fun i hi => firstOf_of_le x (hcol ▸ hi)
      have hxk := nullSpace_anti hker.ge hx k hk
      rw [hcol, dotTo_comm, dotTo_firstOf, hxk]
    · intro hx
      refine nullSpace_anti hker.le fun k hk => ?_
      have hle : rowSpace basis.rows ≤ annihilator n (Row.vec k) :=
        rowSpace_le.2 fun r hr => hcol ▸ RowMatrix.kernel_subset_nullSpace hred hk r hr
      rw [← dotTo_firstOf, dotTo_comm]
      exact hle (hspace.ge hx)

/-- The equations with an offset vanish where the equations vanish of what leads there from the
point. -/
theorem withOffset_spec {m : RationalMatrix} (hcol : m.columns = n) {p : List Fraction} (hp : p.length = n) :
    ∃ e, withOffset m p = .ok e ∧ e.columns = n + 1 ∧
      ∀ x : Nat → ℚ, x ∈ solutions n e.rows ↔ x - Row.vec p ∈ nullSpace n m.rows := by
  rw [withOffset, if_pos (hp.trans hcol.symm)]
  refine ⟨_, rfl, by simp [hcol], fun x => ?_⟩
  have hrow : ∀ r ∈ m.rows, equationAt n (Row.vec (r ++ [-Fraction.dot r p])) x =
      dotTo n (Row.vec r) (x - Row.vec p) := by
    intro r hr
    have hlen : r.length = n := (m.width r hr).trans hcol
    have hconst : Row.vec (r ++ [-Fraction.dot r p]) n = -dotTo n (Row.vec r) (Row.vec p) := by
      rw [vec_fractions, List.getD_append_right _ _ _ _ (by omega), hlen, Nat.sub_self, ← hlen,
        ← Fraction.toRat_dot_eq, ← Fraction.toRat_neg]
      rfl
    have hcoeff : dotTo n (Row.vec (r ++ [-Fraction.dot r p])) x = dotTo n (Row.vec r) x :=
      Finset.sum_congr rfl fun i hi => by
        have hi := Finset.mem_range.1 hi
        rw [vec_fractions, List.getD_append _ _ _ _ (by omega), ← vec_fractions]
    rw [equationAt, hconst, hcoeff, dotTo_sub_right]
    ring
  constructor
  · intro h r hr
    rw [← hrow r hr]
    exact h _ (List.mem_map_of_mem hr)
  · intro h r hr
    obtain ⟨q, hq, rfl⟩ := List.mem_map.1 hr
    rw [hrow q hq]
    exact h q hq

end RationalMatrix

end FlowFacts
