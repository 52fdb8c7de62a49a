import Mathlib
import FlowFacts.Proofs.ReducedForms

/-!
# All solutions of a system

The reduced form of a system says whether there are solutions, and where they are: back-substitution gives one of them,
and the kernel of the coefficients a basis of what the others differ from it by (`RowMatrix.reduced_cases`). There
is one vector of the basis for each column in which no row leads.

Over the rationals the solutions are a point and the span of the basis (`RationalMatrix.solutionSet_exact`), and a span
has equations that nothing else satisfies (`RationalMatrix.spanEquations_exact`). Modulo two a combination of the basis is the
sum of a part of it, so that each solution is reached by one part and no other (`BitMatrix.solutionSet_bijOn`).
-/

namespace FlowFacts

section Field

variable {K S R : Type} [Field K] [Scalar S] [Row S R] [VectorRow K S R] {n : Nat}

/-- The entries of a row in the first `n` columns. -/
def Row.entries (n : Nat) (r : R) : Fin n → K := fun i => Row.vec r i

/-- Some rows as vectors with `n` entries. -/
def vectors (n : Nat) (rows : List R) : Fin rows.length → Fin n → K := fun i => Row.entries n (rows.get i)

/-- Rows of width `n` span the same as the vectors of their entries. -/
theorem mem_span_vectors {rows : List R} (hw : ∀ r ∈ rows, Sized.length r = n) {x : Nat → K} :
    (fun i : Fin n => x i) ∈ Submodule.span K (Set.range (vectors n rows)) ↔ firstOf n x ∈ rowSpace rows := by
  let cut : (Nat → K) →ₗ[K] Fin n → K := LinearMap.funLeft K K Fin.val
  have hspan : Submodule.span K (Set.range (vectors n rows)) = (rowSpace rows).map cut := by
    rw [rowSpace, Submodule.map_span]
    congr 1
    ext v
    constructor
    · rintro ⟨i, rfl⟩
      exact ⟨_, ⟨rows.get i, List.get_mem rows i, rfl⟩, rfl⟩
    · rintro ⟨_, ⟨r, hr, rfl⟩, rfl⟩
      obtain ⟨i, rfl⟩ := List.get_of_mem hr
      exact ⟨i, rfl⟩
  rw [hspan]
  constructor
  · rintro ⟨w, hmem, heq⟩
    have hx : firstOf n x = w := by
      funext i
      by_cases hi : i < n
      · rw [firstOf, if_pos hi]
        exact (congrFun heq ⟨i, hi⟩).symm
      · rw [firstOf_of_le x (by omega), eq_zero_of_mem_rowSpace hw hmem (by omega)]
    rw [hx]
    exact hmem
  · intro hmem
    exact ⟨firstOf n x, hmem, funext fun i => if_pos i.isLt⟩

/-! ## A basis of the kernel -/

namespace RowMatrix

variable {m : RowMatrix R}

/-- The columns are those in which a row leads and those in which none does. -/
theorem length_freeColumns (h : IsReduced m.rows) : m.freeColumns.length + m.height = m.columns := by
  obtain ⟨hnodup, hlength⟩ := h.leads
  have hperm : (m.freeColumns ++ m.rows.filterMap Row.lead).Perm (List.range m.columns) := by
    have happart : (m.freeColumns ++ m.rows.filterMap Row.lead).Nodup := by
      refine List.nodup_append.2 ⟨nodup_freeColumns, hnodup, ?_⟩
      rintro c hc _ hd rfl
      obtain ⟨r, hr, hrc⟩ := List.mem_filterMap.1 hd
      exact (mem_freeColumns.1 hc).2 r hr hrc
    refine (List.perm_ext_iff_of_nodup happart List.nodup_range).2 fun c => ?_
    rw [List.mem_append, List.mem_filterMap, List.mem_range]
    constructor
    · rintro (hc | ⟨r, hr, hrc⟩)
      · exact (mem_freeColumns.1 hc).1
      · rw [← m.width r hr]
        exact Row.lead_lt_length hrc
    · exact free_or_lead
  have hlen := hperm.length_eq
  rwa [List.length_append, hlength, List.length_range] at hlen

theorem linearIndependent_kernel : LinearIndependent K (vectors m.columns m.kernelBasis) := by
  have hlen : m.kernelBasis.length = m.freeColumns.length := List.length_map _
  let free (i : Fin m.kernelBasis.length) : Nat := m.freeColumns.get (i.cast hlen)
  have hfree : ∀ i, free i ∈ m.freeColumns := fun i => List.get_mem _ _
  let place (i : Fin m.kernelBasis.length) : Fin m.columns := ⟨free i, (mem_freeColumns.1 (hfree i)).1⟩
  have hentry : ∀ i j, vectors m.columns m.kernelBasis j (place i) = Row.vec (m.kernelAt (free j)) (free i) := by
    intro i j
    have hget : m.kernelBasis.get j = m.kernelAt (free j) := List.getElem_map m.kernelAt
    rw [vectors, Row.entries, hget]
  -- Each vector has a minus one in its free column, where the others are zero.
  refine .of_pairwise_dual_eq_zero_one _ (fun i => -LinearMap.proj (place i)) (fun i j hij => ?_) fun i => ?_
  · have hne : free i ≠ free j := by
      intro heq
      have hcast := (List.Nodup.get_inj_iff nodup_freeColumns).1 heq
      exact hij (Fin.cast_injective hlen hcast)
    have hzero := vec_kernelAt_free (mem_freeColumns.1 (hfree j)).1 (mem_freeColumns.1 (hfree i)).2 hne
    show -vectors m.columns m.kernelBasis j (place i) = 0
    rw [hentry, hzero, neg_zero]
  · show -vectors m.columns m.kernelBasis i (place i) = 1
    rw [hentry, vec_kernelAt_self (hfree i), neg_neg]

include K in
theorem height_dropLastColumn {t : RowMatrix R} (hcol : m.columns = n + 1) (h : m.dropLastColumn = .ok t) :
    t.height = m.height := by
  obtain ⟨t', ht', -, hrows⟩ := dropLastColumn_eq hcol
  obtain rfl : t = t' := Except.ok.inj (h.symm.trans ht')
  rw [height, height, hrows, List.length_map]

end RowMatrix

/-! ## What the reduced form says -/

/-- A point of a set, and independent directions that lead from it to the other points of the set and nowhere else. -/
structure Reached (n : Nat) (A : Set (Fin n → K)) (p : R) (directions : List R) : Prop where
  length : ∀ r ∈ p :: directions, Sized.length r = n
  independent : LinearIndependent K (vectors n directions)
  mem_iff : ∀ x, x ∈ A ↔ x - Row.entries n p ∈ Submodule.span K (Set.range (vectors n directions))

theorem Reached.self_mem {A : Set (Fin n → K)} {p : R} {directions : List R} (h : Reached n A p directions) :
    Row.entries n p ∈ A := by
  rw [h.mem_iff, sub_self]
  exact zero_mem _

/-- In a reduced system without a contradiction, the kernel of the coefficients leads from one solution to all
others. -/
theorem RowMatrix.mem_solutions_iff_kernel {r t : RowMatrix R} (hred : IsReduced r.rows) (hcol : r.columns = n + 1)
    (hcons : ∀ q ∈ r.rows, Row.lead q ≠ some n) (ht : r.dropLastColumn = .ok t) {p : Nat → K}
    (hp : p ∈ solutions n r.rows) (x : Nat → K) :
    x ∈ solutions n r.rows ↔ firstOf n (x - p) ∈ rowSpace t.kernelBasis := by
  obtain ⟨t', ht', -, hlength, hdirected⟩ := exists_directions hred hcol hcons
  obtain rfl : t = t' := Except.ok.inj (ht.symm.trans ht')
  refine ⟨fun hx => hdirected.leads x hx p hp, fun hx q hq => ?_⟩
  -- The equations of the system do not change along the kernel.
  have hstill : rowSpace t.kernelBasis ≤ annihilator n (Row.vec q) := rowSpace_le.2 fun k hk => by
    rw [mem_annihilator, dotTo_comm]
    exact hdirected.still _ (fun y hy => hy q hq) k hk
  have hzero : dotTo n (Row.vec q) (x - p) = 0 := by
    rw [← dotTo_firstOf, dotTo_comm]
    exact hstill hx
  rw [← add_sub_cancel p x, equationAt_add, hp q hq, hzero, add_zero]

omit [Scalar S] in
theorem RowMatrix.isInconsistent_iff {r : RowMatrix R} (hcol : r.columns = n + 1) :
    r.isInconsistent = true ↔ ∃ q ∈ r.rows, Row.lead q = some n := by
  simp [isInconsistent, hcol]

/-- The reduced form of a system shows that there is no solution, or gives one and the way to all others. -/
theorem RowMatrix.reduced_cases [DecidableEq S] {m : RowMatrix R} (hcol : m.columns = n + 1) {A : Set (Fin n → K)}
    (hA : (solutions n m.rows : Set (Nat → K)) = Set.preimage (fun x (i : Fin n) => x i) A) :
    (A = ∅ ∧ m.reduced.backSubstitute = .ok none ∧ m.reduced.isInconsistent = true) ∨
      ∃ p t basis, m.reduced.backSubstitute = .ok (some p) ∧ m.reduced.isInconsistent = false ∧
        m.reduced.dropLastColumn = .ok t ∧ t.kernel = .ok basis ∧ basis.length + m.reduced.height = n ∧
        Reached n A p basis := by
  have hred : IsReduced m.reduced.rows := isReduced_reduced m
  have hcol : m.reduced.columns = n + 1 := (columns_reduced m).trans hcol
  have hinc := isInconsistent_iff hcol
  have hrestrict : Function.Surjective fun (x : Nat → K) (i : Fin n) => x i := Fin.val_injective.surjective_comp_right
  rw [← solutions_congr (rowSpace_reduced m)] at hA
  rcases backSubstitute_cases hred hcol with ⟨p, hback, hlen, hp, hcons⟩ | ⟨hback, q, hq, hlead⟩
  · right
    obtain ⟨t, ht, rfl, htred, -⟩ := dropLastColumn_spec hred hcol hcons
    refine ⟨p, t, t.kernelBasis, hback, ?_, ht, kernel_eq, ?_,
      List.forall_mem_cons.2 ⟨hlen, fun k => length_of_mem_kernel⟩, linearIndependent_kernel, fun x => ?_⟩
    · rw [← Bool.not_eq_true, hinc]
      rintro ⟨q, hq, hlead⟩
      exact hcons q hq hlead
    · rw [← height_dropLastColumn hcol ht, kernelBasis, List.length_map]
      exact length_freeColumns htred
    · obtain ⟨y, rfl⟩ := hrestrict x
      have hy := mem_solutions_iff_kernel hred hcol hcons ht hp y
      rw [hA, ← mem_span_vectors fun k => length_of_mem_kernel] at hy
      exact hy
  · left
    refine ⟨?_, hback, hinc.2 ⟨q, hq, hlead⟩⟩
    apply Set.preimage_injective.2 hrestrict
    rw [← hA, solutions_eq_empty hq hlead, Set.preimage_empty]

end Field

/-! ## Rational systems -/

/-- A system with a column for constants has no rational solution exactly if back-substitution in its reduced form finds
none, and exactly if that form has a row with a constant and no variable. Otherwise back-substitution finds a solution,
and all solutions are this one moved along the span of the kernel, which is a basis: its vectors are independent, and
together with the rows of the reduced form they are as many as the variables. -/
theorem RationalMatrix.solutionSet_exact {m : RationalMatrix} {n : Nat} (hcol : m.columns = n + 1) :
    ∃ e, m.rrefMinimal = .ok e ∧ (e.backSubstitute = .ok none ↔ m.solutionSet n = ∅) ∧
      (e.isInconsistent = true ↔ m.solutionSet n = ∅) ∧
      (m.solutionSet n ≠ ∅ → ∃ p t basis, e.backSubstitute = .ok (some p) ∧ e.dropLastColumn = .ok t ∧
        t.kernel = .ok basis ∧ (∀ r ∈ p :: basis, r.length = n) ∧ Row.entries n p ∈ m.solutionSet n ∧
        m.solutionSet n = {x | ∃ v ∈ Submodule.span ℚ (Set.range (vectors n basis)), x = Row.entries n p + v} ∧
        LinearIndependent ℚ (vectors n basis) ∧ basis.length + e.height = n) := by
  refine ⟨m.reduced, RowMatrix.rrefMinimal_eq m, ?_⟩
  rcases RowMatrix.reduced_cases hcol (solutions_eq_preimage n m) with
    ⟨hempty, hback, hinc⟩ | ⟨p, t, basis, hback, hinc, ht, hbasis, hcount, hreached⟩
  · exact ⟨iff_of_true hback hempty, iff_of_true hinc hempty, fun hne => absurd hempty hne⟩
  · have hne : m.solutionSet n ≠ ∅ := Set.Nonempty.ne_empty ⟨_, hreached.self_mem⟩
    refine ⟨iff_of_false (by simp [hback]) hne, iff_of_false (by simp [hinc]) hne, fun _ => ?_⟩
    refine ⟨p, t, basis, hback, ht, hbasis, hreached.length, hreached.self_mem, ?_, hreached.independent, hcount⟩
    ext x
    rw [hreached.mem_iff, Set.mem_ofPred_eq]
    constructor
    · intro hx
      exact ⟨_, hx, (add_sub_cancel _ _).symm⟩
    · rintro ⟨v, hv, rfl⟩
      rwa [add_sub_cancel_left]

namespace RationalMatrix

/-- `2 x + 4 y = 2` and `x + 2 y + z = 0`, with their sum. -/
def planes : RationalMatrix :=
  ⟨4, [[.ofInt 2, .ofInt 4, 0, .ofInt (-2)], [1, .ofInt 2, 1, 0], [.ofInt 3, .ofInt 6, 1, .ofInt (-2)]], by decide⟩

/-- `x + y = 1` and `x + y = 2`. -/
def planesApart : RationalMatrix := ⟨3, [[1, 1, -1], [1, 1, .ofInt (-2)]], by decide⟩

/-- The two planes meet in a line through `(1, 0, -1)`, and planes that do not meet are found out. -/
theorem solutionSet_exact_planes :
    (∃ e t basis, planes.rrefMinimal = .ok e ∧ e.dropLastColumn = .ok t ∧ t.kernel = .ok basis ∧ basis.length = 1 ∧
      planes.solutionSet 3 = {x | ∃ v ∈ Submodule.span ℚ (Set.range (vectors 3 basis)),
        x = Row.entries 3 ([1, 0, -1] : List Fraction) + v}) ∧ planesApart.solutionSet 2 = ∅ := by
  have hread : (planes.rrefMinimal.bind fun e => e.backSubstitute.map fun p => (p, e.height)) =
      .ok (some [1, 0, -1], 2) := by decide +kernel
  have happart : (planesApart.rrefMinimal.bind fun e => e.backSubstitute) = .ok none := by decide +kernel
  obtain ⟨e, he, hnone, -, hsome⟩ := solutionSet_exact (m := planes) (n := 3) rfl
  obtain ⟨e', he', hnone', -⟩ := solutionSet_exact (m := planesApart) (n := 2) rfl
  rw [he, Except.bind] at hread
  rw [he', Except.bind] at happart
  have hne : planes.solutionSet 3 ≠ ∅ := by
    intro hempty
    rw [hnone.2 hempty] at hread
    cases hread
  obtain ⟨p, t, basis, hp, ht, hbasis, -, -, hsolutions, -, hcount⟩ := hsome hne
  rw [hp] at hread
  obtain ⟨hpoint, hheight⟩ := Prod.mk.inj (Except.ok.inj hread)
  obtain rfl := Option.some.inj hpoint
  exact ⟨⟨e, t, basis, he, ht, hbasis, by omega, hsolutions⟩, hnone'.1 happart⟩

end RationalMatrix

/-! ## The equations of a span -/

namespace RationalMatrix

/-- The rational vectors with `n` entries that every row sends to zero. -/
def kernelSet (n : Nat) (m : RationalMatrix) : Set (Fin n → ℚ) :=
  {x | ∀ row ∈ m.rows, ∑ i : Fin n, (row.getD i 0).toRat * x i = 0}

theorem mem_kernelSet {n : Nat} {m : RationalMatrix} {x : Nat → ℚ} :
    (fun i : Fin n => x i) ∈ m.kernelSet n ↔ x ∈ nullSpace n m.rows := by
  refine forall₂_congr fun row _ => ?_
  rw [dotTo, Finset.sum_range]
  rfl

theorem vectors_eq_zero {n : Nat} {directions : List (List Fraction)} (h : ∀ d ∈ directions, ∀ a ∈ d, a = 0) :
    vectors n directions = 0 := by
  funext j i
  have hzero := h _ (List.get_mem directions j)
  show ((directions.get j).getD i 0).toRat = 0
  rw [Fraction.toRat_eq_zero, List.getD_eq_getElem?_getD]
  cases hget : (directions.get j)[(i : Nat)]? with
  | none => rfl
  | some a => exact hzero a (List.mem_of_getElem? hget)

/-- The equations of a span are in reduced form, and a rational vector satisfies them exactly if it is a combination of
the directions. If no direction leads anywhere, only the origin does. -/
theorem spanEquations_exact {n : Nat} {directions : List (List Fraction)} (h : ∀ d ∈ directions, d.length = n) :
    ∃ e, spanEquations n directions = .ok e ∧ e.columns = n ∧ IsReduced e.rows ∧
      e.kernelSet n = {x | ∃ c : Fin directions.length → ℚ, ∑ j, c j • vectors n directions j = x} ∧
      ((∀ d ∈ directions, ∀ a ∈ d, a = 0) → e.kernelSet n = {0}) := by
  obtain ⟨e, he, hcol, hred, hspan⟩ := spanEquations_spec h
  have hkernel : e.kernelSet n = {x | ∃ c : Fin directions.length → ℚ, ∑ j, c j • vectors n directions j = x} := by
    ext x
    obtain ⟨y, rfl⟩ := surjective_restrict n x
    rw [mem_kernelSet, hspan, ← mem_span_vectors h]
    exact Submodule.mem_span_range_iff_exists_fun ℚ
  refine ⟨e, he, hcol, hred, hkernel, fun hzero => ?_⟩
  rw [hkernel, vectors_eq_zero hzero]
  ext x
  simp [eq_comm]

/-- Two directions of one line, and one that leads nowhere. -/
def alongLine : List (List Fraction) := [[.half, 1, 0], [-1, .ofInt (-2), 0], [0, 0, 0]]

/-- The line has the equations `x - y / 2 = 0` and `z = 0`. What leads nowhere has those of the origin. -/
theorem spanEquations_exact_alongLine :
    (∃ e, spanEquations 3 alongLine = .ok e ∧ e.rows = [[1, -.half, 0], [0, 0, 1]] ∧
      e.kernelSet 3 = {x | ∃ c : Fin 3 → ℚ, ∑ j, c j • vectors 3 alongLine j = x}) ∧
    ∃ e, spanEquations 2 [[0, 0]] = .ok e ∧ e.rows = [[1, 0], [0, 1]] ∧ e.kernelSet 2 = {0} := by
  have hline : (spanEquations 3 alongLine).toOption.map (·.rows) = some [[1, -.half, 0], [0, 0, 1]] := by decide +kernel
  have horigin : (spanEquations 2 [[0, 0]]).toOption.map (·.rows) = some [[1, 0], [0, 1]] := by decide +kernel
  obtain ⟨e, he, -, -, hkernel, -⟩ := spanEquations_exact (show ∀ d ∈ alongLine, d.length = 3 by decide)
  obtain ⟨f, hf, -, -, -, hzero⟩ := spanEquations_exact (show ∀ d ∈ [[0, 0]], d.length = 2 by decide)
  rw [he] at hline
  rw [hf] at horigin
  exact ⟨⟨e, he, Option.some.inj hline, hkernel⟩, f, hf, Option.some.inj horigin, hzero (by decide)⟩

end RationalMatrix

/-! ## Systems modulo two -/

/-- The bits that satisfy every row of a system in `n` variables, the constants in the last column. -/
def BitMatrix.solutionSet (n : Nat) (m : BitMatrix) : Set (Fin n → ZMod 2) :=
  {x | ∀ row ∈ m.rows, ∑ i : Fin n, bitVal (row.bit i) * x i + bitVal (row.bit n) = 0}

theorem BitMatrix.solutions_eq_preimage (n : Nat) (m : BitMatrix) :
    (solutions n m.rows : Set (Nat → ZMod 2)) = Set.preimage (fun x (i : Fin n) => x i) (m.solutionSet n) := by
  ext x
  refine forall₂_congr fun row _ => ?_
  rw [equationAt_eq_sum]
  rfl

/-- Modulo two, the combinations of independent vectors are the sums of parts of them, each part with its own sum. -/
theorem bijOn_sum_of_linearIndependent {ι V : Type} [Fintype ι] [AddCommGroup V] [Module (ZMod 2) V] {v : ι → V}
    (h : LinearIndependent (ZMod 2) v) :
    Set.BijOn (fun s : Finset ι => ∑ i ∈ s, v i) Set.univ (Submodule.span (ZMod 2) (Set.range v) : Set V) := by
  classical
  have hsum : ∀ s : Finset ι, ∑ i ∈ s, v i = ∑ i, (if i ∈ s then (1 : ZMod 2) else 0) • v i := by
    intro s
    simp [Finset.sum_ite_mem]
  refine ⟨fun s _ => ?_, fun s _ s' _ heq => ?_, fun x hx => ?_⟩
  · exact Submodule.sum_mem _ fun i _ => Submodule.subset_span ⟨i, rfl⟩
  · simp only [hsum] at heq
    ext i
    have hi := Fintype.linearIndependent_iffₛ.1 h _ _ heq i
    by_cases hs : i ∈ s <;> by_cases hs' : i ∈ s' <;> simp_all
  · obtain ⟨c, rfl⟩ := (Submodule.mem_span_range_iff_exists_fun (ZMod 2)).1 hx
    refine ⟨Finset.univ.filter fun i => c i = 1, trivial, ?_⟩
    simp only [hsum]
    refine Finset.sum_congr rfl fun i _ => ?_
    rcases zmod_eq_zero_or_one (c i) with hc | hc <;> simp [hc]

/-- Reduction keeps the row space of a system modulo two. Back-substitution in the reduced form finds no solution
exactly if there is none, and otherwise one to which the sum of any part of the kernel can be added: that gives
all solutions, each of them for one part of the kernel. -/
theorem BitMatrix.solutionSet_bijOn {m : BitMatrix} {n : Nat} (hcol : m.columns = n + 1) :
    ∃ e, m.rrefMinimal = .ok e ∧ rowSpace e.rows = rowSpace m.rows ∧
      (e.backSubstitute = .ok none ↔ m.solutionSet n = ∅) ∧
      (m.solutionSet n ≠ ∅ → ∃ p t basis, e.backSubstitute = .ok (some p) ∧ e.dropLastColumn = .ok t ∧
        t.kernel = .ok basis ∧ (∀ r ∈ p :: basis, r.length = n) ∧
        Set.BijOn (fun s : Finset (Fin basis.length) => Row.entries n p + ∑ i ∈ s, vectors n basis i)
          Set.univ (m.solutionSet n)) := by
  refine ⟨m.reduced, RowMatrix.rrefMinimal_eq m, RowMatrix.rowSpace_reduced m, ?_⟩
  rcases RowMatrix.reduced_cases hcol (BitMatrix.solutions_eq_preimage n m) with
    ⟨hempty, hback, -⟩ | ⟨p, t, basis, hback, -, ht, hbasis, -, hreached⟩
  · exact ⟨iff_of_true hback hempty, fun hne => absurd hempty hne⟩
  · have hne : m.solutionSet n ≠ ∅ := Set.Nonempty.ne_empty ⟨_, hreached.self_mem⟩
    refine ⟨iff_of_false (by simp [hback]) hne, fun _ => ⟨p, t, basis, hback, ht, hbasis, hreached.length, ?_⟩⟩
    obtain ⟨hmaps, hinj, hsurj⟩ := bijOn_sum_of_linearIndependent hreached.independent
    refine ⟨fun s hs => ?_, fun s hs s' hs' heq => ?_, fun x hx => ?_⟩
    · rw [hreached.mem_iff, add_sub_cancel_left]
      exact hmaps hs
    · exact hinj hs hs' (add_left_cancel heq)
    · obtain ⟨s, hs, heq⟩ := hsurj ((hreached.mem_iff x).1 hx)
      refine ⟨s, hs, ?_⟩
      simp only at heq ⊢
      rw [heq, add_sub_cancel]

namespace BitMatrix

/-- `x + y = 1` and `y + z = 1`, with their sum. -/
def unlike : BitMatrix :=
  ⟨4, [.ofList [true, true, false, true], .ofList [true, false, true, false], .ofList [false, true, true, true]],
    by decide⟩

/-- Three bits of which neighbours differ are `010` or `101`, and the kernel leads from one to the other. -/
theorem solutionSet_bijOn_unlike : ∃ e p t basis, unlike.rrefMinimal = .ok e ∧ e.backSubstitute = .ok (some p) ∧
    e.dropLastColumn = .ok t ∧ t.kernel = .ok basis ∧ p.toList = [false, true, false] ∧
    basis.map BitRow.toList = [[true, true, true]] ∧
    Set.BijOn (fun s : Finset (Fin basis.length) => Row.entries 3 p + ∑ i ∈ s, vectors 3 basis i)
      Set.univ (unlike.solutionSet 3) := by
  have hpoint : (unlike.rrefMinimal.bind fun e => e.backSubstitute.map (·.map BitRow.toList)) =
      .ok (some [false, true, false]) := by decide +kernel
  have hkernel : (unlike.rrefMinimal.bind fun e => e.dropLastColumn.bind fun t =>
      t.kernel.map (·.map BitRow.toList)) = .ok [[true, true, true]] := by decide +kernel
  obtain ⟨e, he, -, hnone, hsome⟩ := solutionSet_bijOn (m := unlike) (n := 3) rfl
  rw [he, Except.bind] at hpoint hkernel
  have hne : unlike.solutionSet 3 ≠ ∅ := by
    intro hempty
    rw [hnone.2 hempty] at hpoint
    cases hpoint
  obtain ⟨p, t, basis, hp, ht, hbasis, -, hbij⟩ := hsome hne
  rw [hp] at hpoint
  rw [ht, Except.bind, hbasis] at hkernel
  exact ⟨e, p, t, basis, he, hp, ht, hbasis, Option.some.inj (Except.ok.inj hpoint), Except.ok.inj hkernel, hbij⟩

end BitMatrix

end FlowFacts
