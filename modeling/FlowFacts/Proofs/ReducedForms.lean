import Mathlib
import FlowFacts.Proofs.Relations

/-!
# Reduced forms are unique

The leading columns of reduced rows can be read off their span: they are the columns with which the
vectors of the span begin (`IsReduced.exists_lead`). A vector of the span that is zero in all of them is
zero, so reduced rows with the same span are the same rows (`IsReduced.eq_of_rowSpace_eq`). A matrix is
therefore brought to the one reduced form that its row space has (`RationalMatrix.rrefMinimal_canonical`).

Two consistent systems with the same solutions have the same span, hence relations that describe the
same points are equal (`Relations.eq_of_points_eq`), and what a system is read as depends on its
solutions only (`Relations.ofEquations_eq_iff`).
-/

namespace FlowFacts

/-! ## Rows with one span -/

section Span

variable {K S R : Type} [Field K] [Scalar S] [Row S R] [VectorRow K S R]

theorem mem_rowSpace_cons {r : R} {rows : List R} {v : Nat → K} :
    v ∈ rowSpace (r :: rows) ↔ ∃ k : K, ∃ w ∈ rowSpace rows, v = k • Row.vec r + w := by
  have hset : {v : Nat → K | ∃ q ∈ r :: rows, Row.vec q = v} = insert (Row.vec r) {v | ∃ q ∈ rows, Row.vec q = v} := by
    ext v
    simp [eq_comm]
  rw [rowSpace, hset]
  exact Submodule.mem_span_insert

namespace IsReduced

variable {rows others : List R}

/-- The rows after the first, and so their combinations, are zero up to its leading column. -/
theorem eq_zero_of_mem_tail {r : R} (h : IsReduced (r :: rows)) {c : Nat} (hc : Row.lead r = some c) {w : Nat → K}
    (hw : w ∈ rowSpace rows) {j : Nat} (hj : j ≤ c) : w j = 0 := by
  have hle : rowSpace rows ≤ LinearMap.ker (LinearMap.proj j : (Nat → K) →ₗ[K] K) := by
    refine rowSpace_le.2 fun q hq => ?_
    obtain ⟨d, hd, -⟩ := h.tail.lead_one q hq
    have hlt := (List.pairwise_cons.1 h.ascending).1 q hq c d hc hd
    exact (Row.lead_eq_some.1 hd).2 j (by omega)
  exact hle hw

/-- The first row is no combination of the others. -/
theorem vec_notMem_tail {r : R} (h : IsReduced (r :: rows)) : Row.vec r ∉ rowSpace rows := by
  intro hmem
  obtain ⟨c, hc, hone⟩ := h.lead_one r List.mem_cons_self
  have hzero := h.eq_zero_of_mem_tail hc hmem le_rfl
  rw [hone] at hzero
  exact one_ne_zero hzero

/-- A combination that is not zero begins with the leading column of one of the rows. -/
theorem exists_lead (h : IsReduced rows) {v : Nat → K} (hv : v ∈ rowSpace rows) (hne : v ≠ 0) :
    ∃ r ∈ rows, ∃ c, Row.lead r = some c ∧ v c ≠ 0 ∧ ∀ j < c, v j = 0 := by
  induction rows generalizing v with
  | nil => exact absurd (by simpa [rowSpace] using hv) hne
  | cons r rows ih =>
    obtain ⟨k, w, hw, rfl⟩ := mem_rowSpace_cons.1 hv
    by_cases hk : k = 0
    · rw [hk, zero_smul, zero_add] at hne ⊢
      obtain ⟨q, hq, hlead⟩ := ih h.tail hw hne
      exact ⟨q, List.mem_cons_of_mem _ hq, hlead⟩
    · -- If the first row takes part, its leading column is where the combination begins.
      obtain ⟨c, hc, hone⟩ := h.lead_one r List.mem_cons_self
      refine ⟨r, List.mem_cons_self, c, hc, ?_, fun j hj => ?_⟩
      · simpa [hone, h.eq_zero_of_mem_tail hc hw le_rfl] using hk
      · simp [(Row.lead_eq_some.1 hc).2 j hj, h.eq_zero_of_mem_tail hc hw hj.le]

/-- A combination that is zero in all leading columns is zero. -/
theorem eq_zero_of_lead (h : IsReduced rows) {v : Nat → K} (hv : v ∈ rowSpace rows)
    (hzero : ∀ r ∈ rows, ∀ c, Row.lead r = some c → v c = 0) : v = 0 := by
  by_contra hne
  obtain ⟨r, hr, c, hc, hvc, -⟩ := h.exists_lead hv hne
  exact hvc (hzero r hr c hc)

/-- Rows lead with columns with which the rows of a larger span lead. -/
theorem exists_lead_eq (h' : IsReduced others) (hle : rowSpace rows ≤ (rowSpace others : Submodule K (Nat → K)))
    {r : R} (hr : r ∈ rows) {c : Nat} (hc : Row.lead r = some c) : ∃ q ∈ others, Row.lead q = some c := by
  have hne : Row.vec r ≠ 0 := fun h0 => (Row.lead_eq_some.1 hc).1 (congrFun h0 c)
  obtain ⟨q, hq, d, hd, hbegins⟩ := h'.exists_lead (hle (vec_mem_rowSpace hr)) hne
  obtain rfl : c = d := Option.some.inj (hc.symm.trans (Row.lead_eq_some.2 hbegins))
  exact ⟨q, hq, hd⟩

/-- Every row of one of two reduced forms is a row of the other. -/
theorem exists_vec_eq (h : IsReduced rows) (h' : IsReduced others)
    (hspan : rowSpace rows = (rowSpace others : Submodule K (Nat → K))) {r : R} (hr : r ∈ rows) :
    ∃ q ∈ others, Row.vec q = Row.vec r := by
  obtain ⟨c, hc, hone⟩ := h.lead_one r hr
  obtain ⟨q, hq, hqc⟩ := h'.exists_lead_eq hspan.le hr hc
  refine ⟨q, hq, sub_eq_zero.1 (h.eq_zero_of_lead ?_ fun s hs e he => ?_)⟩
  · exact sub_mem (hspan ▸ vec_mem_rowSpace hq) (vec_mem_rowSpace hr)
  · -- Both rows have a one where they lead, and are zero where other rows lead.
    rw [Pi.sub_apply, sub_eq_zero]
    by_cases hec : e = c
    · rw [hec, h'.vec_lead hq hqc, hone]
    · obtain ⟨t, ht, hte⟩ := h'.exists_lead_eq hspan.le hs he
      rw [h'.clear q hq t ht e hte (by simpa [hqc] using Ne.symm hec),
        h.clear r hr s hs e he (by simpa [hc] using Ne.symm hec)]

theorem nodup (h : IsReduced rows) : rows.Nodup := by
  refine h.ascending.imp_of_mem fun {r q} hr _ hlt heq => ?_
  obtain ⟨c, hc, -⟩ := h.lead_one r hr
  exact lt_irrefl c (hlt c c hc (heq ▸ hc))

/-- Reduced rows are determined by their span, if rows are determined by their vectors. -/
theorem eq_of_rowSpace_eq (h : IsReduced rows) (h' : IsReduced others)
    (hinj : ∀ r ∈ rows, ∀ q ∈ others, (Row.vec r : Nat → K) = Row.vec q → r = q)
    (hspan : rowSpace rows = (rowSpace others : Submodule K (Nat → K))) : rows = others := by
  have hmem : ∀ r, r ∈ rows ↔ r ∈ others := by
    intro r
    constructor
    · intro hr
      obtain ⟨q, hq, hvec⟩ := h.exists_vec_eq h' hspan hr
      exact hinj r hr q hq hvec.symm ▸ hq
    · intro hr
      obtain ⟨q, hq, hvec⟩ := h'.exists_vec_eq h hspan.symm hr
      exact hinj q hq r hr hvec ▸ hq
  -- The order of the rows is that of their leading columns.
  refine List.Perm.eq_of_pairwise (fun r q hr hq hrq hqr => ?_) h.ascending h'.ascending
    ((List.perm_ext_iff_of_nodup h.nodup h'.nodup).2 hmem)
  obtain ⟨c, hc, -⟩ := h.lead_one r hr
  obtain ⟨d, hd, -⟩ := h'.lead_one q hq
  exact absurd (hrq c d hc hd) (hqr d c hd hc).asymm

end IsReduced

end Span

/-! ## The reduced form of a matrix -/

theorem eq_of_vec_eq {r q : List Fraction} (hlength : r.length = q.length) (h : Row.vec r = Row.vec q) : r = q := by
  refine List.ext_getElem hlength fun i hi hi' => ?_
  have hcoeff : r.getD i 0 = q.getD i 0 := VectorRow.val_injective (R := List Fraction) (congrFun h i)
  rwa [List.getD_eq_getElem _ _ hi, List.getD_eq_getElem _ _ hi'] at hcoeff

theorem RationalMatrix.eq_of_rows {a b : RationalMatrix} (hcolumns : a.columns = b.columns) (hrows : a.rows = b.rows) :
    a = b := by
  obtain ⟨ca, ra, ha⟩ := a
  obtain ⟨cb, rb, hb⟩ := b
  obtain rfl : ca = cb := hcolumns
  obtain rfl : ra = rb := hrows
  rfl

namespace RationalMatrix

/-- Matrices of one width with the same row space have the same reduced form. -/
theorem reduced_congr {a b : RationalMatrix} (hcolumns : a.columns = b.columns)
    (hspace : rowSpace a.rows = rowSpace b.rows) : a.reduced = b.reduced := by
  have ha : IsReduced a.reduced.rows := RowMatrix.isReduced_reduced a
  have hb : IsReduced b.reduced.rows := RowMatrix.isReduced_reduced b
  have hwide : a.reduced.columns = b.reduced.columns := by simpa using hcolumns
  refine eq_of_rows hwide (ha.eq_of_rowSpace_eq hb (fun r hr q hq hvec => ?_) ?_)
  · exact eq_of_vec_eq ((a.reduced.width r hr).trans (hwide.trans (b.reduced.width q hq).symm)) hvec
  · rw [RowMatrix.rowSpace_reduced, RowMatrix.rowSpace_reduced, hspace]

/-- Every matrix has a reduced form, which is the canonical form of its row space: it spans that space with reduced
rows, two matrices have the same one exactly if they are equally wide and have the same row space, and it is its
own. -/
theorem rrefMinimal_canonical (a b : RationalMatrix) :
    ∃ t, a.rrefMinimal = .ok t ∧ t.columns = a.columns ∧ rowSpace t.rows = rowSpace a.rows ∧ IsReduced t.rows ∧
      (a.rrefMinimal = b.rrefMinimal ↔ a.columns = b.columns ∧ rowSpace a.rows = rowSpace b.rows) ∧
      t.rrefMinimal = .ok t := by
  have hspace : ∀ m : RationalMatrix, rowSpace m.reduced.rows = rowSpace m.rows := RowMatrix.rowSpace_reduced
  refine ⟨a.reduced, RowMatrix.rrefMinimal_eq a, RowMatrix.columns_reduced a, hspace a, RowMatrix.isReduced_reduced a,
    ?_, ?_⟩
  · rw [RowMatrix.rrefMinimal_eq, RowMatrix.rrefMinimal_eq, Except.ok.injEq]
    refine ⟨fun h => ⟨?_, ?_⟩, fun h => reduced_congr h.1 h.2⟩
    · simpa using congrArg RowMatrix.columns h
    · rw [← hspace a, ← hspace b, h]
  · rw [RowMatrix.rrefMinimal_eq, reduced_congr (RowMatrix.columns_reduced a) (hspace a)]

end RationalMatrix

/-! ## Relations with the same points -/

/-- Canonical systems with the same solutions are equal. -/
theorem IsCanonical.eq_of_solutions_eq {n : Nat} {a b : RationalMatrix} (ha : IsCanonical n a) (hb : IsCanonical n b)
    (h : (solutions n a.rows : Set (Nat → ℚ)) = solutions n b.rows) : a = b := by
  have hcolumns : a.columns = b.columns := ha.columns.trans hb.columns.symm
  refine RationalMatrix.eq_of_rows hcolumns (ha.reduced.eq_of_rowSpace_eq hb.reduced (fun r hr q hq hvec => ?_) ?_)
  · exact eq_of_vec_eq ((a.width r hr).trans (hcolumns.trans (b.width q hq).symm)) hvec
  · exact le_antisymm ((hb.rowSpace_le_iff ha).2 h.ge) ((ha.rowSpace_le_iff hb).2 h.le)

namespace Relations

variable {n : Nat}

/-- Relations that describe the same points are equal. -/
theorem eq_of_points_eq {s t : Relations} (hs : s.Canonical n) (ht : t.Canonical n) (h : s.Points n = t.Points n) :
    s = t := by
  have hempty : ∀ {m : RationalMatrix}, IsCanonical n m → (solutions n m.rows : Set (Nat → ℚ)) ≠ ∅ := fun hm =>
    hm.solutions_nonempty.ne_empty
  have huniv : ∀ {m : RationalMatrix}, IsCanonical n m → (solutions n m.rows : Set (Nat → ℚ)) ≠ Set.univ := by
    intro m hm heq
    obtain ⟨x, hx⟩ := hm.solutions_ne_univ
    exact hx (heq ▸ Set.mem_univ x)
  cases s with
  | bottom =>
    cases t with
    | bottom => rfl
    | top => exact absurd h.symm Set.univ_nonempty.ne_empty
    | system m => exact absurd h.symm (hempty ht)
  | top =>
    cases t with
    | bottom => exact absurd h Set.univ_nonempty.ne_empty
    | top => rfl
    | system m => exact absurd h.symm (huniv ht)
  | system m =>
    cases t with
    | bottom => exact absurd h (hempty hs)
    | top => exact absurd h (huniv hs)
    | system m' => rw [hs.eq_of_solutions_eq ht h]

end Relations

/-! ## Systems with the same solutions -/

/-- The rational points that satisfy every equation of a system in `n` variables. The row
`a₀ … aₙ₋₁ k` reads `a₀ x₀ + … + aₙ₋₁ xₙ₋₁ + k = 0`. -/
def RationalMatrix.solutionSet (n : Nat) (m : RationalMatrix) : Set (Fin n → ℚ) :=
  {x | ∀ row ∈ m.rows, ∑ i : Fin n, (row.getD i 0).toRat * x i + (row.getD n 0).toRat = 0}

/-- Solutions are written down as sequences of which the first entries count. -/
theorem solutions_eq_preimage (n : Nat) (m : RationalMatrix) :
    (solutions n m.rows : Set (Nat → ℚ)) = Set.preimage (fun x (i : Fin n) => x i) (m.solutionSet n) := by
  ext x
  refine forall₂_congr fun row _ => ?_
  rw [equationAt_eq_sum]
  rfl

theorem surjective_restrict (n : Nat) : Function.Surjective fun (x : Nat → ℚ) (i : Fin n) => x i :=
  Fin.val_injective.surjective_comp_right

namespace Relations

variable {n : Nat} {a b : RationalMatrix}

theorem solving_points (ha : a.columns = n + 1) : (solving a).Canonical n ∧
    (solving a).Points n = Set.preimage (fun x (i : Fin n) => x i) (a.solutionSet n) := by
  rw [← solutions_eq_preimage]
  exact solving_spec ha

/-- Every system is read as relations. They keep its solutions, and systems are read as equal relations exactly if
they have the same ones: `bottom` stands for none, `top` for all points, and any other set of solutions is
that of a system. -/
theorem ofEquations_eq_iff (ha : a.columns = n + 1) (hb : b.columns = n + 1) :
    ∃ s t, ofEquations a = .ok s ∧ ofEquations b = .ok t ∧ (s = t ↔ a.solutionSet n = b.solutionSet n) ∧
      (s = bottom ↔ a.solutionSet n = ∅) ∧ (s = top ↔ a.solutionSet n = Set.univ) ∧
      (a.solutionSet n ≠ ∅ → a.solutionSet n ≠ Set.univ →
        ∃ m, s = system m ∧ m.columns = n + 1 ∧ m.solutionSet n = a.solutionSet n) := by
  obtain ⟨hcanonical, hpoints⟩ := solving_points ha
  obtain ⟨hcanonical', hpoints'⟩ := solving_points hb
  have hinj := Set.preimage_injective.2 (surjective_restrict n)
  have hsame : ∀ {t : Relations} {A : Set (Fin n → ℚ)}, t.Canonical n →
      t.Points n = Set.preimage (fun x (i : Fin n) => x i) A → (solving a = t ↔ a.solutionSet n = A) := by
    intro t A ht hA
    rw [← hinj.eq_iff, ← hpoints, ← hA]
    exact ⟨fun h => h ▸ rfl, eq_of_points_eq hcanonical ht⟩
  have hbottom := hsame (t := bottom) trivial Set.preimage_empty.symm
  have htop := hsame (t := top) trivial Set.preimage_univ.symm
  refine ⟨solving a, solving b, ofEquations_eq a, ofEquations_eq b, hsame hcanonical' hpoints', hbottom, htop,
    fun hempty huniv => ?_⟩
  cases hread : solving a with
  | bottom => exact absurd (hbottom.1 hread) hempty
  | top => exact absurd (htop.1 hread) huniv
  | system m =>
    rw [hread] at hcanonical hpoints
    refine ⟨m, rfl, hcanonical.columns, hinj ?_⟩
    rw [← solutions_eq_preimage, ← hpoints]
    rfl

/-- `x + y = 2`. -/
def sumIsTwo : RationalMatrix := ⟨3, [[1, 1, .ofInt (-2)]], by decide⟩

/-- The same, with an equation that says nothing and one that says it again. -/
def sumIsTwoAgain : RationalMatrix :=
  ⟨3, [[0, 0, 0], [.ofInt 3, .ofInt 3, .ofInt (-6)], [-1, -1, .ofInt 2]], by decide⟩

/-- The reduced forms are computed, and that they are equal says that the solutions are the same. -/
theorem ofEquations_eq_iff_sumIsTwo : ofEquations sumIsTwo = ofEquations sumIsTwoAgain ∧
    sumIsTwo.solutionSet 2 = sumIsTwoAgain.solutionSet 2 ∧ sumIsTwo.solutionSet 2 ≠ ∅ := by
  have hread : ofEquations sumIsTwo = ofEquations sumIsTwoAgain := by decide +kernel
  obtain ⟨s, t, hs, ht, hsame, hbottom, -, -⟩ :=
    ofEquations_eq_iff (n := 2) (a := sumIsTwo) (b := sumIsTwoAgain) rfl rfl
  have hst : s = t := Except.ok.inj (hs.symm.trans (hread.trans ht))
  have hne : ofEquations sumIsTwo ≠ .ok bottom := by decide +kernel
  exact ⟨hread, hsame.1 hst, mt hbottom.2 fun h => hne (h ▸ hs)⟩

end Relations

end FlowFacts
