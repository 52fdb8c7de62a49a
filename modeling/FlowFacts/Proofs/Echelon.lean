import Mathlib
import FlowFacts.Proofs.RowVectors

/-!
# Elimination keeps the row space and ends in reduced form

`IsReduced` is the form that elimination ends in: each row has a one in its leading column, the
leading columns ascend, and a leading column is zero in all other rows. `Reduction.step_cases` says what
the work on one column does to rows of one width, and that it does not fail. `Stage` is what holds when
the columns before `k` are done; one column takes it from `k` to `k + 1`, and no column changes the
row space.

`RowMatrix.rrefMinimal_eq`: elimination always ends in a reduced form, which is called `reduced`.
`RowMatrix.isReduced_reduced`, `RowMatrix.rowSpace_reduced`: it is reduced and spans the same space.
`IsReduced.finrank_rowSpace`: its height is the rank.
-/

namespace FlowFacts

variable {K S R : Type} [Field K] [Scalar S] [Row S R] [VectorRow K S R]

/-- Reduced row echelon form, without zero rows. -/
structure IsReduced (rows : List R) : Prop where
  lead_one : ∀ r ∈ rows, ∃ c, Row.lead r = some c ∧ Row.vec r c = 1
  ascending : rows.Pairwise fun r q => ∀ c d, Row.lead r = some c → Row.lead q = some d → c < d
  clear : ∀ r ∈ rows, ∀ q ∈ rows, ∀ c, Row.lead q = some c → Row.lead r ≠ some c → Row.vec r c = 0

namespace IsReduced

theorem tail {r : R} {rows : List R} (h : IsReduced (r :: rows)) : IsReduced rows where
  lead_one q hq := h.lead_one q (List.mem_cons_of_mem _ hq)
  ascending := (List.pairwise_cons.1 h.ascending).2
  clear q hq s hs := h.clear q (List.mem_cons_of_mem _ hq) s (List.mem_cons_of_mem _ hs)

theorem vec_lead {rows : List R} (h : IsReduced rows) {r : R} (hr : r ∈ rows) {c : Nat}
    (hc : Row.lead r = some c) : Row.vec r c = 1 := by
  obtain ⟨d, hd, hone⟩ := h.lead_one r hr
  rw [hc] at hd
  rwa [Option.some.inj hd]

/-- The rows after the first are zero in its leading column. -/
theorem vec_tail {r : R} {rows : List R} (h : IsReduced (r :: rows)) {c : Nat} (hc : Row.lead r = some c)
    {q : R} (hq : q ∈ rows) : Row.vec q c = 0 := by
  refine h.clear q (List.mem_cons_of_mem _ hq) r List.mem_cons_self c hc fun hqc => ?_
  exact lt_irrefl c ((List.pairwise_cons.1 h.ascending).1 q hq c c hc hqc)

/-- Two rows that lead with the same column are the same row. -/
theorem eq_of_lead {rows : List R} (h : IsReduced rows) {r q : R} (hr : r ∈ rows) (hq : q ∈ rows)
    {c : Nat} (hrc : Row.lead r = some c) (hqc : Row.lead q = some c) : r = q := by
  induction rows with
  | nil => cases hr
  | cons s rows ih =>
    have hlt := (List.pairwise_cons.1 h.ascending).1
    rcases List.mem_cons.1 hr with rfl | hr' <;> rcases List.mem_cons.1 hq with rfl | hq'
    · rfl
    · exact absurd (hlt q hq' c c hrc hqc) (lt_irrefl c)
    · exact absurd (hlt r hr' c c hqc hrc) (lt_irrefl c)
    · exact ih h.tail hr' hq'

/-- A change of the rows that keeps where they lead, and what stands in the leading columns, keeps the
form. -/
theorem map {rows : List R} (h : IsReduced rows) {g : R → R}
    (hlead : ∀ r ∈ rows, ∀ c, Row.lead r = some c → Row.lead (g r) = some c)
    (hentry : ∀ r ∈ rows, ∀ q ∈ rows, ∀ c, Row.lead q = some c → Row.vec (g r) c = Row.vec r c) :
    IsReduced (rows.map g) := by
  have hback : ∀ r ∈ rows, ∀ c, Row.lead (g r) = some c → Row.lead r = some c := by
    intro r hr c hc
    obtain ⟨d, hd, -⟩ := h.lead_one r hr
    rwa [hd, ← hlead r hr d hd]
  refine ⟨fun s hs => ?_, ?_, fun s hs q hq c hc hne => ?_⟩
  · obtain ⟨r, hr, rfl⟩ := List.mem_map.1 hs
    obtain ⟨c, hc, hone⟩ := h.lead_one r hr
    exact ⟨c, hlead r hr c hc, by rw [hentry r hr r hr c hc, hone]⟩
  · refine List.pairwise_map.2 (h.ascending.imp_of_mem fun {r q} hr hq hrq c d hc hd => ?_)
    exact hrq c d (hback r hr c hc) (hback q hq d hd)
  · obtain ⟨r, hr, rfl⟩ := List.mem_map.1 hs
    obtain ⟨u, hu, rfl⟩ := List.mem_map.1 hq
    have huc := hback u hu c hc
    rw [hentry r hr u hu c huc]
    exact h.clear r hr u hu c huc fun hrc => hne (hlead r hr c hrc)

/-- A row that leads with a one, further right than the others and where they are zero, can follow
them. -/
theorem snoc {rows : List R} (h : IsReduced rows) {p : R} {k : Nat} (hp : Row.lead p = some k)
    (hone : Row.vec p k = 1) (hlt : ∀ r ∈ rows, ∀ c, Row.lead r = some c → c < k)
    (hzero : ∀ r ∈ rows, Row.vec r k = 0) : IsReduced (rows ++ [p]) := by
  refine ⟨fun s hs => ?_, ?_, fun s hs q hq c hc hne => ?_⟩
  · rcases List.mem_append.1 hs with hs | hs
    · exact h.lead_one s hs
    · rw [List.mem_singleton.1 hs]
      exact ⟨k, hp, hone⟩
  · refine List.pairwise_append.2 ⟨h.ascending, List.pairwise_singleton _ _, fun s hs q hq c d hc hd => ?_⟩
    rw [List.mem_singleton.1 hq, hp] at hd
    rw [← Option.some.inj hd]
    exact hlt s hs c hc
  · rcases List.mem_append.1 hs with hs | hs <;> rcases List.mem_append.1 hq with hq | hq
    · exact h.clear s hs q hq c hc hne
    · rw [List.mem_singleton.1 hq, hp] at hc
      rw [← Option.some.inj hc]
      exact hzero s hs
    · rw [List.mem_singleton.1 hs]
      exact (Row.lead_eq_some.1 hp).2 c (hlt q hq c hc)
    · rw [List.mem_singleton.1 hs] at hne
      rw [List.mem_singleton.1 hq] at hc
      exact absurd hc hne

/-- The rows of a reduced form are independent, so there are as many as the rank. -/
theorem finrank_rowSpace {rows : List R} (h : IsReduced rows) :
    Module.finrank K (rowSpace rows : Submodule K (Nat → K)) = rows.length := by
  let b : Fin rows.length → Nat → K := fun i => Row.vec (rows.get i)
  have hrange : {v | ∃ r ∈ rows, Row.vec r = v} = Set.range b := by
    ext v
    constructor
    · rintro ⟨r, hr, rfl⟩
      obtain ⟨i, rfl⟩ := List.get_of_mem hr
      exact ⟨i, rfl⟩
    · rintro ⟨i, rfl⟩
      exact ⟨rows.get i, List.get_mem rows i, rfl⟩
  have hind : LinearIndependent K b := by
    choose place hlead hone using fun i : Fin rows.length => h.lead_one (rows.get i) (List.get_mem rows i)
    refine .of_pairwise_dual_eq_zero_one b (fun i => LinearMap.proj (place i)) (fun i j hij => ?_) hone
    -- Row `j` is zero where row `i` leads, for it leads elsewhere.
    refine h.clear _ (List.get_mem rows j) _ (List.get_mem rows i) _ (hlead i) fun hj => ?_
    rcases lt_or_gt_of_ne hij with hlt | hlt
    · exact lt_irrefl _ (List.pairwise_iff_get.1 h.ascending i j hlt _ _ (hlead i) hj)
    · exact lt_irrefl _ (List.pairwise_iff_get.1 h.ascending j i hlt _ _ hj (hlead i))
  rw [rowSpace, hrange, finrank_span_eq_card hind, Fintype.card_fin]

end IsReduced

/-! ## One column -/

theorem rowSpace_perm {rows others : List R} (h : rows.Perm others) :
    (rowSpace rows : Submodule K (Nat → K)) = rowSpace others :=
  le_antisymm (rowSpace_le.2 fun _ hr => vec_mem_rowSpace (h.subset hr))
    (rowSpace_le.2 fun _ hr => vec_mem_rowSpace (h.symm.subset hr))

/-- Scaling a row by a number other than zero does not change what the rows span. -/
theorem rowSpace_scale {k : K} (hk : k ≠ 0) {p r : R} (hp : Row.vec p = k • Row.vec r) (rows : List R) :
    rowSpace (p :: rows) = rowSpace (r :: rows) := by
  have hr : Row.vec r = k⁻¹ • Row.vec p := by rw [hp, inv_smul_smul₀ hk]
  apply le_antisymm
  · refine rowSpace_le.2 fun q hq => ?_
    rcases List.mem_cons.1 hq with rfl | hq
    · rw [hp]
      exact Submodule.smul_mem _ _ (vec_mem_rowSpace List.mem_cons_self)
    · exact vec_mem_rowSpace (List.mem_cons_of_mem _ hq)
  · refine rowSpace_le.2 fun q hq => ?_
    rcases List.mem_cons.1 hq with rfl | hq
    · rw [hr]
      exact Submodule.smul_mem _ _ (vec_mem_rowSpace List.mem_cons_self)
    · exact vec_mem_rowSpace (List.mem_cons_of_mem _ hq)

variable [DecidableEq S]

namespace Reduction

/-- Every row has a given width. -/
structure Wide (n : Nat) (t : Reduction R) : Prop where
  pivots : ∀ r ∈ t.pivots, Sized.length r = n
  unused : ∀ r ∈ t.unused, Sized.length r = n

/-- Among rows that have the column the search finds the first with a coefficient there, if any has one. -/
theorem findPivot_cases {column : Nat} {rows : List R} (h : ∀ r ∈ rows, column < Sized.length r) :
    (findPivot column rows = .ok none ∧ ∀ r ∈ rows, Row.vec r column = 0) ∨
      ∃ s, findPivot column rows = .ok (some s) ∧ rows = s.before ++ s.pivot :: s.after ∧
        Row.vec s.pivot column ≠ 0 := by
  induction rows with
  | nil => exact .inl ⟨rfl, by simp⟩
  | cons r rest ih =>
    simp only [findPivot, VectorRow.get_of_lt (h r List.mem_cons_self), bind, Except.bind, pure, Except.pure]
    by_cases hc : VectorRow.coeff r column = 0
    · rw [if_neg (not_not.2 hc)]
      rcases ih fun q hq => h q (List.mem_cons_of_mem _ hq) with ⟨hnone, hzero⟩ | ⟨s, hs, hrows, hne⟩
      · rw [hnone]
        exact .inl ⟨rfl, List.forall_mem_cons.2 ⟨Row.vec_eq_zero.2 hc, hzero⟩⟩
      · rw [hs]
        exact .inr ⟨s.behind r, rfl, congrArg (List.cons r) hrows, hne⟩
    · rw [if_pos hc]
      exact .inr ⟨⟨[], r, rest⟩, rfl, rfl, fun h0 => hc (Row.vec_eq_zero.1 h0)⟩

omit [Scalar S] [Row S R] [DecidableEq S] in
/-- Changing places keeps all rows. -/
theorem perm_swapped (s : Split R) : (s.before ++ s.pivot :: s.after).Perm (s.pivot :: s.swapped) := by
  unfold Split.swapped
  split
  · next h => rw [h, List.nil_append]
  · next r between h =>
    rw [h]
    have hfront : (r :: between ++ s.pivot :: s.after).Perm (s.pivot :: r :: (between ++ s.after)) := List.perm_middle
    exact hfront.trans (List.perm_middle.symm.cons _)

/-- The row that clearing ends with. -/
def cleared (column : Nat) (p r : R) : R := resultOr r (clear column p r)

/-- A row that has the column is cleared by one of the same length. -/
theorem clear_spec {column : Nat} {p r : R} (hlen : Sized.length p = Sized.length r) (hc : column < Sized.length r) :
    clear column p r = .ok (cleared column p r) ∧
      Row.vec (cleared column p r) = Row.vec r - Row.vec r column • Row.vec p := by
  have hclear : ∃ q, clear column p r = .ok q ∧ Row.vec q = Row.vec r - Row.vec r column • Row.vec p := by
    simp only [clear, VectorRow.get_of_lt hc, bind, Except.bind, pure, Except.pure]
    split
    · next h0 => exact ⟨r, rfl, by rw [Row.vec_eq_zero.2 h0, zero_smul, sub_zero]⟩
    · obtain ⟨q, hq, hvec⟩ := Row.exists_plus (-VectorRow.coeff r column) hlen
      refine ⟨q, hq, ?_⟩
      rw [hvec, VectorRow.val_neg, neg_smul, ← sub_eq_add_neg]
      rfl
  obtain ⟨q, hq, hvec⟩ := hclear
  rw [cleared, hq]
  exact ⟨rfl, hvec⟩

theorem length_cleared (column : Nat) (p r : R) : Sized.length (cleared column p r) = Sized.length r := by
  unfold cleared clear
  cases Row.get r column with
  | error e => rfl
  | ok k =>
    simp only [bind, Except.bind, pure, Except.pure]
    split
    · rfl
    · cases h : Row.plus r (-k) p with
      | error e => rfl
      | ok q => exact Row.length_plus h

include K in
theorem mapM_clear {n column : Nat} {p : R} {rows : List R} (hp : Sized.length p = n) (hc : column < n)
    (h : ∀ r ∈ rows, Sized.length r = n) : rows.mapM (clear column p) = .ok (rows.map (cleared column p)) :=
  mapM_eq_map fun r hr => (clear_spec (hp.trans (h r hr).symm) (by rw [h r hr]; exact hc)).1

/-- What the work on a column does: nothing if no unused row has a coefficient there, and otherwise one
such row is scaled to have a one and joins the pivot rows, and all others are cleared with it. -/
inductive Stepped (n column : Nat) (t : Reduction R) : Reduction R → Prop where
  | idle (hzero : ∀ r ∈ t.unused, Row.vec r column = 0) : Stepped n column t t
  | pivot {r p : R} {others : List R} (hperm : t.unused.Perm (r :: others)) (hne : Row.vec r column ≠ 0)
    (hlen : Sized.length p = n) (hp : Row.vec p = (Row.vec r column)⁻¹ • Row.vec r) :
    Stepped n column t ⟨t.pivots.map (cleared column p) ++ [p], others.map (cleared column p)⟩

/-- The work on a column of rows of one width does not fail. -/
theorem exists_step {n column : Nat} {t : Reduction R} (h : Wide n t) (hc : column < n) :
    ∃ u, t.step column = .ok u ∧ Stepped n column t u := by
  rcases findPivot_cases fun r hr => (h.unused r hr).symm ▸ hc with ⟨hnone, hzero⟩ | ⟨s, hs, hrows, hne⟩
  · refine ⟨t, ?_, .idle hzero⟩
    simp only [step, hnone, bind, Except.bind, pure, Except.pure]
  · have hperm : t.unused.Perm (s.pivot :: s.swapped) := hrows ▸ perm_swapped s
    have hpivot : Sized.length s.pivot = n := h.unused _ (hperm.symm.subset List.mem_cons_self)
    have hothers : ∀ q ∈ s.swapped, Sized.length q = n := fun q hq =>
      h.unused q (hperm.symm.subset (List.mem_cons_of_mem _ hq))
    obtain ⟨k, hk, hval⟩ := VectorRow.reciprocal_of_ne (R := R) (mt Row.vec_eq_zero.2 hne)
    have hlen : Sized.length (Row.scale k s.pivot) = n := by rw [Row.length_scale, hpivot]
    refine ⟨_, ?_, .pivot hperm hne hlen (by rw [Row.vec_scale, hval]; rfl)⟩
    simp only [step, hs, VectorRow.get_of_lt (hpivot.symm ▸ hc), hk, mapM_clear hlen hc h.pivots,
      mapM_clear hlen hc hothers, bind, Except.bind, pure, Except.pure]

namespace Stepped

variable {n column : Nat} {t u : Reduction R}

theorem wide (h : Stepped n column t u) (hw : Wide n t) : Wide n u := by
  cases h with
  | idle => exact hw
  | @pivot r p others hperm _ hlen _ =>
    constructor
    · intro s hs
      rcases List.mem_append.1 hs with hs | hs
      · obtain ⟨q, hq, rfl⟩ := List.mem_map.1 hs
        rw [length_cleared, hw.pivots q hq]
      · rw [List.mem_singleton.1 hs, hlen]
    · intro s hs
      obtain ⟨q, hq, rfl⟩ := List.mem_map.1 hs
      rw [length_cleared, hw.unused q (hperm.symm.subset (List.mem_cons_of_mem _ hq))]

end Stepped

/-! ## The row space stays -/

/-- Clearing rows with one that stays does not change what they span. -/
theorem rowSpace_cleared {n column : Nat} {p : R} {rows : List R} (hp : Sized.length p = n) (hc : column < n)
    (h : ∀ r ∈ rows, Sized.length r = n) :
    rowSpace (p :: rows.map (cleared column p)) = rowSpace (p :: rows) := by
  have hvec : ∀ r ∈ rows, Row.vec (cleared column p r) = Row.vec r - Row.vec r column • Row.vec p := fun r hr =>
    (clear_spec (hp.trans (h r hr).symm) (by rw [h r hr]; exact hc)).2
  apply le_antisymm
  · refine rowSpace_le.2 fun q hq => ?_
    rcases List.mem_cons.1 hq with rfl | hq
    · exact vec_mem_rowSpace List.mem_cons_self
    · obtain ⟨r, hr, rfl⟩ := List.mem_map.1 hq
      rw [hvec r hr]
      exact sub_mem (vec_mem_rowSpace (List.mem_cons_of_mem _ hr))
        (Submodule.smul_mem _ _ (vec_mem_rowSpace List.mem_cons_self))
  · refine rowSpace_le.2 fun r hr => ?_
    rcases List.mem_cons.1 hr with rfl | hr
    · exact vec_mem_rowSpace List.mem_cons_self
    · have hback : Row.vec r = Row.vec (cleared column p r) + Row.vec r column • Row.vec p := by
        rw [hvec r hr, sub_add_cancel]
      rw [hback]
      exact add_mem (vec_mem_rowSpace (List.mem_cons_of_mem _ (List.mem_map_of_mem hr)))
        (Submodule.smul_mem _ _ (vec_mem_rowSpace List.mem_cons_self))

/-- All rows of a reduction. -/
def rows (t : Reduction R) : List R := t.pivots ++ t.unused

theorem Stepped.rowSpace_eq {n column : Nat} {t u : Reduction R} (h : Stepped n column t u) (hw : Wide n t)
    (hc : column < n) : rowSpace u.rows = rowSpace t.rows := by
  cases h with
  | idle => rfl
  | @pivot r p others hperm hne hlen hp =>
    have hwide : ∀ q ∈ t.pivots ++ others, Sized.length q = n := by
      intro q hq
      rcases List.mem_append.1 hq with hq | hq
      · exact hw.pivots q hq
      · exact hw.unused q (hperm.symm.subset (List.mem_cons_of_mem _ hq))
    calc rowSpace (t.pivots.map (cleared column p) ++ [p] ++ others.map (cleared column p))
        = rowSpace (p :: (t.pivots ++ others).map (cleared column p)) := by
          rw [List.map_append, List.append_assoc]
          exact rowSpace_perm List.perm_middle
      _ = rowSpace (p :: (t.pivots ++ others)) := rowSpace_cleared hlen hc hwide
      _ = rowSpace (r :: (t.pivots ++ others)) := rowSpace_scale (inv_ne_zero hne) hp _
      _ = rowSpace (t.pivots ++ t.unused) :=
          (rowSpace_perm ((hperm.append_left t.pivots).trans List.perm_middle)).symm

/-! ## The columns before one are done -/

/-- What holds when the columns before `k` are done. -/
structure Stage (k : Nat) (t : Reduction R) : Prop where
  reduced : IsReduced t.pivots
  lead_lt : ∀ r ∈ t.pivots, ∀ c, Row.lead r = some c → c < k
  unused : ∀ r ∈ t.unused, ∀ j < k, Row.vec r j = 0

omit [DecidableEq S] in
theorem Stage.idle {k : Nat} {t : Reduction R} (h : Stage k t) (hzero : ∀ r ∈ t.unused, Row.vec r k = 0) :
    Stage (k + 1) t where
  reduced := h.reduced
  lead_lt r hr c hc := (h.lead_lt r hr c hc).trans (Nat.lt_succ_self k)
  unused r hr j hj := by
    rcases Nat.lt_succ_iff_lt_or_eq.1 hj with hj | rfl
    · exact h.unused r hr j hj
    · exact hzero r hr

/-- With a new pivot row for column `k`, cleared from all others, that column is done as well. -/
theorem Stage.pivot {n k : Nat} {t : Reduction R} (h : Stage k t) (hw : Wide n t) (hk : k < n) {p : R}
    {others : List R} (hlen : Sized.length p = n) (hothers : ∀ q ∈ others, q ∈ t.unused) (hone : Row.vec p k = 1)
    (hzero : ∀ j < k, Row.vec p j = 0) :
    Stage (k + 1) ⟨t.pivots.map (cleared k p) ++ [p], others.map (cleared k p)⟩ := by
  have hvec : ∀ q : R, Sized.length q = n → Row.vec (cleared k p q) = Row.vec q - Row.vec q k • Row.vec p :=
    fun q hq => (clear_spec (hlen.trans hq.symm) (hq.symm ▸ hk)).2
  have hcolumn : ∀ q : R, Sized.length q = n → Row.vec (cleared k p q) k = 0 := by
    intro q hq
    rw [hvec q hq, Pi.sub_apply, Pi.smul_apply, hone, smul_eq_mul, mul_one, sub_self]
  -- The new row is zero before `k`, so clearing with it changes no earlier column.
  have hbefore : ∀ q : R, Sized.length q = n → ∀ j < k, Row.vec (cleared k p q) j = Row.vec q j := by
    intro q hq j hj
    rw [hvec q hq, Pi.sub_apply, Pi.smul_apply, hzero j hj, smul_zero, sub_zero]
  have hplead : Row.lead p = some k := Row.lead_eq_some.2 ⟨by rw [hone]; exact one_ne_zero, hzero⟩
  have hkeep : ∀ q ∈ t.pivots, ∀ c, Row.lead q = some c → Row.lead (cleared k p q) = some c := by
    intro q hq c hc
    obtain ⟨hne, hlt⟩ := Row.lead_eq_some.1 hc
    have hck := h.lead_lt q hq c hc
    refine Row.lead_eq_some.2 ⟨?_, fun j hj => ?_⟩
    · rwa [hbefore q (hw.pivots q hq) c hck]
    · rw [hbefore q (hw.pivots q hq) j (hj.trans hck), hlt j hj]
  have hlt : ∀ s ∈ t.pivots.map (cleared k p), ∀ c, Row.lead s = some c → c < k := by
    intro s hs c hc
    obtain ⟨q, hq, rfl⟩ := List.mem_map.1 hs
    obtain ⟨d, hd, -⟩ := h.reduced.lead_one q hq
    rw [hkeep q hq d hd] at hc
    rw [← Option.some.inj hc]
    exact h.lead_lt q hq d hd
  refine ⟨(h.reduced.map hkeep fun r hr q hq c hc => ?_).snoc hplead hone hlt fun s hs => ?_, ?_, ?_⟩
  · exact hbefore r (hw.pivots r hr) c (h.lead_lt q hq c hc)
  · obtain ⟨q, hq, rfl⟩ := List.mem_map.1 hs
    exact hcolumn q (hw.pivots q hq)
  · intro s hs c hc
    rcases List.mem_append.1 hs with hs | hs
    · exact (hlt s hs c hc).trans (Nat.lt_succ_self k)
    · rw [List.mem_singleton.1 hs, hplead] at hc
      rw [← Option.some.inj hc]
      exact Nat.lt_succ_self k
  · intro s hs j hj
    obtain ⟨q, hq, rfl⟩ := List.mem_map.1 hs
    have hqu := hothers q hq
    rcases Nat.lt_succ_iff_lt_or_eq.1 hj with hj | rfl
    · rw [hbefore q (hw.unused q hqu) j hj, h.unused q hqu j hj]
    · exact hcolumn q (hw.unused q hqu)

theorem Stage.step {n k : Nat} {t u : Reduction R} (h : Stage k t) (hw : Wide n t) (hk : k < n)
    (hstep : Stepped n k t u) : Stage (k + 1) u := by
  cases hstep with
  | idle hzero => exact h.idle hzero
  | @pivot r p others hperm hne hlen hp =>
    have hru : r ∈ t.unused := hperm.symm.subset List.mem_cons_self
    refine h.pivot hw hk hlen (fun q hq => hperm.symm.subset (List.mem_cons_of_mem _ hq)) ?_ fun j hj => ?_
    · rw [hp, Pi.smul_apply, smul_eq_mul, inv_mul_cancel₀ hne]
    · rw [hp, Pi.smul_apply, h.unused r hru j hj, smul_zero]

/-- The work on the first `k` columns does not fail. After it these are done, and the rows span what they
did. -/
theorem exists_run {n : Nat} {rs : List R} (h : ∀ r ∈ rs, Sized.length r = n) (k : Nat) (hk : k ≤ n) :
    ∃ t, run k rs = .ok t ∧ Wide n t ∧ Stage k t ∧ rowSpace t.rows = rowSpace rs := by
  induction k with
  | zero =>
    refine ⟨⟨[], rs⟩, rfl, ⟨by simp, h⟩, ⟨⟨?_, .nil, ?_⟩, ?_, ?_⟩, rfl⟩ <;> simp
  | succ k ih =>
    obtain ⟨t, ht, hw, hstage, hspace⟩ := ih (by omega)
    obtain ⟨u, hu, hstep⟩ := exists_step hw hk
    refine ⟨u, ?_, hstep.wide hw, hstage.step hw hk hstep, (hstep.rowSpace_eq hw hk).trans hspace⟩
    rw [run] at ht ⊢
    simp only [List.range_succ, List.foldlM_append, ht, List.foldlM_cons, hu, List.foldlM_nil, bind, Except.bind, pure,
      Except.pure]

end Reduction

namespace RowMatrix

theorem ofRows_ok {S R : Type} [Row S R] {n : Nat} {rows : List R} (h : ∀ r ∈ rows, Sized.length r = n) :
    ofRows n rows = .ok ⟨n, rows, h⟩ := dif_pos h

/-- Elimination does not fail. It ends in reduced form and keeps the row space: the rows that it leaves
unused are zero, so nothing is lost with them. -/
theorem exists_rrefMinimal (m : RowMatrix R) :
    ∃ t, m.rrefMinimal = .ok t ∧ t.columns = m.columns ∧ IsReduced t.rows ∧ rowSpace t.rows = rowSpace m.rows := by
  obtain ⟨t, ht, hw, hstage, hspace⟩ := Reduction.exists_run m.width m.columns le_rfl
  have hzero : rowSpace t.unused = (⊥ : Submodule K (Nat → K)) := by
    rw [eq_bot_iff]
    refine rowSpace_le.2 fun r hr => ?_
    have h0 : Row.vec r = 0 := by
      funext j
      by_cases hj : j < m.columns
      · exact hstage.unused r hr j hj
      · exact Row.vec_of_length_le (by rw [hw.unused r hr]; omega)
    rw [h0]
    exact zero_mem _
  refine ⟨⟨m.columns, t.pivots, hw.pivots⟩, ?_, rfl, hstage.reduced, ?_⟩
  · simp only [rrefMinimal, ht, ofRows_ok hw.pivots, bind, Except.bind]
  · rw [← hspace, Reduction.rows, rowSpace_append, hzero, sup_bot_eq]

/-- The reduced form without zero rows. -/
def reduced (m : RowMatrix R) : RowMatrix R := resultOr m m.rrefMinimal

include K in
theorem rrefMinimal_eq (m : RowMatrix R) : m.rrefMinimal = .ok m.reduced := by
  obtain ⟨t, ht, -⟩ := exists_rrefMinimal m
  exact eq_ok_resultOr ⟨t, ht⟩ m

include K in
@[simp] theorem columns_reduced (m : RowMatrix R) : m.reduced.columns = m.columns := by
  obtain ⟨t, ht, hcol, -⟩ := exists_rrefMinimal m
  rwa [reduced, ht]

theorem isReduced_reduced (m : RowMatrix R) : IsReduced m.reduced.rows := by
  obtain ⟨t, ht, -, hred, -⟩ := exists_rrefMinimal m
  rwa [reduced, ht]

theorem rowSpace_reduced (m : RowMatrix R) : rowSpace m.reduced.rows = rowSpace m.rows := by
  obtain ⟨t, ht, -, -, hspace⟩ := exists_rrefMinimal m
  rwa [reduced, ht]

end RowMatrix

end FlowFacts
