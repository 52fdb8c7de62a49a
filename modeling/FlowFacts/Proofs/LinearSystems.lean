import Mathlib
import FlowFacts.Proofs.Echelon

/-!
# Kernels and back-substitution

`RowMatrix.kernel_eq`: the kernel is computed without fault, and has one vector for each column in which
no row leads. For a matrix in reduced form it is a basis of the vectors that every row sends to zero, and
conversely a vector that is sent to zero by all of them is a combination of the rows
(`mem_rowSpace_of_kernel`). `RowMatrix.backSubstitute_cases`: back-substitution finds a solution of a
system with constants unless a row has a constant and no variable.

Both halves of the duality rest on one remark, `exists_interpolation`: vectors of which each is not
zero at a place of its own, where the others are zero, can be combined to take given values there.
-/

namespace FlowFacts

section Interpolation

variable {K : Type} [Field K]

theorem exists_interpolation {ι : Type} (v : ι → Nat → K) (place : ι → Nat) {l : List ι}
    (hself : ∀ a ∈ l, v a (place a) ≠ 0)
    (hother : l.Pairwise fun a b => v a (place b) = 0 ∧ v b (place a) = 0) (x : Nat → K) :
    ∃ w ∈ Submodule.span K {u | ∃ a ∈ l, v a = u}, ∀ a ∈ l, w (place a) = x (place a) := by
  induction l with
  | nil => exact ⟨0, zero_mem _, by simp⟩
  | cons a l ih =>
    obtain ⟨hhead, htail⟩ := List.pairwise_cons.1 hother
    obtain ⟨w, hw, hval⟩ := ih (fun b hb => hself b (List.mem_cons_of_mem _ hb)) htail
    have ha := hself a List.mem_cons_self
    refine ⟨w + ((x (place a) - w (place a)) / v a (place a)) • v a, ?_, fun b hb => ?_⟩
    · refine add_mem (Submodule.span_mono ?_ hw) (Submodule.smul_mem _ _ ?_)
      · rintro u ⟨b, hb, rfl⟩
        exact ⟨b, List.mem_cons_of_mem _ hb, rfl⟩
      · exact Submodule.subset_span ⟨a, List.mem_cons_self, rfl⟩
    · rcases List.mem_cons.1 hb with rfl | hb
      · simp only [Pi.add_apply, Pi.smul_apply, smul_eq_mul]
        rw [div_mul_cancel₀ _ ha]
        ring
      · simp only [Pi.add_apply, Pi.smul_apply, smul_eq_mul]
        rw [(hhead b hb).1, mul_zero, add_zero, hval b hb]

end Interpolation

theorem Row.lead_lt_length {K S R : Type} [Field K] [Scalar S] [Row S R] [VectorRow K S R] {r : R} {c : Nat}
    (h : lead r = some c) : c < Sized.length r := by
  by_contra hc
  exact (VectorRow.of_lead_some h).1 (VectorRow.coeff_of_length_le (by omega))

variable {K S R : Type} [Field K] [Scalar S] [Row S R] [VectorRow K S R]

/-- Each row leads, and no two with the same column. -/
theorem IsReduced.leads {rows : List R} (h : IsReduced rows) :
    (rows.filterMap Row.lead).Nodup ∧ (rows.filterMap Row.lead).length = rows.length := by
  constructor
  · refine List.pairwise_filterMap.2 (h.ascending.imp fun hlt c hc d hd => ?_)
    exact (hlt c d hc hd).ne
  · refine List.filterMap_length_eq_length.2 fun r hr => ?_
    obtain ⟨c, hc, -⟩ := h.lead_one r hr
    rw [hc]
    rfl

/-- There are no more reduced rows than columns in which they lead. -/
theorem IsReduced.length_le {rows : List R} (h : IsReduced rows) {n : Nat}
    (hlead : ∀ r ∈ rows, ∀ c, Row.lead r = some c → c < n) : rows.length ≤ n := by
  obtain ⟨hnodup, hlength⟩ := h.leads
  have hsub : rows.filterMap Row.lead ⊆ List.range n := by
    intro c hc
    obtain ⟨r, hr, hrc⟩ := List.mem_filterMap.1 hc
    exact List.mem_range.2 (hlead r hr c hrc)
  have hlen := (List.subperm_of_subset hnodup hsub).length_le
  rwa [hlength, List.length_range] at hlen

/-- Reduced rows can be combined to take given values in their leading columns. -/
theorem IsReduced.exists_combination {rows : List R} (h : IsReduced rows) (x : Nat → K) :
    ∃ w ∈ rowSpace rows, ∀ r ∈ rows, ∀ c, Row.lead r = some c → w c = x c := by
  let place : R → Nat := fun r => (Row.lead r).getD 0
  have hplace : ∀ r : R, ∀ c, Row.lead r = some c → place r = c := by
    intro r c hc
    simp only [place, hc, Option.getD_some]
  obtain ⟨w, hw, hval⟩ := exists_interpolation Row.vec place (l := rows)
    (fun r hr => by
      obtain ⟨c, hc, hone⟩ := h.lead_one r hr
      rw [hplace r c hc, hone]
      exact one_ne_zero)
    (h.ascending.imp_of_mem fun {r q} hr hq hlt => by
      obtain ⟨c, hc, -⟩ := h.lead_one r hr
      obtain ⟨d, hd, -⟩ := h.lead_one q hq
      have hcd : c ≠ d := (hlt c d hc hd).ne
      rw [hplace r c hc, hplace q d hd]
      refine ⟨h.clear r hr q hq d hd ?_, h.clear q hq r hr c hc ?_⟩
      · rw [hc]; simpa using hcd
      · rw [hd]; simpa using hcd.symm) x
  refine ⟨w, hw, fun r hr c hc => ?_⟩
  have := hval r hr
  rwa [hplace r c hc] at this

/-! ## The kernel -/

section Updates

variable {ι : Type} {place : ι → Nat} {y : ι → K} {l : List ι} {c : Nat}

omit [Field K] [Scalar S] [Row S R] [VectorRow K S R] in
/-- Writes at other places leave a place as it is. -/
theorem foldl_update_of_ne (x : Nat → K) (h : ∀ q ∈ l, place q ≠ c) :
    l.foldl (fun x q => Function.update x (place q) (y q)) x c = x c := by
  induction l generalizing x with
  | nil => rfl
  | cons q rest ih =>
    rw [List.foldl_cons, ih _ fun s hs => h s (List.mem_cons_of_mem _ hs),
      Function.update_of_ne (h q List.mem_cons_self).symm]

omit [Field K] [Scalar S] [Row S R] [VectorRow K S R] in
/-- What all writes at a place agree on is there in the end. -/
theorem foldl_update_of_mem (x : Nat → K) {v : K} (hmem : ∃ q ∈ l, place q = c) (h : ∀ q ∈ l, place q = c → y q = v) :
    l.foldl (fun x q => Function.update x (place q) (y q)) x c = v := by
  induction l generalizing x with
  | nil => simp at hmem
  | cons q rest ih =>
    rw [List.foldl_cons]
    by_cases hrest : ∃ s ∈ rest, place s = c
    · exact ih _ hrest fun s hs => h s (List.mem_cons_of_mem _ hs)
    · push Not at hrest
      obtain ⟨s, hs, hsc⟩ := hmem
      obtain rfl : s = q := (List.mem_cons.1 hs).resolve_right fun hs => hrest s hs hsc
      rw [foldl_update_of_ne _ hrest, ← hsc, Function.update_self, h s List.mem_cons_self hsc]

end Updates

namespace RowMatrix

section Kernel

variable {m : RowMatrix R}

omit [Scalar S] in
theorem mem_leadingRows {c : Nat} {r : R} : (c, r) ∈ m.leadingRows ↔ r ∈ m.rows ∧ Row.lead r = some c := by
  simp only [leadingRows, List.mem_filterMap, Option.map_eq_some_iff, Prod.mk.injEq]
  constructor
  · rintro ⟨q, hq, d, hd, rfl, rfl⟩
    exact ⟨hq, hd⟩
  · rintro ⟨hr, hc⟩
    exact ⟨r, hr, c, hc, rfl, rfl⟩

include K in
/-- The leading columns of a matrix are among its columns. -/
theorem lead_lt_columns {r : R} (hr : r ∈ m.rows) {c : Nat} (hc : Row.lead r = some c) : c < m.columns := by
  rw [← m.width r hr]
  exact Row.lead_lt_length hc

/-- The columns in which no row leads. -/
def freeColumns (m : RowMatrix R) : List Nat :=
  (List.range m.columns).filter fun c => m.rows.all fun r => Row.lead r != some c

omit [Scalar S] in
theorem mem_freeColumns {c : Nat} :
    c ∈ m.freeColumns ↔ c < m.columns ∧ ∀ r ∈ m.rows, Row.lead r ≠ some c := by
  simp only [freeColumns, List.mem_filter, List.mem_range, List.all_eq_true, bne_iff_ne]

/-- Marking columns does not fail, and marks those and no others. -/
theorem exists_marks {columns : List Nat} {marks : List Bool} (h : ∀ c ∈ columns, c < marks.length) :
    ∃ marked, columns.foldlM (fun marks c => setEntry marks c true) marks = .ok marked ∧
      ∀ i < marks.length, entryAt marked i = .ok (marks.getD i false || columns.contains i) := by
  induction columns generalizing marks with
  | nil =>
    refine ⟨marks, rfl, fun i hi => ?_⟩
    rw [entryAt_of_lt hi, List.getD_eq_getElem _ _ hi]
    simp
  | cons c rest ih =>
    have hrest : ∀ d ∈ rest, d < (marks.set c true).length := fun d hd => by
      rw [List.length_set]
      exact h d (List.mem_cons_of_mem _ hd)
    obtain ⟨marked, hmarked, hentry⟩ := ih hrest
    refine ⟨marked, ?_, fun i hi => ?_⟩
    · simp only [List.foldlM_cons, setEntry_of_lt (h c List.mem_cons_self), bind, Except.bind, hmarked]
    · rw [hentry i (by rwa [List.length_set])]
      rw [List.getD_eq_getElem _ _ (by rwa [List.length_set]), List.getElem_set, List.getD_eq_getElem _ _ hi]
      by_cases hic : c = i <;> simp [hic, eq_comm]

/-- The vector of a column is written without fault. -/
theorem exists_kernelVector {columns free : Nat} {leading : List (Nat × R)} (hfree : free < columns)
    (h : ∀ q ∈ leading, q.1 < columns ∧ free < Sized.length q.2) :
    ∃ v : R, kernelVector columns leading free = .ok v ∧ Sized.length v = columns ∧
      Row.vec v = leading.foldl (fun x q => Function.update x q.1 (Row.vec q.2 free))
        (Function.update (0 : Nat → K) free (-1)) := by
  have hstep : ∀ q ∈ leading, ∀ {v : R} {x : Nat → K}, Sized.length v = columns ∧ Row.vec v = x →
      ∃ w : R, (do Row.put v q.1 (← Row.get q.2 free)) = .ok w ∧ Sized.length w = columns ∧
        Row.vec w = Function.update x q.1 (Row.vec q.2 free) := by
    rintro q hq v _ ⟨hlen, rfl⟩
    obtain ⟨hlt, hget⟩ := h q hq
    obtain ⟨k, hk, hval⟩ := Row.exists_get hget
    obtain ⟨w, hw, hwlen, hwvec⟩ := Row.exists_put k (hlen.symm ▸ hlt)
    refine ⟨w, ?_, hwlen.trans hlen, by rw [hwvec, hval]⟩
    simp only [hk, hw, bind, Except.bind]
  have hzeros : Sized.length (Row.zeros columns : R) = columns := VectorRow.length_zeros columns
  obtain ⟨v, hv, hlen, hvec⟩ := Row.exists_put (-1 : S) (hzeros.symm ▸ hfree)
  rw [Row.vec_zeros, VectorRow.val_neg, VectorRow.val_one] at hvec
  obtain ⟨w, hw, hspec⟩ := exists_foldlM (R := fun (v : R) (x : Nat → K) => Sized.length v = columns ∧ Row.vec v = x)
    ⟨hlen.trans hzeros, hvec⟩ hstep
  refine ⟨w, ?_, hspec⟩
  simp only [kernelVector, hv, bind, Except.bind]
  exact hw

/-- The kernel vector of a column. -/
def kernelAt (m : RowMatrix R) (f : Nat) : R := resultOr (Row.zeros m.columns) (kernelVector m.columns m.leadingRows f)

theorem kernelAt_spec {f : Nat} (hf : f < m.columns) :
    kernelVector m.columns m.leadingRows f = .ok (m.kernelAt f) ∧ Sized.length (m.kernelAt f) = m.columns ∧
      Row.vec (m.kernelAt f) = m.leadingRows.foldl (fun x q => Function.update x q.1 (Row.vec q.2 f))
        (Function.update (0 : Nat → K) f (-1)) := by
  have hleading : ∀ q ∈ m.leadingRows, q.1 < m.columns ∧ f < Sized.length q.2 := by
    intro q hq
    obtain ⟨hr, hc⟩ := mem_leadingRows.1 (show (q.1, q.2) ∈ m.leadingRows from hq)
    exact ⟨lead_lt_columns hr hc, by rw [m.width _ hr]; exact hf⟩
  obtain ⟨v, hv, hspec⟩ := exists_kernelVector hf hleading
  rw [kernelAt, hv]
  exact ⟨rfl, hspec⟩

/-- The vectors of the columns in which no row leads. -/
def kernelBasis (m : RowMatrix R) : List R := m.freeColumns.map m.kernelAt

include K in
theorem kernel_eq : m.kernel = .ok m.kernelBasis := by
  have hleads : ∀ c ∈ m.leadingRows.map (·.1), c < (List.replicate m.columns false).length := by
    intro c hc
    obtain ⟨q, hq, rfl⟩ := List.mem_map.1 hc
    obtain ⟨hr, hlead⟩ := mem_leadingRows.1 (show (q.1, q.2) ∈ m.leadingRows from hq)
    rw [List.length_replicate]
    exact lead_lt_columns hr hlead
  obtain ⟨marked, hmarked, hentry⟩ := exists_marks hleads
  have hmarks : m.pivotMarks = .ok marked := by
    rw [pivotMarks, ← hmarked, List.foldlM_map]
  have hfree : (List.range m.columns).filterM (fun c => do return !(← entryAt marked c)) = .ok m.freeColumns := by
    refine filterM_eq_filter fun c hc => ?_
    rw [hentry c (by simpa using hc)]
    refine congrArg Except.ok ?_
    rw [Bool.eq_iff_iff]
    have hmem : c ∈ m.leadingRows.map (·.1) ↔ ∃ r ∈ m.rows, Row.lead r = some c := by
      simp only [List.mem_map, Prod.exists, mem_leadingRows, exists_and_right, exists_eq_right]
    simp [hmem]
  rw [kernel, hmarks]
  show ((List.range m.columns).filterM (fun c => do return !(← entryAt marked c)) >>=
    fun free => free.mapM (kernelVector m.columns m.leadingRows)) = _
  rw [hfree]
  exact mapM_eq_map fun f hf => (kernelAt_spec (mem_freeColumns.1 hf).1).1

include K in
theorem length_of_mem_kernel {k : R} (hk : k ∈ m.kernelBasis) : Sized.length k = m.columns := by
  obtain ⟨f, hf, rfl⟩ := List.mem_map.1 hk
  exact (kernelAt_spec (mem_freeColumns.1 hf).1).2.1

theorem vec_kernelAt_self {f : Nat} (hf : f ∈ m.freeColumns) : Row.vec (m.kernelAt f) f = -1 := by
  obtain ⟨hlt, hfree⟩ := mem_freeColumns.1 hf
  rw [(kernelAt_spec hlt).2.2, foldl_update_of_ne _ fun q hq hqf => ?_, Function.update_self]
  obtain ⟨hr, hc⟩ := mem_leadingRows.1 (show (q.1, q.2) ∈ m.leadingRows from hq)
  exact hfree q.2 hr (hqf ▸ hc)

theorem vec_kernelAt_lead (h : IsReduced m.rows) {r : R} (hr : r ∈ m.rows) {c f : Nat}
    (hc : Row.lead r = some c) (hf : f < m.columns) : Row.vec (m.kernelAt f) c = Row.vec r f := by
  rw [(kernelAt_spec hf).2.2]
  refine foldl_update_of_mem _ ⟨(c, r), mem_leadingRows.2 ⟨hr, hc⟩, rfl⟩ fun q hq hqc => ?_
  obtain ⟨hqr, hqd⟩ := mem_leadingRows.1 (show (q.1, q.2) ∈ m.leadingRows from hq)
  rw [h.eq_of_lead hr hqr hc (hqc ▸ hqd)]

theorem vec_kernelAt_free {c f : Nat} (hf : f < m.columns) (hc : ∀ r ∈ m.rows, Row.lead r ≠ some c) (hcf : c ≠ f) :
    Row.vec (m.kernelAt f) c = 0 := by
  rw [(kernelAt_spec hf).2.2, foldl_update_of_ne _ fun q hq hqc => ?_, Function.update_of_ne hcf]
  · rfl
  · obtain ⟨hr, hlead⟩ := mem_leadingRows.1 (show (q.1, q.2) ∈ m.leadingRows from hq)
    exact hc q.2 hr (hqc ▸ hlead)

omit [Scalar S] in
/-- A column is free or leads a row. -/
theorem free_or_lead {c : Nat} (hc : c < m.columns) :
    c ∈ m.freeColumns ∨ ∃ r ∈ m.rows, Row.lead r = some c := by
  by_cases h : ∃ r ∈ m.rows, Row.lead r = some c
  · exact .inr h
  · push Not at h
    exact .inl (mem_freeColumns.2 ⟨hc, h⟩)

/-- A row sends a vector that is zero in all free columns to its entry in the row's leading column. -/
theorem dotTo_of_free_zero (h : IsReduced m.rows) {r : R} (hr : r ∈ m.rows) {c : Nat}
    (hc : Row.lead r = some c) {d : Nat → K} (hd : ∀ f ∈ m.freeColumns, d f = 0) :
    dotTo m.columns (Row.vec r) d = d c := by
  have hlt := lead_lt_columns hr hc
  rw [dotTo, Finset.sum_eq_single_of_mem c (Finset.mem_range.2 hlt)]
  · rw [h.vec_lead hr hc, one_mul]
  · intro j hj hjc
    rcases free_or_lead (m := m) (Finset.mem_range.1 hj) with hf | ⟨q, hq, hqj⟩
    · rw [hd j hf, mul_zero]
    · rw [h.clear r hr q hq j hqj (by rw [hc]; simpa using hjc.symm), zero_mul]

/-- A vector that is zero in all leading columns meets a kernel vector in its free column only. -/
theorem dotTo_kernelAt_of_lead_zero {f : Nat} (hf : f ∈ m.freeColumns) {d : Nat → K}
    (hd : ∀ r ∈ m.rows, ∀ c, Row.lead r = some c → d c = 0) :
    dotTo m.columns d (Row.vec (m.kernelAt f)) = -d f := by
  have hlt := (mem_freeColumns.1 hf).1
  rw [dotTo, Finset.sum_eq_single_of_mem f (Finset.mem_range.2 hlt)]
  · rw [vec_kernelAt_self hf]; ring
  · intro j hj hjf
    rcases free_or_lead (m := m) (Finset.mem_range.1 hj) with hfree | ⟨q, hq, hqj⟩
    · rw [vec_kernelAt_free hlt (mem_freeColumns.1 hfree).2 hjf, mul_zero]
    · rw [hd q hq j hqj, zero_mul]

/-- Every row sends every kernel vector to zero. -/
theorem dotTo_kernelAt (h : IsReduced m.rows) {r : R} (hr : r ∈ m.rows) {f : Nat} (hf : f ∈ m.freeColumns) :
    dotTo m.columns (Row.vec r) (Row.vec (m.kernelAt f)) = 0 := by
  obtain ⟨hlt, hfree⟩ := mem_freeColumns.1 hf
  obtain ⟨c, hc, hone⟩ := h.lead_one r hr
  have hcf : c ≠ f := fun e => hfree r hr (e ▸ hc)
  have hclt := lead_lt_columns hr hc
  -- Of all columns only the leading one and the free one count, and they cancel.
  rw [dotTo, Finset.sum_eq_add_of_mem c f (Finset.mem_range.2 hclt) (Finset.mem_range.2 hlt) hcf]
  · rw [hone, vec_kernelAt_lead h hr hc hlt, vec_kernelAt_self hf]
    ring
  · rintro j hj ⟨hjc, hjf⟩
    rcases free_or_lead (m := m) (Finset.mem_range.1 hj) with hfj | ⟨q, hq, hqj⟩
    · rw [vec_kernelAt_free hlt (mem_freeColumns.1 hfj).2 hjf, mul_zero]
    · rw [h.clear r hr q hq j hqj (by rw [hc]; simpa using hjc.symm), zero_mul]

theorem kernel_subset_nullSpace (h : IsReduced m.rows) {k : R} (hk : k ∈ m.kernelBasis) :
    Row.vec k ∈ nullSpace m.columns m.rows := by
  obtain ⟨f, hf, rfl⟩ := List.mem_map.1 hk
  exact fun r hr => dotTo_kernelAt h hr hf

omit [Scalar S] in
theorem nodup_freeColumns : m.freeColumns.Nodup := List.nodup_range.filter _

/-- A vector that every row sends to zero is a combination of the kernel. -/
theorem mem_rowSpace_kernel (h : IsReduced m.rows) {x : Nat → K} (hx : x ∈ nullSpace m.columns m.rows)
    (hsupp : ∀ i, m.columns ≤ i → x i = 0) : x ∈ rowSpace m.kernelBasis := by
  obtain ⟨w, hw, hval⟩ := exists_interpolation (fun f => Row.vec (m.kernelAt f)) id
    (l := m.freeColumns)
    (fun f hf => by
      simp only [id, vec_kernelAt_self hf]
      exact neg_ne_zero.2 one_ne_zero)
    (nodup_freeColumns.imp_of_mem fun {f g} hf hg hne =>
      ⟨vec_kernelAt_free (mem_freeColumns.1 hf).1 (mem_freeColumns.1 hg).2 hne.symm,
        vec_kernelAt_free (mem_freeColumns.1 hg).1 (mem_freeColumns.1 hf).2 hne⟩) x
  -- The vector `w` is the combination of kernel vectors that agrees with `x` in the free columns.
  have hwk : w ∈ rowSpace m.kernelBasis := by
    refine Submodule.span_mono ?_ hw
    rintro _ ⟨f, hf, rfl⟩
    exact ⟨m.kernelAt f, List.mem_map_of_mem hf, rfl⟩
  have hwnull : ∀ r ∈ m.rows, dotTo m.columns (Row.vec r) w = 0 := by
    intro r hr
    have hle : rowSpace m.kernelBasis ≤ annihilator m.columns (Row.vec r) := rowSpace_le.2 fun k hk => by
      rw [mem_annihilator, dotTo_comm]
      exact kernel_subset_nullSpace h hk r hr
    rw [dotTo_comm]
    exact hle hwk
  -- What remains of `x` is zero in the free columns, so the rows make it zero in the leading ones.
  have hzero : x - w = 0 := by
    have hfree : ∀ f ∈ m.freeColumns, (x - w) f = 0 := fun f hf => sub_eq_zero.2 (hval f hf).symm
    funext i
    by_cases hi : i < m.columns
    · rcases free_or_lead (m := m) hi with hf | ⟨r, hr, hlead⟩
      · exact hfree i hf
      · rw [← dotTo_of_free_zero h hr hlead hfree, dotTo_sub_right, hx r hr, hwnull r hr, sub_zero]
        rfl
    · rw [Pi.sub_apply, hsupp i (by omega), eq_zero_of_mem_rowSpace (fun _ => length_of_mem_kernel) hwk (by omega),
        sub_zero]
      rfl
  rw [sub_eq_zero.1 hzero]
  exact hwk

/-- A vector that the whole kernel is sent to zero by is a combination of the rows. -/
theorem mem_rowSpace_of_kernel (h : IsReduced m.rows) {b : Nat → K}
    (hb : ∀ k ∈ m.kernelBasis, dotTo m.columns b (Row.vec k) = 0) (hsupp : ∀ i, m.columns ≤ i → b i = 0) :
    b ∈ rowSpace m.rows := by
  obtain ⟨w, hw, hval⟩ := h.exists_combination b
  have hwk : ∀ f ∈ m.freeColumns, dotTo m.columns w (Row.vec (m.kernelAt f)) = 0 := by
    intro f hf
    have hle : rowSpace m.rows ≤ annihilator m.columns (Row.vec (m.kernelAt f)) :=
      rowSpace_le.2 fun r hr => dotTo_kernelAt h hr hf
    exact hle hw
  have hlead : ∀ r ∈ m.rows, ∀ c, Row.lead r = some c → (b - w) c = 0 :=
    fun r hr c hc => sub_eq_zero.2 (hval r hr c hc).symm
  have hzero : b - w = 0 := by
    funext i
    by_cases hi : i < m.columns
    · rcases free_or_lead (m := m) hi with hf | ⟨r, hr, hc⟩
      · have hneg := dotTo_kernelAt_of_lead_zero hf hlead
        rw [dotTo_sub_left, hb (m.kernelAt i) (List.mem_map_of_mem hf), hwk i hf, sub_zero] at hneg
        exact neg_eq_zero.1 hneg.symm
      · exact hlead r hr i hc
    · rw [Pi.sub_apply, hsupp i (by omega), eq_zero_of_mem_rowSpace m.width hw (by omega), sub_zero]
      rfl
  rw [sub_eq_zero.1 hzero]
  exact hw

end Kernel

/-! ## Back-substitution -/

section BackSubstitution

omit [Scalar S] [Row S R] [VectorRow K S R] in
/-- A sum over all columns, one of them apart. -/
theorem sum_filter_add (n c : Nat) (f : Nat → K) :
    (((List.range n).filter (· ≠ c)).map f).sum + (if c < n then f c else 0) = ∑ i ∈ Finset.range n, f i := by
  induction n with
  | zero => simp
  | succ n ih =>
    rw [Finset.sum_range_succ, ← ih, List.range_succ, List.filter_append, List.map_append, List.sum_append]
    by_cases hn : n = c
    · rw [List.filter_cons_of_neg (by simpa using hn), if_pos (by omega), if_neg (by omega), hn]
      simp
    · rw [List.filter_cons_of_pos (by simpa using hn)]
      have hlt : c < n + 1 ↔ c < n := by omega
      simp only [hlt, List.filter_nil, List.map_cons, List.map_nil, List.sum_cons, List.sum_nil]
      ring

/-- The sum of all products of two rows but one is found without fault. -/
theorem exists_sumWithout {n c : Nat} {r x : R} (hr : Sized.length r = n) (hx : Sized.length x = n) (hc : c < n) :
    ∃ s : S, sumWithout r c x = .ok s ∧
      dotTo n (Row.vec r) (Row.vec x) = VectorRow.val R s + Row.vec r c * Row.vec x c := by
  have hstep : ∀ j ∈ (List.range n).filter (· ≠ c), ∀ {acc : S} {t : K}, VectorRow.val R acc = t →
      ∃ s : S, (do return acc + (← Row.get r j) * (← Row.get x j)) = .ok s ∧
        VectorRow.val R s = t + Row.vec r j * Row.vec x j := by
    rintro j hj acc _ rfl
    have hlt : j < n := List.mem_range.1 (List.mem_filter.1 hj).1
    obtain ⟨k, hk, hkval⟩ := Row.exists_get (hr.symm ▸ hlt)
    obtain ⟨l, hl, hlval⟩ := Row.exists_get (hx.symm ▸ hlt)
    refine ⟨acc + k * l, ?_, by rw [VectorRow.val_add, VectorRow.val_mul, hkval, hlval]⟩
    simp only [hk, hl, bind, Except.bind, pure, Except.pure]
  obtain ⟨s, hs, hsum⟩ := exists_foldlM (R := fun (acc : S) (t : K) => VectorRow.val R acc = t) VectorRow.val_zero hstep
  refine ⟨s, by rw [sumWithout, hx]; exact hs, ?_⟩
  have hall := sum_filter_add n c fun j => Row.vec r j * Row.vec x j
  rw [if_pos hc] at hall
  rw [hsum, dotTo, ← hall, List.sum_eq_foldl, List.foldl_map]

omit [Scalar S] [Row S R] [VectorRow K S R] in
theorem dotTo_update {n : Nat} (v x : Nat → K) {c : Nat} (hc : c < n) (t : K) :
    dotTo n v (Function.update x c t) = dotTo n v x + v c * (t - x c) := by
  rw [dotTo, dotTo, ← Finset.add_sum_erase _ _ (Finset.mem_range.2 hc),
    ← Finset.add_sum_erase (Finset.range n) (fun i => v i * x i) (Finset.mem_range.2 hc), Function.update_self]
  rw [Finset.sum_congr rfl fun i hi => by rw [Function.update_of_ne (Finset.ne_of_mem_erase hi)]]
  ring

/-- A row with a coefficient in a column is solved for the variable there, and no other variable changes. -/
theorem exists_solveFor {n c : Nat} {r x : R} (hr : Sized.length r = n) (hx : Sized.length x = n) (hc : c < n)
    (hne : Row.vec r c ≠ 0) :
    ∃ (y : R) (t : K), solveFor r c x = .ok y ∧ Sized.length y = n ∧ Row.vec y = Function.update (Row.vec x) c t ∧
      dotTo n (Row.vec r) (Row.vec y) = 0 := by
  obtain ⟨s, hs, hsum⟩ := exists_sumWithout hr hx hc
  obtain ⟨k, hk, hkval⟩ := VectorRow.reciprocal_of_ne (R := R) (mt Row.vec_eq_zero.2 hne)
  obtain ⟨y, hy, hylen, hyvec⟩ := Row.exists_put (-s * k) (hx.symm ▸ hc)
  refine ⟨y, _, ?_, hylen.trans hx, hyvec, ?_⟩
  · simp only [solveFor, hs, VectorRow.get_of_lt (hr.symm ▸ hc), hk, bind, Except.bind]
    exact hy
  · rw [hyvec, dotTo_update _ _ hc, hsum, VectorRow.val_mul, VectorRow.val_neg, hkval]
    change VectorRow.val R s + Row.vec r c * Row.vec x c +
      Row.vec r c * (-VectorRow.val R s * (Row.vec r c)⁻¹ - Row.vec x c) = 0
    field_simp
    ring

/-- Reduced rows are solved from the last to the first without fault. Solving a row for its leading
variable leaves the rows after it solved, since they do not have that variable. -/
theorem solveRows_cases {last : Nat} {rows : List R} (h : IsReduced rows) {x : R}
    (hw : ∀ r ∈ rows, Sized.length r = last + 1) (hx : Sized.length x = last + 1) :
    (solveRows last rows x = .ok none ∧ ∃ r ∈ rows, Row.lead r = some last) ∨
      ∃ y : R, solveRows last rows x = .ok (some y) ∧ Sized.length y = last + 1 ∧ Row.vec y last = Row.vec x last ∧
        ∀ r ∈ rows, Row.lead r ≠ some last ∧ dotTo (last + 1) (Row.vec r) (Row.vec y) = 0 := by
  induction rows with
  | nil => exact .inr ⟨x, rfl, hx, rfl, by simp⟩
  | cons r rest ih =>
    rcases ih h.tail fun q hq => hw q (List.mem_cons_of_mem _ hq) with
      ⟨hnone, q, hq, hlead⟩ | ⟨z, hz, hzlen, hzlast, hsolved⟩
    · refine .inl ⟨?_, q, List.mem_cons_of_mem _ hq, hlead⟩
      simp only [solveRows, hnone, bind, Except.bind, pure, Except.pure]
    · obtain ⟨c, hc, hone⟩ := h.lead_one r List.mem_cons_self
      have hrlen := hw r List.mem_cons_self
      have hclt : c < last + 1 := hrlen ▸ Row.lead_lt_length hc
      simp only [solveRows, hz, hc, bind, Except.bind, pure, Except.pure]
      by_cases hcl : c = last
      · exact .inl ⟨if_pos hcl, r, List.mem_cons_self, hcl ▸ hc⟩
      · obtain ⟨y, t, hy, hylen, hyvec, hzero⟩ :=
          exists_solveFor hrlen hzlen hclt (by rw [hone]; exact one_ne_zero)
        refine .inr ⟨y, ?_, hylen, ?_, fun q hq => ?_⟩
        · rw [if_neg hcl, hy]
        · rw [hyvec, Function.update_of_ne (Ne.symm hcl), hzlast]
        · rcases List.mem_cons.1 hq with rfl | hq
          · exact ⟨by rw [hc]; simpa using hcl, hzero⟩
          · obtain ⟨hne, hdot⟩ := hsolved q hq
            exact ⟨hne, by rw [hyvec, dotTo_update _ _ hclt, h.vec_tail hc hq, hdot]; ring⟩

end BackSubstitution

end RowMatrix

/-! ## Systems with constants -/

/-- The value at a point of the equation that a vector writes down, the constant in column `n`. -/
def equationAt (n : Nat) (v x : Nat → K) : K := dotTo n v x + v n

omit [Scalar S] [Row S R] [VectorRow K S R] in
theorem equationAt_eq_dotTo (n : Nat) (v x : Nat → K) :
    equationAt n v x = dotTo (n + 1) v (Function.update x n 1) := by
  rw [equationAt, dotTo, dotTo, Finset.sum_range_succ, Function.update_self, mul_one]
  congr 1
  exact Finset.sum_congr rfl fun i hi => by
    rw [Function.update_of_ne (Finset.mem_range.1 hi).ne]

omit [Scalar S] [Row S R] [VectorRow K S R] in
theorem equationAt_eq_sum (n : Nat) (v x : Nat → K) : equationAt n v x = ∑ i : Fin n, v i * x i + v n := by
  rw [equationAt, dotTo, Fin.sum_univ_eq_sum_range (fun i => v i * x i) n]

/-- The points at which all equations vanish. -/
def solutions (n : Nat) (rows : List R) : Set (Nat → K) := {x | ∀ r ∈ rows, equationAt n (Row.vec r) x = 0}

theorem mem_solutions_iff {n : Nat} {rows : List R} {x : Nat → K} :
    x ∈ solutions n rows ↔ Function.update x n 1 ∈ nullSpace (n + 1) rows := by
  refine forall₂_congr fun r _ => ?_
  rw [equationAt_eq_dotTo]

/-- Back-substitution in a reduced system finds a point, or some row has a constant and no variable. -/
theorem RowMatrix.backSubstitute_cases {m : RowMatrix R} {n : Nat} (h : IsReduced m.rows)
    (hcol : m.columns = n + 1) :
    (∃ p : R, m.backSubstitute = .ok (some p) ∧ Sized.length p = n ∧ Row.vec p ∈ solutions n m.rows ∧
        ∀ r ∈ m.rows, Row.lead r ≠ some n) ∨
      (m.backSubstitute = .ok none ∧ ∃ r ∈ m.rows, Row.lead r = some n) := by
  have hw : ∀ r ∈ m.rows, Sized.length r = n + 1 := fun r hr => (m.width r hr).trans hcol
  have hzeros : Sized.length (Row.zeros (n + 1) : R) = n + 1 := VectorRow.length_zeros _
  obtain ⟨x, hx, hxlen, hxvec⟩ := Row.exists_put (i := n) (1 : S) (by rw [hzeros]; exact Nat.lt_succ_self n)
  simp only [backSubstitute, hcol, Nat.add_one_sub_one, Nat.add_eq_zero_iff, one_ne_zero, and_false, if_false, hx, bind,
    Except.bind]
  rcases solveRows_cases h hw (hxlen.trans hzeros) with ⟨hnone, hlead⟩ | ⟨y, hy, hylen, hylast, hsolved⟩
  · rw [hnone]
    exact .inr ⟨rfl, hlead⟩
  · have hone : Row.vec y n = 1 := by rw [hylast, hxvec, Function.update_self, VectorRow.val_one]
    obtain ⟨p, hp, hplen, hpcoeff⟩ := VectorRow.init_of_length hylen
    rw [hy]
    refine .inl ⟨p, by simp only [hp]; rfl, hplen, mem_solutions_iff.2 fun r hr => ?_, fun r hr => (hsolved r hr).1⟩
    rw [← (hsolved r hr).2, dotTo, dotTo]
    refine Finset.sum_congr rfl fun i hi => ?_
    congr 1
    rcases Nat.lt_succ_iff_lt_or_eq.1 (Finset.mem_range.1 hi) with hi | rfl
    · rw [Function.update_of_ne hi.ne, Row.vec, hpcoeff i hi]
      rfl
    · rw [Function.update_self, hone]

end FlowFacts
