import Mathlib
import FlowFacts.Affine.Relations
import FlowFacts.Proofs.AffineSpaces

/-!
# The order, meets and joins of relations

`Relations.Points` is the set of rational points that a state allows. On canonical states
(`Relations.Canonical`: bottom, top, or a consistent reduced system with an equation) the operations of
relations are those of the sets of points, and none of them fails:

* `Relations.compare_spec`: comparing ranks decides inclusion both ways,
* `Relations.meet_spec`: the meet is the intersection,
* `Relations.join_spec`: the join lies around both sides, and every equation that vanishes on both
  sides vanishes on it, so it is the smallest affine subspace around them.
-/

namespace FlowFacts

/-- A consistent system over `n` variables, in reduced form and with at least one equation. -/
structure IsCanonical (n : Nat) (m : RationalMatrix) : Prop where
  columns : m.columns = n + 1
  nonempty : m.rows ≠ []
  reduced : IsReduced m.rows
  consistent : ∀ r ∈ m.rows, Row.lead r ≠ some n

namespace Relations

/-- The states that a run over `n` variables passes through. -/
def Canonical (n : Nat) : Relations → Prop
  | bottom => True
  | top => True
  | system m => IsCanonical n m

/-- The points that a state allows. -/
def Points (n : Nat) : Relations → Set (Nat → ℚ)
  | bottom => ∅
  | top => Set.univ
  | system m => solutions n m.rows

end Relations

namespace IsCanonical

variable {n : Nat} {m : RationalMatrix}

/-- Canonical systems have a point, and back-substitution finds it. -/
theorem backSubstitute (h : IsCanonical n m) :
    ∃ p : List Fraction, m.backSubstitute = .ok (some p) ∧ p.length = n ∧ Row.vec p ∈ solutions n m.rows := by
  rcases RowMatrix.backSubstitute_cases h.reduced h.columns with ⟨p, hp, hlen, hsol, -⟩ | ⟨-, r, hr, hlead⟩
  · exact ⟨p, hp, hlen, hsol⟩
  · exact absurd hlead (h.consistent r hr)

theorem solutions_nonempty (h : IsCanonical n m) : (solutions n m.rows : Set (Nat → ℚ)).Nonempty := by
  obtain ⟨p, -, -, hp⟩ := h.backSubstitute
  exact ⟨_, hp⟩

theorem lead_lt (h : IsCanonical n m) {r : List Fraction} (hr : r ∈ m.rows) {c : Nat} (hc : Row.lead r = some c) :
    c < n := lead_lt_of_consistent h.columns h.consistent hr hc

/-- An equation with a variable does not hold everywhere. -/
theorem solutions_ne_univ (h : IsCanonical n m) : ∃ x : Nat → ℚ, x ∉ solutions n m.rows := by
  obtain ⟨r, hr⟩ := List.exists_mem_of_ne_nil _ h.nonempty
  obtain ⟨c, hc, hone⟩ := h.reduced.lead_one r hr
  obtain ⟨p, hp⟩ := h.solutions_nonempty
  refine ⟨Function.update p c (p c + 1), fun hx => ?_⟩
  have h1 := hx r hr
  rw [equationAt, RowMatrix.dotTo_update _ _ (h.lead_lt hr hc), hone] at h1
  have h0 := hp r hr
  rw [equationAt] at h0
  linarith

/-- The height of a canonical system is its rank. -/
theorem height_eq (h : IsCanonical n m) :
    m.height = Module.finrank ℚ (rowSpace m.rows : Submodule ℚ (Nat → ℚ)) := h.reduced.finrank_rowSpace.symm

theorem rowSpace_le_iff {a b : RationalMatrix} (ha : IsCanonical n a) (hb : IsCanonical n b) :
    (rowSpace b.rows : Submodule ℚ (Nat → ℚ)) ≤ rowSpace a.rows ↔
      (solutions n a.rows : Set (Nat → ℚ)) ⊆ solutions n b.rows := by
  refine ⟨fun h => solutions_anti h, fun h => rowSpace_le.2 fun r hr => ?_⟩
  refine mem_rowSpace_of_vanishing ha.reduced ha.columns ha.solutions_nonempty (fun i hi => ?_) fun x hx => h hx r hr
  exact Row.vec_of_length_le (by rw [b.width r hr, hb.columns]; exact hi)

end IsCanonical

/-! ## Reading equations -/

namespace Relations

variable {n : Nat}

/-- The solutions of a system, as a state. -/
def solving (m : RationalMatrix) : Relations := ofReduced m.reduced

theorem ofEquations_eq (m : RationalMatrix) : ofEquations m = .ok (solving m) := by
  simp only [ofEquations, RowMatrix.rrefMinimal_eq, solving, bind, Except.bind, pure, Except.pure]

theorem solving_spec {m : RationalMatrix} (hcol : m.columns = n + 1) :
    (solving m).Canonical n ∧ (solving m).Points n = solutions n m.rows := by
  have hred : IsReduced m.reduced.rows := RowMatrix.isReduced_reduced m
  have hredcol : m.reduced.columns = n + 1 := (RowMatrix.columns_reduced m).trans hcol
  have hsol : (solutions n m.reduced.rows : Set (Nat → ℚ)) = solutions n m.rows :=
    solutions_congr (RowMatrix.rowSpace_reduced m)
  simp only [solving, ofReduced]
  split
  · next hempty =>
    have hnil : m.reduced.rows = [] := List.isEmpty_iff.1 hempty
    refine ⟨trivial, ?_⟩
    rw [← hsol, hnil]
    exact (Set.eq_univ_of_forall fun x r hr => by cases hr).symm
  · next hempty =>
    split
    · next hinc =>
      obtain ⟨r, hr, hlead⟩ := List.any_eq_true.1 hinc
      refine ⟨trivial, ?_⟩
      rw [← hsol]
      refine (solutions_eq_empty hr ?_).symm
      simpa [hcol] using hlead
    · next hinc =>
      refine ⟨⟨hredcol, fun h => hempty (List.isEmpty_iff.2 h), hred, fun r hr hlead => hinc ?_⟩, hsol⟩
      exact List.any_eq_true.2 ⟨r, hr, by simpa [hcol] using hlead⟩

theorem isCanonical_of_ofEquations {m : RationalMatrix} (hcol : m.columns = n + 1)
    (h : ofEquations m = .ok (.system m)) : IsCanonical n m := by
  have hspec := (solving_spec hcol).1
  rwa [Except.ok.inj ((ofEquations_eq m).symm.trans h)] at hspec

theorem stack_ok {a b : RationalMatrix} (h : a.columns = b.columns) :
    ∃ t, a.stack b = .ok t ∧ t.columns = a.columns ∧ t.rows = a.rows ++ b.rows := by
  refine ⟨_, dif_pos h, rfl, rfl⟩

/-- A state that is not bottom has a point. -/
theorem points_nonempty {s : Relations} (h : s.Canonical n) (hs : s ≠ bottom) : (s.Points n).Nonempty := by
  cases s with
  | bottom => exact absurd rfl hs
  | top => exact ⟨0, trivial⟩
  | system m => exact IsCanonical.solutions_nonempty h

theorem isBottom_of_mem {s : Relations} {x : Nat → ℚ} (h : x ∈ s.Points n) : s.isBottom = false := by
  cases s with
  | bottom => exact h.elim
  | top => rfl
  | system m => rfl

/-! ## The order -/

/-- Stacking a system's equations on another's keeps the rank exactly when they already hold. -/
theorem rank_stack_iff {a b t : RationalMatrix} (ha : IsCanonical n a) (hb : IsCanonical n b)
    (ht : t.rows = a.rows ++ b.rows) :
    (t.reduced.height = a.height ↔ (solutions n a.rows : Set (Nat → ℚ)) ⊆ solutions n b.rows) ∧
      (t.reduced.height = b.height ↔ (solutions n b.rows : Set (Nat → ℚ)) ⊆ solutions n a.rows) := by
  have hrank : t.reduced.height =
      Module.finrank ℚ (rowSpace (a.rows ++ b.rows) : Submodule ℚ (Nat → ℚ)) := by
    rw [← ht, ← RowMatrix.rowSpace_reduced t]
    exact (RowMatrix.isReduced_reduced t).finrank_rowSpace.symm
  have hsup := rowSpace_append (K := ℚ) a.rows b.rows
  rw [← ha.rowSpace_le_iff hb, ← hb.rowSpace_le_iff ha, hrank, ha.height_eq, hb.height_eq]
  refine ⟨⟨fun h => ?_, fun h => ?_⟩, ⟨fun h => ?_, fun h => ?_⟩⟩
  · rw [Submodule.eq_of_le_of_finrank_eq (hsup ▸ le_sup_left) h.symm, hsup]
    exact le_sup_right
  · rw [hsup, sup_eq_left.2 h]
  · rw [Submodule.eq_of_le_of_finrank_eq (hsup ▸ le_sup_right) h.symm, hsup]
    exact le_sup_left
  · rw [hsup, sup_eq_right.2 h]

/-- Comparing two states decides inclusion of their points, both ways. -/
theorem compare_spec {a b : Relations} (ha : a.Canonical n) (hb : b.Canonical n) :
    ∃ c, compare a b = .ok c ∧ (c.isLe = true ↔ a.Points n ⊆ b.Points n) ∧
      (c.isGe = true ↔ b.Points n ⊆ a.Points n) := by
  have hempty : ∀ {s : Relations}, s.Canonical n → s ≠ bottom → ¬ s.Points n ⊆ ∅ := fun hs hne hsub => by
    obtain ⟨x, hx⟩ := points_nonempty hs hne
    exact hsub hx
  have huniv : ∀ {m : RationalMatrix}, IsCanonical n m → ¬ Set.univ ⊆ (solutions n m.rows : Set (Nat → ℚ)) :=
    fun hm hsub => by
      obtain ⟨x, hx⟩ := hm.solutions_ne_univ
      exact hx (hsub trivial)
  cases a with
  | bottom =>
    cases b with
    | bottom => exact ⟨.equal, rfl, iff_of_true rfl subset_rfl, iff_of_true rfl subset_rfl⟩
    | top => exact ⟨.less, rfl, iff_of_true rfl (Set.empty_subset _), iff_of_false (by decide) (hempty hb nofun)⟩
    | system q => exact ⟨.less, rfl, iff_of_true rfl (Set.empty_subset _), iff_of_false (by decide) (hempty hb nofun)⟩
  | top =>
    cases b with
    | bottom => exact ⟨.more, rfl, iff_of_false (by decide) (hempty ha nofun), iff_of_true rfl (Set.empty_subset _)⟩
    | top => exact ⟨.equal, rfl, iff_of_true rfl subset_rfl, iff_of_true rfl subset_rfl⟩
    | system q => exact ⟨.more, rfl, iff_of_false (by decide) (huniv hb), iff_of_true rfl (Set.subset_univ _)⟩
  | system m =>
    cases b with
    | bottom => exact ⟨.more, rfl, iff_of_false (by decide) (hempty ha nofun), iff_of_true rfl (Set.empty_subset _)⟩
    | top => exact ⟨.less, rfl, iff_of_true rfl (Set.subset_univ _), iff_of_false (by decide) (huniv ha)⟩
    | system q =>
      obtain ⟨t, ht, -, hrows⟩ := stack_ok (ha.columns.trans hb.columns.symm)
      obtain ⟨hle, hge⟩ := rank_stack_iff ha hb hrows
      simp only [compare, ht, RowMatrix.rrefMinimal_eq, bind, Except.bind, pure, Except.pure, Points]
      rw [← hle, ← hge]
      by_cases h1 : t.reduced.height = m.height <;> by_cases h2 : t.reduced.height = q.height
      · exact ⟨.equal, by rw [if_pos h1, if_pos h2], by simp [Comparison.isLe, h1], by simp [Comparison.isGe, h2]⟩
      · exact ⟨.less, by rw [if_pos h1, if_neg h2], by simp [Comparison.isLe, h1], by simp [Comparison.isGe, h2]⟩
      · exact ⟨.more, by rw [if_neg h1, if_pos h2], by simp [Comparison.isLe, h1], by simp [Comparison.isGe, h2]⟩
      · exact ⟨.incomparable, by rw [if_neg h1, if_neg h2], by simp [Comparison.isLe, h1], by simp [Comparison.isGe, h2]⟩

/-- One state is below another exactly when it allows fewer points. -/
theorem le_iff {a b : Relations} (ha : a.Canonical n) (hb : b.Canonical n) :
    Domain.le a b = .ok true ↔ a.Points n ⊆ b.Points n := by
  obtain ⟨c, hc, hle, -⟩ := compare_spec ha hb
  rw [← hle]
  simp only [Domain.le, show Domain.compare a b = Except.ok c from hc, bind, Except.bind, pure, Except.pure,
    Except.ok.injEq]

/-! ## Meets -/

theorem meet_spec {a b : Relations} (ha : a.Canonical n) (hb : b.Canonical n) :
    ∃ s, meet a b = .ok s ∧ s.Canonical n ∧ s.Points n = a.Points n ∩ b.Points n := by
  cases a with
  | bottom => exact ⟨bottom, by cases b <;> rfl, trivial, by simp [Points]⟩
  | top =>
    cases b with
    | bottom => exact ⟨bottom, rfl, trivial, by simp [Points]⟩
    | top => exact ⟨top, rfl, trivial, by simp [Points]⟩
    | system q => exact ⟨system q, rfl, hb, by simp [Points]⟩
  | system m =>
    cases b with
    | bottom => exact ⟨bottom, rfl, trivial, by simp [Points]⟩
    | top => exact ⟨system m, rfl, ha, by simp [Points]⟩
    | system q =>
      obtain ⟨t, ht, hcol, hrows⟩ := stack_ok (ha.columns.trans hb.columns.symm)
      obtain ⟨hcan, hpts⟩ := solving_spec (hcol.trans ha.columns)
      refine ⟨solving t, by simp only [meet, ht, ofEquations_eq, bind, Except.bind], hcan, ?_⟩
      rw [hpts, hrows, solutions_append]
      rfl

end Relations

/-! ## Joins -/

section Hull

variable {n : Nat}

theorem vec_difference {v w : List Fraction} (hv : v.length = n) (hw : w.length = n) :
    Row.vec (Fraction.difference v w) = Row.vec v - Row.vec w := by
  funext i
  simp only [vec_fractions, Fraction.difference, List.getD_eq_getElem?_getD, List.getElem?_zipWith, Pi.sub_apply]
  by_cases hi : i < n
  · rw [List.getElem?_eq_getElem (hv ▸ hi), List.getElem?_eq_getElem (hw ▸ hi)]
    simp
  · rw [List.getElem?_eq_none (by omega), List.getElem?_eq_none (by omega)]
    simp

theorem vec_midpoint {v w : List Fraction} (hv : v.length = n) (hw : w.length = n) :
    Row.vec (Fraction.midpoint v w) = (1 / 2 : ℚ) • (Row.vec v + Row.vec w) := by
  funext i
  simp only [vec_fractions, Fraction.midpoint, List.getD_eq_getElem?_getD, List.getElem?_zipWith, Pi.add_apply,
    Pi.smul_apply, smul_eq_mul]
  by_cases hi : i < n
  · rw [List.getElem?_eq_getElem (hv ▸ hi), List.getElem?_eq_getElem (hw ▸ hi)]
    simp
    ring
  · rw [List.getElem?_eq_none (by omega), List.getElem?_eq_none (by omega)]
    simp

/-- The state of a point and some directions allows what the directions reach from the point. -/
theorem translate_spec {directions : List (List Fraction)} (hd : ∀ d ∈ directions, d.length = n)
    {o : List Fraction} (ho : o.length = n) :
    ∃ e t, RationalMatrix.spanEquations n directions = .ok e ∧ RationalMatrix.withOffset e o = .ok t ∧
      (Relations.solving t).Canonical n ∧
      (Relations.solving t).Points n = {x | firstOf n (x - Row.vec o) ∈ rowSpace directions} := by
  obtain ⟨e, he, hcol, -, hspan⟩ := RationalMatrix.spanEquations_spec hd
  obtain ⟨t, ht, htcol, hoff⟩ := RationalMatrix.withOffset_spec hcol ho
  obtain ⟨hcan, hpts⟩ := Relations.solving_spec htcol
  refine ⟨e, t, he, ht, hcan, Set.ext fun x => ?_⟩
  rw [hpts, hoff, hspan, Set.mem_ofPred_eq]

/-- Any equation that vanishes at the point and does not change along the directions vanishes on
what they reach. -/
theorem equationAt_of_translate {directions : List (List Fraction)} {v o x : Nat → ℚ} (ho : equationAt n v o = 0)
    (hd : ∀ d ∈ directions, dotTo n v (Row.vec d) = 0) (hx : firstOf n (x - o) ∈ rowSpace directions) :
    equationAt n v x = 0 := by
  have hle : rowSpace directions ≤ annihilator n v := rowSpace_le.2 fun d hmem => by
    rw [mem_annihilator, dotTo_comm]
    exact hd d hmem
  have hzero : dotTo n v (x - o) = 0 := by
    rw [← dotTo_firstOf, dotTo_comm]
    exact hle hx
  rw [← add_sub_cancel o x, equationAt_add, ho, hzero, add_zero]

namespace Relations

/-- What the join of two sets of points has to be: around both of them, and inside every affine
subspace around both. -/
structure IsHull (n : Nat) (A B J : Set (Nat → ℚ)) : Prop where
  left : A ⊆ J
  right : B ⊆ J
  least : ∀ v : Nat → ℚ, (∀ x ∈ A, equationAt n v x = 0) → (∀ x ∈ B, equationAt n v x = 0) →
    ∀ x ∈ J, equationAt n v x = 0

variable {A B : Set (Nat → ℚ)} {as bs : List (List Fraction)}

/-- From a shared point, the directions of both sets reach their hull. -/
theorem isHull_of_shared (hA : Directed n A as) (hB : Directed n B bs) {o : Nat → ℚ} (hoA : o ∈ A) (hoB : o ∈ B) :
    IsHull n A B {x | firstOf n (x - o) ∈ rowSpace (as ++ bs)} where
  left x hx := by
    rw [Set.mem_ofPred_eq, rowSpace_append]
    exact Submodule.mem_sup_left (hA.leads x hx o hoA)
  right x hx := by
    rw [Set.mem_ofPred_eq, rowSpace_append]
    exact Submodule.mem_sup_right (hB.leads x hx o hoB)
  least v h1 h2 x hx := by
    refine equationAt_of_translate (h1 o hoA) (fun d hd => ?_) hx
    rcases List.mem_append.1 hd with hd | hd
    · exact hA.still v h1 d hd
    · exact hB.still v h2 d hd

theorem length_difference {v w : List Fraction} (hv : v.length = n) (hw : w.length = n) :
    (Fraction.difference v w).length = n := by
  rw [Fraction.difference, List.length_zipWith, hv, hw, min_self]

theorem length_midpoint {v w : List Fraction} (hv : v.length = n) (hw : w.length = n) :
    (Fraction.midpoint v w).length = n := by
  rw [Fraction.midpoint, List.length_zipWith, hv, hw, min_self]

/-- The line through two points moves along their difference. -/
theorem firstOf_sub_mem_rowSpace {q w : List Fraction} (hq : q.length = n) (hw : w.length = n)
    (ds : List (List Fraction)) :
    firstOf n (Row.vec q - Row.vec w) ∈ (rowSpace (ds ++ [Fraction.difference q w]) : Submodule ℚ (Nat → ℚ)) := by
  have hself : firstOf n (Row.vec q - Row.vec w) = Row.vec (Fraction.difference q w) := by
    rw [← vec_difference hq hw]
    exact firstOf_eq_self fun i hi => Row.vec_of_length_le ((length_difference hq hw).trans_le hi)
  rw [hself]
  exact vec_mem_rowSpace (List.mem_append_right _ (List.mem_singleton.2 rfl))

/-- Without a shared point, the direction from a point of one set to a point of the other is needed as
well. The hull is then reached from halfway between the two points. -/
theorem isHull_of_apart (hA : Directed n A as) (hB : Directed n B bs) {q w : List Fraction} (hq : q.length = n)
    (hw : w.length = n) (hqA : Row.vec q ∈ A) (hwB : Row.vec w ∈ B) :
    IsHull n A B {x | firstOf n (x - Row.vec (Fraction.midpoint q w)) ∈
      rowSpace (as ++ bs ++ [Fraction.difference q w])} where
  left x hx := by
    have hsplit : x - Row.vec (Fraction.midpoint q w) =
        (x - Row.vec q) + (1 / 2 : ℚ) • (Row.vec q - Row.vec w) := by
      rw [vec_midpoint hq hw]; module
    have hacross := firstOf_sub_mem_rowSpace hq hw (as ++ bs)
    rw [Set.mem_ofPred_eq, hsplit, firstOf_add, firstOf_smul]
    refine add_mem ?_ (Submodule.smul_mem _ _ hacross)
    rw [List.append_assoc, rowSpace_append]
    exact Submodule.mem_sup_left (hA.leads x hx _ hqA)
  right x hx := by
    have hsplit : x - Row.vec (Fraction.midpoint q w) =
        (x - Row.vec w) + (-1 / 2 : ℚ) • (Row.vec q - Row.vec w) := by
      rw [vec_midpoint hq hw]; module
    have hacross := firstOf_sub_mem_rowSpace hq hw (as ++ bs)
    rw [Set.mem_ofPred_eq, hsplit, firstOf_add, firstOf_smul]
    refine add_mem ?_ (Submodule.smul_mem _ _ hacross)
    rw [List.append_assoc, rowSpace_append, rowSpace_append]
    exact Submodule.mem_sup_right (Submodule.mem_sup_left (hB.leads x hx _ hwB))
  least v h1 h2 x hx := by
    have hq0 := h1 _ hqA
    have hw0 := h2 _ hwB
    rw [equationAt] at hq0 hw0
    refine equationAt_of_translate ?_ (fun d hd => ?_) hx
    · rw [vec_midpoint hq hw, equationAt, dotTo_smul_right, dotTo_add_right]
      linarith
    · rcases List.mem_append.1 hd with hd | hd
      · rcases List.mem_append.1 hd with hd | hd
        · exact hA.still v h1 d hd
        · exact hB.still v h2 d hd
      · rw [List.mem_singleton.1 hd, vec_difference hq hw, dotTo_sub_right]
        linarith

theorem hull_spec {a b : RationalMatrix} (ha : IsCanonical n a) (hb : IsCanonical n b) :
    ∃ s, hull a b = .ok s ∧ s.Canonical n ∧ IsHull n (solutions n a.rows) (solutions n b.rows) (s.Points n) := by
  obtain ⟨ta, hta, hkera, hka, hA⟩ := exists_directions ha.reduced ha.columns ha.consistent
  obtain ⟨tb, htb, hkerb, hkb, hB⟩ := exists_directions hb.reduced hb.columns hb.consistent
  obtain ⟨t, ht, htcol, hrows⟩ := stack_ok (ha.columns.trans hb.columns.symm)
  have hne : a.columns ≠ 0 := by rw [ha.columns]; exact Nat.succ_ne_zero n
  have hcol : a.columns - 1 = n := by rw [ha.columns]; rfl
  have hdirs : ∀ d ∈ ta.kernelBasis ++ tb.kernelBasis, d.length = n := fun d hd =>
    (List.mem_append.1 hd).elim (hka d) (hkb d)
  simp only [hull, if_neg hne, hta, hkera, htb, hkerb, ht, RowMatrix.rrefMinimal_eq, ofEquations_eq, bind, Except.bind,
    pure, Except.pure, hcol]
  -- The points of both systems are the solutions of the stacked one, so it has one if they share any.
  rcases RowMatrix.backSubstitute_cases (RowMatrix.isReduced_reduced t)
      ((RowMatrix.columns_reduced t).trans (htcol.trans ha.columns)) with
    ⟨p, hp, hlen, hpsol, -⟩ | ⟨hnone, -⟩
  · rw [solutions_congr (RowMatrix.rowSpace_reduced t), hrows, solutions_append] at hpsol
    obtain ⟨e, u, he, hu, hcan, hpts⟩ := translate_spec hdirs (show p.length = n from hlen)
    simp only [hp, he, hu]
    refine ⟨_, rfl, hcan, ?_⟩
    rw [hpts]
    exact isHull_of_shared hA hB hpsol.1 hpsol.2
  · obtain ⟨q, hq, hqlen, hqsol⟩ := ha.backSubstitute
    obtain ⟨w, hw, hwlen, hwsol⟩ := hb.backSubstitute
    have hmore : ∀ d ∈ ta.kernelBasis ++ tb.kernelBasis ++ [Fraction.difference q w], d.length = n := fun d hd =>
      (List.mem_append.1 hd).elim (hdirs d) fun hd => by
        rw [List.mem_singleton.1 hd]; exact length_difference hqlen hwlen
    obtain ⟨e, u, he, hu, hcan, hpts⟩ := translate_spec hmore (length_midpoint hqlen hwlen)
    simp only [hnone, solution, hq, hw, he, hu, bind, Except.bind]
    refine ⟨_, rfl, hcan, ?_⟩
    rw [hpts]
    exact isHull_of_apart hA hB hqlen hwlen hqsol hwsol

theorem join_spec {a b : Relations} (ha : a.Canonical n) (hb : b.Canonical n) :
    ∃ s, join a b = .ok s ∧ s.Canonical n ∧ IsHull n (a.Points n) (b.Points n) (s.Points n) := by
  cases a with
  | bottom =>
    refine ⟨b, by cases b <;> rfl, hb, Set.empty_subset _, subset_rfl, fun v _ h => h⟩
  | top => exact ⟨top, rfl, trivial, subset_rfl, Set.subset_univ _, fun v h _ => h⟩
  | system m =>
    cases b with
    | bottom => exact ⟨system m, rfl, ha, subset_rfl, Set.empty_subset _, fun v h _ => h⟩
    | top => exact ⟨top, rfl, trivial, Set.subset_univ _, subset_rfl, fun v _ h => h⟩
    | system q =>
      simp only [join]
      split
      · next h => exact ⟨system m, rfl, ha, subset_rfl, h ▸ subset_rfl, fun v h1 _ => h1⟩
      · exact hull_spec ha hb

/-- The equation `1 = 0` holds nowhere. -/
theorem equationAt_unit (x : Nat → ℚ) : equationAt n (fun i => if i = n then 1 else 0) x = 1 := by
  have hzero : dotTo n (fun i => if i = n then (1 : ℚ) else 0) x = 0 :=
    Finset.sum_eq_zero fun i hi => by simp [(Finset.mem_range.1 hi).ne]
  rw [equationAt, hzero, if_pos rfl, zero_add]

/-- The join is the least canonical state above both. -/
theorem IsHull.subset_iff {A B J : Set (Nat → ℚ)} (h : IsHull n A B J) {c : Relations} :
    J ⊆ c.Points n ↔ A ⊆ c.Points n ∧ B ⊆ c.Points n := by
  constructor
  · exact fun hJ => ⟨h.left.trans hJ, h.right.trans hJ⟩
  · rintro ⟨hA, hB⟩
    cases c with
    | bottom =>
      -- Nothing is left, so even the equation `1 = 0` holds on the join.
      intro x hx
      have hone : equationAt n (fun i => if i = n then 1 else 0) x = (0 : ℚ) :=
        h.least _ (fun y hy => (hA hy).elim) (fun y hy => (hB hy).elim) x hx
      exact absurd ((equationAt_unit x).symm.trans hone) one_ne_zero
    | top => exact Set.subset_univ _
    | system m => exact fun x hx r hr => h.least _ (fun y hy => hA hy r hr) (fun y hy => hB hy r hr) x hx

end Relations

end Hull

end FlowFacts
