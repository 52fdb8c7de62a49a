import Mathlib
import FlowFacts.Proofs.ReducedForms

/-!
# The affine space of a state

The points that a state over `n` variables allows are an affine subspace of `ℚⁿ` (`Relations.space`). Comparing two
states tells how their points stand to each other, and meeting them gives the one state of the points they share:
`Relations.compare_meet_exact`. An affine subspace is what its equations leave (`mem_of_vanishing`), so that a state on
which every equation of two others vanishes is their affine hull: `Relations.join_isLeast`.

A line that leaves an affine subspace meets it in at most one point. Hence finitely many affine subspaces do not
cover another one unless one of them contains it (`exists_le_of_covered`).
-/

namespace FlowFacts

/-! ## The space of a state -/

namespace Relations

variable {n : Nat}

/-- The rational points that a state over `n` variables allows. -/
def pointSet (n : Nat) : Relations → Set (Fin n → ℚ)
  | bottom => ∅
  | top => Set.univ
  | system m => m.solutionSet n

/-- Of a sequence the first entries say whether the state allows it. -/
theorem mem_points {s : Relations} {x : Nat → ℚ} : x ∈ s.Points n ↔ (fun i : Fin n => x i) ∈ s.pointSet n := by
  cases s with
  | bottom => exact Iff.rfl
  | top => exact Iff.rfl
  | system m =>
    show x ∈ solutions n m.rows ↔ _
    rw [solutions_eq_preimage]
    rfl

theorem pointSet_nonempty {s : Relations} (h : s.Canonical n) (hs : s ≠ bottom) : (s.pointSet n).Nonempty := by
  obtain ⟨x, hx⟩ := points_nonempty h hs
  exact ⟨_, mem_points.1 hx⟩

/-- With two points of a state, the line through them can be followed from any third. -/
theorem smul_sub_add_mem {s : Relations} {x y z : Fin n → ℚ} (k : ℚ) (hx : x ∈ s.pointSet n) (hy : y ∈ s.pointSet n)
    (hz : z ∈ s.pointSet n) : k • (x - y) + z ∈ s.pointSet n := by
  cases s with
  | bottom => exact hx.elim
  | top => trivial
  | system m =>
    intro row hrow
    have hsum : ∑ i : Fin n, (row.getD i 0).toRat * (k • (x - y) + z) i =
        k * (∑ i : Fin n, (row.getD i 0).toRat * x i - ∑ i : Fin n, (row.getD i 0).toRat * y i) +
          ∑ i : Fin n, (row.getD i 0).toRat * z i := by
      rw [← Finset.sum_sub_distrib, Finset.mul_sum, ← Finset.sum_add_distrib]
      refine Finset.sum_congr rfl fun i _ => ?_
      simp only [Pi.add_apply, Pi.smul_apply, Pi.sub_apply, smul_eq_mul]
      ring
    rw [hsum]
    linear_combination k * hx row hrow - k * hy row hrow + hz row hrow

/-- The points of a state as an affine subspace. -/
def space (n : Nat) (s : Relations) : AffineSubspace ℚ (Fin n → ℚ) where
  carrier := s.pointSet n
  smul_vsub_vadd_mem' k _ _ _ hx hy hz := smul_sub_add_mem k hx hy hz

theorem points_eq_preimage (s : Relations) : s.Points n = Set.preimage (fun x (i : Fin n) => x i) (s.pointSet n) :=
  Set.ext fun _ => mem_points

theorem points_subset_iff {s t : Relations} : s.Points n ⊆ t.Points n ↔ s.pointSet n ⊆ t.pointSet n := by
  rw [points_eq_preimage, points_eq_preimage, (surjective_restrict n).preimage_subset_preimage_iff]

end Relations

/-! ## Comparing and meeting -/

/-- Whether each of two sets is inside the other says which of the four cases there is. -/
theorem Comparison.eq_iff_of_subset {α : Type} {A B : Set α} {c : Comparison} (hle : c.isLe = true ↔ A ⊆ B)
    (hge : c.isGe = true ↔ B ⊆ A) : (c = .less ↔ A ⊂ B) ∧ (c = .equal ↔ A = B) ∧ (c = .more ↔ B ⊂ A) ∧
      (c = .incomparable ↔ ¬ A ⊆ B ∧ ¬ B ⊆ A) := by
  rw [ssubset_iff_subset_not_subset, ssubset_iff_subset_not_subset, Set.Subset.antisymm_iff, ← hle, ← hge]
  cases c <;> decide

namespace Relations

variable {n : Nat}

theorem eq_of_pointSet_eq {s t : Relations} (hs : s.Canonical n) (ht : t.Canonical n)
    (h : s.pointSet n = t.pointSet n) : s = t := by
  apply eq_of_points_eq hs ht
  rw [points_eq_preimage, points_eq_preimage, h]

/-- A state without points is bottom. -/
theorem eq_bottom_iff {s : Relations} (hs : s.Canonical n) : s = bottom ↔ s.pointSet n = ∅ := by
  constructor
  · rintro rfl
    rfl
  · intro hempty
    exact eq_of_pointSet_eq hs trivial hempty

/-- Comparing two states answers with the way their points stand to each other. Meeting them answers with the only
canonical state of the points that they share, which is bottom if they share none. -/
theorem compare_meet_exact {a b : Relations} (ha : a.Canonical n) (hb : b.Canonical n) :
    (compare a b = .ok .less ↔ a.pointSet n ⊂ b.pointSet n) ∧
    (compare a b = .ok .equal ↔ a.pointSet n = b.pointSet n) ∧
    (compare a b = .ok .more ↔ b.pointSet n ⊂ a.pointSet n) ∧
    (compare a b = .ok .incomparable ↔ ¬ a.pointSet n ⊆ b.pointSet n ∧ ¬ b.pointSet n ⊆ a.pointSet n) ∧
    ∃ s, meet a b = .ok s ∧ s.Canonical n ∧ s.pointSet n = a.pointSet n ∩ b.pointSet n ∧
      (s = bottom ↔ Disjoint (a.pointSet n) (b.pointSet n)) ∧
      ∀ t : Relations, t.Canonical n → t.pointSet n = a.pointSet n ∩ b.pointSet n → t = s := by
  obtain ⟨c, hc, hle, hge⟩ := compare_spec ha hb
  obtain ⟨s, hs, hcan, hpoints⟩ := meet_spec ha hb
  rw [points_subset_iff] at hle hge
  obtain ⟨hless, hequal, hmore, hincomparable⟩ := Comparison.eq_iff_of_subset hle hge
  have hmeet : s.pointSet n = a.pointSet n ∩ b.pointSet n := by
    apply Set.preimage_injective.2 (surjective_restrict n)
    rw [Set.preimage_inter, ← points_eq_preimage, ← points_eq_preimage, ← points_eq_preimage, hpoints]
  simp only [hc, Except.ok.injEq]
  refine ⟨hless, hequal, hmore, hincomparable, s, hs, hcan, hmeet, ?_, fun t ht hshared => ?_⟩
  · rw [eq_bottom_iff hcan, hmeet, Set.disjoint_iff_inter_eq_empty]
  · exact eq_of_pointSet_eq ht hcan (hshared.trans hmeet.symm)

/-- `x = 0` and `y = 0`. -/
def atZero : Relations := solving ⟨3, [[1, 0, 0], [0, 1, 0]], by decide⟩

/-- `x = 1` and `y = 2`. -/
def atOneTwo : Relations := solving ⟨3, [[1, 0, -1], [0, 1, .ofInt (-2)]], by decide⟩

/-- `2 x = y`. -/
def doubled : Relations := solving ⟨3, [[.ofInt 2, -1, 0]], by decide⟩

/-- A point on a line is a proper part of it. Another point has nothing in common with it: the equations of both have
no solution together. -/
theorem compare_meet_exact_atZero : atZero.Canonical 2 ∧ doubled.Canonical 2 ∧ atOneTwo.Canonical 2 ∧
    compare atZero doubled = .ok .less ∧ atZero.pointSet 2 ⊂ doubled.pointSet 2 ∧
    compare atZero atOneTwo = .ok .incomparable ∧ ¬ atZero.pointSet 2 ⊆ atOneTwo.pointSet 2 ∧
    meet atZero atOneTwo = .ok bottom ∧ Disjoint (atZero.pointSet 2) (atOneTwo.pointSet 2) := by
  have hzero : atZero.Canonical 2 := (solving_spec rfl).1
  have hline : doubled.Canonical 2 := (solving_spec rfl).1
  have hother : atOneTwo.Canonical 2 := (solving_spec rfl).1
  have hless : compare atZero doubled = .ok .less := by decide +kernel
  have happart : compare atZero atOneTwo = .ok .incomparable := by decide +kernel
  have hmeet : meet atZero atOneTwo = .ok bottom := by decide +kernel
  obtain ⟨hinside, -⟩ := compare_meet_exact hzero hline
  obtain ⟨-, -, -, hneither, s, hs, -, -, hdisjoint, -⟩ := compare_meet_exact hzero hother
  obtain rfl : s = bottom := Except.ok.inj (hs.symm.trans hmeet)
  exact ⟨hzero, hline, hother, hless, hinside.1 hless, happart, (hneither.1 happart).1, hmeet, hdisjoint.1 rfl⟩

end Relations

/-! ## Equations of an affine subspace -/

section Vanishing

variable {n : Nat}

/-- A linear functional and a constant can be written down as an equation. -/
theorem exists_equation (φ : (Fin n → ℚ) →ₗ[ℚ] ℚ) (k : ℚ) :
    ∃ v : Nat → ℚ, ∀ y : Nat → ℚ, equationAt n v y = φ (fun i => y i) + k := by
  refine ⟨fun i => if h : i < n then φ (Pi.single ⟨i, h⟩ 1) else k, fun y => ?_⟩
  have hsum : dotTo n (fun i => if h : i < n then φ (Pi.single ⟨i, h⟩ 1) else k) y = φ (fun i => y i) := by
    rw [LinearMap.pi_apply_eq_sum_univ φ, dotTo, ← Fin.sum_univ_eq_sum_range
      (fun i => (if h : i < n then φ (Pi.single ⟨i, h⟩ 1) else k) * y i) n]
    refine Finset.sum_congr rfl fun i _ => ?_
    have hsingle : (Pi.single i 1 : Fin n → ℚ) = fun j => if i = j then 1 else 0 := by
      funext j
      simp [Pi.single_apply, eq_comm]
    simp only [i.isLt, dif_pos, Fin.eta, smul_eq_mul, hsingle]
    ring
  rw [equationAt, hsum]
  simp

/-- A point at which every equation of an affine subspace vanishes is in it. -/
theorem mem_of_vanishing {E : AffineSubspace ℚ (Fin n → ℚ)} {x : Nat → ℚ}
    (h : ∀ v : Nat → ℚ, (∀ y : Nat → ℚ, (fun i : Fin n => y i) ∈ E → equationAt n v y = 0) → equationAt n v x = 0) :
    (fun i : Fin n => x i) ∈ E := by
  by_contra hx
  rcases (E : Set (Fin n → ℚ)).eq_empty_or_nonempty with hempty | ⟨p, hp⟩
  · -- The equation `1 = 0` vanishes on no point at all.
    have hunit := h (fun i => if i = n then 1 else 0) fun y hy => by
      have hmem : (fun i : Fin n => y i) ∈ (E : Set (Fin n → ℚ)) := hy
      simp [hempty] at hmem
    rw [Relations.equationAt_unit] at hunit
    exact one_ne_zero hunit
  · -- Some functional is zero along the directions of the subspace, and not from `p` to the point.
    have hdirection : (fun i : Fin n => x i) - p ∉ E.direction := fun hmem => by
      apply hx
      have hsum := AffineSubspace.vadd_mem_of_mem_direction hmem hp
      rwa [vadd_eq_add, sub_add_cancel] at hsum
    obtain ⟨φ, hne, hker⟩ := Submodule.exists_le_ker_of_notMem hdirection
    obtain ⟨v, hv⟩ := exists_equation φ (-φ p)
    have hzero := h v fun y hy => by
      have hkernel : φ ((fun i : Fin n => y i) - p) = 0 := hker (AffineSubspace.vsub_mem_direction hy hp)
      rw [map_sub] at hkernel
      rw [hv]
      linear_combination hkernel
    rw [hv] at hzero
    apply hne
    rw [map_sub]
    linear_combination hzero

end Vanishing

/-! ## Joins -/

namespace Relations

variable {n : Nat}

/-- The join of two states answers with a canonical state, and its points are the smallest affine subspace around
the points of both, whether or not they share one. -/
theorem join_isLeast {a b : Relations} (ha : a.Canonical n) (hb : b.Canonical n) :
    ∃ s, join a b = .ok s ∧ s.Canonical n ∧
      IsLeast {E : AffineSubspace ℚ (Fin n → ℚ) | a.pointSet n ⊆ E ∧ b.pointSet n ⊆ E} (s.space n) := by
  obtain ⟨s, hs, hcan, hhull⟩ := join_spec ha hb
  refine ⟨s, hs, hcan, ⟨fun y hy => ?_, fun y hy => ?_⟩, fun E hE y hy => ?_⟩
  · obtain ⟨x, rfl⟩ := surjective_restrict n y
    exact mem_points.1 (hhull.left (mem_points.2 hy))
  · obtain ⟨x, rfl⟩ := surjective_restrict n y
    exact mem_points.1 (hhull.right (mem_points.2 hy))
  · obtain ⟨x, rfl⟩ := surjective_restrict n y
    apply mem_of_vanishing
    intro v hv
    apply hhull.least v _ _ x (mem_points.2 hy)
    · exact fun z hz => hv z (hE.1 (mem_points.1 hz))
    · exact fun z hz => hv z (hE.2 (mem_points.1 hz))

/-- Two states of one point each have nothing in common, and their join is the line through both points. -/
theorem join_isLeast_atZero_atOneTwo : meet atZero atOneTwo = .ok bottom ∧ join atZero atOneTwo = .ok doubled ∧
    doubled.Canonical 2 ∧
    IsLeast {E : AffineSubspace ℚ (Fin 2 → ℚ) | atZero.pointSet 2 ⊆ E ∧ atOneTwo.pointSet 2 ⊆ E} (doubled.space 2) := by
  have hmeet : meet atZero atOneTwo = .ok bottom := by decide +kernel
  have hjoin : join atZero atOneTwo = .ok doubled := by decide +kernel
  obtain ⟨s, hs, hcan, hleast⟩ := join_isLeast (n := 2) (a := atZero) (b := atOneTwo) (solving_spec rfl).1
    (solving_spec rfl).1
  obtain rfl : s = doubled := Except.ok.inj (hs.symm.trans hjoin)
  exact ⟨hmeet, hjoin, hcan, hleast⟩

end Relations

/-! ## Covers -/

section Covers

variable {V : Type} [AddCommGroup V] [Module ℚ V]

/-- A line that leaves an affine subspace meets it at most once. -/
theorem subsingleton_lineMap {E : AffineSubspace ℚ V} {p q : V} {u : ℚ} (h : AffineMap.lineMap p q u ∉ E) :
    {t : ℚ | AffineMap.lineMap p q t ∈ E}.Subsingleton := by
  intro s hs t ht
  by_contra hne
  have hdiff : t - s ≠ 0 := sub_ne_zero.2 (Ne.symm hne)
  -- Two points of the line determine all of it.
  have hu : u = AffineMap.lineMap s t ((u - s) / (t - s)) := by
    rw [AffineMap.lineMap_apply_ring']
    field_simp
    ring
  apply h
  rw [hu, AffineMap.apply_lineMap]
  exact AffineMap.lineMap_mem _ hs ht

/-- Around finitely many affine subspaces, none of which contains a space, some point of the space can be found. -/
theorem exists_mem_of_not_le {P : AffineSubspace ℚ V} (hP : (P : Set V).Nonempty) {Es : List (AffineSubspace ℚ V)}
    (h : ∀ E ∈ Es, ¬ P ≤ E) : ∃ x ∈ P, ∀ E ∈ Es, x ∉ E := by
  induction Es with
  | nil =>
    obtain ⟨x, hx⟩ := hP
    exact ⟨x, hx, by simp⟩
  | cons E rest ih =>
    obtain ⟨p, hp, hrest⟩ := ih fun F hF => h F (List.mem_cons_of_mem _ hF)
    obtain ⟨q, hq, hqE⟩ := SetLike.not_le_iff_exists.1 (h E List.mem_cons_self)
    -- The line from `p` to `q` leaves each of the subspaces, so it meets all of them finitely often.
    have hleaves : ∀ F ∈ E :: rest, ∃ u : ℚ, AffineMap.lineMap p q u ∉ F := by
      intro F hF
      rcases List.mem_cons.1 hF with rfl | hF
      · exact ⟨1, by rwa [AffineMap.lineMap_apply_one]⟩
      · exact ⟨0, by rw [AffineMap.lineMap_apply_zero]; exact hrest F hF⟩
    have hfinite : (⋃ F ∈ {F | F ∈ E :: rest}, {t : ℚ | AffineMap.lineMap p q t ∈ F}).Finite := by
      apply Set.Finite.biUnion (List.finite_toSet _)
      intro F hF
      obtain ⟨u, hu⟩ := hleaves F hF
      exact (subsingleton_lineMap hu).finite
    obtain ⟨t, ht⟩ := hfinite.exists_notMem
    simp only [Set.mem_iUnion, Set.mem_ofPred_eq, not_exists] at ht
    exact ⟨AffineMap.lineMap p q t, AffineMap.lineMap_mem t hp hq, ht⟩

/-- A space that is covered by finitely many affine subspaces lies in one of them. -/
theorem exists_le_of_covered {P : AffineSubspace ℚ V} (hP : (P : Set V).Nonempty) {Es : List (AffineSubspace ℚ V)}
    (h : ∀ x ∈ P, ∃ E ∈ Es, x ∈ E) : ∃ E ∈ Es, P ≤ E := by
  by_contra hnone
  push Not at hnone
  obtain ⟨x, hx, hout⟩ := exists_mem_of_not_le hP hnone
  obtain ⟨E, hE, hmem⟩ := h x hx
  exact hout E hE hmem

end Covers

end FlowFacts
