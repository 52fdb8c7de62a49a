import Mathlib
import FlowFacts.Proofs.Relations

/-!
# The order of columns

The variables may stand in another order of columns. A permutation of the columns moves the points of a
state, and two states are `Relations.Moved` into each other if it moves the points of one to those of the
other. The operations of relations are operations on points, so they keep states moved: comparisons are
the same (`Relations.Moved.compare`), and so are meets and joins (`Relations.Moved.meet`,
`Relations.Moved.join`).
-/

namespace FlowFacts

variable {n : Nat} {π : Equiv.Perm Nat}

/-- Only the columns of the variables change places. -/
def Permutes (n : Nat) (π : Equiv.Perm Nat) : Prop := ∀ i, n ≤ i → π i = i

namespace Permutes

theorem lt_iff (h : Permutes n π) {i : Nat} : π i < n ↔ i < n := by
  constructor
  · intro hlt
    by_contra hi
    rw [h i (not_lt.1 hi)] at hlt
    exact hi hlt
  · intro hi
    by_contra hlt
    have hfixed := π.injective (h (π i) (not_lt.1 hlt))
    rw [hfixed] at hlt
    exact hlt hi

theorem eq_iff (h : Permutes n π) {i : Nat} : π i = n ↔ i = n := by
  constructor
  · intro hi
    exact π.injective (hi.trans (h n le_rfl).symm)
  · rintro rfl
    exact h _ le_rfl

theorem symm_eq (h : Permutes n π) : π.symm n = n := (Equiv.symm_apply_eq π).2 (h n le_rfl).symm

theorem dotTo_comp (h : Permutes n π) (v y : Nat → ℚ) : dotTo n v (y ∘ π) = dotTo n (v ∘ π.symm) y := by
  refine Finset.sum_equiv π (fun i => ?_) fun i _ => ?_
  · rw [Finset.mem_range, Finset.mem_range, h.lt_iff]
  · simp

theorem equationAt_comp (h : Permutes n π) (v y : Nat → ℚ) :
    equationAt n v (y ∘ π) = equationAt n (v ∘ π.symm) y := by
  rw [equationAt, equationAt, h.dotTo_comp, Function.comp_apply, h.symm_eq]

end Permutes

/-- The points whose columns were moved from those of a set. -/
def reordered (π : Equiv.Perm Nat) (S : Set (Nat → ℚ)) : Set (Nat → ℚ) := {y | y ∘ π ∈ S}

theorem mem_reordered {S : Set (Nat → ℚ)} {y : Nat → ℚ} : y ∈ reordered π S ↔ y ∘ π ∈ S := Iff.rfl

theorem comp_symm_comp (y : Nat → ℚ) : (y ∘ π.symm) ∘ π = y := by
  funext i
  simp

theorem forall_reordered {S : Set (Nat → ℚ)} {P : (Nat → ℚ) → Prop} :
    (∀ y ∈ reordered π S, P y) ↔ ∀ x ∈ S, P (x ∘ π.symm) := by
  constructor
  · intro h x hx
    refine h _ (mem_reordered.2 ?_)
    rwa [comp_symm_comp]
  · intro h y hy
    have hP := h _ (mem_reordered.1 hy)
    rwa [Function.comp_assoc, Equiv.self_comp_symm, Function.comp_id] at hP

theorem reordered_subset_iff {S T : Set (Nat → ℚ)} : reordered π S ⊆ reordered π T ↔ S ⊆ T := by
  refine forall_reordered.trans (forall₂_congr fun x _ => ?_)
  rw [mem_reordered, comp_symm_comp]

theorem Comparison.eq_of_iff {c d : Comparison} (hle : c.isLe = true ↔ d.isLe = true)
    (hge : c.isGe = true ↔ d.isGe = true) : c = d := by
  cases c <;> cases d <;> simp_all [isLe, isGe]

namespace Relations

/-- An affine subspace is what satisfies all equations that hold on what it was made from. -/
theorem IsHull.mem_iff {A B : Set (Nat → ℚ)} {s : Relations} (h : IsHull n A B (s.Points n)) {y : Nat → ℚ} :
    y ∈ s.Points n ↔ ∀ v, (∀ x ∈ A, equationAt n v x = 0) → (∀ x ∈ B, equationAt n v x = 0) → equationAt n v y = 0 := by
  refine ⟨fun hy v hA hB => h.least v hA hB y hy, fun hy => ?_⟩
  cases s with
  | bottom =>
    -- Nothing was joined, so even the equation `1 = 0` would hold at the point.
    have hone := hy (fun i => if i = n then 1 else 0) (fun x hx => (h.left hx).elim) fun x hx => (h.right hx).elim
    exact absurd ((equationAt_unit y).symm.trans hone) one_ne_zero
  | top => trivial
  | system m => exact fun r hr => hy _ (fun x hx => h.left hx r hr) fun x hx => h.right hx r hr

theorem isBottom_iff {s : Relations} (h : s.Canonical n) : s.isBottom = true ↔ s.Points n ⊆ bottom.Points n := by
  constructor
  · intro hs
    cases s with
    | bottom => exact subset_rfl
    | top => cases hs
    | system _ => cases hs
  · intro hsub
    by_contra hs
    have hne : s ≠ bottom := fun heq => hs (heq ▸ rfl)
    obtain ⟨x, hx⟩ := points_nonempty h hne
    exact hsub hx

/-- The columns of one state are those of another in another order. -/
structure Moved (n : Nat) (π : Equiv.Perm Nat) (s t : Relations) : Prop where
  left : s.Canonical n
  right : t.Canonical n
  points : t.Points n = reordered π (s.Points n)

namespace Moved

variable {s t s' t' : Relations}

theorem bottom : Moved n π bottom bottom := ⟨trivial, trivial, rfl⟩

theorem top : Moved n π top top := ⟨trivial, trivial, rfl⟩

theorem subset_iff (h : Moved n π s t) (h' : Moved n π s' t') :
    t.Points n ⊆ t'.Points n ↔ s.Points n ⊆ s'.Points n := by
  rw [h.points, h'.points, reordered_subset_iff]

theorem compare (h : Moved n π s t) (h' : Moved n π s' t') :
    ∃ c, compare s s' = .ok c ∧ Relations.compare t t' = .ok c := by
  obtain ⟨c, hc, hle, hge⟩ := compare_spec h.left h'.left
  obtain ⟨d, hd, hle', hge'⟩ := compare_spec h.right h'.right
  rw [h.subset_iff h'] at hle'
  rw [h'.subset_iff h] at hge'
  obtain rfl : c = d := Comparison.eq_of_iff (hle.trans hle'.symm) (hge.trans hge'.symm)
  exact ⟨c, hc, hd⟩

theorem le_eq (h : Moved n π s t) (h' : Moved n π s' t') : ∃ b, Domain.le s s' = .ok b ∧ Domain.le t t' = .ok b := by
  obtain ⟨c, hc, hc'⟩ := h.compare h'
  refine ⟨c.isLe, ?_, ?_⟩
  · simp only [Domain.le, show Domain.compare s s' = .ok c from hc, bind, Except.bind, pure, Except.pure]
  · simp only [Domain.le, show Domain.compare t t' = .ok c from hc', bind, Except.bind, pure, Except.pure]

theorem meet (h : Moved n π s t) (h' : Moved n π s' t') :
    ∃ u w, meet s s' = .ok u ∧ Relations.meet t t' = .ok w ∧ Moved n π u w := by
  obtain ⟨u, hu, hcan, hpts⟩ := meet_spec h.left h'.left
  obtain ⟨w, hw, hcan', hpts'⟩ := meet_spec h.right h'.right
  refine ⟨u, w, hu, hw, hcan, hcan', ?_⟩
  rw [hpts', hpts, h.points, h'.points]
  rfl

/-- Equations that hold on two sets of points hold on the moved ones with their columns moved. -/
theorem join (hπ : Permutes n π) (h : Moved n π s t) (h' : Moved n π s' t') :
    ∃ u w, join s s' = .ok u ∧ Relations.join t t' = .ok w ∧ Moved n π u w := by
  obtain ⟨u, hu, hcan, hhull⟩ := join_spec h.left h'.left
  obtain ⟨w, hw, hcan', hhull'⟩ := join_spec h.right h'.right
  refine ⟨u, w, hu, hw, hcan, hcan', Set.ext fun y => ?_⟩
  have hvanish : ∀ {r r' : Relations}, Moved n π r r' → ∀ v, (∀ x ∈ r'.Points n, equationAt n (v ∘ π.symm) x = 0) ↔
      ∀ x ∈ r.Points n, equationAt n v x = 0 := by
    intro r r' hr v
    rw [hr.points, forall_reordered]
    refine forall₂_congr fun x _ => ?_
    rw [← hπ.equationAt_comp, comp_symm_comp]
  rw [mem_reordered, hhull'.mem_iff, hhull.mem_iff, (Equiv.arrowCongr π (Equiv.refl ℚ)).surjective.forall]
  refine forall_congr' fun v => ?_
  exact imp_congr (hvanish h v) (imp_congr (hvanish h' v) (by rw [hπ.equationAt_comp]; rfl))

theorem isBottom_eq (h : Moved n π s t) : t.isBottom = s.isBottom := by
  rw [Bool.eq_iff_iff, isBottom_iff h.right, isBottom_iff h.left, h.subset_iff bottom]

end Moved

end Relations

end FlowFacts
