import Mathlib
import FlowFacts.Proofs.AffineHulls
import FlowFacts.Proofs.SumAnalysis

/-!
# The sum analysis is exact over the rationals

With constants, a statement makes of the points of a state an affine subspace, which the transfer computes, or takes
a hyperplane out of one. In the second case what is left spans all of it again, since an affine subspace is not
covered by two smaller ones. So the transfer is the best there is: `Frame.transfer_isLeast`. By the same fact, points
that all satisfy one of some clauses all satisfy the same clause, and looking at one clause after the other decides
assertions about sums: `Frame.check_decides`.
-/

namespace FlowFacts

namespace Frame

variable {f : Frame} {x : String} {c : Nat} {value : Value} {statement : Statement} {s : Relations}

/-! ## What a statement makes of points -/

/-- A variable is written in its column. -/
theorem HasColumn.write (hf : f.names.Nodup) (h : f.HasColumn x c) (y : Nat → ℚ) (q : ℚ) :
    f.write (fun i => y i) x q = fun i : Fin f.names.length => Function.update y c q i := by
  obtain ⟨hlt, hx⟩ := List.getElem?_eq_some_iff.1 h.name
  funext i
  have hiff : f.names[i] = x ↔ (i : Nat) = c := by
    rw [← hx]
    exact hf.getElem_inj_iff
  simp only [Frame.write, hiff, Function.update_apply]

theorem mem_image {z : Fin f.names.length → ℚ} : z ∈ f.image statement (s.pointSet f.names.length) ↔
    ∃ y ∈ s.Points f.names.length, f.Moves (fun i => y i) z statement := by
  constructor
  · rintro ⟨y, hy, hmoves⟩
    obtain ⟨y, rfl⟩ := surjective_restrict f.names.length y
    exact ⟨y, Relations.mem_points.2 hy, hmoves⟩
  · rintro ⟨y, hy, hmoves⟩
    exact ⟨_, Relations.mem_points.1 hy, hmoves⟩

/-- A point comes from an assignment if some old value of the variable makes it one that was allowed, and from
there the new value can be taken. -/
theorem mem_image_assign (hf : f.names.Nodup) (h : f.HasColumn x c) {z : Nat → ℚ} :
    (fun i : Fin f.names.length => z i) ∈ f.image (.assign x value) (s.pointSet f.names.length) ↔
      ∃ r, Function.update z c r ∈ s.Points f.names.length ∧
        value.Takes (f.read fun i => Function.update z c r i) (z c) := by
  rw [mem_image]
  constructor
  · rintro ⟨y, hy, q, htakes, hz⟩
    rw [h.write hf] at hz
    have hentry : ∀ i < f.names.length, z i = Function.update y c q i := fun i hi => congrFun hz ⟨i, hi⟩
    have hold : (fun i : Fin f.names.length => Function.update z c (y c) i) = fun i : Fin f.names.length => y i := by
      funext i
      by_cases hi : (i : Nat) = c
      · rw [hi, Function.update_self]
      · rw [Function.update_of_ne hi, hentry i i.isLt, Function.update_of_ne hi]
    refine ⟨y c, ?_, ?_⟩
    · rw [Relations.mem_points, hold]
      exact Relations.mem_points.1 hy
    · rw [hold, hentry c h.lt, Function.update_self]
      exact htakes
  · rintro ⟨r, hr, htakes⟩
    refine ⟨_, hr, z c, htakes, ?_⟩
    rw [h.write hf, Function.update_idem, Function.update_eq_self]

theorem mem_image_assume {condition : Condition} {z : Nat → ℚ} :
    (fun i : Fin f.names.length => z i) ∈ f.image (.assume condition) (s.pointSet f.names.length) ↔
      z ∈ s.Points f.names.length ∧ condition.Passes (f.read fun i => z i) := by
  rw [Relations.mem_points]
  constructor
  · rintro ⟨y, hy, hpasses, rfl⟩
    exact ⟨hy, hpasses⟩
  · rintro ⟨hz, hpasses⟩
    exact ⟨_, hz, hpasses, rfl⟩

/-- Where a value does not read a variable, changing the variable does not change it. -/
theorem takes_update (h : f.HasColumn x c) (hreads : value.reads ≠ some x) (hu : ∀ u ∈ value.reads, u ∈ f.names)
    {z : Nat → ℚ} {r q : ℚ} :
    value.Takes (f.read fun i => Function.update z c r i) q ↔ value.Takes (f.read fun i => z i) q := by
  apply Value.takes_congr
  intro u hread
  obtain ⟨d, hd⟩ := exists_column (hu u hread)
  have hdc : d ≠ c := h.ne hd fun hux => hreads (hux ▸ hread)
  rw [hd.read, hd.read, Function.update_of_ne hdc]

/-! ## The equations that a frame with constants keeps -/

/-- With constants, only an unknown value gives no equation. -/
theorem eq_unknown_of_valueEquation (henc : f.encoding = .affine) (h : f.HasColumn x c)
    (hreads : value.reads ≠ some x) (hu : ∀ u ∈ value.reads, u ∈ f.names)
    (ho : f.valueEquation x value = .ok none) : value = .unknown := by
  cases hread : value.reads with
  | some u =>
    obtain ⟨d, hd⟩ := exists_column (hu u hread)
    rw [valueEquation_copy h hd (fun hux => hreads (hux ▸ hread)) hread] at ho
    simp [copyEquation, henc] at ho
  | none =>
    cases value with
    | unknown => rfl
    | const k =>
      rw [valueEquation_const h] at ho
      simp [constEquation, henc] at ho
    | var | plus | minus => cases hread

/-- With constants, the equation with a value holds where the variable has one of its values. -/
theorem mem_equation_iff_takes (henc : f.encoding = .affine) (h : f.HasColumn x c) (hreads : value.reads ≠ some x)
    (hu : ∀ u ∈ value.reads, u ∈ f.names) {o : Option Relations} (ho : f.valueEquation x value = .ok o)
    (y : Nat → ℚ) :
    (∀ e ∈ o, y ∈ e.Points f.names.length) ↔ value.Takes (f.read fun i => y i) (y c) := by
  obtain ⟨o', ho', hspec⟩ := valueEquation_spec h hreads hu
  obtain rfl := Except.ok.inj (ho.symm.trans ho')
  cases o with
  | none =>
    rw [eq_unknown_of_valueEquation henc h hreads hu ho]
    exact iff_of_true (by simp) trivial
  | some e =>
    obtain ⟨g, hpins, hg⟩ := hspec e rfl
    rw [hg, ← hpins.points]
    simp

/-! ## The best transfer -/

/-- The transfer answers with a canonical state, and its points are the smallest affine subspace around what the
statement makes of the points before. -/
def TransfersBest (f : Frame) (statement : Statement) (s : Relations) : Prop :=
  ∃ t, f.transfer statement s = .ok t ∧ t.Canonical f.names.length ∧
    IsLeast {E : AffineSubspace ℚ (Fin f.names.length → ℚ) | f.image statement (s.pointSet f.names.length) ⊆ E}
      (t.space f.names.length)

/-- A statement that acts by a map is transferred in the best way if the map gives all the points that the statement
makes of those of the state, and only such as no affine subspace around them leaves out. -/
theorem Acts.transfersBest {F : Set (Nat → ℚ) → Set (Nat → ℚ)} (hacts : f.Acts statement F)
    (hs : s.Canonical f.names.length)
    (hall : ∀ z : Nat → ℚ, (fun i : Fin f.names.length => z i) ∈ f.image statement (s.pointSet f.names.length) →
      z ∈ F (s.Points f.names.length))
    (hleast : ∀ E : AffineSubspace ℚ (Fin f.names.length → ℚ), f.image statement (s.pointSet f.names.length) ⊆ E →
      ∀ z ∈ F (s.Points f.names.length), (fun i : Fin f.names.length => z i) ∈ E) : f.TransfersBest statement s := by
  obtain ⟨t, ht, hcan, hpts⟩ := hacts.transfer s hs
  refine ⟨t, ht, hcan, fun y hy => ?_, fun E hE y hy => ?_⟩
  · obtain ⟨z, rfl⟩ := surjective_restrict f.names.length y
    apply Relations.mem_points.1
    rw [hpts]
    exact hall z hy
  · obtain ⟨z, rfl⟩ := surjective_restrict f.names.length y
    apply hleast E hE
    rw [← hpts]
    exact Relations.mem_points.2 hy

/-- So it is if the map gives just the points that the statement makes. -/
theorem Acts.transfersBest_of_iff {F : Set (Nat → ℚ) → Set (Nat → ℚ)} (hacts : f.Acts statement F)
    (hs : s.Canonical f.names.length)
    (h : ∀ z : Nat → ℚ, (fun i : Fin f.names.length => z i) ∈ f.image statement (s.pointSet f.names.length) ↔
      z ∈ F (s.Points f.names.length)) : f.TransfersBest statement s := by
  apply hacts.transfersBest hs
  · exact fun z => (h z).1
  · exact fun E hE z hz => hE ((h z).2 hz)

theorem transfersBest_assign (hf : f.names.Nodup) (henc : f.encoding = .affine) (hs : s.Canonical f.names.length)
    (h : f.HasColumn x c) (hu : ∀ u ∈ value.reads, u ∈ f.names) : f.TransfersBest (.assign x value) s := by
  by_cases hreads : value.reads = some x
  · -- The old value can be computed from the new one.
    have hold : ∀ z : Nat → ℚ,
        (fun i : Fin f.names.length => z i) ∈ f.image (.assign x value) (s.pointSet f.names.length) ↔
          Function.update z c (z c - value.offset) ∈ s.Points f.names.length := by
      intro z
      simp only [mem_image_assign hf h, Value.takes_of_reads hreads, h.read, Function.update_self]
      constructor
      · rintro ⟨r, hr, hz⟩
        rwa [hz, add_sub_cancel_right]
      · exact fun hz => ⟨_, hz, (sub_add_cancel _ _).symm⟩
    by_cases hzero : value.offset = 0
    · apply (acts_keep hf h hreads hzero).transfersBest_of_iff hs
      intro z
      rw [hold, hzero, Int.cast_zero, sub_zero, Function.update_eq_self]
      rfl
    · exact (acts_shift hf h hreads hzero henc).transfersBest_of_iff hs hold
  · obtain ⟨o, ho, -⟩ := valueEquation_spec h hreads hu
    apply (acts_assign hf h hreads hu ho).transfersBest_of_iff hs
    intro z
    simp only [mem_image_assign hf h, takes_update h hreads hu, exists_and_right,
      ← mem_equation_iff_takes henc h hreads hu ho]
    rfl

theorem transfersBest_equal (henc : f.encoding = .affine) (hs : s.Canonical f.names.length)
    (h : f.HasColumn x c) (hu : ∀ u ∈ value.reads, u ∈ f.names) : f.TransfersBest (.assume (.equal x value)) s := by
  by_cases hreads : value.reads = some x
  · apply (acts_equal_self hreads).transfersBest_of_iff hs
    intro z
    simp [mem_image_assume, Condition.Passes, Value.takes_of_reads hreads]
  · obtain ⟨o, ho, -⟩ := valueEquation_spec h hreads hu
    apply (acts_equal h hreads hu ho).transfersBest_of_iff hs
    intro z
    show _ ↔ z ∈ s.Points f.names.length ∧ ∀ e ∈ o, z ∈ e.Points f.names.length
    simp only [mem_image_assume, Condition.Passes, h.read, exists_eq_right',
      mem_equation_iff_takes henc h hreads hu ho]

/-- An assumption that something differs takes the points out at which an equation holds. What is left of a state
with others spans all of it. -/
theorem transfersBest_unequal (henc : f.encoding = .affine) (hs : s.Canonical f.names.length)
    (h : f.HasColumn x c) (hu : ∀ u ∈ value.reads, u ∈ f.names) : f.TransfersBest (.assume (.unequal x value)) s := by
  by_cases hreads : value.reads = some x
  · apply (acts_unequal_self hreads).transfersBest_of_iff hs
    intro z
    simp [mem_image_assume, Condition.Passes, Value.takes_of_reads hreads]
  · obtain ⟨o, ho, hspec⟩ := valueEquation_spec h hreads hu
    have hacts := acts_unequal h hreads hu ho
    cases o with
    | none =>
      apply hacts.transfersBest_of_iff hs
      intro z
      have hne : ∃ q, z c ≠ q := ⟨z c + 1, by simp⟩
      simpa [mem_image_assume, Condition.Passes, h.read, eq_unknown_of_valueEquation henc h hreads hu ho,
        Value.Takes] using fun _ => hne
    | some e =>
      obtain ⟨g, hpins, hg⟩ := hspec e rfl
      have hpasses : ∀ z : Nat → ℚ,
          (fun i : Fin f.names.length => z i) ∈ f.image (.assume (.unequal x value)) (s.pointSet f.names.length) ↔
            z ∈ s.Points f.names.length ∧ z ∉ e.Points f.names.length := by
        intro z
        simp [mem_image_assume, Condition.Passes, h.read, hg, hpins.points]
      apply hacts.transfersBest hs
      · intro z hz
        obtain ⟨hmem, hout⟩ := (hpasses z).1 hz
        refine ⟨hmem, ?_⟩
        rintro _ ⟨⟩ hsub
        exact hout (hsub hmem)
      · intro E hE z hz
        -- The state is covered by the equation and by any subspace around the other points.
        have hcover : ∀ y ∈ s.space f.names.length, ∃ P ∈ [E, e.space f.names.length], y ∈ P := by
          intro y hy
          obtain ⟨y, rfl⟩ := surjective_restrict f.names.length y
          by_cases hye : y ∈ e.Points f.names.length
          · exact ⟨e.space _, by simp, Relations.mem_points.1 hye⟩
          · exact ⟨E, by simp, hE ((hpasses y).2 ⟨Relations.mem_points.2 hy, hye⟩)⟩
        obtain ⟨P, hP, hle⟩ := exists_le_of_covered ⟨_, Relations.mem_points.1 hz.1⟩ hcover
        simp only [List.mem_cons, List.not_mem_nil, or_false] at hP
        rcases hP with rfl | rfl
        · exact hle (Relations.mem_points.1 hz.1)
        · refine absurd (fun y hy => ?_) (hz.2 e rfl)
          exact Relations.mem_points.2 (hle (Relations.mem_points.1 hy))

theorem transfersBest (hf : f.names.Nodup) (henc : f.encoding = .affine) (hs : s.Canonical f.names.length)
    (h : ∀ x ∈ statement.mentions, x ∈ f.names) : f.TransfersBest statement s := by
  have hself : ∀ {z : Nat → ℚ}, (fun i : Fin f.names.length => z i) ∈ s.pointSet f.names.length ↔
      z ∈ id (s.Points f.names.length) := Relations.mem_points.symm
  cases statement with
  | skip =>
    apply acts_skip.transfersBest_of_iff hs
    intro z
    simp [image, Moves, hself]
  | assert a =>
    apply (acts_assert a).transfersBest_of_iff hs
    intro z
    simp [image, Moves, hself]
  | assign x value =>
    obtain ⟨c, hc⟩ := exists_column (h x List.mem_cons_self)
    exact transfersBest_assign hf henc hs hc (Value.reads_mem h)
  | assume condition =>
    cases condition with
    | always =>
      apply acts_always.transfersBest_of_iff hs
      intro z
      simp [mem_image_assume, Condition.Passes]
    | never =>
      apply acts_never.transfersBest_of_iff hs
      intro z
      simp [mem_image_assume, Condition.Passes]
    | equal x value =>
      obtain ⟨c, hc⟩ := exists_column (h x List.mem_cons_self)
      exact transfersBest_equal henc hs hc (Value.reads_mem h)
    | unequal x value =>
      obtain ⟨c, hc⟩ := exists_column (h x List.mem_cons_self)
      exact transfersBest_unequal henc hs hc (Value.reads_mem h)

/-- The transfer of the sum analysis with constants is the best one: it answers with a canonical state whose points
are the smallest affine subspace around what the statement makes of the points before, and which is the least state
just if the statement leaves none of them. -/
theorem transfer_isLeast (hf : f.names.Nodup) (henc : f.encoding = .affine) (hs : s.Canonical f.names.length)
    (h : ∀ x ∈ statement.mentions, x ∈ f.names) :
    ∃ t, f.transfer statement s = .ok t ∧ t.Canonical f.names.length ∧
      (t = .bottom ↔ f.image statement (s.pointSet f.names.length) = ∅) ∧
      IsLeast {E : AffineSubspace ℚ (Fin f.names.length → ℚ) | f.image statement (s.pointSet f.names.length) ⊆ E}
        (t.space f.names.length) := by
  obtain ⟨t, ht, hcan, hleast⟩ := transfersBest hf henc hs h
  refine ⟨t, ht, hcan, ⟨?_, fun hempty => ?_⟩, hleast⟩
  · rintro rfl
    exact Set.subset_empty_iff.1 hleast.1
  · by_contra hbot
    obtain ⟨y, hy⟩ := Relations.pointSet_nonempty hcan hbot
    have hle : t.space f.names.length ≤ ⊥ := hleast.2 (by rw [hempty]; exact Set.empty_subset _)
    exact (AffineSubspace.notMem_bot ℚ _ y) (hle hy)

/-- Two variables, with constants. -/
def plane : Frame := ⟨["x", "y"], .affine⟩

/-- Of the line `2 x = y`, the points with `x` other than zero span the line again. -/
theorem transfer_isLeast_unequal :
    plane.transfer (.assume (.unequal "x" (.const 0))) Relations.doubled = .ok Relations.doubled ∧
      IsLeast {E : AffineSubspace ℚ (Fin plane.names.length → ℚ) |
        plane.image (.assume (.unequal "x" (.const 0))) (Relations.doubled.pointSet plane.names.length) ⊆ E}
        (Relations.doubled.space plane.names.length) := by
  have htransfer : plane.transfer (.assume (.unequal "x" (.const 0))) Relations.doubled = .ok Relations.doubled := by
    decide +kernel
  have hnames : ∀ x ∈ (Statement.assume (.unequal "x" (.const 0))).mentions, x ∈ plane.names := by decide
  obtain ⟨t, ht, -, -, hleast⟩ := transfer_isLeast (s := Relations.doubled) (by decide) rfl
    (Relations.solving_spec rfl).1 hnames
  obtain rfl : t = Relations.doubled := Except.ok.inj (ht.symm.trans htransfer)
  exact ⟨htransfer, hleast⟩

/-! ## Assertions -/

variable {a : Assertion}

/-- Without parity atoms an assertion holds if the sums of one clause do. -/
theorem holdsAt_iff_sums (hpar : a.hasParity = false) {σ : Valuation} :
    a.HoldsAt σ ↔ ∃ clause ∈ a.clauses, ∀ atom ∈ clause, atom.isSum → atom.HoldsAt σ := by
  have hsum : ∀ clause ∈ a.clauses, ∀ atom ∈ clause, atom.isSum = true := by
    intro clause hc atom hatom
    have hall := List.any_eq_false.1 hpar atom (List.mem_flatten.2 ⟨clause, hc, hatom⟩)
    simpa [Atom.isParity] using hall
  constructor
  · rintro ⟨clause, hc, hholds⟩
    exact ⟨clause, hc, fun atom hatom _ => hholds atom hatom⟩
  · rintro ⟨clause, hc, hholds⟩
    exact ⟨clause, hc, fun atom hatom => hholds atom hatom (hsum clause hc atom hatom)⟩

/-- If at every point of a state the sums of some clause hold, those of one clause hold at all of them. -/
theorem exists_provesSums (h : ∀ x ∈ (Statement.assert a).mentions, x ∈ f.names) (hs : s.Canonical f.names.length)
    (hbot : s ≠ .bottom) (hcover : ∀ y ∈ s.pointSet f.names.length, ∃ clause ∈ a.clauses, ∀ atom ∈ clause,
      atom.isSum → atom.HoldsAt (f.read y)) : ∃ clause ∈ a.clauses, f.provesSums s clause = .ok true := by
  have hexists : ∀ clause ∈ a.clauses, ∃ E : AffineSubspace ℚ (Fin f.names.length → ℚ),
      ∀ y, y ∈ E ↔ ∀ atom ∈ clause, atom.isSum → atom.HoldsAt (f.read y) := by
    intro clause hc
    obtain ⟨t, -, -, hpts⟩ := sumConstraint_spec (names_of_clause h clause hc)
    refine ⟨t.space f.names.length, fun y => ?_⟩
    obtain ⟨z, rfl⟩ := surjective_restrict f.names.length y
    exact Relations.mem_points.symm.trans (hpts z)
  choose! space hspace using hexists
  have hspaces : ∀ y ∈ s.space f.names.length, ∃ E ∈ a.clauses.map space, y ∈ E := by
    intro y hy
    obtain ⟨clause, hc, hholds⟩ := hcover y hy
    exact ⟨_, List.mem_map_of_mem hc, (hspace clause hc y).2 hholds⟩
  obtain ⟨E, hE, hle⟩ := exists_le_of_covered (Relations.pointSet_nonempty hs hbot) hspaces
  obtain ⟨clause, hc, rfl⟩ := List.mem_map.1 hE
  obtain ⟨b, hb, hiff⟩ := provesSums_spec (names_of_clause h clause hc) hs
  refine ⟨clause, hc, ?_⟩
  rw [hb, hiff.2 fun y hy => (hspace clause hc _).1 (hle (Relations.mem_points.1 hy))]

theorem check_eq_proved_iff (h : ∀ x ∈ (Statement.assert a).mentions, x ∈ f.names) (hpar : a.hasParity = false)
    (hs : s.Canonical f.names.length) :
    f.check a s = .ok .proved ↔ ∀ y ∈ s.pointSet f.names.length, a.HoldsAt (f.read y) := by
  rw [check_eq_proved h hs]
  simp only [hpar, true_and, holdsAt_iff_sums hpar]
  by_cases hbot : s = .bottom
  · subst hbot
    exact iff_of_true (Or.inl rfl) fun _ hy => hy.elim
  · rw [isBottom_eq_false hbot]
    constructor
    · rintro (hfalse | ⟨clause, hc, hproves⟩) y hy
      · cases hfalse
      · obtain ⟨b, hb, hiff⟩ := provesSums_spec (names_of_clause h clause hc) hs
        obtain rfl := Except.ok.inj (hproves.symm.trans hb)
        obtain ⟨z, rfl⟩ := surjective_restrict f.names.length y
        exact ⟨clause, hc, hiff.1 rfl z (Relations.mem_points.2 hy)⟩
    · exact fun hcover => Or.inr (exists_provesSums h hs hbot hcover)

/-- The check of the sum analysis decides assertions without parity atoms: they are proved if they hold at every
rational point of the state, and violated if they do not. -/
theorem check_decides (h : ∀ x ∈ (Statement.assert a).mentions, x ∈ f.names) (hpar : a.hasParity = false)
    (hs : s.Canonical f.names.length) :
    (f.check a s = .ok .proved ↔ ∀ y ∈ s.pointSet f.names.length, a.HoldsAt (f.read y)) ∧
      (f.check a s = .ok .violated ↔ ∃ y ∈ s.pointSet f.names.length, ¬ a.HoldsAt (f.read y)) := by
  have hproved := check_eq_proved_iff h hpar hs
  refine ⟨hproved, ?_⟩
  have hanswer : f.check a s = .ok .violated ↔ ¬ f.check a s = .ok .proved := by
    obtain ⟨b, hb, -⟩ := anyM_spec fun c hc => (provesSums_spec (names_of_clause h c hc) hs).imp fun _ => And.left
    simp only [check, hpar, hb, bind, Except.bind, pure, Except.pure]
    cases s.isBottom <;> cases b <;> simp [Verdict.ofBool]
  rw [hanswer, hproved]
  push Not
  rfl

/-- On the line `2 x = y` every point has `x = 0` or `x + x = y`, and some point does not have `x = 0`. -/
theorem check_decides_doubled :
    (plane.check ⟨[[.sum ["x"] []], [.sum ["x", "x"] ["y"]]]⟩ Relations.doubled = .ok .proved ∧
      ∀ y ∈ Relations.doubled.pointSet plane.names.length,
        Assertion.HoldsAt (plane.read y) ⟨[[.sum ["x"] []], [.sum ["x", "x"] ["y"]]]⟩) ∧
    (plane.check ⟨[[.sum ["x"] []]]⟩ Relations.doubled = .ok .violated ∧
      ∃ y ∈ Relations.doubled.pointSet plane.names.length,
        ¬ Assertion.HoldsAt (plane.read y) ⟨[[.sum ["x"] []]]⟩) := by
  have hcan : Relations.doubled.Canonical plane.names.length := (Relations.solving_spec rfl).1
  have hproved : plane.check ⟨[[.sum ["x"] []], [.sum ["x", "x"] ["y"]]]⟩ Relations.doubled = .ok .proved := by
    decide +kernel
  have hviolated : plane.check ⟨[[.sum ["x"] []]]⟩ Relations.doubled = .ok .violated := by decide +kernel
  exact ⟨⟨hproved, (check_decides (by decide) (by decide) hcan).1.1 hproved⟩,
    hviolated, (check_decides (by decide) (by decide) hcan).2.1 hviolated⟩

end Frame

end FlowFacts
