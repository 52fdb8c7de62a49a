import Mathlib
import FlowFacts.Proofs.ProductRefinement

/-!
# Relations with and without constants

Without constants every statement leaves the origin where there was one (`Frame.Coarsens`), and a system that
has the origin among its solutions is a linear subspace. That holds at every state that comes up in a run:
`sumAnalysis_linear`. And since statements leave more points then, a solution without constants is a solution
with them, so that least solutions are ordered the same way: `sumAnalysis_coarsens`.
-/

namespace FlowFacts

/-! ## Linear subspaces -/

/-- A system without constants. Its solutions are a linear subspace. -/
structure RationalMatrix.IsLinear (n : Nat) (m : RationalMatrix) : Prop where
  constant : ∀ row ∈ m.rows, row[n]? = some 0
  subspace : ∃ W : Submodule ℚ (Fin n → ℚ), m.solutionSet n = W

/-- No point, all points, or those of a system without constants. -/
def Relations.Linear (n : Nat) : Relations → Prop
  | bottom => True
  | top => True
  | system m => m.IsLinear n

theorem RationalMatrix.isLinear_of_constant {n : Nat} {m : RationalMatrix} (h : ∀ row ∈ m.rows, row[n]? = some 0) :
    m.IsLinear n := by
  have hmem : ∀ x, x ∈ m.solutionSet n ↔ ∀ row ∈ m.rows, ∑ i : Fin n, (row.getD i 0).toRat * x i = 0 := by
    intro x
    refine forall₂_congr fun row hrow => ?_
    have hconst : row.getD n 0 = 0 := by rw [List.getD_eq_getElem?_getD, h row hrow, Option.getD_some]
    rw [hconst, Fraction.toRat_zero, add_zero]
  refine ⟨h, ⟨⟨⟨m.solutionSet n, ?_⟩, ?_⟩, ?_⟩, rfl⟩
  · intro x y hx hy
    rw [hmem] at hx hy ⊢
    intro row hrow
    simp only [Pi.add_apply, mul_add, Finset.sum_add_distrib, hx row hrow, hy row hrow, add_zero]
  · exact (hmem 0).2 fun row _ => by simp
  · intro k x hx
    rw [hmem] at hx ⊢
    intro row hrow
    have hscale : ∀ i : Fin n, (row.getD i 0).toRat * (k • x) i = k * ((row.getD i 0).toRat * x i) := by
      intro i
      rw [Pi.smul_apply, smul_eq_mul]
      ring
    rw [Finset.sum_congr rfl fun i _ => hscale i, ← Finset.mul_sum, hx row hrow, mul_zero]

theorem Relations.linear_of_centered {names : List String} {d : Relations} (h : d.Canonical names.length)
    (hd : Frame.Centered names (d.Points names.length)) : d.Linear names.length := by
  cases d with
  | bottom => trivial
  | top => trivial
  | system m =>
    refine RationalMatrix.isLinear_of_constant fun row hrow => ?_
    have hzero : equationAt names.length (Row.vec row) (Frame.zeroPoint names) = 0 :=
      hd (points_nonempty h nofun) row hrow
    -- At the origin an equation comes down to its constant.
    have hdot : dotTo names.length (Row.vec row) (Frame.zeroPoint names) = 0 := Finset.sum_eq_zero fun i hi => by
      rw [Frame.zeroPoint_eq_zero (Finset.mem_range.1 hi), mul_zero]
    rw [equationAt, hdot, zero_add, vec_fractions, Fraction.toRat_eq_zero] at hzero
    have hlt : names.length < row.length := by
      have hlen : row.length = names.length + 1 := (m.width row hrow).trans h.columns
      omega
    rw [List.getElem?_eq_getElem hlt, ← hzero, List.getD_eq_getElem _ _ hlt]

section Runs

variable {g : Graph}

theorem centered_of_produced (hg : g.Proper) {d : Relations}
    (h : Solver.Produced g (sumAnalysis ⟨g.names, .homogeneous⟩) d) :
    Frame.Centered g.names (d.Points g.names.length) := by
  have F := sumAnalysis_framework hg .homogeneous
  induction h with
  | bottom => exact fun h => absurd h Set.not_nonempty_empty
  | initial => exact fun _ => trivial
  | @transfer arc d e harc hd he ih =>
    obtain ⟨_, G, hG⟩ := Frame.exists_coarsens hg.nodup (hg.mentions arc harc)
    obtain ⟨t, ht, -, hpts⟩ := hG.homogeneous.transfer d (hd.valid F)
    obtain rfl := Except.ok.inj (ht.symm.trans he)
    exact hpts ▸ hG.centered _ ih
  | @join x y z hx hy hz ihx ihy =>
    obtain ⟨w, hw, -, hhull⟩ := Relations.join_spec (hx.valid F) (hy.valid F)
    obtain rfl := Except.ok.inj (hw.symm.trans hz)
    intro hne
    -- The origin is in one of the two sides, unless both are empty.
    by_cases hxbot : x = .bottom
    · by_cases hybot : y = .bottom
      · subst hxbot hybot
        obtain rfl := Except.ok.inj hz
        exact absurd hne Set.not_nonempty_empty
      · exact hhull.right (ihy (Relations.points_nonempty (hy.valid F) hybot))
    · exact hhull.left (ihx (Relations.points_nonempty (hx.valid F) hxbot))

/-- A run of the sum analysis without constants answers, and every state that comes up in it is bottom, top
or a linear subspace. -/
theorem sumAnalysis_linear {p : Program} (hp : p.graph = .ok g) (cap : Nat) :
    ∃ q, Solver.solve g (sumAnalysis ⟨g.names, .homogeneous⟩) cap = .ok q ∧ q.states.length = g.size ∧
      (∀ d ∈ q.states, Solver.Produced g (sumAnalysis ⟨g.names, .homogeneous⟩) d) ∧
      ∀ d, Solver.Produced g (sumAnalysis ⟨g.names, .homogeneous⟩) d → d.Linear g.names.length := by
  have hg := Program.proper_graph hp
  have F := sumAnalysis_framework hg .homogeneous
  obtain ⟨halt, hhalt, hlength, hvalid, -⟩ := Solver.exists_work_least F hg cap
  obtain ⟨fs, hfs⟩ := exists_sum_judge (p := ⟨halt.states, []⟩) hg .homogeneous hlength hvalid
  refine ⟨_, Solver.solve_eq_ok.2 ⟨halt, fs, hhalt, hfs, rfl⟩, hlength, Solver.produced_of_work hg hhalt, ?_⟩
  exact fun d hd => Relations.linear_of_centered (hd.valid F) (centered_of_produced hg hd)

/-- Of the variables that hold the same constant it is known that they are equal. -/
theorem sumAnalysis_linear_copied : Program.copied.graph = .ok .copied ∧ ∃ q m,
    Solver.solve .copied (sumAnalysis ⟨["x", "y"], .homogeneous⟩) 10 = .ok q ∧ q.states[2]? = some (.system m) ∧
      m.rows = ([[1, -1, 0]] : List (List Fraction)) ∧ m.IsLinear 2 := by
  obtain ⟨q, hq, -, hproduced, hlinear⟩ := sumAnalysis_linear copied_graph 10
  change Solver.solve .copied (sumAnalysis ⟨["x", "y"], .homogeneous⟩) 10 = .ok q at hq
  have hrun : (Solver.solve .copied (sumAnalysis ⟨["x", "y"], .homogeneous⟩) 10).toOption.bind (·.states[2]?) =
      some (.system ⟨3, [[1, -1, 0]], by decide⟩) := by
    decide +kernel
  rw [hq] at hrun
  have hstate : q.states[2]? = some (.system ⟨3, [[1, -1, 0]], by decide⟩) := hrun
  exact ⟨copied_graph, q, _, hq, hstate, rfl, hlinear _ (hproduced _ (List.mem_of_getElem? hstate))⟩

/-! ## The order of the two runs -/

namespace Frame

variable {names : List String} {enc enc' : Encoding} {s t : Relations}

/-- Sums that are proved by more points are proved by fewer. Neither encoding leaves out any sum. -/
theorem provesSums_mono (hs : s.Canonical names.length) (ht : t.Canonical names.length)
    (hle : s.Points names.length ⊆ t.Points names.length) {clause : Clause}
    (h : ∀ atom ∈ clause, ∀ x ∈ atom.names, x ∈ names)
    (hproves : (⟨names, enc⟩ : Frame).provesSums t clause = .ok true) :
    (⟨names, enc'⟩ : Frame).provesSums s clause = .ok true := by
  obtain ⟨u, hu, hcan, -⟩ := sumConstraint_spec (f := ⟨names, enc⟩) h
  have hsums : ∀ enc, (⟨names, enc⟩ : Frame).sumConstraint clause = .ok u := fun _ => hu
  simp only [provesSums, hsums, bind, Except.bind] at hproves ⊢
  rw [Relations.le_iff hs hcan]
  exact hle.trans ((Relations.le_iff ht hcan).1 hproves)

theorem check_mono (hs : s.Canonical names.length) (ht : t.Canonical names.length)
    (hle : s.Points names.length ⊆ t.Points names.length) {a : Assertion}
    (h : ∀ x ∈ (Statement.assert a).mentions, x ∈ names)
    (hproved : (⟨names, enc⟩ : Frame).check a t = .ok .proved) :
    (⟨names, enc'⟩ : Frame).check a s = .ok .proved := by
  rw [check_eq_proved (f := ⟨names, enc'⟩) h hs]
  rcases (check_eq_proved h ht).1 hproved with htbot | ⟨hparity, c, hc, hproves⟩
  · -- Nothing is below bottom but bottom.
    left
    by_contra hbot
    obtain ⟨y, hy⟩ := Relations.points_nonempty hs fun h => hbot (h ▸ rfl)
    rw [Relations.isBottom_of_mem (hle hy)] at htbot
    cases htbot
  · exact .inr ⟨hparity, c, hc, provesSums_mono hs ht hle (names_of_clause (f := ⟨names, enc⟩) h c hc) hproves⟩

end Frame

/-- A solution without constants is a solution with them. -/
theorem solution_affine (hg : g.Proper) {y : Nat → Relations}
    (hy : Solver.Solution g (sumAnalysis ⟨g.names, .homogeneous⟩) (Relations.Canonical g.names.length)
      (Relations.Below g) y) :
    Solver.Solution g (sumAnalysis ⟨g.names, .affine⟩) (Relations.Canonical g.names.length) (Relations.Below g) y where
  valid := hy.valid
  entry := hy.entry
  arc arc harc e he := by
    obtain ⟨F, G, hFG⟩ := Frame.exists_coarsens hg.nodup (hg.mentions arc harc)
    have hcan := hy.valid _ (hg.source_lt arc harc)
    obtain ⟨t, ht, -, htpts⟩ := hFG.affine.transfer _ hcan
    obtain ⟨u, hu, -, hupts⟩ := hFG.homogeneous.transfer _ hcan
    obtain rfl := Except.ok.inj (ht.symm.trans he)
    calc t.Points g.names.length = F ((y arc.source).Points g.names.length) := htpts
      _ ⊆ G ((y arc.source).Points g.names.length) := hFG.subset _
      _ = u.Points g.names.length := hupts.symm
      _ ⊆ (y arc.target).Points g.names.length := hy.arc arc harc u hu

/-- Runs of the sum analysis with and without constants answer. Once the one without constants has converged,
every state of the other is below it, and every assertion that it calls proved is proved by the other. -/
theorem sumAnalysis_coarsens {p : Program} (hp : p.graph = .ok g) (cap cap' : Nat) :
    ∃ q r, Solver.solve g (sumAnalysis ⟨g.names, .affine⟩) cap = .ok q ∧
      Solver.solve g (sumAnalysis ⟨g.names, .homogeneous⟩) cap' = .ok r ∧
      (r.converged = true →
        (∀ n < g.size, ∃ d e, q.states[n]? = some d ∧ r.states[n]? = some e ∧ Domain.le d e = .ok true) ∧
        List.Forall₂ Finding.KeptBy r.findings q.findings) := by
  have hg := Program.proper_graph hp
  have hmentions : ∀ arc ∈ g.arcs, ∀ x, arc.statement = .assert x →
      ∀ y ∈ (Statement.assert x).mentions, y ∈ g.names := fun arc harc x hx => hx ▸ hg.mentions arc harc
  have hrun := fun enc => Solver.exists_solve_least (sumAnalysis_framework hg enc) hg fun arc harc x hx s hs =>
    (Frame.check_spec (f := ⟨g.names, enc⟩) (hmentions arc harc x hx) hs).imp fun _ => And.left
  obtain ⟨q, hq, hlength, hvalid, hbelow, -, hjudge⟩ := hrun .affine cap
  obtain ⟨r, hr, hlength', hvalid', -, hsolution, hjudge'⟩ := hrun .homogeneous cap'
  refine ⟨q, r, hq, hr, fun hconv => ?_⟩
  have hle := hbelow _ (solution_affine hg (hsolution hconv))
  refine ⟨fun n hn => ⟨_, _, Solver.getElem?_eq_known (hlength ▸ hn), Solver.getElem?_eq_known (hlength' ▸ hn),
    (Relations.le_iff (hvalid n) (hvalid' n)).2 (hle n hn)⟩, ?_⟩
  refine Solver.forall₂_keptBy hjudge' hjudge fun arc harc x hx hproved => ?_
  exact Frame.check_mono (hvalid _) (hvalid' _) (hle _ (hg.source_lt arc harc)) (hmentions arc harc x hx) hproved

/-- Both runs prove that the copy equals the original. Only the affine one knows the constant. -/
theorem sumAnalysis_coarsens_copied : Program.copied.graph = .ok .copied ∧ ∃ q r d e,
    Solver.solve .copied (sumAnalysis ⟨["x", "y"], .affine⟩) 10 = .ok q ∧
      Solver.solve .copied (sumAnalysis ⟨["x", "y"], .homogeneous⟩) 10 = .ok r ∧ r.converged = true ∧
      r.findings.map (·.outcome) = [.proved] ∧ List.Forall₂ Finding.KeptBy r.findings q.findings ∧
      q.states[2]? = some d ∧ r.states[2]? = some e ∧ Domain.le d e = .ok true ∧ d ≠ e := by
  have hrun : (Solver.solve .copied (sumAnalysis ⟨["x", "y"], .homogeneous⟩) 10).toOption.map
      (fun r => (r.converged, r.findings.map (·.outcome))) = some (true, [.proved]) := by
    decide +kernel
  have hne : (Solver.solve .copied (sumAnalysis ⟨["x", "y"], .affine⟩) 10).toOption.bind (·.states[2]?) ≠
      (Solver.solve .copied (sumAnalysis ⟨["x", "y"], .homogeneous⟩) 10).toOption.bind (·.states[2]?) := by
    decide +kernel
  obtain ⟨q, r, hq, hr, hcoarsens⟩ := sumAnalysis_coarsens copied_graph 10 10
  change Solver.solve .copied (sumAnalysis ⟨["x", "y"], .affine⟩) 10 = .ok q at hq
  change Solver.solve .copied (sumAnalysis ⟨["x", "y"], .homogeneous⟩) 10 = .ok r at hr
  rw [hr] at hrun
  rw [hq, hr] at hne
  obtain ⟨hconv, hfindings⟩ := Prod.mk.inj (Option.some.inj hrun)
  obtain ⟨hstates, hkept⟩ := hcoarsens hconv
  obtain ⟨d, e, hd, he, hle⟩ := hstates 2 (by decide)
  refine ⟨copied_graph, q, r, d, e, hq, hr, hconv, hfindings, hkept, hd, he, hle, ?_⟩
  rintro rfl
  exact hne (hd.trans he.symm)

end Runs

end FlowFacts
