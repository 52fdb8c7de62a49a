import Mathlib
import FlowFacts.Proofs.Encodings
import FlowFacts.Proofs.Frameworks

/-!
# Runs of the sum analysis

Ordered by their points, canonical relations are a framework for every analysis that moves them as a
frame does (`Frame.framework`). A state can grow only as often as an affine subspace can gain a
dimension (`Relations.height_lt`), which bounds the rounds of a run: `sumAnalysis_converges`. And since
states never pass a solution, `sumAnalysis_least` says that a run approaches the least one from below.
-/

namespace FlowFacts

/-! ## Heights -/

/-- The rows of a canonical system lead in different columns of variables. -/
theorem IsCanonical.height_le {n : Nat} {m : RationalMatrix} (h : IsCanonical n m) : m.height ≤ n :=
  h.reduced.length_le fun _ hr _ hc => h.lead_lt hr hc

namespace Relations

/-- How far up a state is: nothing for bottom, and otherwise one more than the dimension. -/
def height (n : Nat) : Relations → Nat
  | bottom => 0
  | system m => n + 1 - m.height
  | top => n + 1

theorem height_le (n : Nat) (s : Relations) : s.height n ≤ n + 1 := by
  cases s with
  | bottom => exact Nat.zero_le _
  | top => exact le_rfl
  | system m => exact Nat.sub_le _ _

/-- A state with more points is higher up. -/
theorem height_lt {n : Nat} {s t : Relations} (hs : s.Canonical n) (ht : t.Canonical n)
    (hle : s.Points n ⊆ t.Points n) (hnot : ¬ t.Points n ⊆ s.Points n) : s.height n < t.height n := by
  have hpos : ∀ {m : RationalMatrix}, IsCanonical n m → 0 < m.height := fun hm => List.length_pos_iff.2 hm.nonempty
  cases t with
  | bottom => exact absurd (Set.empty_subset _) hnot
  | top =>
    cases s with
    | bottom => exact Nat.succ_pos n
    | top => exact absurd hle hnot
    | system m =>
      have := hpos hs
      simp only [height]
      omega
  | system q =>
    have hq : q.height ≤ n := ht.height_le
    cases s with
    | bottom =>
      simp only [height]
      omega
    | top => exact absurd (Set.subset_univ _) hnot
    | system m =>
      -- More points mean fewer equations: the row spaces are nested the other way.
      have hrows : (rowSpace q.rows : Submodule ℚ (Nat → ℚ)) < rowSpace m.rows :=
        lt_of_le_of_ne ((hs.rowSpace_le_iff ht).2 hle) fun heq =>
          hnot ((ht.rowSpace_le_iff hs).1 heq.ge)
      have hrank := Submodule.finrank_lt_finrank_of_lt hrows
      rw [← ht.height_eq, ← hs.height_eq] at hrank
      simp only [height]
      have := hs.height_le
      omega

end Relations

/-! ## The framework of relations -/

/-- Relations of a frame, ordered by their points, under any analysis that moves them as the frame
does. -/
theorem Frame.framework {f : Frame} {g : Graph} (hg : g.Proper) (hf : f.names = g.names) {a : Analysis Relations}
    (hinitial : a.initial = .top) (htransfer : a.transfer = f.transfer) :
    Solver.Framework g a (Relations.Canonical f.names.length)
      fun r s => r.Points f.names.length ⊆ s.Points f.names.length where
  refl _ := subset_rfl
  trans := Set.Subset.trans
  bottom_le _ := Set.empty_subset _
  valid_bottom := trivial
  valid_initial := by
    rw [hinitial]
    trivial
  transfer arc harc d hd := by
    obtain ⟨F, hF⟩ := exists_acts (f := f) (hf ▸ hg.nodup) (hf ▸ hg.mentions arc harc)
    obtain ⟨e, he, hcan, -⟩ := hF.transfer d hd
    exact ⟨e, htransfer ▸ he, hcan⟩
  transfer_mono arc harc {d e d' e'} hd he hle hd' he' := by
    obtain ⟨F, hF⟩ := exists_acts (f := f) (hf ▸ hg.nodup) (hf ▸ hg.mentions arc harc)
    obtain ⟨u, hu, -, hupts⟩ := hF.transfer d hd
    obtain ⟨w, hw, -, hwpts⟩ := hF.transfer e he
    rw [htransfer] at hd' he'
    obtain rfl := Except.ok.inj (hd'.symm.trans hu)
    obtain rfl := Except.ok.inj (he'.symm.trans hw)
    rw [hupts, hwpts]
    exact hF.mono hle
  join x y hx hy := by
    obtain ⟨z, hz, hcan, hhull⟩ := Relations.join_spec hx hy
    exact ⟨z, hz, hcan, fun w => hhull.subset_iff⟩
  compare x y hx hy := by
    obtain ⟨c, hc, hle, hge⟩ := Relations.compare_spec hx hy
    refine ⟨c, hc, ?_⟩
    rintro rfl
    exact ⟨hle.1 rfl, hge.1 rfl⟩

section Sum

variable {g : Graph} {enc : Encoding}

/-- The order of relations over the variables of a graph. -/
abbrev Relations.Below (g : Graph) (r s : Relations) : Prop := r.Points g.names.length ⊆ s.Points g.names.length

theorem sumAnalysis_framework (hg : g.Proper) (enc : Encoding) :
    Solver.Framework g (sumAnalysis ⟨g.names, enc⟩) (Relations.Canonical g.names.length) (Relations.Below g) :=
  Frame.framework (f := ⟨g.names, enc⟩) hg rfl rfl rfl

variable {p : Solver.Position Relations}

theorem exists_sum_judge (hg : g.Proper) (enc : Encoding) (hlength : p.states.length = g.size)
    (h : ∀ n, (Solver.known p.states n).Canonical g.names.length) :
    ∃ fs, Solver.judge g (sumAnalysis ⟨g.names, enc⟩) p.states g.arcs = .ok fs := by
  refine Solver.exists_judge hlength fun arc harc x hx => ⟨hg.source_lt arc harc, ?_⟩
  have hmentions := hg.mentions arc harc
  rw [hx] at hmentions
  obtain ⟨v, hv, -⟩ := Frame.check_spec (f := ⟨g.names, enc⟩) hmentions (h arc.source)
  exact ⟨v, hv⟩

/-- A node is changed only if its state is not what its arcs make of the others. The state was not
above that, so the new one is strictly higher. -/
theorem height_lt_of_change (hg : g.Proper)
    (h : Solver.Invariant g (sumAnalysis ⟨g.names, enc⟩) (Relations.Canonical g.names.length) (Relations.Below g) p)
    {node : Nat} {next : Relations} {c : Comparison} (harcs : g.arcsInto node ≠ [])
    (hnext : Solver.gathered g (sumAnalysis ⟨g.names, enc⟩) p.states node = .ok next)
    (hc : Domain.compare next (Solver.known p.states node) = .ok c) (hne : c ≠ .equal) :
    (Solver.known p.states node).height g.names.length < next.height g.names.length := by
  have hcan := ((sumAnalysis_framework hg enc).gathered_ok h.valid hnext).1
  have hle := h.rising node next harcs hnext
  refine Relations.height_lt (h.valid node) hcan hle fun hback => hne ?_
  obtain ⟨c', hc', hless, hmore⟩ := Relations.compare_spec hcan (h.valid node)
  obtain rfl := Except.ok.inj (hc.symm.trans hc')
  have h1 := hless.2 hback
  have h2 := hmore.2 hle
  cases c with
  | equal => rfl
  | less => cases h2
  | more => cases h1
  | incomparable => cases h1

/-- A run of the sum analysis comes to an end within one round for each node, and one for each arc and
each step that what is known at its source can grow. -/
theorem sumAnalysis_converges {p : Program} (hp : p.graph = .ok g) (enc : Encoding) {cap : Nat}
    (hcap : g.size + (g.names.length + 1) * g.arcs.length ≤ cap) :
    ∃ q, Solver.solve g (sumAnalysis ⟨g.names, enc⟩) cap = .ok q ∧ q.converged = true := by
  have hg := Program.proper_graph hp
  have F := sumAnalysis_framework hg enc
  have hstart := Solver.Invariant.start F hg
  -- A state can rise `names.length + 1` times: from nothing to a point, then by one dimension each.
  let Φ := Solver.potential g (Relations.height g.names.length) (g.names.length + 1)
  have hturn : ∀ {p q : Solver.Position Relations}, Solver.Invariant g (sumAnalysis ⟨g.names, enc⟩)
      (Relations.Canonical g.names.length) (Relations.Below g) p → Solver.Turn g (sumAnalysis ⟨g.names, enc⟩) p q →
      Solver.Invariant g (sumAnalysis ⟨g.names, enc⟩) (Relations.Canonical g.names.length) (Relations.Below g) q ∧
        Φ q < Φ p := fun hinv hturn =>
    ⟨hinv.turn F hg hturn, hturn.potential_lt fun node rest next c hwaiting hnext hc hne =>
      ⟨height_lt_of_change hg hinv (Solver.waiting_cons hwaiting).1 (Solver.gathered_of_evaluate hnext) hc hne,
        Relations.height_le _ _⟩⟩
  obtain ⟨halt, hhalt, hconv⟩ := Solver.exists_work_converged Φ hturn (fun hinv => hinv.progress F hg) hstart
    ((Solver.potential_start_le _ _).trans hcap)
  obtain ⟨q, halt', hhalt', hstates, hinv, -⟩ := Solver.exists_work (fun hinv ht => (hturn hinv ht).1)
    (fun hinv => hinv.progress F hg) hstart cap
  obtain rfl := Except.ok.inj (hhalt.symm.trans hhalt')
  obtain ⟨fs, hfs⟩ := exists_sum_judge hg enc hinv.length hinv.valid
  exact ⟨_, Solver.solve_eq_ok.2 ⟨halt, fs, hhalt, hstates ▸ hfs, rfl⟩, hconv⟩

/-- Seven nodes, seven arcs and two variables: twenty-eight rounds are enough. -/
theorem sumAnalysis_converges_lockstep : Program.lockstep.graph = .ok .lockstep ∧ ∃ q,
    Solver.solve .lockstep (sumAnalysis ⟨["x", "y"], .homogeneous⟩) 28 = .ok q ∧ q.converged = true :=
  ⟨lockstep_graph, sumAnalysis_converges lockstep_graph .homogeneous (by decide)⟩

/-! ## The least solution -/

/-- A state for each node that the arcs cannot lift: what a statement makes of the state at its source
is below the state at its target, and nothing is known at the entry. -/
structure Frame.Solves (f : Frame) (g : Graph) (y : Nat → Relations) : Prop where
  canonical : ∀ n < g.size, (y n).Canonical f.names.length
  entry : y g.entry = .top
  arc : ∀ arc ∈ g.arcs, ∃ e, f.transfer arc.statement (y arc.source) = .ok e ∧ Domain.le e (y arc.target) = .ok true

theorem below_solution (hg : g.Proper) {y : Nat → Relations} (hy : Frame.Solves ⟨g.names, enc⟩ g y) {cap : Nat}
    {halt : Halt Relations}
    (hhalt : Solver.work g (sumAnalysis ⟨g.names, enc⟩) cap (Solver.start g (sumAnalysis ⟨g.names, enc⟩))
      (List.range g.size) = .ok halt) : ∀ n < g.size, Relations.Below g (Solver.known halt.states n) (y n) := by
  have F := sumAnalysis_framework hg enc
  have hsolution : Solver.Solution g (sumAnalysis ⟨g.names, enc⟩) (Relations.Canonical g.names.length)
      (Relations.Below g) y := by
    refine ⟨hy.canonical, hy.entry ▸ Set.subset_univ _, fun arc harc e he => ?_⟩
    obtain ⟨e', he', hle⟩ := hy.arc arc harc
    obtain ⟨u, hu, hcan⟩ := F.transfer arc harc _ (hy.canonical _ (hg.source_lt arc harc))
    obtain rfl := Except.ok.inj (he.symm.trans he')
    obtain rfl := Except.ok.inj (he.symm.trans hu)
    exact (Relations.le_iff hcan (hy.canonical _ (hg.target_lt arc harc))).1 hle
  obtain ⟨halt', hhalt', -, -, hbelow, -⟩ := Solver.exists_work_least F hg cap
  obtain rfl := Except.ok.inj (hhalt.symm.trans hhalt')
  exact hbelow y hsolution

/-- A run of the sum analysis with any number of rounds answers. Its states are below those of every
longer run and below every solution, and once it has converged they are a solution themselves. -/
theorem sumAnalysis_least {p : Program} (hp : p.graph = .ok g) (enc : Encoding) (cap : Nat) :
    ∃ q, Solver.solve g (sumAnalysis ⟨g.names, enc⟩) cap = .ok q ∧ q.states.length = g.size ∧
      (∀ more q', Solver.solve g (sumAnalysis ⟨g.names, enc⟩) (cap + more) = .ok q' →
        ∀ n < g.size, Domain.le (Solver.known q.states n) (Solver.known q'.states n) = .ok true) ∧
      (∀ y, Frame.Solves ⟨g.names, enc⟩ g y → ∀ n < g.size, Domain.le (Solver.known q.states n) (y n) = .ok true) ∧
      (q.converged = true → Frame.Solves ⟨g.names, enc⟩ g (Solver.known q.states)) := by
  have hg := Program.proper_graph hp
  have F := sumAnalysis_framework hg enc
  have hstart := Solver.Invariant.start F hg
  have hrun := fun cap =>
    Solver.exists_work (fun hinv ht => hinv.turn F hg ht) (fun hinv => hinv.progress F hg) hstart cap
  obtain ⟨z, halt, hhalt, hstates, hinv, hdone⟩ := hrun cap
  obtain ⟨fs, hfs⟩ := exists_sum_judge hg enc hinv.length hinv.valid
  rw [← hstates] at hfs
  refine ⟨_, Solver.solve_eq_ok.2 ⟨halt, fs, hhalt, hfs, rfl⟩, hstates ▸ hinv.length, ?_, ?_, ?_⟩
  · intro more q' hq' n _
    obtain ⟨halt', fs', hhalt', -, rfl⟩ := Solver.solve_eq_ok.1 hq'
    obtain ⟨z', halt'', hhalt'', hstates', hinv', -⟩ := hrun (cap + more)
    obtain rfl := Except.ok.inj (hhalt'.symm.trans hhalt'')
    have hle := Solver.work_states_le F hg hstart hhalt hhalt' n
    exact (Relations.le_iff (hstates ▸ hinv.valid n) (hstates' ▸ hinv'.valid n)).2 hle
  · intro y hy n hn
    have hbelow := below_solution hg hy hhalt n hn
    exact (Relations.le_iff (hstates ▸ hinv.valid n) (hy.canonical n hn)).2 hbelow
  · intro hconv
    have hwaiting := hdone hconv
    simp only [hstates]
    refine ⟨fun n _ => hinv.valid n, hinv.entry, fun arc harc => ?_⟩
    obtain ⟨e, he, hcan⟩ := F.transfer arc harc _ (hinv.valid arc.source)
    refine ⟨e, he, (Relations.le_iff hcan (hinv.valid _)).2 ?_⟩
    -- A node that still waited would have no arcs into it, but this arc leads to it.
    have hinto : arc ∈ g.arcsInto arc.target := Graph.mem_arcsInto.2 ⟨harc, rfl⟩
    refine hinv.settled arc.target (fun hmem => ?_) arc hinto e he
    rw [Solver.arcsInto_of_waiting_nil hwaiting _ hmem] at hinto
    cases hinto

/-- What the run ends with is a solution, below the one in which nothing is known anywhere. -/
theorem sumAnalysis_least_lockstep : Program.lockstep.graph = .ok .lockstep ∧
    Frame.Solves ⟨["x", "y"], .affine⟩ .lockstep (fun _ => .top) ∧ ∃ q,
    Solver.solve .lockstep (sumAnalysis ⟨["x", "y"], .affine⟩) 28 = .ok q ∧ q.converged = true ∧
      Frame.Solves ⟨["x", "y"], .affine⟩ .lockstep (Solver.known q.states) ∧
      ∀ n < 7, Domain.le (Solver.known q.states n) .top = .ok true := by
  have htop : Frame.Solves ⟨["x", "y"], .affine⟩ .lockstep (fun _ => .top) := by
    refine ⟨fun _ _ => trivial, rfl, fun arc harc => ?_⟩
    fin_cases harc <;> exact ⟨_, rfl, rfl⟩
  obtain ⟨q, hq, -, -, hbelow, hsolves⟩ := sumAnalysis_least lockstep_graph .affine 28
  change (Solver.solve .lockstep (sumAnalysis ⟨["x", "y"], .affine⟩) 28) = .ok q at hq
  have hrun : (Solver.solve .lockstep (sumAnalysis ⟨["x", "y"], .affine⟩) 28).toOption.map (·.converged) =
      some true := by
    decide +kernel
  rw [hq] at hrun
  have hconv : q.converged = true := Option.some.inj hrun
  exact ⟨lockstep_graph, htop, q, hq, hconv, hsolves hconv, hbelow _ htop⟩

end Sum

end FlowFacts
