import Mathlib
import FlowFacts.Proofs.Frameworks
import FlowFacts.Proofs.ParityStatements

/-!
# Runs of the parity analysis

Ordered by `ParityState.Covered`, parity states are a framework: in a run, what a state describes only
grows, and it can grow only as often as there are maps of parities to cover (`eventually_covered`). But a
state is more than what it describes. A round may list other alternatives for the same stores
(`Rewords`), which the solver takes for a change, and such changes can go round a cycle forever:
`parityAnalysis_circulating` is a program on which no number of rounds is enough.

`parityAnalysis_converges_iff` says that nothing else can go wrong: a run comes to an end exactly if it
rewords its states only finitely often. Statements that do more than hand states on reduce them, so a
run also ends if every cycle has such a statement (`converges_of_acyclic`).
-/

namespace FlowFacts

variable {g : Graph}

theorem parityAnalysis_framework (hg : g.Proper) :
    Solver.Framework g parityAnalysis (ParityState.Proper g.names) ParityState.Covered where
  refl := ParityState.Covered.refl
  trans := ParityState.Covered.trans
  bottom_le _ := nofun
  valid_bottom := nofun
  valid_initial m hm := by
    rw [List.mem_singleton.1 hm]
    exact ⟨⟨rfl, fun _ _ => rfl⟩, fun _ => nofun⟩
  transfer arc harc d hd := ⟨_, rfl, ParityState.transfer_proper (hg.mentions arc harc) hd⟩
  transfer_mono arc harc {d e d' e'} hd _ hle hd' he' := by
    obtain rfl := Except.ok.inj hd'
    obtain rfl := Except.ok.inj he'
    exact ParityState.transfer_covered (hg.mentions arc harc) hle
  join x y hx hy := by
    refine ⟨_, rfl, fun m hm => ?_, fun w => ParityState.join_covered_iff⟩
    rcases ParityState.mem_of_mem_join hm with hm | hm
    · exact hx m hm
    · exact hy m hm
  compare x y _ _ := by
    refine ⟨_, rfl, fun heq => ?_⟩
    obtain rfl := ParityState.compare_eq_equal.1 heq
    exact ⟨ParityState.Covered.refl x, ParityState.Covered.refl x⟩

/-! ## Runs without end -/

/-- Checks of parities always answer, so a run shows what its work has come to. -/
theorem exists_parity_solve (hg : g.Proper) {cap : Nat} {halt : Halt ParityState}
    (h : Solver.work g parityAnalysis cap (Solver.start g parityAnalysis) (List.range g.size) = .ok halt) :
    ∃ q, Solver.solve g parityAnalysis cap = .ok q ∧ q.states = halt.states ∧ q.converged = halt.converged := by
  obtain ⟨fs, hfs⟩ : ∃ fs, Solver.judge g parityAnalysis halt.states g.arcs = .ok fs :=
    Solver.exists_judge (Solver.length_states_of_work h) fun arc harc _ _ => ⟨hg.source_lt arc harc, _, rfl⟩
  exact ⟨_, Solver.solve_eq_ok.2 ⟨halt, fs, h, hfs, rfl⟩, rfl, rfl⟩

theorem parity_converges_or_endless (hg : g.Proper) :
    Solver.Converges g parityAnalysis ∨ ∃ pos, Solver.Endless g parityAnalysis pos := by
  refine (Solver.work_converges_or_endless (parityAnalysis_framework hg) hg).imp_left ?_
  rintro ⟨R, hR⟩
  refine ⟨R, fun cap hcap => ?_⟩
  obtain ⟨halt, hhalt, hconv⟩ := hR cap hcap
  obtain ⟨q, hq, -, hqc⟩ := exists_parity_solve hg hhalt
  exact ⟨q, hq, hqc.trans hconv⟩

theorem parity_compare_self (d : ParityState) : Domain.compare d d = .ok Comparison.equal :=
  congrArg Except.ok (ParityState.compare_eq_equal.2 rfl)

section Endless

open Filter

variable {pos : Nat → Solver.Position ParityState}

/-- The maps that a state covers only become more, and there are finitely many. -/
theorem eventually_covered (hg : g.Proper) (h : Solver.Endless g parityAnalysis pos) (n : Nat) :
    ∀ᶠ t in atTop, ParityState.Covered (Solver.known (pos (t + 1)).states n) (Solver.known (pos t).states n) := by
  have F := parityAnalysis_framework hg
  -- A rising chain of subsets of a finite type becomes constant.
  let below : Nat →o Set {m : ParityMap // m.Proper g.names} :=
    ⟨fun t => {m | ∃ k ∈ (Solver.known (pos t).states n).expand, m.1 ≤ k}, fun t u htu m ⟨k, hk, hmk⟩ => by
      obtain ⟨l, hl, hkl⟩ := h.le_of_le F hg htu n k hk
      exact ⟨l, hl, hmk.trans hkl⟩⟩
  obtain ⟨T, hT⟩ := WellFoundedGT.monotone_chain_condition below
  refine eventually_atTop.2 ⟨T, fun t ht m hm => ?_⟩
  have hmem : (⟨m, (h.invariant F hg (t + 1)).valid n m hm⟩ : {m : ParityMap // m.Proper g.names}) ∈ below (t + 1) :=
    ⟨m, hm, le_rfl⟩
  rw [← hT (t + 1) (by omega), hT t ht] at hmem
  exact hmem

theorem eventually_covered_all (hg : g.Proper) (h : Solver.Endless g parityAnalysis pos) :
    ∀ᶠ t in atTop, ∀ n, ParityState.Covered (Solver.known (pos (t + 1)).states n) (Solver.known (pos t).states n) :=
  h.eventually_all_nodes (parityAnalysis_framework hg) hg (ParityState.Covered.refl _) fun n _ =>
    eventually_covered hg h n

end Endless

/-! ## Rewording -/

/-- One more round than a number of them changes the states, but not what they describe. -/
def Rewords (g : Graph) (cap : Nat) : Prop :=
  ∃ q q', Solver.solve g parityAnalysis cap = .ok q ∧ Solver.solve g parityAnalysis (cap + 1) = .ok q' ∧
    q'.states ≠ q.states ∧
    ∀ n s, ParityState.Contains (Solver.known q'.states n) s ↔ ParityState.Contains (Solver.known q.states n) s

theorem exists_parity_solve_of_turns (hg : g.Proper) {k : Nat} {p : Solver.Position ParityState}
    (h : Solver.Turns g parityAnalysis k (Solver.origin g parityAnalysis) p) :
    ∃ q, Solver.solve g parityAnalysis k = .ok q ∧ q.states = p.states := by
  obtain ⟨b, hwork, -⟩ := h.work_states hg Solver.origin_queue_lt
  obtain ⟨q, hq, hstates, -⟩ := exists_parity_solve hg hwork
  exact ⟨q, hq, hstates⟩

/-- A run without end keeps changing states, and what they describe settles, so it keeps rewording them. -/
theorem exists_rewords (hg : g.Proper) {pos : Nat → Solver.Position ParityState}
    (h : Solver.Endless g parityAnalysis pos) (R : Nat) : ∃ cap, R ≤ cap ∧ Rewords g cap := by
  have F := parityAnalysis_framework hg
  obtain ⟨T, hT⟩ := Filter.eventually_atTop.1 (eventually_covered_all hg h)
  obtain ⟨t, ht, hchange⟩ := h.exists_change parity_compare_self (max R T)
  obtain ⟨q, hq, hstates⟩ := exists_parity_solve_of_turns hg (h.turns t)
  obtain ⟨q', hq', hstates'⟩ := exists_parity_solve_of_turns hg (h.turns (t + 1))
  refine ⟨t, le_trans (le_max_left R T) ht, q, q', hq, hq', ?_, fun n s => ?_⟩
  · rwa [hstates, hstates']
  · rw [hstates, hstates']
    exact ⟨(hT t (le_trans (le_max_right R T) ht) n).contains, (h.le_of_le F hg (Nat.le_succ t) n).contains⟩

/-- A run that has ended rewords nothing. -/
theorem not_rewords_of_converged {cap : Nat} {q : FixedPoint ParityState}
    (hq : Solver.solve g parityAnalysis cap = .ok q) (hconv : q.converged = true) : ¬ Rewords g cap := by
  rintro ⟨q₁, q₂, hq₁, hq₂, hne, -⟩
  obtain rfl := Except.ok.inj (hq.symm.trans hq₁)
  obtain ⟨halt, _, hhalt, -, rfl⟩ := Solver.solve_eq_ok.1 hq
  obtain ⟨halt', _, hhalt', -, rfl⟩ := Solver.solve_eq_ok.1 hq₂
  have hmore := Solver.work_add_of_converged (p := Solver.origin g parityAnalysis) hhalt hconv 1
  obtain rfl := Except.ok.inj (hhalt'.symm.trans hmore)
  exact hne rfl

/-! ## Statements that hand states on -/

/-- An arc that hands on what is known, as it is. -/
def Graph.PassesTo (g : Graph) (m n : Nat) : Prop :=
  ∃ arc ∈ g.arcs, arc.source = m ∧ arc.target = n ∧ ParityState.Passes arc.statement

section Endless

open Filter

variable {pos : Nat → Solver.Position ParityState}

/-- Once the states that are handed on to a node have settled, it is always evaluated to the same state:
the other arcs make the same of states that cover each other. -/
theorem eventually_gathered_eq (hg : g.Proper) (h : Solver.Endless g parityAnalysis pos) {n : Nat}
    (hpass : ∀ m, g.PassesTo m n →
      ∀ᶠ t in atTop, Solver.known (pos (t + 1)).states m = Solver.known (pos t).states m) :
    ∀ᶠ t in atTop, Solver.gathered g parityAnalysis (pos (t + 1)).states n =
      Solver.gathered g parityAnalysis (pos t).states n := by
  have F := parityAnalysis_framework hg
  have hsettled : ∀ᶠ t in atTop, ∀ m ∈ Set.Iio g.size, g.PassesTo m n →
      Solver.known (pos (t + 1)).states m = Solver.known (pos t).states m := by
    refine (eventually_all_finite (Set.finite_Iio g.size)).2 fun m _ => ?_
    by_cases hm : g.PassesTo m n
    · exact (hpass m hm).mono fun t ht _ => ht
    · exact .of_forall fun t hm' => absurd hm' hm
  -- Finitely many nodes pass states on to `n`, so one round is late enough for all of them.
  filter_upwards [hsettled, eventually_covered_all hg h] with t hsame hcovered
  refine Solver.gathered_congr fun arc harc => ?_
  obtain ⟨hmem, htarget⟩ := Graph.mem_arcsInto.1 harc
  by_cases hp : ParityState.Passes arc.statement
  · rw [hsame arc.source (hg.source_lt arc hmem) ⟨arc, hmem, rfl, htarget, hp⟩]
  · refine congrArg Except.ok (ParityState.transfer_congr (hg.mentions arc hmem) hp ?_ ?_)
    · exact hcovered arc.source
    · exact h.le_of_le F hg (Nat.le_succ t) arc.source

/-- Without a cycle of arcs that hand states on, every node settles, by induction along them. -/
theorem eventually_settled (hg : g.Proper) (h : Solver.Endless g parityAnalysis pos)
    (hacyclic : ∀ n, ¬ Relation.TransGen g.PassesTo n n) (i : Fin g.size) :
    ∀ᶠ t in atTop, Solver.known (pos (t + 1)).states i = Solver.known (pos t).states i := by
  let before : Fin g.size → Fin g.size → Prop := fun i j => Relation.TransGen g.PassesTo i j
  have htrans : IsTrans _ before := ⟨fun _ _ _ => Relation.TransGen.trans⟩
  have hirrefl : Std.Irrefl before := ⟨fun i => hacyclic i⟩
  induction i using (Finite.wellFounded_of_trans_of_irrefl before).induction with
  | _ i ih =>
    refine h.eventually_known_eq (eventually_gathered_eq hg h fun m hm => ?_)
    obtain ⟨arc, harc, rfl, -, -⟩ := id hm
    exact ih ⟨arc.source, hg.source_lt arc harc⟩ (.single hm)

end Endless

theorem converges_of_acyclic (hg : g.Proper) (hacyclic : ∀ n, ¬ Relation.TransGen g.PassesTo n n) :
    Solver.Converges g parityAnalysis := by
  refine (parity_converges_or_endless hg).resolve_right fun ⟨pos, h⟩ => ?_
  have F := parityAnalysis_framework hg
  have hall := h.eventually_all_nodes F hg (P := Eq) rfl fun n hn => eventually_settled hg h hacyclic ⟨n, hn⟩
  obtain ⟨T, hT⟩ := Filter.eventually_atTop.1 hall
  obtain ⟨t, ht, hne⟩ := h.exists_change parity_compare_self T
  -- All nodes have settled by round `t`, and yet a state changes in it.
  refine hne (Solver.ext_known ?_ (hT t ht))
  rw [(h.invariant F hg (t + 1)).length, (h.invariant F hg t).length]

/-! ## Alternatives that go round in a cycle -/

/-- Two ways lead from the entry into a cycle, and one of its arcs restricts what passes the other. -/
def Program.circulating : Program where
  declared := .ofList ["x", "y"]
  edges := [⟨0, .assume (.equal "x" (.const 1)), 1⟩, ⟨0, .assume (.equal "y" (.const 1)), 2⟩,
    ⟨1, .assume .always, 3⟩, ⟨1, .assume (.equal "y" (.const 1)), 3⟩, ⟨2, .skip, 1⟩, ⟨3, .skip, 2⟩]

def Graph.circulating : Graph where
  names := ["x", "y"]
  labels := [0, 1, 2, 3]
  arcs := [⟨0, 1, .assume (.equal "x" (.const 1))⟩, ⟨0, 2, .assume (.equal "y" (.const 1))⟩,
    ⟨1, 3, .assume .always⟩, ⟨1, 3, .assume (.equal "y" (.const 1))⟩, ⟨2, 1, .skip⟩, ⟨3, 2, .skip⟩]
  entry := 0

/-- Alternatives in each of which some variables are odd. -/
def ParityState.odds (alternatives : List (List String)) : ParityState :=
  .ofDisjuncts (alternatives.map fun names => .ofEntries .top (names.map fun x => ⟨x, .odd⟩))

/-- The position to which a run on `Graph.circulating` comes back every eight rounds. The second of the
three alternatives is covered by both others; it is listed at one node, then at the next. -/
def ParityState.revisited : Solver.Position ParityState where
  states := [.top, odds [["x"], ["y"]], odds [["x"], ["x", "y"], ["y"]], odds [["x"], ["y"]]]
  queue := [3, 1, 2]

theorem circulating_graph : Program.circulating.graph = .ok .circulating := by decide

theorem circulating_work (r : Nat) : ∃ halt,
    Solver.work .circulating parityAnalysis r (Solver.origin .circulating parityAnalysis).states
      (Solver.origin .circulating parityAnalysis).queue = .ok halt ∧ halt.converged = false := by
  refine Solver.work_of_periodic (q := ParityState.revisited) (j := 8) (k := 8) (by decide) (fun _ => rfl)
    (fun _ => rfl) (fun r hr => ?_) r
  -- It takes eight rounds to get to `revisited` and eight more to come back; none of the sixteen ends.
  interval_cases r <;> exact ⟨_, rfl, rfl⟩

/-- On this program the parity analysis never comes to an end, whatever the number of rounds. -/
theorem parityAnalysis_circulating : Program.circulating.graph = .ok .circulating ∧
    ∀ cap, ∃ q, Solver.solve .circulating parityAnalysis cap = .ok q ∧ q.converged = false := by
  refine ⟨circulating_graph, fun cap => ?_⟩
  obtain ⟨halt, hhalt, hconv⟩ := circulating_work cap
  obtain ⟨q, hq, -, hqc⟩ := exists_parity_solve (Program.proper_graph circulating_graph) hhalt
  exact ⟨q, hq, hqc.trans hconv⟩

/-! ## When a run ends -/

/-- A run of the parity analysis comes to an end exactly if, from some round on, no round lists other
alternatives for the stores that are described already. It always does if every cycle of the graph has a
statement that does not just hand states on. -/
theorem parityAnalysis_converges_iff {p : Program} (hp : p.graph = .ok g) :
    (Solver.Converges g parityAnalysis ↔ ∃ R, ∀ cap, R ≤ cap → ¬ Rewords g cap) ∧
      ((∀ n, ¬ Relation.TransGen g.PassesTo n n) → Solver.Converges g parityAnalysis) := by
  have hg := Program.proper_graph hp
  refine ⟨⟨?_, ?_⟩, converges_of_acyclic hg⟩
  · rintro ⟨R, hR⟩
    refine ⟨R, fun cap hcap => ?_⟩
    obtain ⟨q, hq, hconv⟩ := hR cap hcap
    exact not_rewords_of_converged hq hconv
  · rintro ⟨R, hR⟩
    refine (parity_converges_or_endless hg).resolve_right fun ⟨pos, h⟩ => ?_
    obtain ⟨cap, hcap, hrewords⟩ := exists_rewords hg h R
    exact hR cap hcap hrewords

/-- On the program with the cycle, alternatives are reworded again and again. Where the only cycle counts
a variable up, a run ends. -/
theorem parityAnalysis_circulating_lockstep :
    (Program.circulating.graph = .ok .circulating ∧ ∀ R, ∃ cap, R ≤ cap ∧ Rewords .circulating cap) ∧
      Program.lockstep.graph = .ok .lockstep ∧ (∀ n, ¬ Relation.TransGen Graph.lockstep.PassesTo n n) ∧
        Solver.Converges .lockstep parityAnalysis := by
  have hpasses : ∀ {m n}, Graph.lockstep.PassesTo m n → m < n := by
    rintro m n ⟨arc, harc, rfl, rfl, hp⟩
    have hforward : ∀ arc ∈ Graph.lockstep.arcs,
        arc.source < arc.target ∨ arc.statement = .assign "y" (.plus "y" 1) := by decide
    rcases hforward arc harc with hlt | hst
    · exact hlt
    · rw [hst] at hp
      exact absurd (hp.transfer (.odds [["y"]])) (by decide)
  have hless : ∀ {m n}, Relation.TransGen Graph.lockstep.PassesTo m n → m < n := fun h => by
    induction h with
    | single h => exact hpasses h
    | tail _ h ih => exact ih.trans (hpasses h)
  have hacyclic : ∀ n, ¬ Relation.TransGen Graph.lockstep.PassesTo n n := fun n hn => lt_irrefl n (hless hn)
  refine ⟨⟨circulating_graph, fun R => ?_⟩, lockstep_graph, hacyclic,
    (parityAnalysis_converges_iff lockstep_graph).2 hacyclic⟩
  by_contra hno
  push Not at hno
  obtain ⟨R', hR'⟩ := (parityAnalysis_converges_iff circulating_graph).1.2 ⟨R, hno⟩
  obtain ⟨q, hq, hconv⟩ := hR' R' le_rfl
  obtain ⟨halt, hhalt, hfalse⟩ := circulating_work R'
  obtain ⟨q', hq', -, hqc⟩ := exists_parity_solve (Program.proper_graph circulating_graph) hhalt
  obtain rfl := Except.ok.inj (hq.symm.trans hq')
  rw [hqc, hfalse] at hconv
  cases hconv

end FlowFacts
