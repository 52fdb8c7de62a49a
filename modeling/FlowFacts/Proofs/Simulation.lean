import Mathlib
import FlowFacts.Proofs.Frameworks

/-!
# Runs in step

Two analyses that keep different states may still move them alike. A `Simulation` is a relation between
their states that statements, joins, comparisons and checks respect, over graphs that differ in their
statements only. Runs then stand `InStep`: they evaluate the same nodes in the same rounds
(`Simulation.work`), and tell the same of the assertions (`Simulation.solve`).
-/

namespace FlowFacts

/-- An arc with another statement. -/
def Arc.mapStatement (τ : Statement → Statement) (arc : Arc) : Arc := ⟨arc.source, arc.target, τ arc.statement⟩

namespace Solver

variable {D E : Type} [Domain D] [Domain E]

/-- Related states are moved alike: by arcs and the arcs that take their place, by joins and comparisons,
and by the checks of assertions. -/
structure Simulation (g g' : Graph) (a : Analysis D) (b : Analysis E) (τ : Statement → Statement)
    (α : Assertion → Assertion) (R : D → E → Prop) : Prop where
  labels : g'.labels = g.labels
  entry : g'.entry = g.entry
  arcs : g'.arcs = g.arcs.map (Arc.mapStatement τ)
  bottom : R Domain.bottom Domain.bottom
  initial : R a.initial b.initial
  transfer : ∀ arc ∈ g.arcs, ∀ {d e}, R d e → ∃ d' e', a.transfer arc.statement d = .ok d' ∧
    b.transfer (τ arc.statement) e = .ok e' ∧ R d' e'
  join : ∀ {d e d' e'}, R d e → R d' e' → ∃ x y, Domain.join d d' = .ok x ∧ Domain.join e e' = .ok y ∧ R x y
  compare : ∀ {d e d' e'}, R d e → R d' e' → ∃ c, Domain.compare d d' = .ok c ∧ Domain.compare e e' = .ok c
  assertion : ∀ x, τ (.assert x) = .assert (α x)
  other : ∀ {s x}, τ s = .assert x → ∃ y, s = .assert y
  check : ∀ arc ∈ g.arcs, ∀ x, arc.statement = .assert x → ∀ {d e}, R d e → ∃ v, a.check x d = .ok v ∧
    b.check (α x) e = .ok v

/-- The same nodes of a graph wait, and what is known is related at every node. -/
structure InStep (g : Graph) (R : D → E → Prop) (p : Position D) (q : Position E) : Prop where
  queue : q.queue = p.queue
  queued : ∀ n ∈ p.queue, n < g.size
  left : p.states.length = g.size
  right : q.states.length = g.size
  known : ∀ n, R (known p.states n) (known q.states n)

namespace Simulation

variable {g g' : Graph} {a : Analysis D} {b : Analysis E} {τ : Statement → Statement} {α : Assertion → Assertion}
  {R : D → E → Prop} {p : Position D} {q : Position E}

theorem size_eq (S : Simulation g g' a b τ α R) : g'.size = g.size := congrArg List.length S.labels

theorem arcsInto_eq (S : Simulation g g' a b τ α R) (n : Nat) :
    g'.arcsInto n = (g.arcsInto n).map (Arc.mapStatement τ) := by
  rw [Graph.arcsInto, S.arcs, List.filter_map]
  rfl

theorem targets_eq (S : Simulation g g' a b τ α R) (n : Nat) : g'.targets n = g.targets n := by
  rw [Graph.targets, Graph.arcsFrom, S.arcs, List.filter_map, List.map_map]
  rfl

theorem nodes_eq (S : Simulation g g' a b τ α R) : g'.nodes = g.nodes := by
  refine List.ext_getElem? fun n => ?_
  rw [Graph.nodes, Graph.nodes, Arc.getElem?_nodes, Arc.getElem?_nodes, S.labels, S.arcs, Arc.into, Arc.leaving,
    positions_map, positions_map]
  rfl

theorem waiting_eq (S : Simulation g g' a b τ α R) (h : InStep g R p q) : q.waiting g' = p.waiting g := by
  have hawaiting : ∀ queue, awaiting g' queue = awaiting g queue := by
    intro queue
    induction queue with
    | nil => rfl
    | cons n rest ih => rw [awaiting, awaiting, Graph.incoming, Graph.incoming, S.nodes_eq, ih]
  rw [Position.waiting, h.queue, hawaiting]

/-! ## Rounds -/

theorem gathered (S : Simulation g g' a b τ α R) {states : List D} {others : List E}
    (h : ∀ n, R (known states n) (known others n)) (n : Nat) :
    ∃ d e, gathered g a states n = .ok d ∧ Solver.gathered g' b others n = .ok e ∧ R d e := by
  unfold Solver.gathered
  rw [S.arcsInto_eq]
  refine exists_foldlM₂ _ S.bottom fun arc harc {d e} hde => ?_
  obtain ⟨x, y, hx, hy, hxy⟩ := S.transfer arc (Graph.mem_arcsInto.1 harc).1 (h arc.source)
  obtain ⟨z, w, hz, hw, hzw⟩ := S.join hde hxy
  refine ⟨z, w, ?_, ?_, hzw⟩
  · simp only [hx, hz, bind, Except.bind]
  · simp only [Arc.mapStatement, hy, hw, bind, Except.bind]

theorem evaluate (S : Simulation g g' a b τ α R) (hg : g.Proper) (h : InStep g R p q) {n : Nat} (hn : n < g.size) :
    ∃ d e, evaluate g a p.states n = .ok d ∧ Solver.evaluate g' b q.states n = .ok e ∧ R d e := by
  have hsource : ∀ arc ∈ g.arcsInto n, arc.source < g.size := fun arc harc =>
    hg.source_lt arc (Graph.mem_arcsInto.1 harc).1
  rw [evaluate_eq hn (h.left ▸ hsource), evaluate_eq (S.size_eq ▸ hn) ?_]
  · exact S.gathered h.known n
  · rw [S.arcsInto_eq, h.right]
    exact List.forall_mem_map.2 hsource

/-- Where a node waits, both runs have a round, and stand in step after it. -/
theorem exists_turn (S : Simulation g g' a b τ α R) (hg : g.Proper) (h : InStep g R p q) {node : Nat}
    {rest : List Nat} (hw : p.waiting g = .ok (node :: rest)) :
    ∃ p' q', Turn g a p p' ∧ Turn g' b q q' ∧ InStep g R p' q' := by
  have hw' := (S.waiting_eq h).trans hw
  have hlt : node < g.size := hg.node_lt (waiting_cons hw).1
  have hleft : node < p.states.length := h.left ▸ hlt
  have hright : node < q.states.length := h.right ▸ hlt
  obtain ⟨d, e, hd, he, hde⟩ := S.evaluate hg h hlt
  obtain ⟨c, hc, hc'⟩ := S.compare hde (h.known node)
  by_cases heq : c = .equal
  · have hturn : Turn g a p ⟨p.states, rest⟩ := .keep hw hleft hd (heq ▸ hc)
    exact ⟨_, _, hturn, .keep hw' hright he (heq ▸ hc'), rfl, hturn.queue_lt_size hg h.queued, h.left, h.right, h.known⟩
  · have hturn : Turn g a p ⟨p.states.set node d, rest ++ g.targets node⟩ := .change hw hleft hd hc heq
    refine ⟨_, _, hturn, .change hw' hright he hc' heq, ?_, hturn.queue_lt_size hg h.queued, ?_, ?_, fun n => ?_⟩
    · rw [S.targets_eq]
    · rw [List.length_set, h.left]
    · rw [List.length_set, h.right]
    · by_cases hn : n = node
      · subst hn
        rwa [known_set_self hleft, known_set_self hright]
      · rw [known_set_of_ne hn, known_set_of_ne hn]
        exact h.known n

/-! ## Runs -/

theorem start (S : Simulation g g' a b τ α R) (hg : g.Proper) : InStep g R (origin g a) (origin g' b) where
  queue := congrArg List.range S.size_eq
  queued := origin_queue_lt
  left := by simp [Solver.start]
  right := by simp [Solver.start, S.size_eq]
  known n := by
    have hlt : g.entry < g'.size := S.size_eq ▸ hg.entry_lt
    by_cases hn : n = g.entry
    · rw [hn, Invariant.known_start hg.entry_lt, Invariant.known_start hlt, S.entry, if_pos rfl, if_pos rfl]
      exact S.initial
    · rw [Invariant.known_start_of_ne hn, Invariant.known_start_of_ne (S.entry ▸ hn)]
      exact S.bottom

/-- Runs in step stop together, with as many rounds left. -/
theorem work (S : Simulation g g' a b τ α R) (hg : g.Proper) (h : InStep g R p q) (r : Nat) :
    ∃ p' q' k c, Solver.work g a r p.states p.queue = .ok ⟨p'.states, k, c⟩ ∧
      Solver.work g' b r q.states q.queue = .ok ⟨q'.states, k, c⟩ ∧ InStep g R p' q' := by
  have hwaiting := fun {p q} (h : InStep g R p q) => S.waiting_eq h
  induction r generalizing p q with
  | zero =>
    obtain ⟨left, hw⟩ := exists_awaiting h.queued
    cases left with
    | nil => exact ⟨p, q, _, _, work_of_done hw 0, work_of_done ((hwaiting h).trans hw) 0, h⟩
    | cons node rest => exact ⟨p, q, _, _, work_zero hw, work_zero ((hwaiting h).trans hw), h⟩
  | succ r ih =>
    obtain ⟨left, hw⟩ := exists_awaiting h.queued
    cases left with
    | nil => exact ⟨p, q, _, _, work_of_done hw _, work_of_done ((hwaiting h).trans hw) _, h⟩
    | cons node rest =>
      obtain ⟨p', q', hp', hq', hstep⟩ := S.exists_turn hg h hw
      rw [hp'.work, hq'.work]
      exact ih hstep

theorem judge (S : Simulation g g' a b τ α R) (hg : g.Proper) (h : InStep g R p q) {arcs : List Arc}
    (harcs : ∀ arc ∈ arcs, arc ∈ g.arcs) :
    ∃ fs hs, Solver.judge g a p.states arcs = .ok fs ∧
      Solver.judge g' b q.states (arcs.map (Arc.mapStatement τ)) = .ok hs ∧
      hs.map Finding.told = fs.map fun f => (f.label, α f.assertion, f.outcome.verdict) := by
  induction arcs with
  | nil => exact ⟨[], [], rfl, rfl, rfl⟩
  | cons arc rest ih =>
    obtain ⟨fs, hs, hfs, hhs, htold⟩ := ih fun b hb => harcs b (List.mem_cons_of_mem _ hb)
    rw [List.map_cons]
    by_cases hassert : isAssertion arc = true
    · obtain ⟨x, hx⟩ := isAssertion_eq_true.1 hassert
      have hx' : (arc.mapStatement τ).statement = .assert (α x) := by rw [Arc.mapStatement, hx, S.assertion]
      obtain ⟨v, hv, hv'⟩ := S.check arc (harcs arc List.mem_cons_self) x hx (h.known arc.source)
      have hsource := hg.source_lt arc (harcs arc List.mem_cons_self)
      rw [judge_cons_of_assert hx, judge_cons_of_assert hx']
      simp only [Arc.mapStatement, entryAt_known (h.left ▸ hsource), entryAt_known (h.right ▸ hsource), S.labels,
        Graph.entryAt_labels hsource, hv, hv', hfs, hhs, bind, Except.bind, pure, Except.pure]
      refine ⟨_, _, rfl, rfl, ?_⟩
      simp only [List.map_cons, htold, Finding.told, Outcome.verdict_ofVerdict]
    · have hassert' : ¬ isAssertion (arc.mapStatement τ) = true := fun hmapped => by
        obtain ⟨x, hx⟩ := isAssertion_eq_true.1 hmapped
        exact hassert (isAssertion_eq_true.2 (S.other hx))
      rw [judge_cons_of_not hassert, judge_cons_of_not hassert']
      exact ⟨fs, hs, hfs, hhs, htold⟩

/-- Whole runs answer, take the same rounds, know related things and tell the same. -/
theorem solve (S : Simulation g g' a b τ α R) (hg : g.Proper) (cap : Nat) :
    ∃ q q', Solver.solve g a cap = .ok q ∧ Solver.solve g' b cap = .ok q' ∧ q'.rounds = q.rounds ∧
      q'.converged = q.converged ∧ q.states.length = g.size ∧ q'.states.length = g.size ∧
      (∀ n, R (known q.states n) (known q'.states n)) ∧
      q'.findings.map Finding.told = q.findings.map fun f => (f.label, α f.assertion, f.outcome.verdict) := by
  obtain ⟨p, q, k, c, hp, hq, hstep⟩ := S.work hg (S.start hg) cap
  obtain ⟨fs, hs, hfs, hhs, htold⟩ := S.judge hg hstep fun arc harc => harc
  rw [← S.arcs] at hhs
  exact ⟨_, _, solve_eq_ok.2 ⟨_, fs, hp, hfs, rfl⟩, solve_eq_ok.2 ⟨_, hs, hq, hhs, rfl⟩, rfl, rfl, hstep.left,
    hstep.right, hstep.known, htold⟩

end Simulation

end Solver

end FlowFacts
