import Mathlib
import FlowFacts.Solver
import FlowFacts.Proofs.Graphs

/-!
# Rounds and runs of the solver

`Turn` is what one round does to the states and the queue, and `Turns` is some number of rounds. Work
that has a result has taken some rounds (`exists_turns_of_work`), and if every round can be taken it has
one. What every round keeps, a run keeps (`Turns.keeps`, `exists_work`). A run whose rounds lower a
number ends within it (`exists_work_converged`), for instance within the `potential` of its start if its
changes are strict; a run that comes back to where it was never ends (`work_of_periodic`). Whole runs
then only add the checks of the assertions (`solve_eq_ok`, `forall₂_judge`).
-/

namespace FlowFacts

/-- An assertion with the label of its point and the verdict on it. -/
def Finding.told {D : Type} (f : Finding D) : Nat × Assertion × Verdict := (f.label, f.assertion, f.outcome.verdict)

theorem Outcome.verdict_ofVerdict {D : Type} (d : D) (v : Verdict) : (Outcome.ofVerdict d v).verdict = v := by
  cases v <;> rfl

namespace Solver

variable {D : Type} [Domain D] {g : Graph} {a : Analysis D}

/-! ## Rounds -/

/-- What is known at a node. -/
abbrev known (states : List D) (node : Nat) : D := states.getD node Domain.bottom

theorem known_set_self {states : List D} {node : Nat} (h : node < states.length) (d : D) :
    known (states.set node d) node = d := by
  simp [known, List.getD_eq_getElem?_getD, h]

theorem known_set_of_ne {states : List D} {node n : Nat} (h : n ≠ node) (d : D) :
    known (states.set node d) n = known states n := by
  simp [known, List.getD_eq_getElem?_getD, List.getElem?_set_ne h.symm]

theorem known_of_length_le {states : List D} {n : Nat} (h : states.length ≤ n) : known states n = Domain.bottom := by
  simp [known, List.getD_eq_getElem?_getD, List.getElem?_eq_none h]

theorem ext_known {states others : List D} (hlength : states.length = others.length)
    (h : ∀ n, known states n = known others n) : states = others := by
  refine List.ext_getElem hlength fun n hn hn' => ?_
  have hnode := h n
  rwa [known, known, List.getD_eq_getElem _ _ hn, List.getD_eq_getElem _ _ hn'] at hnode

theorem entryAt_known {states : List D} {n : Nat} (h : n < states.length) :
    entryAt states n = .ok (known states n) := by
  rw [entryAt_of_lt h, known, List.getD_eq_getElem _ _ h]

theorem known_of_entryAt {states : List D} {n : Nat} {d : D} (h : entryAt states n = .ok d) :
    n < states.length ∧ known states n = d := by
  obtain ⟨hn, rfl⟩ := List.getElem?_eq_some_iff.1 (entryAt_eq_ok.1 h)
  exact ⟨hn, List.getD_eq_getElem _ _ hn⟩

/-! ### Evaluations -/

omit [Domain D] in
theorem incoming_eq_ok {node : Nat} {is : List Nat} (h : g.incoming node = .ok is) :
    node < g.size ∧ is = Arc.into g.arcs node := by
  by_cases hnode : node < g.size
  · exact ⟨hnode, Except.ok.inj (h.symm.trans (Graph.incoming_eq hnode))⟩
  · have hlabel : g.labels[node]? = none := List.getElem?_eq_none (not_lt.1 hnode)
    rw [Graph.incoming, entryAt, Graph.nodes, Arc.getElem?_nodes, hlabel] at h
    cases h

/-- The arcs into a node are gone through, once the node has been found. -/
theorem evaluate_eq_bind (states : List D) (node : Nat) : evaluate g a states node = (do
    let _ ← g.incoming node
    (g.arcsInto node).foldlM (fun acc arc => do
      Domain.join acc (← a.transfer arc.statement (← entryAt states arc.source))) Domain.bottom) := by
  unfold evaluate
  cases hincoming : g.incoming node with
  | error e => rfl
  | ok is =>
    obtain ⟨-, rfl⟩ := incoming_eq_ok hincoming
    simp only [Graph.arcsAt_incoming, bind, Except.bind]

/-- What the arcs into a node make of what is known at their sources, joined one after the other. -/
def gathered (g : Graph) (a : Analysis D) (states : List D) (node : Nat) : Except Fault D :=
  (g.arcsInto node).foldlM (fun acc arc => do
    Domain.join acc (← a.transfer arc.statement (known states arc.source))) Domain.bottom

theorem evaluate_eq {states : List D} {node : Nat} (hnode : node < g.size)
    (hsource : ∀ arc ∈ g.arcsInto node, arc.source < states.length) :
    evaluate g a states node = gathered g a states node := by
  rw [evaluate_eq_bind, Graph.incoming_eq hnode]
  refine foldlM_congr (fun arc harc acc => ?_) _
  rw [entryAt_known (hsource arc harc)]
  rfl

theorem gathered_of_evaluate {states : List D} {node : Nat} {next : D} (h : evaluate g a states node = .ok next) :
    gathered g a states node = .ok next := by
  rw [evaluate_eq_bind] at h
  obtain ⟨_, -, hfold⟩ := ok_of_bind h
  refine foldlM_eq_ok_imp (fun acc arc joined hjoined => ?_) hfold
  obtain ⟨d, hd, hjoin⟩ := ok_of_bind hjoined
  rw [(known_of_entryAt hd).2]
  exact hjoin

/-- Only the states that the arcs into a node make of the others count. -/
theorem gathered_congr {states others : List D} {node : Nat}
    (h : ∀ arc ∈ g.arcsInto node, a.transfer arc.statement (known states arc.source) =
      a.transfer arc.statement (known others arc.source)) : gathered g a states node = gathered g a others node :=
  foldlM_congr (fun arc harc acc => congrArg (· >>= Domain.join acc) (h arc harc)) _

/-! ### The queue -/

/-- Where a run stands: what is known, and the nodes that wait. -/
structure Position (D : Type) where
  states : List D
  queue : List Nat

/-- The nodes that wait and that some arc leads to, from the first of them on. -/
abbrev Position.waiting (g : Graph) (p : Position D) : Except Fault (List Nat) := awaiting g p.queue

omit [Domain D] in
/-- What is passed over has no arc that leads to it, and what comes first then has one. -/
theorem awaiting_eq_ok {queue left : List Nat} (h : awaiting g queue = .ok left) :
    ∃ passed, queue = passed ++ left ∧ (∀ n ∈ passed, g.arcsInto n = []) ∧
      ∀ node ∈ left.head?, node < g.size ∧ g.arcsInto node ≠ [] := by
  induction queue with
  | nil =>
    obtain rfl := Except.ok.inj h
    exact ⟨[], rfl, by simp, by simp⟩
  | cons node rest ih =>
    rw [awaiting] at h
    obtain ⟨is, hincoming, hleft⟩ := ok_of_bind h
    obtain ⟨hnode, rfl⟩ := incoming_eq_ok hincoming
    simp only [Graph.into_isEmpty, List.isEmpty_iff] at hleft
    by_cases hempty : g.arcsInto node = []
    · rw [if_pos hempty] at hleft
      obtain ⟨passed, rfl, hpassed, hhead⟩ := ih hleft
      exact ⟨node :: passed, rfl, List.forall_mem_cons.2 ⟨hempty, hpassed⟩, hhead⟩
    · rw [if_neg hempty] at hleft
      obtain rfl := Except.ok.inj hleft
      exact ⟨[], rfl, by simp, by simpa using ⟨hnode, hempty⟩⟩

omit [Domain D] in
theorem exists_awaiting {queue : List Nat} (h : ∀ n ∈ queue, n < g.size) : ∃ left, awaiting g queue = .ok left := by
  induction queue with
  | nil => exact ⟨[], rfl⟩
  | cons node rest ih =>
    obtain ⟨hnode, hrest⟩ := List.forall_mem_cons.1 h
    rw [awaiting, Graph.incoming_eq hnode]
    simp only [bind, Except.bind]
    split
    · exact ih hrest
    · exact ⟨_, rfl⟩

omit [Domain D] in
theorem waiting_cons {p : Position D} {node : Nat} {rest : List Nat} (h : p.waiting g = .ok (node :: rest)) :
    g.arcsInto node ≠ [] ∧ rest.length < p.queue.length ∧
      ∀ n ∈ p.queue, g.arcsInto n ≠ [] → n = node ∨ n ∈ rest := by
  obtain ⟨passed, hqueue, hpassed, hhead⟩ := awaiting_eq_ok h
  refine ⟨(hhead node rfl).2, ?_, fun n hn hne => ?_⟩
  · rw [hqueue, List.length_append, List.length_cons]
    omega
  · rw [hqueue] at hn
    rcases List.mem_append.1 hn with hn | hn
    · exact absurd (hpassed n hn) hne
    · exact List.mem_cons.1 hn

omit [Domain D] in
theorem arcsInto_of_waiting_nil {p : Position D} (h : p.waiting g = .ok []) : ∀ n ∈ p.queue, g.arcsInto n = [] := by
  obtain ⟨passed, hqueue, hpassed, -⟩ := awaiting_eq_ok h
  rw [hqueue, List.append_nil]
  exact hpassed

/-! ### Turns -/

/-- One round: the first waiting node is evaluated, and if what is known there changes the nodes after
it are queued. -/
inductive Turn (g : Graph) (a : Analysis D) : Position D → Position D → Prop where
  | keep {p : Position D} {node : Nat} {rest : List Nat} {next : D} (hwaiting : p.waiting g = .ok (node :: rest))
    (hnode : node < p.states.length) (hnext : evaluate g a p.states node = .ok next)
    (hcompare : Domain.compare next (known p.states node) = .ok .equal) : Turn g a p ⟨p.states, rest⟩
  | change {p : Position D} {node : Nat} {rest : List Nat} {next : D} {c : Comparison}
    (hwaiting : p.waiting g = .ok (node :: rest)) (hnode : node < p.states.length)
    (hnext : evaluate g a p.states node = .ok next)
    (hcompare : Domain.compare next (known p.states node) = .ok c) (hne : c ≠ .equal) :
    Turn g a p ⟨p.states.set node next, rest ++ g.targets node⟩

/-- Some number of rounds. -/
inductive Turns (g : Graph) (a : Analysis D) : Nat → Position D → Position D → Prop where
  | refl (p : Position D) : Turns g a 0 p p
  | step {k : Nat} {p q r : Position D} (h : Turns g a k p q) (hturn : Turn g a q r) : Turns g a (k + 1) p r

theorem Turn.exists_waiting {p q : Position D} (h : Turn g a p q) :
    ∃ node rest, p.waiting g = .ok (node :: rest) := by
  cases h with
  | keep hwaiting _ _ _ => exact ⟨_, _, hwaiting⟩
  | change hwaiting _ _ _ _ => exact ⟨_, _, hwaiting⟩

/-- A round leaves the number of states as it is. -/
theorem Turn.length_eq {p q : Position D} (h : Turn g a p q) : q.states.length = p.states.length := by
  cases h with
  | keep _ _ _ _ => rfl
  | change _ _ _ _ _ => exact List.length_set

/-- If arcs run between the nodes only, only nodes are queued. -/
theorem Turn.queue_lt_size (hg : g.Proper) {p q : Position D} (h : Turn g a p q) (hp : ∀ n ∈ p.queue, n < g.size) :
    ∀ n ∈ q.queue, n < g.size := by
  have hrest : ∀ {node : Nat} {rest : List Nat}, p.waiting g = .ok (node :: rest) → ∀ n ∈ rest, n < g.size := by
    intro node rest hwaiting n hn
    obtain ⟨passed, hqueue, -⟩ := awaiting_eq_ok hwaiting
    exact hp n (hqueue ▸ List.mem_append_right _ (List.mem_cons_of_mem _ hn))
  cases h with
  | keep hwaiting _ _ _ => exact hrest hwaiting
  | change hwaiting _ _ _ _ =>
    intro n hn
    rcases List.mem_append.1 hn with hn | hn
    · exact hrest hwaiting n hn
    · obtain ⟨arc, harc, -, rfl⟩ := Graph.mem_targets.1 hn
      exact hg.target_lt arc harc

theorem work_of_done {p : Position D} (h : p.waiting g = .ok []) (r : Nat) :
    work g a r p.states p.queue = .ok ⟨p.states, r, true⟩ := by
  unfold work
  rw [show awaiting g p.queue = .ok [] from h]

theorem work_zero {p : Position D} {node : Nat} {rest : List Nat} (h : p.waiting g = .ok (node :: rest)) :
    work g a 0 p.states p.queue = .ok ⟨p.states, 0, false⟩ := by
  unfold work
  rw [show awaiting g p.queue = .ok (node :: rest) from h]

theorem Turn.work {p q : Position D} (h : Turn g a p q) (r : Nat) :
    work g a (r + 1) p.states p.queue = work g a r q.states q.queue := by
  cases h with
  | keep hwaiting hnode hnext hcompare =>
    conv_lhs => unfold Solver.work
    simp only [hwaiting, hnext, entryAt_known hnode, hcompare, bind, Except.bind, if_pos]
  | @change node rest next c hwaiting hnode hnext hcompare hne =>
    obtain ⟨-, -, -, hhead⟩ := awaiting_eq_ok hwaiting
    conv_lhs => unfold Solver.work
    simp only [hwaiting, hnext, entryAt_known hnode, hcompare, setEntry_of_lt hnode,
      Graph.successors_eq (hhead node rfl).1, bind, Except.bind, if_neg hne]

theorem Turns.work {k : Nat} {p q : Position D} (h : Turns g a k p q) (r : Nat) :
    work g a (r + k) p.states p.queue = work g a r q.states q.queue := by
  induction h generalizing r with
  | refl p => rfl
  | @step k p q q' _ hturn ih => rw [Nat.add_comm k, ← Nat.add_assoc, ih, hturn.work]

theorem Turns.keeps {P : Position D → Prop} (hturn : ∀ {p q}, P p → Turn g a p q → P q) {k : Nat} {p q : Position D}
    (h : Turns g a k p q) (hp : P p) : P q := by
  induction h with
  | refl p => exact hp
  | step _ hstep ih => exact hturn (ih hp) hstep

/-- After some rounds a run with that cap shows the states that were reached. -/
theorem Turns.work_states (hg : g.Proper) {k : Nat} {p q : Position D} (h : Turns g a k p q)
    (hp : ∀ n ∈ p.queue, n < g.size) :
    ∃ b, Solver.work g a k p.states p.queue = .ok ⟨q.states, 0, b⟩ ∧ (b = true ↔ q.waiting g = .ok []) := by
  have hwork := h.work 0
  rw [Nat.zero_add] at hwork
  rw [hwork]
  obtain ⟨left, hleft⟩ := exists_awaiting (h.keeps (fun hp hturn => hturn.queue_lt_size hg hp) hp)
  cases left with
  | nil => exact ⟨true, work_of_done hleft 0, iff_of_true rfl hleft⟩
  | cons node rest => exact ⟨false, work_zero hleft, iff_of_false nofun (by simp [Position.waiting, hleft])⟩

theorem exists_waiting_of_work {p : Position D} {r : Nat} {halt : Halt D}
    (h : work g a r p.states p.queue = .ok halt) : ∃ left, p.waiting g = .ok left := by
  unfold work at h
  cases hleft : awaiting g p.queue with
  | error e =>
    rw [hleft] at h
    cases h
  | ok left => exact ⟨left, hleft⟩

/-- Work that goes on and has a result takes another round first. -/
theorem exists_turn_of_work {p : Position D} {node : Nat} {rest : List Nat} (hw : p.waiting g = .ok (node :: rest))
    {r : Nat} {halt : Halt D} (h : work g a (r + 1) p.states p.queue = .ok halt) : ∃ q, Turn g a p q := by
  unfold work at h
  simp only [hw] at h
  obtain ⟨next, hnext, hrest⟩ := ok_of_bind h
  obtain ⟨d, hd, hround⟩ := ok_of_bind hrest
  obtain ⟨c, hc, -⟩ := ok_of_bind hround
  obtain ⟨hnode, rfl⟩ := known_of_entryAt hd
  by_cases heq : c = .equal
  · exact ⟨_, .keep hw hnode hnext (heq ▸ hc)⟩
  · exact ⟨_, .change hw hnode hnext hc heq⟩

/-- Work that has a result has taken the rounds that are not left over, and none is left over if it was stopped. -/
theorem exists_turns_of_work {start p : Position D} {j : Nat} (hp : Turns g a j start p) {r : Nat} {halt : Halt D}
    (h : work g a r p.states p.queue = .ok halt) :
    ∃ k q, Turns g a k start q ∧ k + halt.unspent = j + r ∧ halt.states = q.states ∧
      (halt.converged = true ∧ q.waiting g = .ok [] ∨ halt.converged = false ∧ halt.unspent = 0) := by
  induction r generalizing p j with
  | zero =>
    obtain ⟨left, hw⟩ := exists_waiting_of_work h
    cases left with
    | nil =>
      rw [work_of_done hw] at h
      obtain rfl := Except.ok.inj h
      exact ⟨j, p, hp, rfl, rfl, .inl ⟨rfl, hw⟩⟩
    | cons node rest =>
      rw [work_zero hw] at h
      obtain rfl := Except.ok.inj h
      exact ⟨j, p, hp, rfl, rfl, .inr ⟨rfl, rfl⟩⟩
  | succ r ih =>
    obtain ⟨left, hw⟩ := exists_waiting_of_work h
    cases left with
    | nil =>
      rw [work_of_done hw] at h
      obtain rfl := Except.ok.inj h
      exact ⟨j, p, hp, rfl, rfl, .inl ⟨rfl, hw⟩⟩
    | cons node rest =>
      obtain ⟨q, hq⟩ := exists_turn_of_work hw h
      rw [hq.work] at h
      obtain ⟨k, q, hturns, hspent, hend⟩ := ih (hp.step hq) h
      exact ⟨k, q, hturns, by omega, hend⟩

/-- Where a whole run starts. -/
abbrev origin (g : Graph) (a : Analysis D) : Position D := ⟨start g a, List.range g.size⟩

theorem origin_queue_lt : ∀ n ∈ (origin g a).queue, n < g.size := fun _ hn => List.mem_range.1 hn

theorem length_start : (start g a).length = g.size := by simp [start]

/-- A run keeps one state for each node. -/
theorem Turns.length_eq_size {k : Nat} {p : Position D} (h : Turns g a k (origin g a) p) : p.states.length = g.size :=
  h.keeps (P := fun p => p.states.length = g.size) (fun hp hturn => hturn.length_eq.trans hp) length_start

theorem length_states_of_work {r : Nat} {halt : Halt D}
    (h : work g a r (start g a) (List.range g.size) = .ok halt) : halt.states.length = g.size := by
  obtain ⟨k, q, hturns, -, hstates, -⟩ := exists_turns_of_work (.refl (origin g a)) h
  rw [hstates, hturns.length_eq_size]

/-- A node is left as it was, or evaluated. -/
theorem Turn.known_cases {p q : Position D} (h : Turn g a p q) (n : Nat) :
    known q.states n = known p.states n ∨
      g.arcsInto n ≠ [] ∧ gathered g a p.states n = .ok (known q.states n) := by
  cases h with
  | keep _ _ _ _ => exact .inl rfl
  | @change node rest next c hwaiting hnode hnext _ _ =>
    by_cases hn : n = node
    · subst hn
      rw [known_set_self hnode]
      exact .inr ⟨(waiting_cons hwaiting).1, gathered_of_evaluate hnext⟩
    · exact .inl (known_set_of_ne hn next)

/-- A round that leaves the states as they were takes a node from the queue. -/
theorem Turn.queue_lt {p q : Position D} (hrefl : ∀ d : D, Domain.compare d d = .ok .equal) (h : Turn g a p q)
    (hstates : q.states = p.states) : q.queue.length < p.queue.length := by
  cases h with
  | keep hwaiting _ _ _ => exact (waiting_cons hwaiting).2.1
  | @change node rest next c hwaiting hnode hnext hcompare hne =>
    have hself := known_set_self hnode next
    rw [show p.states.set node next = p.states from hstates] at hself
    rw [hself, hrefl] at hcompare
    exact absurd (Except.ok.inj hcompare).symm hne

/-! ## Runs -/

section Runs

variable {P : Position D → Prop} {p : Position D}

/-- What every round keeps, a run keeps: work ends at a position that satisfies it, and if the work has
converged no node waits there. -/
theorem exists_work (hturn : ∀ {p q}, P p → Turn g a p q → P q)
    (hprogress : ∀ {p}, P p → p.waiting g = .ok [] ∨ ∃ q, Turn g a p q) (h : P p) (r : Nat) :
    ∃ q halt, work g a r p.states p.queue = .ok halt ∧ halt.states = q.states ∧ P q ∧
      (halt.converged = true → q.waiting g = .ok []) := by
  induction r generalizing p with
  | zero =>
    rcases hprogress h with hw | ⟨q, hq⟩
    · exact ⟨p, _, work_of_done hw 0, rfl, h, fun _ => hw⟩
    · obtain ⟨node, rest, hw⟩ := hq.exists_waiting
      exact ⟨p, _, work_zero hw, rfl, h, nofun⟩
  | succ r ih =>
    rcases hprogress h with hw | ⟨q, hq⟩
    · exact ⟨p, _, work_of_done hw (r + 1), rfl, h, fun _ => hw⟩
    · rw [hq.work]
      exact ih (hturn h hq)

/-- If every round lowers a number, then as many rounds as that number says are enough. -/
theorem exists_work_converged (Φ : Position D → Nat) (hturn : ∀ {p q}, P p → Turn g a p q → P q ∧ Φ q < Φ p)
    (hprogress : ∀ {p}, P p → p.waiting g = .ok [] ∨ ∃ q, Turn g a p q) (h : P p) {r : Nat} (hr : Φ p ≤ r) :
    ∃ halt, work g a r p.states p.queue = .ok halt ∧ halt.converged = true := by
  induction r generalizing p with
  | zero =>
    rcases hprogress h with hw | ⟨q, hq⟩
    · exact ⟨_, work_of_done hw 0, rfl⟩
    · have := (hturn h hq).2
      omega
  | succ r ih =>
    rcases hprogress h with hw | ⟨q, hq⟩
    · exact ⟨_, work_of_done hw (r + 1), rfl⟩
    · obtain ⟨hPq, hlt⟩ := hturn h hq
      rw [hq.work]
      exact ih hPq (by omega)

/-- More rounds change nothing once a run has converged. -/
theorem work_add_of_converged {r : Nat} {halt : Halt D} (hwork : work g a r p.states p.queue = .ok halt)
    (hconv : halt.converged = true) (k : Nat) :
    work g a (r + k) p.states p.queue = .ok ⟨halt.states, halt.unspent + k, true⟩ := by
  obtain ⟨j, q, hturns, hspent, hstates, ⟨-, hdone⟩ | ⟨hstopped, -⟩⟩ := exists_turns_of_work (.refl p) hwork
  · rw [show r + k = halt.unspent + k + j by omega, hturns.work, work_of_done hdone, hstates]
  · rw [hconv] at hstopped
    cases hstopped

/-- A run that comes back to where it was goes on forever: if it has not ended by then, it never ends. -/
theorem work_of_periodic {q : Position D} {j k : Nat} (hk : 0 < k)
    (hfirst : ∀ r, work g a (r + j) p.states p.queue = work g a r q.states q.queue)
    (hagain : ∀ r, work g a (r + k) q.states q.queue = work g a r q.states q.queue)
    (hbefore : ∀ r < j + k, ∃ halt, work g a r p.states p.queue = .ok halt ∧ halt.converged = false) (r : Nat) :
    ∃ halt, work g a r p.states p.queue = .ok halt ∧ halt.converged = false := by
  induction r using Nat.strongRecOn with
  | ind r ih =>
    by_cases hr : r < j + k
    · exact hbefore r hr
    · obtain ⟨b, rfl⟩ : ∃ b, r = b + k + j := ⟨r - j - k, by omega⟩
      -- One time round is left out, which does not change where the run ends.
      rw [hfirst, hagain, ← hfirst]
      exact ih (b + j) (by omega)

end Runs

/-! ### The potential of a position -/

/-- The nodes that wait, and for each arc how much higher what is known at its source can get. -/
def potential (g : Graph) (height : D → Nat) (bound : Nat) (p : Position D) : Nat :=
  p.queue.length + (g.arcs.map fun arc => bound - height (known p.states arc.source)).sum

/-- If a number per node drops at one node and stays at the others, its sum over the arcs drops by the
number of arcs that leave the node. -/
theorem sum_sources_drop (f f' : Nat → Nat) {node : Nat} (hother : ∀ n, n ≠ node → f' n = f n)
    (hnode : f' node + 1 ≤ f node) (arcs : List Arc) :
    (arcs.map fun arc => f' arc.source).sum + (arcs.filter (·.source = node)).length ≤
      (arcs.map fun arc => f arc.source).sum := by
  induction arcs with
  | nil => simp
  | cons arc rest ih =>
    by_cases harc : arc.source = node
    · simp only [List.map_cons, List.sum_cons, List.filter_cons, harc, decide_true, if_true, List.length_cons]
      omega
    · simp only [List.map_cons, List.sum_cons, List.filter_cons, harc, decide_false, Bool.false_eq_true, if_false,
        hother _ harc]
      omega

theorem Turn.potential_lt {p q : Position D} {height : D → Nat} {bound : Nat} (h : Turn g a p q)
    (hstrict : ∀ node rest next c, p.waiting g = .ok (node :: rest) → evaluate g a p.states node = .ok next →
      Domain.compare next (known p.states node) = .ok c → c ≠ .equal →
      height (known p.states node) < height next ∧ height next ≤ bound) :
    potential g height bound q < potential g height bound p := by
  cases h with
  | keep hwaiting _ _ _ =>
    have := (waiting_cons hwaiting).2.1
    simp only [potential]
    omega
  | @change node rest next c hwaiting hnode hnext hcompare hne =>
    obtain ⟨-, hlen, -⟩ := waiting_cons hwaiting
    obtain ⟨hlt, hle⟩ := hstrict node rest next c hwaiting hnext hcompare hne
    have hself : known (p.states.set node next) node = next := known_set_self hnode next
    -- The queue grows by the successors of the node, the sum drops by as many, and the node has left.
    have hdrop := sum_sources_drop (fun n => bound - height (known p.states n))
      (fun n => bound - height (known (p.states.set node next) n))
      (fun n (hn : n ≠ node) => by simp only [known_set_of_ne hn]) (by simp only [hself]; omega) g.arcs
    have hsucc : (g.targets node).length = (g.arcs.filter (·.source = node)).length := by
      rw [Graph.targets, List.length_map, Graph.arcsFrom]
    simp only [potential, List.length_append, hsucc]
    omega

theorem potential_start_le (height : D → Nat) (bound : Nat) :
    potential g height bound ⟨start g a, List.range g.size⟩ ≤ g.size + bound * g.arcs.length := by
  have hsum : ∀ (f : Nat → Nat) (arcs : List Arc),
      (arcs.map fun arc => bound - f arc.source).sum ≤ bound * arcs.length := by
    intro f arcs
    induction arcs with
    | nil => simp
    | cons arc rest ih =>
      simp only [List.map_cons, List.sum_cons, List.length_cons, Nat.mul_succ]
      omega
  have := hsum (fun n => height (known (start g a) n)) g.arcs
  simp only [potential, List.length_range]
  omega

/-! ## Whole runs -/

theorem solve_eq_ok {cap : Nat} {q : FixedPoint D} : solve g a cap = .ok q ↔ ∃ halt fs,
    work g a cap (start g a) (List.range g.size) = .ok halt ∧ judge g a halt.states g.arcs = .ok fs ∧
      q = ⟨halt.states, fs, cap - halt.unspent, halt.converged⟩ := by
  simp only [solve, bind, Except.bind, pure, Except.pure]
  constructor
  · intro h
    split at h
    · cases h
    · next halt hhalt =>
      split at h
      · cases h
      · next fs hfs => exact ⟨halt, fs, hhalt, hfs, (Except.ok.inj h).symm⟩
  · rintro ⟨halt, fs, hhalt, hfs, rfl⟩
    simp only [hhalt, hfs]

/-- Some number of rounds is enough, and so are all larger ones. -/
def Converges (g : Graph) (a : Analysis D) : Prop :=
  ∃ R, ∀ cap, R ≤ cap → ∃ q, solve g a cap = .ok q ∧ q.converged = true

def isAssertion (arc : Arc) : Bool :=
  match arc.statement with
  | .assert _ => true
  | .skip | .assign _ _ | .assume _ => false

theorem isAssertion_eq_true {arc : Arc} : isAssertion arc = true ↔ ∃ x, arc.statement = .assert x := by
  unfold isAssertion
  cases arc.statement <;> simp

omit [Domain D] in
/-- Only assertions are judged. -/
theorem judge_cons_of_not {states : List D} {arc : Arc} {rest : List Arc} (h : ¬ isAssertion arc = true) :
    judge g a states (arc :: rest) = judge g a states rest := by
  rw [judge]
  cases hst : arc.statement with
  | assert x => exact absurd (isAssertion_eq_true.2 ⟨x, hst⟩) h
  | skip => rfl
  | assign x value => rfl
  | assume c => rfl

omit [Domain D] in
theorem judge_cons_of_assert {states : List D} {arc : Arc} {rest : List Arc} {x : Assertion}
    (h : arc.statement = .assert x) :
    judge g a states (arc :: rest) = (do
      let d ← entryAt states arc.source
      let v ← a.check x d
      let l ← entryAt g.labels arc.source
      let fs ← judge g a states rest
      return ⟨l, x, .ofVerdict d v⟩ :: fs) := by
  rw [judge, h]

/-- What is found of an assertion first is its check at the node where it stands. -/
theorem judge_cons_eq_ok {states : List D} {arc : Arc} {rest : List Arc} {x : Assertion}
    (hx : arc.statement = .assert x) {fs : List (Finding D)} (h : judge g a states (arc :: rest) = .ok fs) :
    ∃ v others, a.check x (known states arc.source) = .ok v ∧ judge g a states rest = .ok others ∧
      fs = ⟨g.labels.getD arc.source 0, x, .ofVerdict (known states arc.source) v⟩ :: others ∧
      arc.source < states.length ∧ arc.source < g.size := by
  rw [judge_cons_of_assert hx] at h
  obtain ⟨d, hd, hchecked⟩ := ok_of_bind h
  obtain ⟨v, hv, hlabeled⟩ := ok_of_bind hchecked
  obtain ⟨l, hl, hlisted⟩ := ok_of_bind hlabeled
  obtain ⟨others, hothers, hall⟩ := ok_of_bind hlisted
  obtain ⟨hstate, rfl⟩ := known_of_entryAt hd
  obtain ⟨hlabel, rfl⟩ := List.getElem?_eq_some_iff.1 (entryAt_eq_ok.1 hl)
  refine ⟨v, others, hv, hothers, ?_, hstate, hlabel⟩
  rw [List.getD_eq_getElem _ _ hlabel]
  exact (Except.ok.inj hall).symm

/-- The findings are the checks of the assertions, in the order of their arcs. -/
theorem forall₂_judge {states : List D} {arcs : List Arc} {fs : List (Finding D)}
    (h : judge g a states arcs = .ok fs) :
    List.Forall₂ (fun arc f => ∃ x v, arc.statement = .assert x ∧ a.check x (known states arc.source) = .ok v ∧
        f = ⟨g.labels.getD arc.source 0, x, .ofVerdict (known states arc.source) v⟩ ∧
        arc.source < states.length ∧ arc.source < g.size)
      (arcs.filter isAssertion) fs := by
  induction arcs generalizing fs with
  | nil =>
    obtain rfl := Except.ok.inj h
    exact .nil
  | cons arc rest ih =>
    by_cases hassert : isAssertion arc = true
    · obtain ⟨x, hx⟩ := isAssertion_eq_true.1 hassert
      obtain ⟨v, others, hv, hothers, rfl, hbounds⟩ := judge_cons_eq_ok hx h
      rw [List.filter_cons_of_pos hassert]
      exact .cons ⟨x, v, hx, hv, rfl, hbounds⟩ (ih hothers)
    · rw [judge_cons_of_not hassert] at h
      rw [List.filter_cons_of_neg hassert]
      exact ih h

theorem exists_of_forall₂ {α β : Type} {R : α → β → Prop} {xs : List α} {ys : List β} (h : List.Forall₂ R xs ys) {y : β}
    (hy : y ∈ ys) : ∃ x ∈ xs, R x y := by
  induction h with
  | nil => cases hy
  | cons hxy _ ih =>
    rcases List.mem_cons.1 hy with rfl | hy
    · exact ⟨_, List.mem_cons_self, hxy⟩
    · obtain ⟨x, hx, hR⟩ := ih hy
      exact ⟨x, List.mem_cons_of_mem _ hx, hR⟩

/-- Judging the assertions at nodes fails only with the fault of one of the checks. -/
theorem judge_cases {states : List D} (hlength : states.length = g.size) {arcs : List Arc} {Refused : Fault → Prop}
    (h : ∀ arc ∈ arcs, ∀ x, arc.statement = .assert x → arc.source < g.size ∧
      ((∃ e, Refused e ∧ a.check x (known states arc.source) = .error e) ∨
        ∃ v, a.check x (known states arc.source) = .ok v)) :
    (∃ e, Refused e ∧ judge g a states arcs = .error e) ∨ ∃ fs, judge g a states arcs = .ok fs := by
  induction arcs with
  | nil => exact .inr ⟨[], rfl⟩
  | cons arc rest ih =>
    have hrest := ih fun b hb => h b (List.mem_cons_of_mem _ hb)
    by_cases hassert : isAssertion arc = true
    · obtain ⟨x, hx⟩ := isAssertion_eq_true.1 hassert
      obtain ⟨hsource, hcheck⟩ := h arc List.mem_cons_self x hx
      rw [judge_cons_of_assert hx, entryAt_known (hlength ▸ hsource), Graph.entryAt_labels hsource]
      simp only [bind, Except.bind, pure, Except.pure]
      rcases hcheck with ⟨e, he, herror⟩ | ⟨v, hv⟩
      · exact .inl ⟨e, he, by simp only [herror]⟩
      · rcases hrest with ⟨e, he, herror⟩ | ⟨fs, hfs⟩
        · exact .inl ⟨e, he, by simp only [hv, herror]⟩
        · exact .inr ⟨_, by simp only [hv, hfs]; rfl⟩
    · rw [judge_cons_of_not hassert]
      exact hrest

theorem exists_judge {states : List D} (hlength : states.length = g.size) {arcs : List Arc}
    (h : ∀ arc ∈ arcs, ∀ x, arc.statement = .assert x →
      arc.source < g.size ∧ ∃ v, a.check x (known states arc.source) = .ok v) :
    ∃ fs, judge g a states arcs = .ok fs :=
  (judge_cases hlength fun arc harc x hx => (h arc harc x hx).imp_right .inr).resolve_left
    fun ⟨_, hfalse, _⟩ => hfalse

end Solver

end FlowFacts
