import Mathlib
import FlowFacts.Proofs.ParitySolver

/-!
# What any run ends with

Nothing is asked of an analysis here: statements need not be monotone, joins need not be upper bounds,
and anything may end in a fault. If a run has a result at all, the result has what every round keeps
(`work_keeps`). So a property of states that holds of the first ones, is kept by joins and is handed on
along arcs holds of all states of the result (`work_induction`), and of every state that came up on the
way there (`Produced`).

A node is `Balanced` if what its arcs make of the other states compares as equal to what is known there.
At every position of a run the nodes that are not balanced wait, and in a run that has converged none
waits: `solve_balanced`.
-/

namespace FlowFacts

namespace Solver

variable {D : Type} [Domain D] {g : Graph} {a : Analysis D}

/-! ## Results of runs -/

/-- What every round keeps holds where work ends, and if it has converged no node waits there. -/
theorem work_keeps {P : Position D → Prop} (hturn : ∀ {p q}, P p → Turn g a p q → P q) {p : Position D} (hp : P p)
    {r : Nat} {halt : Halt D} (h : work g a r p.states p.queue = .ok halt) :
    ∃ q, halt.states = q.states ∧ P q ∧ (halt.converged = true → q.waiting g = .ok []) := by
  obtain ⟨k, q, hturns, -, hstates, hend⟩ := exists_turns_of_work (.refl p) h
  refine ⟨q, hstates, hturns.keeps hturn hp, fun hconv => ?_⟩
  exact hend.elim And.right fun hstopped => by simp [hconv] at hstopped

theorem getElem?_eq_known {states : List D} {n : Nat} (h : n < states.length) : states[n]? = some (known states n) := by
  rw [List.getElem?_eq_getElem h, known, List.getD_eq_getElem _ _ h]

theorem solve_keeps {P : Position D → Prop} (hturn : ∀ {p q}, P p → Turn g a p q → P q) (hp : P (origin g a))
    {cap : Nat} {q : FixedPoint D} (h : solve g a cap = .ok q) :
    ∃ p, q.states = p.states ∧ P p ∧ (q.converged = true → p.waiting g = .ok []) := by
  obtain ⟨halt, fs, hwork, -, rfl⟩ := solve_eq_ok.1 h
  exact work_keeps hturn hp hwork

/-! ## Evaluations -/

/-- Gathering makes something of the state at the source of each arc, and joins what was made. -/
theorem gathered_eq_ok {states : List D} {node : Nat} {next : D} (h : gathered g a states node = .ok next) :
    ∃ made, List.Forall₂ (fun arc e => a.transfer arc.statement (known states arc.source) = .ok e)
      (g.arcsInto node) made ∧ Domain.joinMany made = .ok next := by
  have hfold : ∀ (arcs : List Arc) (acc : D), (arcs.foldlM (fun acc arc => do
      Domain.join acc (← a.transfer arc.statement (known states arc.source))) acc : Except Fault D) = .ok next →
      ∃ made, List.Forall₂ (fun arc e => a.transfer arc.statement (known states arc.source) = .ok e) arcs made ∧
        made.foldlM Domain.join acc = .ok next := by
    intro arcs
    induction arcs with
    | nil => exact fun acc h => ⟨[], .nil, h⟩
    | cons arc rest ih =>
      intro acc h
      rw [List.foldlM_cons] at h
      obtain ⟨joined, hjoined, hrest⟩ := ok_of_bind h
      obtain ⟨e, he, hjoin⟩ := ok_of_bind hjoined
      obtain ⟨made, hmade, hfold⟩ := ih joined hrest
      refine ⟨e :: made, .cons he hmade, ?_⟩
      rw [List.foldlM_cons, hjoin]
      exact hfold
  exact hfold _ _ h

/-- What holds of the least element and of the elements of a list, and is kept by joins, holds of the
join of the list. -/
theorem joinMany_induction {Q : D → Prop} (hbottom : Q Domain.bottom)
    (hjoin : ∀ {x y z}, Q x → Q y → Domain.join x y = .ok z → Q z) {xs : List D} (hxs : ∀ x ∈ xs, Q x) {next : D}
    (h : Domain.joinMany xs = .ok next) : Q next := by
  have hfold : ∀ (acc : D), Q acc → xs.foldlM Domain.join acc = .ok next → Q next := by
    clear h
    induction xs with
    | nil =>
      intro acc hacc h
      exact Except.ok.inj h ▸ hacc
    | cons x rest ih =>
      intro acc hacc h
      rw [List.foldlM_cons] at h
      obtain ⟨joined, hjoined, hrest⟩ := ok_of_bind h
      exact ih (fun y hy => hxs y (List.mem_cons_of_mem _ hy)) joined
        (hjoin hacc (hxs x List.mem_cons_self) hjoined) hrest
  exact hfold Domain.bottom hbottom h

/-- What holds of the states that a run starts from, is kept by joins and is handed on along arcs holds
of all states where work ends. -/
theorem work_induction {Q : Nat → D → Prop} (hg : g.Proper) (hbottom : ∀ n, Q n Domain.bottom)
    (hinitial : Q g.entry a.initial) (hjoin : ∀ n {x y z}, Q n x → Q n y → Domain.join x y = .ok z → Q n z)
    (harc : ∀ arc ∈ g.arcs, ∀ d e, Q arc.source d → a.transfer arc.statement d = .ok e → Q arc.target e) {cap : Nat}
    {halt : Halt D} (h : work g a cap (start g a) (List.range g.size) = .ok halt) (n : Nat) :
    Q n (known halt.states n) := by
  have hturn : ∀ {p p' : Position D}, (p.states.length = g.size ∧ ∀ n, Q n (known p.states n)) → Turn g a p p' →
      p'.states.length = g.size ∧ ∀ n, Q n (known p'.states n) := by
    rintro p p' ⟨hlength, hp⟩ hturn
    refine ⟨hturn.length_eq.trans hlength, fun n => ?_⟩
    rcases hturn.known_cases n with heq | ⟨-, hnext⟩
    · rw [heq]
      exact hp n
    · obtain ⟨made, hmade, hjoined⟩ := gathered_eq_ok hnext
      refine joinMany_induction (hbottom n) (hjoin n) (fun e he => ?_) hjoined
      obtain ⟨arc, hinto, hmake⟩ := exists_of_forall₂ hmade he
      obtain ⟨hmem, rfl⟩ := Graph.mem_arcsInto.1 hinto
      exact harc arc hmem _ e (hp _) hmake
  have hstart : ∀ n, Q n (known (start g a) n) := by
    intro n
    by_cases hn : n = g.entry
    · rw [hn, Invariant.known_start hg.entry_lt, if_pos rfl]
      exact hinitial
    · rw [Invariant.known_start_of_ne hn]
      exact hbottom n
  obtain ⟨p, hstates, ⟨-, hp⟩, -⟩ := work_keeps (p := origin g a) hturn ⟨by simp [start], hstart⟩ h
  rw [hstates]
  exact hp n

theorem states_induction {Q : Nat → D → Prop} (hg : g.Proper) (hbottom : ∀ n, Q n Domain.bottom)
    (hinitial : Q g.entry a.initial) (hjoin : ∀ n {x y z}, Q n x → Q n y → Domain.join x y = .ok z → Q n z)
    (harc : ∀ arc ∈ g.arcs, ∀ d e, Q arc.source d → a.transfer arc.statement d = .ok e → Q arc.target e) {cap : Nat}
    {q : FixedPoint D} (h : solve g a cap = .ok q) (n : Nat) : Q n (known q.states n) := by
  obtain ⟨halt, fs, hwork, -, rfl⟩ := solve_eq_ok.1 h
  exact work_induction hg hbottom hinitial hjoin harc hwork n

/-- The states that come up in runs: what a run starts from, what statements make of states that come up,
and what is joined of them. -/
inductive Produced (g : Graph) (a : Analysis D) : D → Prop where
  | bottom : Produced g a Domain.bottom
  | initial : Produced g a a.initial
  | transfer {arc : Arc} {d e : D} (harc : arc ∈ g.arcs) (hd : Produced g a d)
    (he : a.transfer arc.statement d = .ok e) : Produced g a e
  | join {x y z : D} (hx : Produced g a x) (hy : Produced g a y) (hz : Domain.join x y = .ok z) : Produced g a z

/-- In a framework they are valid. -/
theorem Produced.valid {Valid : D → Prop} {le : D → D → Prop} (F : Framework g a Valid le) {d : D}
    (h : Produced g a d) : Valid d := by
  induction h with
  | bottom => exact F.valid_bottom
  | initial => exact F.valid_initial
  | @transfer arc d e harc _ he ih =>
    obtain ⟨e', he', hvalid⟩ := F.transfer arc harc d ih
    exact Except.ok.inj (he'.symm.trans he) ▸ hvalid
  | @join x y z _ _ hz ihx ihy =>
    obtain ⟨z', hz', hvalid, -⟩ := F.join x y ihx ihy
    exact Except.ok.inj (hz'.symm.trans hz) ▸ hvalid

theorem produced_of_work (hg : g.Proper) {cap : Nat} {halt : Halt D}
    (h : work g a cap (start g a) (List.range g.size) = .ok halt) : ∀ d ∈ halt.states, Produced g a d := by
  intro d hd
  obtain ⟨n, hn⟩ := List.mem_iff_getElem?.1 hd
  have hknown := work_induction (Q := fun _ d => Produced g a d) hg (fun _ => .bottom) .initial
    (fun _ _ _ _ => .join) (fun arc harc d e => .transfer harc) h n
  rwa [known, List.getD_eq_getElem?_getD, hn] at hknown

/-! ## Fixed points -/

/-- What the arcs into a node make of the states compares as equal to what is known there. -/
def Balanced (g : Graph) (a : Analysis D) (states : List D) (node : Nat) : Prop :=
  ∃ next, gathered g a states node = .ok next ∧ Domain.compare next (known states node) = .ok .equal

/-- What holds wherever a run stands, for any analysis. -/
structure Queued (g : Graph) (a : Analysis D) (p : Position D) : Prop where
  length : p.states.length = g.size
  entry : known p.states g.entry = a.initial
  /-- A node that is not balanced waits. -/
  balanced : ∀ n, n ≠ g.entry → (n ∈ p.queue → g.arcsInto n = []) → Balanced g a p.states n

namespace Queued

variable {p q : Position D}

theorem start (hrefl : ∀ d : D, Domain.compare d d = .ok .equal) (hg : g.Proper) : Queued g a (origin g a) where
  length := by simp [Solver.start]
  entry := by rw [Invariant.known_start hg.entry_lt, if_pos rfl]
  balanced n hn hqueue := by
    -- All nodes wait at first, so `n` is one that no arc leads to, and keeps what it starts with.
    have harcs : g.arcsInto n = [] := by
      by_contra harcs
      exact harcs (hqueue (List.mem_range.2 (hg.node_lt harcs)))
    refine ⟨Domain.bottom, by simp [gathered, harcs, pure, Except.pure], ?_⟩
    rw [Invariant.known_start_of_ne hn, hrefl]

/-- Apart from the node that is evaluated, what does not wait behind it did not wait before. -/
theorem balanced_of_ne (h : Queued g a p) {node : Nat} {rest : List Nat} (hwaiting : p.waiting g = .ok (node :: rest))
    {n : Nat} (hentry : n ≠ g.entry) (hne : n ≠ node) (hn : n ∈ rest → g.arcsInto n = []) :
    Balanced g a p.states n := by
  refine h.balanced n hentry fun hmem => ?_
  by_contra harcs
  rcases (waiting_cons hwaiting).2.2 n hmem harcs with h1 | h1
  · exact hne h1
  · exact harcs (hn h1)

theorem turn (hrefl : ∀ d : D, Domain.compare d d = .ok .equal) (hg : g.Proper) (h : Queued g a p)
    (ht : Turn g a p q) : Queued g a q := by
  cases ht with
  | @keep node rest next hwaiting _ hnext hcompare =>
    refine ⟨h.length, h.entry, fun n hentry hn => ?_⟩
    by_cases hnode : n = node
    · exact hnode ▸ ⟨next, gathered_of_evaluate hnext, hcompare⟩
    · exact h.balanced_of_ne hwaiting hentry hnode hn
  | @change node rest next c hwaiting hlt hnext hcompare hne =>
    have harcs := (waiting_cons hwaiting).1
    refine ⟨by rw [List.length_set, h.length], ?_, fun n hentry hn => ?_⟩
    · rw [known_set_of_ne (hg.ne_entry harcs), h.entry]
    · -- A node that reads the changed state is a successor and waits, so `n` reads none but old states.
      have hsame : gathered g a (p.states.set node next) n = gathered g a p.states n := by
        refine gathered_congr fun arc harc => ?_
        obtain ⟨hmem, htarget⟩ := Graph.mem_arcsInto.1 harc
        have hsource : arc.source ≠ node := fun hs => List.ne_nil_of_mem harc
          (hn (List.mem_append_right _ (Graph.mem_targets.2 ⟨arc, hmem, hs, htarget⟩)))
        rw [known_set_of_ne hsource]
      by_cases hnode : n = node
      · subst hnode
        refine ⟨next, hsame.trans (gathered_of_evaluate hnext), ?_⟩
        rw [known_set_self hlt, hrefl]
      · obtain ⟨d, hd, hequal⟩ :=
          h.balanced_of_ne hwaiting hentry hnode fun hmem => hn (List.mem_append_left _ hmem)
        refine ⟨d, hsame.trans hd, ?_⟩
        rwa [known_set_of_ne hnode]

end Queued

/-- In a run that has converged, the entry has the state that the analysis starts from, and at every other
node the join of what the arcs into it make of the states compares as equal to the state there. -/
theorem solve_balanced {p : Program} (hp : p.graph = .ok g) (a : Analysis D)
    (hrefl : ∀ d : D, Domain.compare d d = .ok .equal) {cap : Nat} {q : FixedPoint D} (hq : solve g a cap = .ok q)
    (hconv : q.converged = true) : q.states.length = g.size ∧ q.states[g.entry]? = some a.initial ∧
      ∀ n < g.size, n ≠ g.entry → ∃ d made next, q.states[n]? = some d ∧
        (g.arcsInto n).mapM (fun arc => a.transfer arc.statement (known q.states arc.source)) = .ok made ∧
        Domain.joinMany made = .ok next ∧ Domain.compare next d = .ok .equal := by
  have hg := Program.proper_graph hp
  obtain ⟨p, hstates, hqueued, hdone⟩ := solve_keeps (fun h => Queued.turn hrefl hg h) (Queued.start hrefl hg) hq
  have hlength : q.states.length = g.size := hstates ▸ hqueued.length
  refine ⟨hlength, ?_, fun n hn hentry => ?_⟩
  · rw [getElem?_eq_known (hlength ▸ hg.entry_lt), hstates, hqueued.entry]
  · -- What is left in the queue are nodes that no arc leads to.
    obtain ⟨next, hnext, hequal⟩ := hqueued.balanced n hentry (arcsInto_of_waiting_nil (hdone hconv) n)
    rw [← hstates] at hnext hequal
    obtain ⟨made, hmade, hjoined⟩ := gathered_eq_ok hnext
    exact ⟨_, made, next, getElem?_eq_known (hlength ▸ hn), mapM_of_forall₂ hmade, hjoined, hequal⟩

/-- The parities of two variables that are counted up together: where the loop comes back, the state
before the loop and the state after its body are joined to what is known already. -/
theorem solve_balanced_lockstep : Program.lockstep.graph = .ok .lockstep ∧ ∃ q d made next,
    solve .lockstep parityAnalysis 20 = .ok q ∧ q.converged = true ∧ q.states[2]? = some d ∧
      (Graph.lockstep.arcsInto 2).mapM
        (fun arc => parityAnalysis.transfer arc.statement (known q.states arc.source)) = .ok made ∧
      Domain.joinMany made = .ok next ∧ Domain.compare next d = .ok .equal := by
  have hrun : (solve .lockstep parityAnalysis 20).toOption.map (·.converged) = some true := by decide +kernel
  obtain ⟨q, hq⟩ : ∃ q, solve .lockstep parityAnalysis 20 = .ok q := by
    cases h : solve .lockstep parityAnalysis 20 with
    | error e => simp [h, Except.toOption] at hrun
    | ok q => exact ⟨q, rfl⟩
  rw [hq] at hrun
  have hconv : q.converged = true := Option.some.inj hrun
  obtain ⟨-, -, hnodes⟩ := solve_balanced lockstep_graph parityAnalysis parity_compare_self hq hconv
  obtain ⟨d, made, next, hd, hmade, hjoined, hequal⟩ := hnodes 2 (by decide) (by decide)
  exact ⟨lockstep_graph, q, d, made, next, hq, hconv, hd, hmade, hjoined, hequal⟩

end Solver

end FlowFacts
