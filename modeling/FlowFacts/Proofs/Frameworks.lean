import Mathlib
import FlowFacts.Proofs.SolverRuns

/-!
# Monotone frameworks

A `Framework` collects what an analysis needs for runs to make progress upwards: on valid states nothing
fails, statements are monotone, and joins are least upper bounds. Every position that a run passes
through satisfies `Invariant`: no state is above what its arcs make of the others, and every node that
does not wait is above it.

From that, `work_states_le` says that states only grow with the rounds and `exists_work_least` that they
stay below every solution and are one in the end. A run converges or is `Endless`, and an endless run
never stops changing its states (`Endless.exists_change`).
-/

namespace FlowFacts

namespace Solver

variable {D : Type} [Domain D] {g : Graph} {a : Analysis D}

/-- On valid states nothing fails, statements are monotone, and joins are least upper bounds in an
order that holds between states that compare as equal. -/
structure Framework (g : Graph) (a : Analysis D) (Valid : D → Prop) (le : D → D → Prop) : Prop where
  refl : ∀ d, le d d
  trans : ∀ {x y z}, le x y → le y z → le x z
  bottom_le : ∀ d, le Domain.bottom d
  valid_bottom : Valid Domain.bottom
  valid_initial : Valid a.initial
  transfer : ∀ arc ∈ g.arcs, ∀ d, Valid d → ∃ e, a.transfer arc.statement d = .ok e ∧ Valid e
  transfer_mono : ∀ arc ∈ g.arcs, ∀ {d e d' e'}, Valid d → Valid e → le d e →
    a.transfer arc.statement d = .ok d' → a.transfer arc.statement e = .ok e' → le d' e'
  join : ∀ x y, Valid x → Valid y → ∃ z, Domain.join x y = .ok z ∧ Valid z ∧ ∀ w, le z w ↔ le x w ∧ le y w
  compare : ∀ x y, Valid x → Valid y → ∃ c, Domain.compare x y = .ok c ∧ (c = .equal → le x y ∧ le y x)

variable {Valid : D → Prop} {le : D → D → Prop}

namespace Framework

/-- Folding joins over arcs gives the least state above the start and above what each arc makes. -/
theorem foldlM_join (F : Framework g a Valid le) {states : List D} (hv : ∀ n, Valid (known states n)) (arcs : List Arc)
    (harcs : ∀ arc ∈ arcs, arc ∈ g.arcs) {acc : D} (hacc : Valid acc) :
    ∃ next, (arcs.foldlM (fun acc arc => do
        Domain.join acc (← a.transfer arc.statement (known states arc.source))) acc : Except Fault D) = .ok next ∧
      Valid next ∧ ∀ w, le next w ↔ le acc w ∧ ∀ arc ∈ arcs, ∀ e,
        a.transfer arc.statement (known states arc.source) = .ok e → le e w := by
  induction arcs generalizing acc with
  | nil => exact ⟨acc, rfl, hacc, fun w => by simp⟩
  | cons arc rest ih =>
    obtain ⟨e, he, hevalid⟩ := F.transfer arc (harcs arc List.mem_cons_self) _ (hv arc.source)
    obtain ⟨z, hz, hzvalid, hzle⟩ := F.join acc e hacc hevalid
    obtain ⟨next, hnext, hnvalid, hnle⟩ := ih (fun b hb => harcs b (List.mem_cons_of_mem _ hb)) hzvalid
    refine ⟨next, ?_, hnvalid, fun w => ?_⟩
    · simp only [List.foldlM_cons, he, hz, bind, Except.bind]
      exact hnext
    · have hone : (∀ e', a.transfer arc.statement (known states arc.source) = .ok e' → le e' w) ↔ le e w :=
        ⟨fun h => h e he, fun h e' he' => Except.ok.inj (he.symm.trans he') ▸ h⟩
      rw [hnle, hzle, List.forall_mem_cons, hone, and_assoc]

theorem gathered_spec (F : Framework g a Valid le) {states : List D} (hv : ∀ n, Valid (known states n)) (node : Nat) :
    ∃ next, gathered g a states node = .ok next ∧ Valid next ∧ ∀ w, le next w ↔ ∀ arc ∈ g.arcsInto node, ∀ e,
      a.transfer arc.statement (known states arc.source) = .ok e → le e w := by
  obtain ⟨next, hnext, hvalid, hle⟩ := F.foldlM_join hv (g.arcsInto node)
    (fun arc harc => (Graph.mem_arcsInto.1 harc).1) F.valid_bottom
  refine ⟨next, hnext, hvalid, fun w => ?_⟩
  rw [hle, and_iff_right (F.bottom_le w)]

/-- What is gathered at a node is the least state above what the arcs make of the others. -/
theorem gathered_ok (F : Framework g a Valid le) {states : List D} (hv : ∀ n, Valid (known states n)) {node : Nat}
    {next : D} (h : gathered g a states node = .ok next) : Valid next ∧ ∀ w, le next w ↔ ∀ arc ∈ g.arcsInto node,
      ∀ e, a.transfer arc.statement (known states arc.source) = .ok e → le e w := by
  obtain ⟨next', hnext', hspec⟩ := F.gathered_spec hv node
  obtain rfl := Except.ok.inj (h.symm.trans hnext')
  exact hspec

/-- The nodes of a graph can be evaluated. -/
theorem exists_evaluate (F : Framework g a Valid le) (hg : g.Proper) {states : List D}
    (hlength : states.length = g.size)
    (hv : ∀ n, Valid (known states n)) {node : Nat} (hnode : node < g.size) :
    ∃ next, evaluate g a states node = .ok next ∧ Valid next := by
  obtain ⟨next, hnext, hvalid, -⟩ := F.gathered_spec hv node
  refine ⟨next, ?_, hvalid⟩
  rw [evaluate_eq hnode fun arc harc => hlength ▸ hg.source_lt arc (Graph.mem_arcsInto.1 harc).1, hnext]

/-- Higher states are gathered to higher states. -/
theorem gathered_mono (F : Framework g a Valid le) {states others : List D} (hv : ∀ n, Valid (known states n))
    (hv' : ∀ n, Valid (known others n)) (hle : ∀ n, le (known states n) (known others n)) {node : Nat} {d e : D}
    (hd : gathered g a states node = .ok d) (he : gathered g a others node = .ok e) : le d e := by
  refine ((F.gathered_ok hv hd).2 e).2 fun arc harc u hu => ?_
  obtain ⟨w, hw, -⟩ := F.transfer arc (Graph.mem_arcsInto.1 harc).1 _ (hv' arc.source)
  have hmono := F.transfer_mono arc (Graph.mem_arcsInto.1 harc).1 (hv _) (hv' _) (hle _) hu hw
  exact F.trans hmono (((F.gathered_ok hv' he).2 e).1 (F.refl e) arc harc w hw)

end Framework

/-- What holds wherever a run stands. -/
structure Invariant (g : Graph) (a : Analysis D) (Valid : D → Prop) (le : D → D → Prop) (p : Position D) : Prop where
  length : p.states.length = g.size
  queued : ∀ n ∈ p.queue, n < g.size
  valid : ∀ n, Valid (known p.states n)
  entry : known p.states g.entry = a.initial
  /-- No state is above what its arcs make of the others. -/
  rising : ∀ node next, g.arcsInto node ≠ [] → gathered g a p.states node = .ok next → le (known p.states node) next
  /-- A node that does not wait is above what its arcs make of the others. -/
  settled : ∀ node, node ∉ p.queue → ∀ arc ∈ g.arcsInto node, ∀ e,
    a.transfer arc.statement (known p.states arc.source) = .ok e → le e (known p.states node)

namespace Invariant

variable {p q : Position D}

/-- Only the node that is evaluated changes, and it grows. -/
theorem le_turn (F : Framework g a Valid le) (h : Invariant g a Valid le p) (ht : Turn g a p q)
    (n : Nat) : le (known p.states n) (known q.states n) := by
  rcases ht.known_cases n with heq | ⟨harcs, hnext⟩
  · rw [heq]
    exact F.refl _
  · exact h.rising n _ harcs hnext

theorem valid_turn (F : Framework g a Valid le) (h : Invariant g a Valid le p) (ht : Turn g a p q)
    (n : Nat) : Valid (known q.states n) := by
  rcases ht.known_cases n with heq | ⟨-, hnext⟩
  · rw [heq]
    exact h.valid n
  · exact (F.gathered_ok h.valid hnext).1

/-- Apart from the node that is evaluated, what does not wait behind it was settled before. -/
theorem settled_of_ne (h : Invariant g a Valid le p) {node : Nat} {rest : List Nat}
    (hwaiting : p.waiting g = .ok (node :: rest)) {n : Nat} (hne : n ≠ node) (hn : n ∉ rest) {arc : Arc}
    (harc : arc ∈ g.arcsInto n) {e : D} (he : a.transfer arc.statement (known p.states arc.source) = .ok e) :
    le e (known p.states n) := by
  refine h.settled n (fun hmem => ?_) arc harc e he
  rcases (waiting_cons hwaiting).2.2 n hmem (List.ne_nil_of_mem harc) with h1 | h1
  · exact hne h1
  · exact hn h1

/-- A round keeps the invariant. A node that settles was just evaluated; one that has to wait again
stands behind the node that changed. -/
theorem turn (F : Framework g a Valid le) (hg : g.Proper) (h : Invariant g a Valid le p) (ht : Turn g a p q) :
    Invariant g a Valid le q := by
  have hle := h.le_turn F ht
  have hvalid := h.valid_turn F ht
  have hqueued := ht.queue_lt_size hg h.queued
  cases ht with
  | @keep node rest next hwaiting _ hnext hcompare =>
    obtain ⟨hnvalid, hnle⟩ := F.gathered_ok h.valid (gathered_of_evaluate hnext)
    -- The state stays because it compares as equal to the new one, so it is above what the new one is above.
    obtain ⟨c, hc, hequal⟩ := F.compare next _ hnvalid (h.valid node)
    have hback := (hequal (Except.ok.inj (hc.symm.trans hcompare))).1
    refine ⟨h.length, hqueued, h.valid, h.entry, h.rising, fun n hn arc harc e he => ?_⟩
    by_cases hnode : n = node
    · subst hnode
      exact F.trans ((hnle next).1 (F.refl next) arc harc e he) hback
    · exact h.settled_of_ne hwaiting hnode hn harc he
  | @change node rest next c hwaiting hlt hnext hcompare hne =>
    have harcs := (waiting_cons hwaiting).1
    have hgathered := gathered_of_evaluate hnext
    have hnle := (F.gathered_ok h.valid hgathered).2
    refine ⟨by rw [List.length_set, h.length], hqueued, hvalid, ?_, fun n d hn hd => ?_, fun n hn arc harc e he => ?_⟩
    · rw [known_set_of_ne (hg.ne_entry harcs), h.entry]
    · -- Every node is evaluated to more than before, and the new state is what the node was evaluated to.
      obtain ⟨old, hold, -⟩ := F.gathered_spec h.valid n
      have hgrow := F.gathered_mono h.valid hvalid hle hold hd
      by_cases hnode : n = node
      · subst hnode
        obtain rfl := Except.ok.inj (hgathered.symm.trans hold)
        rwa [known_set_self hlt]
      · rw [known_set_of_ne hnode]
        exact F.trans (h.rising n old hn hold) hgrow
    · -- A node that reads the changed state is a successor and waits, so `n` reads none but old states.
      have hrest : n ∉ rest := fun hmem => hn (List.mem_append_left _ hmem)
      obtain ⟨hmem, htarget⟩ := Graph.mem_arcsInto.1 harc
      have hsource : arc.source ≠ node := fun hs =>
        hn (List.mem_append_right _ (Graph.mem_targets.2 ⟨arc, hmem, hs, htarget⟩))
      rw [known_set_of_ne hsource] at he
      by_cases hnode : n = node
      · subst hnode
        rw [known_set_self hlt]
        exact (hnle next).1 (F.refl next) arc harc e he
      · rw [known_set_of_ne hnode]
        exact h.settled_of_ne hwaiting hnode hrest harc he

theorem known_start {n : Nat} (hn : n < g.size) :
    known (start g a) n = if n = g.entry then a.initial else Domain.bottom := by
  simp [known, start, List.getD_eq_getElem?_getD, hn]

theorem known_start_of_ne {n : Nat} (hn : n ≠ g.entry) : known (start g a) n = Domain.bottom := by
  rcases lt_or_ge n g.size with h | h
  · rw [known_start h, if_neg hn]
  · exact known_of_length_le (by simpa [start] using h)

theorem start (F : Framework g a Valid le) (hg : g.Proper) :
    Invariant g a Valid le ⟨Solver.start g a, List.range g.size⟩ where
  length := by simp [Solver.start]
  queued := origin_queue_lt
  valid n := by
    by_cases hn : n = g.entry
    · rw [hn, known_start hg.entry_lt, if_pos rfl]
      exact F.valid_initial
    · rw [known_start_of_ne hn]
      exact F.valid_bottom
  entry := by rw [known_start hg.entry_lt, if_pos rfl]
  rising node next hnode _ := by
    rw [known_start_of_ne (hg.ne_entry hnode).symm]
    exact F.bottom_le next
  settled node hnode arc harc := by
    refine absurd (List.mem_range.2 (hg.node_lt ?_)) hnode
    exact List.ne_nil_of_mem harc

theorem known_of_size_le (h : Invariant g a Valid le p) {n : Nat} (hn : g.size ≤ n) :
    known p.states n = Domain.bottom := known_of_length_le (h.length.trans_le hn)

/-- A run is either done or has another round. -/
theorem progress (F : Framework g a Valid le) (hg : g.Proper) (h : Invariant g a Valid le p) :
    p.waiting g = .ok [] ∨ ∃ q, Turn g a p q := by
  obtain ⟨left, hw⟩ := exists_awaiting h.queued
  cases left with
  | nil => exact .inl hw
  | cons node rest =>
    have hnode : node < g.size := hg.node_lt (waiting_cons hw).1
    obtain ⟨next, hnext, hvalid⟩ := F.exists_evaluate hg h.length h.valid hnode
    obtain ⟨c, hc, -⟩ := F.compare next _ hvalid (h.valid node)
    by_cases heq : c = .equal
    · exact .inr ⟨_, .keep hw (h.length ▸ hnode) hnext (heq ▸ hc)⟩
    · exact .inr ⟨_, .change hw (h.length ▸ hnode) hnext hc heq⟩

end Invariant

/-! ## Growth -/

section Growth

variable {p : Position D}

/-- With more rounds the states are higher. -/
theorem work_states_le (F : Framework g a Valid le) (hg : g.Proper) (h : Invariant g a Valid le p) {r k : Nat}
    {s t : Halt D} (hs : work g a r p.states p.queue = .ok s) (ht : work g a (r + k) p.states p.queue = .ok t)
    (n : Nat) : le (known s.states n) (known t.states n) := by
  induction r generalizing p with
  | zero =>
    have hstates : s.states = p.states := by
      rcases h.progress F hg with hw | ⟨q, hq⟩
      · rw [work_of_done hw] at hs
        exact (Except.ok.inj hs) ▸ rfl
      · obtain ⟨node, rest, hw⟩ := hq.exists_waiting
        rw [work_zero hw] at hs
        exact (Except.ok.inj hs) ▸ rfl
    obtain ⟨q, t', ht', hq, ⟨-, hle⟩, -⟩ := exists_work
      (P := fun q => Invariant g a Valid le q ∧ ∀ n, le (known p.states n) (known q.states n))
      (fun hp hturn => ⟨hp.1.turn F hg hturn, fun n => F.trans (hp.2 n) (hp.1.le_turn F hturn n)⟩)
      (fun hp => hp.1.progress F hg) ⟨h, fun n => F.refl _⟩ (0 + k)
    obtain rfl := Except.ok.inj (ht.symm.trans ht')
    rw [hstates, hq]
    exact hle n
  | succ r ih =>
    rcases h.progress F hg with hw | ⟨q, hq⟩
    · rw [work_of_done hw] at hs ht
      rw [← Except.ok.inj hs, ← Except.ok.inj ht]
      exact F.refl _
    · rw [hq.work] at hs
      rw [Nat.add_right_comm, hq.work] at ht
      exact ih (h.turn F hg hq) hs ht

/-- States stay below every solution that they were below. -/
theorem Invariant.le_solution (F : Framework g a Valid le) (hg : g.Proper) (h : Invariant g a Valid le p)
    {q : Position D} (ht : Turn g a p q) {y : Nat → D} (hy : ∀ n < g.size, Valid (y n))
    (hsolution : ∀ arc ∈ g.arcs, ∀ e, a.transfer arc.statement (y arc.source) = .ok e → le e (y arc.target))
    (hle : ∀ n < g.size, le (known p.states n) (y n)) : ∀ n < g.size, le (known q.states n) (y n) := by
  intro n hsize
  rcases ht.known_cases n with heq | ⟨-, hnext⟩
  · rw [heq]
    exact hle n hsize
  · refine ((F.gathered_ok h.valid hnext).2 _).2 fun arc harc e he => ?_
    obtain ⟨hmem, rfl⟩ := Graph.mem_arcsInto.1 harc
    have hsource := hg.source_lt arc hmem
    obtain ⟨u, hu, -⟩ := F.transfer arc hmem _ (hy _ hsource)
    exact F.trans (F.transfer_mono arc hmem (h.valid _) (hy _ hsource) (hle _ hsource) he hu) (hsolution arc hmem u hu)

/-- Where no node waits, no arc leads to more than what is known at its target. -/
theorem Invariant.le_of_done (h : Invariant g a Valid le p) (hdone : p.waiting g = .ok []) {arc : Arc}
    (harc : arc ∈ g.arcs) {e : D} (he : a.transfer arc.statement (known p.states arc.source) = .ok e) : le e (known p.states arc.target) := by
  have hinto : arc ∈ g.arcsInto arc.target := Graph.mem_arcsInto.2 ⟨harc, rfl⟩
  refine h.settled arc.target (fun hmem => ?_) arc hinto e he
  rw [arcsInto_of_waiting_nil hdone _ hmem] at hinto
  cases hinto

/-- A state for each node that the arcs cannot lift. -/
structure Solution (g : Graph) (a : Analysis D) (Valid : D → Prop) (le : D → D → Prop) (y : Nat → D) : Prop where
  valid : ∀ n < g.size, Valid (y n)
  entry : le a.initial (y g.entry)
  arc : ∀ arc ∈ g.arcs, ∀ e, a.transfer arc.statement (y arc.source) = .ok e → le e (y arc.target)

/-- However many rounds it may take, work ends below every solution, and with a solution if it has
converged. -/
theorem exists_work_least (F : Framework g a Valid le) (hg : g.Proper) (cap : Nat) :
    ∃ halt, work g a cap (start g a) (List.range g.size) = .ok halt ∧ halt.states.length = g.size ∧
      (∀ n, Valid (known halt.states n)) ∧
      (∀ y, Solution g a Valid le y → ∀ n < g.size, le (known halt.states n) (y n)) ∧
      (halt.converged = true → Solution g a Valid le (known halt.states)) := by
  have hfirst : ∀ y, Solution g a Valid le y → ∀ n < g.size, le (known (start g a) n) (y n) := by
    intro y hy n _
    by_cases hn : n = g.entry
    · rw [hn, Invariant.known_start hg.entry_lt, if_pos rfl]
      exact hy.entry
    · rw [Invariant.known_start_of_ne hn]
      exact F.bottom_le _
  obtain ⟨q, halt, hhalt, hstates, ⟨hinv, hle⟩, hdone⟩ := exists_work
    (P := fun q => Invariant g a Valid le q ∧ ∀ y, Solution g a Valid le y → ∀ n < g.size, le (known q.states n) (y n))
    (fun hq ht => ⟨hq.1.turn F hg ht, fun y hy => hq.1.le_solution F hg ht hy.valid hy.arc (hq.2 y hy)⟩)
    (fun hq => hq.1.progress F hg) ⟨Invariant.start F hg, hfirst⟩ cap
  refine ⟨halt, hhalt, ?_⟩
  rw [hstates]
  refine ⟨hinv.length, hinv.valid, hle, fun hconv => ⟨fun n _ => hinv.valid n, ?_, fun arc harc e he => ?_⟩⟩
  · rw [hinv.entry]
    exact F.refl _
  · exact hinv.le_of_done (hdone hconv) harc he

/-- If the checks answer on valid states, so do whole runs. -/
theorem exists_solve_least (F : Framework g a Valid le) (hg : g.Proper)
    (hcheck : ∀ arc ∈ g.arcs, ∀ x, arc.statement = .assert x → ∀ d, Valid d → ∃ v, a.check x d = .ok v) (cap : Nat) :
    ∃ q, solve g a cap = .ok q ∧ q.states.length = g.size ∧ (∀ n, Valid (known q.states n)) ∧
      (∀ y, Solution g a Valid le y → ∀ n < g.size, le (known q.states n) (y n)) ∧
      (q.converged = true → Solution g a Valid le (known q.states)) ∧ judge g a q.states g.arcs = .ok q.findings := by
  obtain ⟨halt, hhalt, hlength, hvalid, hbelow, hsolution⟩ := exists_work_least F hg cap
  obtain ⟨fs, hfs⟩ := exists_judge hlength fun arc harc x hx =>
    ⟨hg.source_lt arc harc, hcheck arc harc x hx _ (hvalid arc.source)⟩
  exact ⟨_, solve_eq_ok.2 ⟨halt, fs, hhalt, hfs, rfl⟩, hlength, hvalid, hbelow, hsolution, hfs⟩

end Growth

/-! ## Runs without end -/

/-- A position for every number of rounds. -/
structure Endless (g : Graph) (a : Analysis D) (pos : Nat → Position D) : Prop where
  start : pos 0 = origin g a
  turn : ∀ t, Turn g a (pos t) (pos (t + 1))

theorem exists_endless (F : Framework g a Valid le) (hg : g.Proper)
    (h : ∀ k p, Turns g a k (origin g a) p → p.waiting g ≠ .ok []) : ∃ pos, Endless g a pos := by
  let Visited := {p // Invariant g a Valid le p ∧ ∃ k, Turns g a k (origin g a) p}
  have hnext : ∀ p : Visited, ∃ q : Visited, Turn g a p.1 q.1 := by
    rintro ⟨p, hinv, k, hk⟩
    rcases hinv.progress F hg with hw | ⟨q, hq⟩
    · exact absurd hw (h k p hk)
    · exact ⟨⟨q, hinv.turn F hg hq, k + 1, .step hk hq⟩, hq⟩
  -- A round always follows a visited position, so the run is the iteration of a choice of it.
  choose next hturn using hnext
  let first : Visited := ⟨origin g a, Invariant.start F hg, 0, .refl _⟩
  refine ⟨fun t => (next^[t] first).1, rfl, fun t => ?_⟩
  rw [Function.iterate_succ_apply']
  exact hturn _

/-- If a run is not endless, some number of rounds is enough. -/
theorem work_converges_or_endless (F : Framework g a Valid le) (hg : g.Proper) :
    (∃ R, ∀ r, R ≤ r → ∃ halt, work g a r (start g a) (List.range g.size) = .ok halt ∧ halt.converged = true) ∨
      ∃ pos, Endless g a pos := by
  by_cases h : ∃ k p, Turns g a k (origin g a) p ∧ p.waiting g = .ok []
  · obtain ⟨k, p, hk, hw⟩ := h
    refine .inl ⟨k, fun r hr => ⟨⟨p.states, r - k, true⟩, ?_, rfl⟩⟩
    have hwork := hk.work (r - k)
    rw [Nat.sub_add_cancel hr] at hwork
    exact hwork.trans (work_of_done hw _)
  · push Not at h
    exact .inr (exists_endless F hg h)

namespace Endless

variable {pos : Nat → Position D}

theorem turns (h : Endless g a pos) (t : Nat) : Turns g a t (origin g a) (pos t) := by
  induction t with
  | zero =>
    rw [h.start]
    exact .refl _
  | succ t ih => exact .step ih (h.turn t)

theorem invariant (F : Framework g a Valid le) (hg : g.Proper) (h : Endless g a pos) (t : Nat) :
    Invariant g a Valid le (pos t) := by
  induction t with
  | zero =>
    rw [h.start]
    exact Invariant.start F hg
  | succ t ih => exact ih.turn F hg (h.turn t)

theorem le_of_le (F : Framework g a Valid le) (hg : g.Proper) (h : Endless g a pos) {t u : Nat} (htu : t ≤ u)
    (n : Nat) : le (known (pos t).states n) (known (pos u).states n) := by
  induction u, htu using Nat.le_induction with
  | base => exact F.refl _
  | succ u _ ih => exact F.trans ih ((h.invariant F hg u).le_turn F (h.turn u) n)

/-- However late, some round changes a state: the rounds that do not would empty the queue. -/
theorem exists_change (h : Endless g a pos) (hrefl : ∀ d : D, Domain.compare d d = .ok .equal) (T : Nat) :
    ∃ t, T ≤ t ∧ (pos (t + 1)).states ≠ (pos t).states := by
  by_contra hnone
  push Not at hnone
  -- If no state changed from `T` on, every round would only take a node from the queue.
  have hqueue : ∀ k, (pos (T + k)).queue.length + k ≤ (pos T).queue.length := by
    intro k
    induction k with
    | zero => exact le_rfl
    | succ k ih =>
      have hlt := (h.turn (T + k)).queue_lt hrefl (hnone (T + k) (by omega))
      change (pos (T + k + 1)).queue.length + (k + 1) ≤ _
      omega
  have := hqueue ((pos T).queue.length + 1)
  omega

open Filter in
/-- A node that is always evaluated to the same state changes only once more. -/
theorem eventually_known_eq (h : Endless g a pos) {n : Nat}
    (hsame : ∀ᶠ t in atTop, gathered g a (pos (t + 1)).states n = gathered g a (pos t).states n) :
    ∀ᶠ t in atTop, known (pos (t + 1)).states n = known (pos t).states n := by
  obtain ⟨T, hT⟩ := eventually_atTop.1 hsame
  have hfixed : ∀ t, T ≤ t → gathered g a (pos t).states n = gathered g a (pos T).states n := by
    intro t ht
    induction t, ht using Nat.le_induction with
    | base => rfl
    | succ t ht ih => rw [hT t ht, ih]
  by_cases hchange : ∃ t, T ≤ t ∧ known (pos (t + 1)).states n ≠ known (pos t).states n
  · obtain ⟨t, ht, hne⟩ := hchange
    -- The change gave the node the state that it is always evaluated to, and later rounds give it the same.
    have hvalue : ∀ u, t + 1 ≤ u → gathered g a (pos T).states n = .ok (known (pos u).states n) := by
      intro u hu
      induction u, hu using Nat.le_induction with
      | base =>
        have hnext := (((h.turn t).known_cases n).resolve_left hne).2
        rwa [hfixed t ht] at hnext
      | succ u hu ih =>
        rcases (h.turn u).known_cases n with heq | ⟨-, hnext⟩
        · rw [heq, ih]
        · rwa [hfixed u (by omega)] at hnext
    refine eventually_atTop.2 ⟨t + 1, fun u hu => ?_⟩
    exact Except.ok.inj ((hvalue (u + 1) (by omega)).symm.trans (hvalue u hu))
  · push Not at hchange
    exact eventually_atTop.2 ⟨T, hchange⟩

open Filter in
/-- What holds at every node from some round on holds at all of them together. -/
theorem eventually_all_nodes (F : Framework g a Valid le) (hg : g.Proper) (h : Endless g a pos) {P : D → D → Prop}
    (hbottom : P Domain.bottom Domain.bottom)
    (hnode : ∀ n, n < g.size → ∀ᶠ t in atTop, P (known (pos (t + 1)).states n) (known (pos t).states n)) :
    ∀ᶠ t in atTop, ∀ n, P (known (pos (t + 1)).states n) (known (pos t).states n) := by
  refine ((eventually_all_finite (Set.finite_Iio g.size)).2 hnode).mono fun t ht n => ?_
  rcases lt_or_ge n g.size with hn | hn
  · exact ht n hn
  · rw [(h.invariant F hg (t + 1)).known_of_size_le hn, (h.invariant F hg t).known_of_size_le hn]
    exact hbottom

end Endless

end Solver

end FlowFacts
