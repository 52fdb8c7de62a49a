import Mathlib
import FlowFacts.Proofs.Representation

/-!
# Reports are always written

On states in the form of their kind no statement, join, comparison or look-up fails, so the work of a run
always ends. What is left are the checks and the texts. A text is written of every such state
(`Kind.exists_render`), and a check is refused only where it goes through parities of which too many can be
chosen freely (`Kind.check_cases`). `Report.run_answers` puts this together for all kinds.
-/

namespace FlowFacts

/-! ## Texts -/

section Texts

variable {D E : Type}

theorem exists_mapM_length {α β : Type} {f : α → Except Fault β} {xs : List α} (h : ∀ x ∈ xs, ∃ y, f x = .ok y) :
    ∃ ys, xs.mapM f = .ok ys ∧ ys.length = xs.length := by
  obtain ⟨ys, hys, hall⟩ := exists_mapM fun x hx => (h x hx).imp fun _ hy => ⟨hy, trivial⟩
  exact ⟨ys, hys, hall.length_eq.symm⟩

/-- A finding is written if the state that it shows is. -/
theorem Finding.exists_mapM {write : D → Except Fault E} {f : Finding D}
    (h : ∀ d, f.outcome = .violated d → ∃ e, write d = .ok e) : ∃ e, f.mapM write = .ok e := by
  unfold Finding.mapM
  cases hf : f.outcome with
  | proved => exact ⟨_, rfl⟩
  | unsupported => exact ⟨_, rfl⟩
  | violated d =>
    obtain ⟨e, he⟩ := h d hf
    simp only [he, bind, Except.bind]
    exact ⟨_, rfl⟩

theorem FixedPoint.exists_mapM {write : D → Except Fault E} {q : FixedPoint D}
    (hstates : ∀ d ∈ q.states, ∃ e, write d = .ok e)
    (hfindings : ∀ f ∈ q.findings, ∀ d, f.outcome = .violated d → ∃ e, write d = .ok e) :
    ∃ r, q.mapM write = .ok r ∧ r.states.length = q.states.length := by
  obtain ⟨texts, htexts, hlength⟩ := exists_mapM_length hstates
  obtain ⟨fs, hfs, -⟩ := exists_mapM_length fun f hf => Finding.exists_mapM (hfindings f hf)
  refine ⟨⟨texts, fs, q.rounds, q.converged⟩, ?_, hlength⟩
  simp only [FixedPoint.mapM, htexts, hfs, bind, Except.bind, pure, Except.pure]

end Texts

theorem Frame.exists_render {f : Frame} {s : Relations} (hs : s.Canonical f.names.length) :
    ∃ text, f.render s = .ok text := by
  cases s with
  | bottom => exact ⟨_, rfl⟩
  | top => exact ⟨_, rfl⟩
  | system m =>
    have hrows : ∀ row ∈ m.rows, ∃ text, f.renderRow row = .ok text := by
      intro row hrow
      have hlength : row.length = f.names.length + 1 := (m.width row hrow).trans hs.columns
      have hconstant : entryAt row f.names.length = .ok row[f.names.length] := entryAt_of_lt (by omega)
      simp only [Frame.renderRow, hconstant, bind, Except.bind]
      exact ⟨_, rfl⟩
    obtain ⟨texts, htexts, -⟩ := exists_mapM_length hrows
    simp only [Frame.render, htexts, bind, Except.bind]
    exact ⟨_, rfl⟩

theorem Kind.exists_render {k : Kind} {names : List String} {d : k.State} (h : k.Regular names d) :
    ∃ text, (k.analysis names).render d = .ok text := by
  cases k with
  | parity => exact ⟨_, rfl⟩
  | sum => exact Frame.exists_render (f := ⟨names, .affine⟩) h
  | product =>
    obtain ⟨text, htext⟩ := Frame.exists_render (f := ⟨names, .affine⟩) h.2
    simp only [analysis, productAnalysis, ProductState.render, htext, bind, Except.bind]
    exact ⟨_, rfl⟩
  | lift => exact Frame.exists_render (f := ⟨names, .affine⟩) h
  | homogeneousLift => exact Frame.exists_render (f := ⟨names, .homogeneous⟩) h

/-! ## Checks -/

/-- A check of a kind goes through parities of which some number can be chosen freely. Only the kinds that
have no parities of their own do that. -/
def Kind.Enumerates (k : Kind) (names : List String) (a : Assertion) (state : k.State) (free : Nat) : Prop :=
  match k, state with
  | .parity, _ | .sum, _ | .product, _ => False
  | .lift, s => Frame.Enumerates ⟨names, .affine⟩ a s free
  | .homogeneousLift, s => Frame.Enumerates ⟨names, .homogeneous⟩ a s free

theorem Kind.Enumerates.kind {k : Kind} {names : List String} {a : Assertion} {d : k.State} {free : Nat}
    (h : k.Enumerates names a d free) : k = .lift ∨ k = .homogeneousLift := by
  cases k with
  | parity => exact h.elim
  | sum => exact h.elim
  | product => exact h.elim
  | lift => exact .inl rfl
  | homogeneousLift => exact .inr rfl

theorem Kind.check_cases {k : Kind} {names : List String} {a : Assertion} {d : k.State}
    (h : ∀ x ∈ (Statement.assert a).mentions, x ∈ names) (hd : k.Regular names d) :
    (∃ n, 64 ≤ n ∧ n ≤ names.length ∧ k.Enumerates names a d n ∧
        (k.analysis names).check a d = .error (.tooManyDirections n)) ∨
      (∀ n, k.Enumerates names a d n → n < 64) ∧ ∃ v, (k.analysis names).check a d = .ok v := by
  cases k with
  | parity => exact .inr ⟨nofun, _, rfl⟩
  | sum =>
    obtain ⟨v, hv, -⟩ := Frame.check_spec (f := ⟨names, .affine⟩) h hd
    exact .inr ⟨nofun, v, hv⟩
  | product =>
    obtain ⟨v, hv, -⟩ := ProductState.check_spec (f := ⟨names, .affine⟩) h hd.2
    exact .inr ⟨nofun, v, hv⟩
  | lift =>
    rcases Frame.liftCheck_spec (f := ⟨names, .affine⟩) h hd with hmany | ⟨hfew, v, hv, -⟩
    · exact .inl hmany
    · exact .inr ⟨hfew, v, hv⟩
  | homogeneousLift =>
    rcases Frame.liftCheck_spec (f := ⟨names, .homogeneous⟩) h hd with hmany | ⟨hfew, v, hv, -⟩
    · exact .inl hmany
    · exact .inr ⟨hfew, v, hv⟩

/-! ## Runs -/

/-- Some assertion makes its check go through parities of which a number can be chosen freely. -/
def Report.Asks (g : Graph) (k : Kind) (states : List k.State) (free : Nat) : Prop :=
  ∃ arc ∈ g.arcs, ∃ a, arc.statement = .assert a ∧ k.Enumerates g.names a (Solver.known states arc.source) free

section Runs

variable {g : Graph} {k : Kind}

/-- The states that findings show are among those of the nodes. -/
theorem mem_of_violated {states : List k.State} {fs : List (Finding k.State)}
    (hfs : Solver.judge g (k.analysis g.names) states g.arcs = .ok fs) {f : Finding k.State} (hf : f ∈ fs) {d : k.State}
    (hd : f.outcome = .violated d) : d ∈ states := by
  obtain ⟨arc, harc, x, v, -, -, rfl, hlt, -⟩ := Solver.exists_of_forall₂ (Solver.forall₂_judge hfs) hf
  have hshown : d = Solver.known states arc.source := by
    cases v with
    | proved => cases hd
    | violated => exact (Outcome.violated.inj hd).symm
    | unsupported => cases hd
  rw [hshown]
  exact List.mem_of_getElem? (Solver.getElem?_eq_known hlt)

/-- All assertions are judged, or one of them asks for too much. -/
theorem judge_answers (hg : g.Proper) {states : List k.State} (hlength : states.length = g.size)
    (hregular : ∀ d ∈ states, k.Regular g.names d) :
    (∃ n, 64 ≤ n ∧ n ≤ g.names.length ∧ Report.Asks g k states n ∧
        Solver.judge g (k.analysis g.names) states g.arcs = .error (.tooManyDirections n)) ∨
      (∀ n, Report.Asks g k states n → n < 64) ∧ ∃ fs, Solver.judge g (k.analysis g.names) states g.arcs = .ok fs := by
  have hcheck : ∀ arc ∈ g.arcs, ∀ a, arc.statement = .assert a → _ := fun arc harc a ha =>
    Kind.check_cases (a := a) (ha ▸ hg.mentions arc harc) (hregular _
      (List.mem_of_getElem? (Solver.getElem?_eq_known (hlength ▸ hg.source_lt arc harc))))
  have hjudge : (∃ e, (∃ n, 64 ≤ n ∧ n ≤ g.names.length ∧ Report.Asks g k states n ∧ e = .tooManyDirections n) ∧
      Solver.judge g (k.analysis g.names) states g.arcs = .error e) ∨
        ∃ fs, Solver.judge g (k.analysis g.names) states g.arcs = .ok fs := by
    refine Solver.judge_cases hlength fun arc harc a ha => ⟨hg.source_lt arc harc, ?_⟩
    rcases hcheck arc harc a ha with ⟨n, hmany, hnames, henumerates, herror⟩ | ⟨-, v, hv⟩
    · exact .inl ⟨_, ⟨n, hmany, hnames, ⟨arc, harc, a, ha, henumerates⟩, rfl⟩, herror⟩
    · exact .inr ⟨v, hv⟩
  rcases hjudge with ⟨e, ⟨n, hmany, hnames, hasks, rfl⟩, herror⟩ | ⟨fs, hfs⟩
  · exact .inl ⟨n, hmany, hnames, hasks, herror⟩
  · refine .inr ⟨?_, fs, hfs⟩
    rintro n ⟨arc, harc, a, ha, henumerates⟩
    rcases hcheck arc harc a ha with ⟨_, -, -, -, herror⟩ | ⟨hfew, -⟩
    · -- A check that was refused would have left nothing to be judged.
      have hmem : arc ∈ g.arcs.filter Solver.isAssertion :=
        List.mem_filter.2 ⟨harc, Solver.isAssertion_eq_true.2 ⟨a, ha⟩⟩
      obtain ⟨_, -, x, v, hx, hv, -⟩ := Solver.exists_of_forall₂ (Solver.forall₂_judge hfs).flip hmem
      obtain rfl : a = x := Statement.assert.inj (ha.symm.trans hx)
      cases herror.symm.trans hv
    · exact hfew n henumerates

/-- A report of any kind is written within any number of rounds, unless an assertion makes its check go through
parities of which more than sixty-three can be chosen freely. Only the two lift kinds can be asked for that, and
only with as many variables.

All looking up and changing of entries in a run, all adding of rows, all division and every other operation that
asks something of its arguments ends in a fault where that does not hold. No fault but the one named here comes
out of a run, so it does hold. -/
theorem Report.run_answers {p : Program} (hp : p.graph = .ok g) (k : Kind) (cap : Nat) :
    ∃ halt, Solver.work g (k.analysis g.names) cap (Solver.start g (k.analysis g.names)) (List.range g.size) =
        .ok halt ∧ halt.states.length = g.size ∧
      ((∀ n, Asks g k halt.states n → n < 64) ∧ (∃ r, run g k cap = .ok r ∧ r.kind = k ∧ r.labels = g.labels ∧
          r.states.length = g.size) ∨
        ∃ n, 64 ≤ n ∧ n ≤ g.names.length ∧ Asks g k halt.states n ∧ (k = .lift ∨ k = .homogeneousLift) ∧
          run g k cap = .error (.tooManyDirections n)) := by
  have hg := Program.proper_graph hp
  obtain ⟨Valid, le, F⟩ := Kind.exists_framework hg k
  obtain ⟨halt, hhalt, hlength, -⟩ := Solver.exists_work_least F hg cap
  have hregular : ∀ d ∈ halt.states, k.Regular g.names d := fun d hd =>
    Kind.regular_of_produced hg (Solver.produced_of_work hg hhalt d hd)
  refine ⟨halt, hhalt, hlength, ?_⟩
  rcases judge_answers hg hlength hregular with ⟨n, hmany, hnames, hasks, herror⟩ | ⟨hfew, fs, hfs⟩
  · refine .inr ⟨n, hmany, hnames, hasks, ?_, ?_⟩
    · obtain ⟨arc, -, a, -, henumerates⟩ := hasks
      exact henumerates.kind
    · simp only [run, Solver.solve, hhalt, herror, bind, Except.bind]
  · have hsolve := Solver.solve_eq_ok.2 ⟨halt, fs, hhalt, hfs, rfl⟩
    obtain ⟨r, hr, hrlength⟩ := FixedPoint.exists_mapM
      (q := ⟨halt.states, fs, cap - halt.unspent, halt.converged⟩)
      (fun d hd => Kind.exists_render (hregular d hd))
      fun f hf d hd => Kind.exists_render (hregular d (mem_of_violated hfs hf hd))
    refine .inl ⟨hfew, ⟨k, g.labels, r.states, r.findings, r.rounds, r.converged⟩, ?_, rfl, rfl,
      hrlength.trans hlength⟩
    simp only [run, hsolve, hr, bind, Except.bind, pure, Except.pure]

/-- Of two variables that are counted up together not even both parities can be chosen freely, and the lift
analysis reports on all seven nodes. -/
theorem Report.run_answers_lockstep : Program.lockstep.graph = .ok .lockstep ∧
    ∃ r, run .lockstep .lift 20 = .ok r ∧ r.kind = .lift ∧ r.labels = [0, 1, 2, 3, 4, 5, 6] ∧ r.states.length = 7 := by
  obtain ⟨halt, -, -, hanswers⟩ := Report.run_answers lockstep_graph .lift 20
  rcases hanswers with ⟨-, hreport⟩ | ⟨n, hmany, hnames, -⟩
  · exact ⟨lockstep_graph, hreport⟩
  · exact absurd (hmany.trans hnames) (by decide)

end Runs

end FlowFacts
