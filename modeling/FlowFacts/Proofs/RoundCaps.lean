import Mathlib
import FlowFacts.Proofs.ParityLift
import FlowFacts.Proofs.SolverRuns

/-!
# Caps on the number of rounds

A run with a smaller cap takes the first rounds of a run with a larger one, whatever the analysis. So a run that has
converged after some rounds has the same result under every cap from there on, and under a smaller cap it stops in
between, where some node still waits: `Solver.solve_truncates`.

The assertions are judged where a run stops. The check of one can fail there and still answer at the end, since the
lift goes through parities only where it has equations, and these can get lost on the way:
`Solver.solve_cap_forgetful`.
-/

namespace FlowFacts

namespace Solver

variable {D : Type} [Domain D] {g : Graph} {a : Analysis D} {p q : Position D}

/-! ## Stopping early -/

/-- A run passes through a position after each smaller number of rounds, and some node waits there. -/
theorem Turns.exists_before {k : Nat} (h : Turns g a k p q) {c : Nat} (hc : c < k) :
    ∃ r node rest, Turns g a c p r ∧ r.waiting g = .ok (node :: rest) := by
  induction h with
  | refl p => omega
  | @step k p q r h hturn ih =>
    rcases Nat.lt_succ_iff_lt_or_eq.1 hc with hlt | rfl
    · exact ih hlt
    · obtain ⟨node, rest, hwaiting⟩ := hturn.exists_waiting
      exact ⟨q, node, rest, h, hwaiting⟩

/-! ## Results under different caps -/

theorem solve_of_work {cap : Nat} {halt : Halt D} (h : work g a cap (start g a) (List.range g.size) = .ok halt) :
    solve g a cap = (judge g a halt.states g.arcs).map
      fun fs => ⟨halt.states, fs, cap - halt.unspent, halt.converged⟩ := by
  simp only [solve, h, bind, Except.bind, pure, Except.pure, Except.map]

/-- A run that is done after some rounds, under any cap that allows as many. -/
theorem solve_of_done {k cap : Nat} (h : Turns g a k (origin g a) p) (hdone : p.waiting g = .ok []) (hcap : k ≤ cap) :
    solve g a cap = (judge g a p.states g.arcs).map fun fs => ⟨p.states, fs, k, true⟩ := by
  obtain ⟨r, rfl⟩ := Nat.exists_eq_add_of_le' hcap
  rw [solve_of_work ((h.work r).trans (work_of_done hdone r)), Nat.add_sub_cancel_left]

/-- A run under a cap after which some node waits. -/
theorem solve_of_waiting {cap node : Nat} {rest : List Nat} (h : Turns g a cap (origin g a) p)
    (hwaiting : p.waiting g = .ok (node :: rest)) :
    solve g a cap = (judge g a p.states g.arcs).map fun fs => ⟨p.states, fs, cap, false⟩ := by
  have hwork := h.work 0
  rw [Nat.zero_add, work_zero hwaiting] at hwork
  rw [solve_of_work hwork, Nat.sub_zero]

/-- Where all assertions can be judged with some states, judging them with others ends with the findings or with the
fault of one of the checks. -/
theorem judge_ok_or_fault {states others : List D} {arcs : List Arc} {gs : List (Finding D)}
    (hothers : judge g a others arcs = .ok gs) (hlength : states.length = g.size) :
    (∃ fs, judge g a states arcs = .ok fs) ∨ ∃ arc ∈ arcs, ∃ x e, arc.statement = .assert x ∧
      a.check x (known states arc.source) = .error e ∧ judge g a states arcs = .error e := by
  have hcases : (∃ e, (∃ arc ∈ arcs, ∃ x, arc.statement = .assert x ∧
        a.check x (known states arc.source) = .error e) ∧ judge g a states arcs = .error e) ∨
      ∃ fs, judge g a states arcs = .ok fs := by
    refine judge_cases hlength fun arc harc x hx => ?_
    have hmem : arc ∈ arcs.filter isAssertion := List.mem_filter.2 ⟨harc, isAssertion_eq_true.2 ⟨x, hx⟩⟩
    obtain ⟨_, -, _, _, -, -, -, -, hsource⟩ := exists_of_forall₂ (forall₂_judge hothers).flip hmem
    refine ⟨hsource, ?_⟩
    cases hcheck : a.check x (known states arc.source) with
    | ok v => exact .inr ⟨v, rfl⟩
    | error e => exact .inl ⟨e, ⟨arc, harc, x, hx, hcheck⟩, rfl⟩
  rcases hcases with ⟨e, ⟨arc, harc, x, hx, hcheck⟩, hfault⟩ | hok
  · exact .inr ⟨arc, harc, x, e, hx, hcheck, hfault⟩
  · exact .inl hok

/-- What is asked of an assertion first is its check, and its fault ends the judging. -/
theorem judge_cons_of_fault {states : List D} {arc : Arc} {rest : List Arc} {x : Assertion} {e : Fault}
    (hx : arc.statement = .assert x) (hsource : arc.source < states.length)
    (hcheck : a.check x (known states arc.source) = .error e) : judge g a states (arc :: rest) = .error e := by
  rw [judge_cons_of_assert hx, entryAt_known hsource]
  simp only [bind, Except.bind, hcheck]

theorem exists_ok_of_map {α β : Type} {r : Except Fault α} {read : α → β} {b : β} (h : r.toOption.map read = some b) :
    ∃ x, r = .ok x ∧ read x = b := by
  cases r with
  | error e => cases h
  | ok x => exact ⟨x, rfl, Option.some.inj h⟩

/-- No result has taken more rounds than allowed, and one that has not converged has taken all of them. If a run has
converged, more rounds change nothing, and fewer stop it at a position that it passes through: the result is that it
has not converged after as many rounds, unless the check of an assertion fails on what is known there. -/
theorem solve_truncates (g : Graph) (a : Analysis D) {cap : Nat} {q : FixedPoint D} (hq : solve g a cap = .ok q) :
    q.rounds ≤ cap ∧ (q.converged = false → q.rounds = cap) ∧
      (q.converged = true → (∀ c, q.rounds ≤ c → solve g a c = .ok q) ∧
        ∀ c < q.rounds, ∃ p, Turns g a c (origin g a) p ∧
          ((∃ fs, solve g a c = .ok ⟨p.states, fs, c, false⟩) ∨
            ∃ arc ∈ g.arcs, ∃ x e, arc.statement = .assert x ∧ a.check x (known p.states arc.source) = .error e ∧
              solve g a c = .error e)) := by
  obtain ⟨halt, fs, hwork, hjudge, rfl⟩ := solve_eq_ok.1 hq
  obtain ⟨k, p, hturns, hspent, hstates, hend⟩ := exists_turns_of_work (.refl (origin g a)) hwork
  have hrounds : cap - halt.unspent = k := by omega
  simp only [hrounds]
  refine ⟨by omega, fun hconv => ?_, fun hconv => ⟨fun c hc => ?_, fun c hc => ?_⟩⟩
  · rcases hend with ⟨hdone, -⟩ | ⟨-, hnone⟩
    · rw [hconv] at hdone
      cases hdone
    · omega
  · have hdone : p.waiting g = .ok [] := hend.elim And.right fun h => by simp [hconv] at h
    rw [solve_of_done hturns hdone hc, ← hstates, hjudge, hconv]
    rfl
  · obtain ⟨r, node, rest, hr, hwaiting⟩ := hturns.exists_before hc
    refine ⟨r, hr, ?_⟩
    rw [solve_of_waiting hr hwaiting]
    rcases judge_ok_or_fault hjudge hr.length_eq_size with ⟨fs, hfs⟩ | ⟨arc, harc, x, e, hx, hcheck, hfault⟩
    · exact .inl ⟨fs, by rw [hfs]; rfl⟩
    · exact .inr ⟨arc, harc, x, e, hx, hcheck, by rw [hfault]; rfl⟩

/-- The parities of two variables that are counted up together are found in twelve rounds, and not in eleven. -/
theorem solve_truncates_lockstep : ∃ q, solve .lockstep parityAnalysis 20 = .ok q ∧ q.converged = true ∧
    q.rounds = 12 ∧ (∀ c, 12 ≤ c → solve .lockstep parityAnalysis c = .ok q) ∧
      ∃ p fs, Turns .lockstep parityAnalysis 11 (origin .lockstep parityAnalysis) p ∧
        solve .lockstep parityAnalysis 11 = .ok ⟨p.states, fs, 11, false⟩ := by
  have hrun : (solve .lockstep parityAnalysis 20).toOption.map (fun q => (q.converged, q.rounds)) =
      some (true, 12) := by decide +kernel
  obtain ⟨q, hq, hends⟩ := exists_ok_of_map hrun
  obtain ⟨hconv, hrounds⟩ := Prod.mk.inj hends
  obtain ⟨-, -, hcaps⟩ := solve_truncates .lockstep parityAnalysis hq
  obtain ⟨hmore, hfewer⟩ := hcaps hconv
  rw [hrounds] at hmore hfewer
  obtain ⟨p, hp, ⟨fs, hstop⟩ | ⟨arc, -, x, e, -, hfault, -⟩⟩ := hfewer 11 (by decide)
  · exact ⟨q, hq, hconv, hrounds, hmore, p, fs, hp, hstop⟩
  · cases hfault

end Solver

/-! ## Checks that fail before the end -/

/-- Variables that no equation is about modulo two have all parities. -/
theorem RationalMatrix.freeParities_eq_length {n : Nat} {m : RationalMatrix} {columns : List Nat}
    (hnodup : columns.Nodup) (h : ∀ r ∈ m.rows, ∀ c ∈ columns, parityCoeff r c = 0) :
    m.freeParities n columns = columns.length := by
  -- What is picked is read off at the places of the columns, and can be anything there.
  let read := (LinearMap.funLeft (ZMod 2) (ZMod 2) (Fin.val : Fin columns.length → Nat)).domRestrict
    ((m.parityKernel n).map (pick columns))
  have hinjective : Function.Injective read := by
    rintro ⟨_, v, hv, rfl⟩ ⟨_, w, hw, rfl⟩ heq
    refine Subtype.ext (funext fun i => ?_)
    by_cases hi : i < columns.length
    · exact congrFun heq ⟨i, hi⟩
    · simp [pick_apply, List.getElem?_eq_none (not_lt.1 hi)]
  have hsurjective : Function.Surjective read := by
    intro u
    let v : Nat → ZMod 2 := fun c => if hc : c ∈ columns then u ⟨columns.idxOf c, List.idxOf_lt_length_of_mem hc⟩ else 0
    have hv : v ∈ m.parityKernel n := by
      refine fun r hr => Finset.sum_eq_zero fun c _ => ?_
      by_cases hc : c ∈ columns
      · rw [h r hr c hc, zero_mul]
      · simp [v, hc]
    refine ⟨⟨pick columns v, v, hv, rfl⟩, funext fun i => ?_⟩
    show pick columns v i = u i
    simp [pick_apply, v, hnodup.idxOf_getElem]
  rw [freeParities, (LinearEquiv.ofBijective read ⟨hinjective, hsurjective⟩).finrank_eq, Module.finrank_fin_fun]

namespace Frame

variable {f : Frame}

/-- The lift does not answer where 64 variables or more have all parities. -/
theorem liftCheck_of_free {m : RationalMatrix} (hm : IsCanonical f.names.length m)
    (hsome : (m.parities f.names.length).Nonempty) {clause : Clause}
    (hclause : ∀ atom ∈ clause, atom.isParity = true ∧ ∀ x ∈ atom.names, x ∈ f.names) {columns : List Nat}
    (hcolumns : f.parityColumns [clause] = .ok columns) (hnodup : columns.Nodup) (hmany : 64 ≤ columns.length)
    (hfree : ∀ r ∈ m.rows, ∀ c ∈ columns, parityCoeff r c = 0) :
    f.liftCheck ⟨[clause]⟩ (.system m) = .error (.tooManyDirections columns.length) := by
  have hkept : f.dischargeSums (.system m) [clause] = .ok [clause] := by
    have hsums : clause.any Atom.isSum = false := by
      simpa [Atom.isParity] using fun atom hatom => (hclause atom hatom).1
    have hall : clause.filter Atom.isParity = clause := List.filter_eq_self.2 fun atom hatom => (hclause atom hatom).1
    simp only [dischargeSums, hsums, hall, Bool.false_eq_true, if_false, if_true, bind, Except.bind, pure, Except.pure]
  have hne : clause ≠ [] := by
    rintro rfl
    obtain rfl := Except.ok.inj hcolumns
    exact absurd hmany (by decide)
  have hmentions : ∀ x ∈ (Statement.assert ⟨[clause]⟩).mentions, x ∈ f.names := by
    intro x hx
    obtain ⟨atom, hatom, hx⟩ := List.mem_flatMap.1 hx
    exact (hclause atom (by simpa [Assertion.atoms] using hatom)).2 x hx
  -- The check goes through as many free parities as there are columns, and no other number.
  have hnumber : ∀ k, f.Enumerates ⟨[clause]⟩ (.system m) k ↔ k = columns.length := by
    intro k
    rw [enumerates_system hkept, ← RationalMatrix.freeParities_eq_length (n := f.names.length) hnodup hfree]
    simp [hcolumns, hsome, hne.symm]
  have hs : (Relations.system m).Canonical f.names.length := hm
  rcases liftCheck_spec hmentions hs with ⟨k, -, -, hk, herror⟩ | ⟨hfew, -⟩
  · rw [herror, (hnumber k).1 hk]
  · exact absurd (hfew _ ((hnumber _).2 rfl)) (not_lt.2 hmany)

end Frame

/-- `a0` to `h7`. -/
def freeNames : List String :=
  ['a', 'b', 'c', 'd', 'e', 'f', 'g', 'h'].flatMap fun c =>
    ['0', '1', '2', '3', '4', '5', '6', '7'].map fun d => String.ofList [c, d]

/-- Before the loop `z` is zero, and in the loop nothing is known of it. -/
def Program.forgetful : Program where
  declared := .ofList (freeNames ++ ["z"])
  edges := [⟨0, .assign "z" (.const 0), 1⟩, ⟨1, .assert ⟨[freeNames.map .even]⟩, 2⟩, ⟨2, .assign "z" .unknown, 1⟩]

def Graph.forgetful : Graph where
  names := freeNames ++ ["z"]
  labels := [0, 1, 2]
  arcs := [⟨0, 1, .assign "z" (.const 0)⟩, ⟨1, 2, .assert ⟨[freeNames.map .even]⟩⟩, ⟨2, 1, .assign "z" .unknown⟩]
  entry := 0

/-- `z = 0`, the last of 65 variables. -/
def lastZero : RationalMatrix := ⟨66, [List.replicate 64 0 ++ [1, 0]], by decide⟩

namespace Solver

def forgetfulAnalysis : Analysis Relations := liftAnalysis ⟨Graph.forgetful.names, .affine⟩

theorem check_lastZero :
    forgetfulAnalysis.check ⟨[freeNames.map .even]⟩ (.system lastZero) = .error (.tooManyDirections 64) := by
  let f : Frame := ⟨Graph.forgetful.names, .affine⟩
  have hlength : f.names.length = 65 := rfl
  have hcanonical : IsCanonical f.names.length lastZero :=
    Relations.isCanonical_of_ofEquations rfl (by decide +kernel)
  have hcoeffs : ∀ r ∈ lastZero.rows, ∀ c < 66, c ≠ 64 → (Fraction.integerRow r).getD c 0 = 0 := by decide +kernel
  have hsome : (lastZero.parities f.names.length).Nonempty := by
    refine ⟨0, fun r hr => ?_⟩
    rw [equationAt, dotTo_comm, dotTo_zero_left, zero_add, parityCoeff, hlength,
      hcoeffs r hr 65 (by decide) (by decide), Int.cast_zero]
  have hclause : ∀ atom ∈ freeNames.map Atom.even, atom.isParity = true ∧ ∀ x ∈ atom.names, x ∈ f.names := by
    intro atom hatom
    obtain ⟨x, hx, rfl⟩ := List.mem_map.1 hatom
    exact ⟨rfl, fun y hy => List.mem_append_left _ (List.mem_singleton.1 hy ▸ hx)⟩
  have hcolumns : f.parityColumns [freeNames.map .even] = .ok (List.range 64) := by decide +kernel
  refine Frame.liftCheck_of_free hcanonical hsome hclause hcolumns List.nodup_range (by decide) fun r hr c hc => ?_
  have hlt := List.mem_range.1 hc
  rw [parityCoeff, hcoeffs r hr c (by omega) (by omega), Int.cast_zero]

/-- With six rounds it is found that nothing is known of `z` at the assertion, and the lift need not go through any
parities. After one round `z = 0` is known there, and the lift would have to go through those of all other variables. -/
theorem solve_cap_forgetful : Program.forgetful.graph = .ok .forgetful ∧
    (∃ q, solve .forgetful forgetfulAnalysis 6 = .ok q ∧ q.converged = true ∧ q.rounds = 6) ∧
      solve .forgetful forgetfulAnalysis 1 = .error (.tooManyDirections 64) ∧
      ¬ ∃ q, solve .forgetful forgetfulAnalysis 1 = .ok q ∧ q.converged = false ∧ q.rounds = 1 := by
  have hgraph : Program.forgetful.graph = .ok .forgetful := by decide +kernel
  have hlong : (solve .forgetful forgetfulAnalysis 6).toOption.map (fun q => (q.converged, q.rounds)) =
      some (true, 6) := by decide +kernel
  have hshort : (work .forgetful forgetfulAnalysis 1 (start .forgetful forgetfulAnalysis)
      (List.range Graph.forgetful.size)).toOption.map (·.states) = some [.top, .system lastZero, .bottom] := by
    decide +kernel
  obtain ⟨q, hq, hends⟩ := exists_ok_of_map hlong
  obtain ⟨halt, hhalt, hstates⟩ := exists_ok_of_map hshort
  have hrefused : solve .forgetful forgetfulAnalysis 1 = .error (.tooManyDirections 64) := by
    have hjudge : judge .forgetful forgetfulAnalysis [.top, .system lastZero, .bottom] Graph.forgetful.arcs =
        .error (.tooManyDirections 64) :=
      (judge_cons_of_not (by decide)).trans (judge_cons_of_fault rfl (by decide) check_lastZero)
    rw [solve_of_work hhalt, hstates, hjudge]
    rfl
  refine ⟨hgraph, ⟨q, hq, (Prod.mk.inj hends).1, (Prod.mk.inj hends).2⟩, hrefused, ?_⟩
  rintro ⟨r, hr, -⟩
  rw [hrefused] at hr
  cases hr

end Solver

end FlowFacts
