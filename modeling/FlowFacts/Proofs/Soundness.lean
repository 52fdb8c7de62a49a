import Mathlib
import FlowFacts.Meaning
import FlowFacts.Proofs.ParityLift
import FlowFacts.Proofs.ParitySolver
import FlowFacts.Proofs.SumSolver

/-!
# Soundness of the analyses

When a run has converged, no arc can lift a state any more, so the states describe every store in which
an execution can come to their nodes (`Solver.describes_of_reaches`), and what the checks call proved
holds there. `Kind.solve_sound` says this of all five kinds of analysis. It needs of each that its
states are ordered by what they describe and that its statements follow the steps of stores
(`Solver.Concrete`), which the modules on parities and on relations provide.
-/

namespace FlowFacts

namespace Solver

variable {D : Type} [Domain D] {g : Graph} {a : Analysis D} {Valid : D → Prop} {le : D → D → Prop}

/-- What the states of an analysis say about stores: higher states describe more, statements follow the
steps of stores, and checks answer rightly or refuse. -/
structure Concrete (g : Graph) (a : Analysis D) (Valid : D → Prop) (le : D → D → Prop)
    (Describes : D → Store → Prop) (Refused : Fault → Prop) : Prop where
  mono : ∀ {d e s}, Valid d → Valid e → le d e → Describes d s → Describes e s
  initial : ∀ s, Describes a.initial s
  step : ∀ arc ∈ g.arcs, ∀ {d e s t}, Valid d → a.transfer arc.statement d = .ok e → arc.statement.Step s t →
    Describes d s → Describes e t
  check : ∀ arc ∈ g.arcs, ∀ x, arc.statement = .assert x → ∀ d, Valid d →
    (∃ e, Refused e ∧ a.check x d = .error e) ∨
      ∃ v, a.check x d = .ok v ∧ (v = .proved → ∀ s, Describes d s → x.Holds s)

/-- A result that can be relied on: each state describes the stores of its node, and the findings stand
for the assertions in the order of their arcs, with the proved ones holding wherever they are reached. -/
structure Sound (g : Graph) (Describes : D → Store → Prop) (q : FixedPoint D) : Prop where
  states : ∀ node s, g.Reaches node s → ∃ d, q.states[node]? = some d ∧ Describes d s
  findings : List.Forall₂ (fun arc f => arc.statement = .assert f.assertion ∧ g.labels[arc.source]? = some f.label ∧
      (f.outcome = .proved → ∀ s, g.Reaches arc.source s → f.assertion.Holds s))
    (g.arcs.filter isAssertion) q.findings

variable {Describes : D → Store → Prop} {Refused : Fault → Prop} {p : Position D}

/-- By induction on the execution: the entry state describes every store, and an arc leads from a store
that its source describes to one that its target describes, since the target waits no longer. -/
theorem describes_of_reaches (C : Concrete g a Valid le Describes Refused) (F : Framework g a Valid le)
    (h : Invariant g a Valid le p) (hdone : p.waiting g = .ok []) {node : Nat} {s : Store} (hr : g.Reaches node s) :
    Describes (known p.states node) s := by
  induction hr with
  | entry s =>
    rw [h.entry]
    exact C.initial s
  | @arc arc s t ha _ hstep ih =>
    obtain ⟨e, he, hvalid⟩ := F.transfer arc ha _ (h.valid arc.source)
    exact C.mono hvalid (h.valid _) (h.le_of_done hdone ha he) (C.step arc ha (h.valid _) he hstep ih)

theorem lt_size_of_reaches (hg : g.Proper) {node : Nat} {s : Store} (h : g.Reaches node s) : node < g.size := by
  cases h with
  | entry => exact hg.entry_lt
  | arc ha _ _ => exact hg.target_lt _ ha

/-- A run answers unless a check refuses, and when it has converged its result is sound. -/
theorem sound_of_concrete (C : Concrete g a Valid le Describes Refused) (F : Framework g a Valid le) (hg : g.Proper)
    (cap : Nat) : (∃ e, Refused e ∧ solve g a cap = .error e) ∨
      ∃ q, solve g a cap = .ok q ∧ (q.converged = true → Sound g Describes q) := by
  obtain ⟨p, halt, hhalt, hstates, hinv, hdone⟩ := exists_work (fun hinv ht => hinv.turn F hg ht)
    (fun hinv => hinv.progress F hg) (Invariant.start F hg) cap
  -- Every state that a check sees is valid, so the checks fail only as allowed.
  have hcheck := fun arc harc x hx => C.check arc harc x hx _ (hinv.valid arc.source)
  have hjudge := judge_cases hinv.length fun arc harc x hx =>
    ⟨hg.source_lt arc harc, (hcheck arc harc x hx).imp_right fun ⟨v, hv, _⟩ => ⟨v, hv⟩⟩
  rw [← hstates] at hjudge
  rcases hjudge with ⟨e, he, herror⟩ | ⟨fs, hfs⟩
  · refine .inl ⟨e, he, ?_⟩
    simp only [solve, hhalt, herror, bind, Except.bind]
  · refine .inr ⟨_, solve_eq_ok.2 ⟨halt, fs, hhalt, hfs, rfl⟩, fun hconv => ?_⟩
    have hdescribes : ∀ {node s}, g.Reaches node s → Describes (known p.states node) s :=
      describes_of_reaches C F hinv (hdone hconv)
    refine ⟨fun node s hr => ?_, ?_⟩
    · have hlt : node < p.states.length := hinv.length ▸ lt_size_of_reaches hg hr
      have hnode := hdescribes hr
      rw [known, List.getD_eq_getElem _ _ hlt] at hnode
      refine ⟨p.states[node], ?_, hnode⟩
      rw [hstates, List.getElem?_eq_getElem hlt]
    · have hmem : ∀ arc ∈ g.arcs.filter isAssertion, arc ∈ g.arcs := fun arc harc => (List.mem_filter.1 harc).1
      refine ((List.forall₂_and_left _ _).2 ⟨hmem, forall₂_judge hfs⟩).imp ?_
      rintro arc _ ⟨harc, x, v, hx, hv, rfl, -, hlt⟩
      refine ⟨hx, ?_, fun hproved s hr => ?_⟩
      · rw [List.getElem?_eq_getElem hlt, List.getD_eq_getElem _ _ hlt]
      · rw [hstates] at hv
        rcases hcheck arc harc x hx with ⟨e, -, herror⟩ | ⟨v', hv', hholds⟩
        · cases hv.symm.trans herror
        · obtain rfl := Except.ok.inj (hv.symm.trans hv')
          refine hholds ?_ s (hdescribes hr)
          cases v with
          | proved => rfl
          | violated => cases hproved
          | unsupported => cases hproved

theorem exists_sound_of_concrete (C : Concrete g a Valid le Describes fun _ => False) (F : Framework g a Valid le)
    (hg : g.Proper) (cap : Nat) :
    ∃ q, solve g a cap = .ok q ∧ (q.converged = true → Sound g Describes q) :=
  (sound_of_concrete C F hg cap).resolve_left fun ⟨_, hfalse, _⟩ => hfalse

/-! ## Pairs -/

section Pairs

variable {E : Type} [Domain E] {b : Analysis E} {ValidE : E → Prop} {leE : E → E → Prop}

/-- Two analyses side by side form a framework, in the order of both halves. -/
theorem Framework.prod (F : Framework g a Valid le) (G : Framework g b ValidE leE) {c : Analysis (D × E)}
    (hinitial : c.initial = (a.initial, b.initial))
    (htransfer : ∀ statement d e d' e', a.transfer statement d = .ok d' → b.transfer statement e = .ok e' →
      c.transfer statement (d, e) = .ok (d', e')) :
    Framework g c (fun x => Valid x.1 ∧ ValidE x.2) (fun x y => le x.1 y.1 ∧ leE x.2 y.2) where
  refl x := ⟨F.refl x.1, G.refl x.2⟩
  trans h h' := ⟨F.trans h.1 h'.1, G.trans h.2 h'.2⟩
  bottom_le x := ⟨F.bottom_le x.1, G.bottom_le x.2⟩
  valid_bottom := ⟨F.valid_bottom, G.valid_bottom⟩
  valid_initial := by
    rw [hinitial]
    exact ⟨F.valid_initial, G.valid_initial⟩
  transfer arc harc x hx := by
    obtain ⟨d, hd, hdvalid⟩ := F.transfer arc harc x.1 hx.1
    obtain ⟨e, he, hevalid⟩ := G.transfer arc harc x.2 hx.2
    exact ⟨(d, e), htransfer _ _ _ _ _ hd he, hdvalid, hevalid⟩
  transfer_mono arc harc {x y x' y'} hx hy hle hx' hy' := by
    obtain ⟨d, hd, -⟩ := F.transfer arc harc x.1 hx.1
    obtain ⟨e, he, -⟩ := G.transfer arc harc x.2 hx.2
    obtain ⟨d', hd', -⟩ := F.transfer arc harc y.1 hy.1
    obtain ⟨e', he', -⟩ := G.transfer arc harc y.2 hy.2
    obtain rfl := Except.ok.inj (hx'.symm.trans (htransfer _ _ _ _ _ hd he))
    obtain rfl := Except.ok.inj (hy'.symm.trans (htransfer _ _ _ _ _ hd' he'))
    exact ⟨F.transfer_mono arc harc hx.1 hy.1 hle.1 hd hd', G.transfer_mono arc harc hx.2 hy.2 hle.2 he he'⟩
  join x y hx hy := by
    obtain ⟨d, hd, hdvalid, hdle⟩ := F.join x.1 y.1 hx.1 hy.1
    obtain ⟨e, he, hevalid, hele⟩ := G.join x.2 y.2 hx.2 hy.2
    refine ⟨(d, e), ?_, ⟨hdvalid, hevalid⟩, fun w => ?_⟩
    · simp only [Domain.join, Product.join] at hd he ⊢
      simp only [hd, he, bind, Except.bind, pure, Except.pure]
    · rw [hdle, hele]
      exact and_and_and_comm
  compare x y hx hy := by
    obtain ⟨c₁, hc₁, hequal₁⟩ := F.compare x.1 y.1 hx.1 hy.1
    obtain ⟨c₂, hc₂, hequal₂⟩ := G.compare x.2 y.2 hx.2 hy.2
    by_cases hinc : c₁ = .incomparable
    · refine ⟨.incomparable, ?_, fun heq => by cases heq⟩
      simp only [Domain.compare, Product.compare] at hc₁ ⊢
      simp only [hc₁, hinc, bind, Except.bind, pure, Except.pure, if_true]
    · refine ⟨c₁.combine c₂, ?_, fun heq => ?_⟩
      · simp only [Domain.compare, Product.compare] at hc₁ hc₂ ⊢
        simp only [hc₁, hc₂, bind, Except.bind, pure, Except.pure, if_neg hinc]
      · have hboth : c₁ = .equal ∧ c₂ = .equal := by
          revert heq
          cases c₁ <;> cases c₂ <;> decide
        exact ⟨⟨(hequal₁ hboth.1).1, (hequal₂ hboth.2).1⟩, (hequal₁ hboth.1).2, (hequal₂ hboth.2).2⟩

end Pairs

end Solver

/-! ## The five kinds -/

section Kinds

variable {g : Graph}

/-- Parities cannot be asked too much. -/
theorem parityAnalysis_concrete (hg : g.Proper) :
    Solver.Concrete g parityAnalysis (ParityState.Proper g.names) ParityState.Covered ParityState.Contains
      fun _ => False where
  mono _ _ hle hs := hle.contains hs
  initial s := ⟨_, List.mem_singleton.2 rfl, fun _ => trivial⟩
  step arc harc {d e s t} hd he hstep hs := by
    obtain rfl := Except.ok.inj he
    exact ParityState.transfer_contains (hg.mentions arc harc) hd.live hstep hs
  check arc _ x _ d _ := .inr ⟨_, rfl, fun hv _ hs => ParityState.holds_of_check hv hs⟩

/-- Relations of a frame describe stores by their points, under any analysis that moves them as the frame
does and whose checks are right about the points. -/
theorem Frame.concrete {f : Frame} (hg : g.Proper) (hf : f.names = g.names) {a : Analysis Relations}
    (hinitial : a.initial = .top) (htransfer : a.transfer = f.transfer) {Refused : Fault → Prop}
    (hcheck : ∀ x s, (∀ y ∈ (Statement.assert x).mentions, y ∈ f.names) → s.Canonical f.names.length →
      (∃ e, Refused e ∧ a.check x s = .error e) ∨ ∃ v, a.check x s = .ok v ∧
        (v = .proved → ∀ σ : Store, Row.vec (f.point σ) ∈ s.Points f.names.length → x.Holds σ)) :
    Solver.Concrete g a (Relations.Canonical f.names.length)
      (fun r s => r.Points f.names.length ⊆ s.Points f.names.length) (fun r s => r.Contains f s) Refused where
  mono hd he hle hs := (contains_iff he).2 (hle ((contains_iff hd).1 hs))
  initial s := by
    rw [hinitial]
    trivial
  step arc harc {d e s t} hd he hstep hs := by
    obtain ⟨F, hF⟩ := exists_acts (f := f) (hf ▸ hg.nodup) (hf ▸ hg.mentions arc harc)
    obtain ⟨u, hu, hcan, hpoints⟩ := hF.transfer d hd
    rw [htransfer] at he
    obtain rfl := Except.ok.inj (he.symm.trans hu)
    rw [contains_iff hcan, hpoints]
    exact hF.step s t _ hstep ((contains_iff hd).1 hs)
  check arc harc x hx d hd := by
    have hmentions := hg.mentions arc harc
    rw [hx, ← hf] at hmentions
    refine (hcheck x d hmentions hd).imp_right fun ⟨v, hv, hholds⟩ => ⟨v, hv, fun hproved s hs => ?_⟩
    exact hholds hproved s ((contains_iff hd).1 hs)

theorem sumAnalysis_concrete (hg : g.Proper) (enc : Encoding) :
    Solver.Concrete g (sumAnalysis ⟨g.names, enc⟩) (Relations.Canonical g.names.length) (Relations.Below g)
      (fun r s => r.Contains ⟨g.names, enc⟩ s) fun _ => False :=
  Frame.concrete (f := ⟨g.names, enc⟩) hg rfl rfl rfl fun _ _ hx hs => .inr (Frame.check_spec hx hs)

/-- What a graph over some variables may be refused for: more free parities than can be listed. -/
def TooManyParities (g : Graph) (e : Fault) : Prop := ∃ n, 64 ≤ n ∧ n ≤ g.names.length ∧ e = .tooManyDirections n

theorem liftAnalysis_framework (hg : g.Proper) (enc : Encoding) :
    Solver.Framework g (liftAnalysis ⟨g.names, enc⟩) (Relations.Canonical g.names.length) (Relations.Below g) :=
  Frame.framework (f := ⟨g.names, enc⟩) hg rfl rfl rfl

theorem liftAnalysis_concrete (hg : g.Proper) (enc : Encoding) :
    Solver.Concrete g (liftAnalysis ⟨g.names, enc⟩) (Relations.Canonical g.names.length) (Relations.Below g)
      (fun r s => r.Contains ⟨g.names, enc⟩ s) (TooManyParities g) := by
  refine Frame.concrete (f := ⟨g.names, enc⟩) hg rfl rfl rfl fun x s hx hs => ?_
  refine (Frame.liftCheck_spec (f := ⟨g.names, enc⟩) hx hs).imp ?_ And.right
  rintro ⟨n, hmany, hle, -, herror⟩
  exact ⟨_, ⟨n, hmany, hle, rfl⟩, herror⟩

theorem productAnalysis_transfer {f : Frame} {statement : Statement} {d d' : ParityState} {r r' : Relations}
    (hd : parityAnalysis.transfer statement d = .ok d') (hr : (sumAnalysis f).transfer statement r = .ok r') :
    (productAnalysis f).transfer statement (d, r) = .ok (d', r') := by
  obtain rfl := Except.ok.inj hd
  have hr' : f.transfer statement r = .ok r' := hr
  simp only [productAnalysis, ProductState.transfer, hr', bind, Except.bind, pure, Except.pure]

theorem productAnalysis_framework (hg : g.Proper) (enc : Encoding) :
    Solver.Framework g (productAnalysis ⟨g.names, enc⟩)
      (fun x => x.1.Proper g.names ∧ x.2.Canonical g.names.length)
      (fun x y => x.1.Covered y.1 ∧ Relations.Below g x.2 y.2) :=
  (parityAnalysis_framework hg).prod (sumAnalysis_framework hg enc) rfl fun _ _ _ _ _ => productAnalysis_transfer

/-- Each half moves as it does alone, and the checks put the halves together. -/
theorem productAnalysis_concrete (hg : g.Proper) (enc : Encoding) :
    Solver.Concrete g (productAnalysis ⟨g.names, enc⟩)
      (fun x => x.1.Proper g.names ∧ x.2.Canonical g.names.length)
      (fun x y => x.1.Covered y.1 ∧ Relations.Below g x.2 y.2)
      (fun x s => x.1.Contains s ∧ x.2.Contains ⟨g.names, enc⟩ s) fun _ => False where
  mono hd he hle hs :=
    ⟨hle.1.contains hs.1, (sumAnalysis_concrete hg enc).mono hd.2 he.2 hle.2 hs.2⟩
  initial s := ⟨(parityAnalysis_concrete hg).initial s, (sumAnalysis_concrete hg enc).initial s⟩
  step arc harc {d e s t} hd he hstep hs := by
    obtain ⟨r, hr, -⟩ := (sumAnalysis_framework hg enc).transfer arc harc d.2 hd.2
    obtain rfl := Except.ok.inj (he.symm.trans (productAnalysis_transfer rfl hr))
    exact ⟨(parityAnalysis_concrete hg).step arc harc hd.1 rfl hstep hs.1,
      (sumAnalysis_concrete hg enc).step arc harc hd.2 hr hstep hs.2⟩
  check arc harc x hx d hd := by
    have hmentions := hg.mentions arc harc
    rw [hx] at hmentions
    obtain ⟨v, hv, hholds⟩ := ProductState.check_spec (f := ⟨g.names, enc⟩) hmentions hd.2
    exact .inr ⟨v, hv, fun hproved s hs =>
      hholds hproved s hs.1 ((Frame.contains_iff (f := ⟨g.names, enc⟩) hd.2).1 hs.2)⟩

/-- Every kind of analysis is sound. A run answers, unless it is asked to list the parities of more than
sixty-three variables that are free of each other. Once it has converged, the state of a node describes
every store in which an execution can come to it, and the assertions it calls proved hold there. -/
theorem Kind.solve_sound {p : Program} (hp : p.graph = .ok g) (k : Kind) (cap : Nat) :
    (∃ n, 64 ≤ n ∧ n ≤ g.names.length ∧ (k = .lift ∨ k = .homogeneousLift) ∧
        Solver.solve g (k.analysis g.names) cap = .error (.tooManyDirections n)) ∨
      ∃ q, Solver.solve g (k.analysis g.names) cap = .ok q ∧
        (q.converged = true → Solver.Sound g (k.Describes g.names) q) := by
  have hg := Program.proper_graph hp
  cases k with
  | parity =>
    right
    exact Solver.exists_sound_of_concrete (parityAnalysis_concrete hg) (parityAnalysis_framework hg) hg cap
  | sum =>
    right
    exact Solver.exists_sound_of_concrete (sumAnalysis_concrete hg .affine) (sumAnalysis_framework hg .affine) hg cap
  | product =>
    right
    exact Solver.exists_sound_of_concrete (productAnalysis_concrete hg .affine) (productAnalysis_framework hg .affine) hg
      cap
  | lift =>
    refine (Solver.sound_of_concrete (liftAnalysis_concrete hg .affine) (liftAnalysis_framework hg .affine) hg
      cap).imp_left ?_
    rintro ⟨_, ⟨n, hmany, hle, rfl⟩, herror⟩
    exact ⟨n, hmany, hle, .inl rfl, herror⟩
  | homogeneousLift =>
    refine (Solver.sound_of_concrete (liftAnalysis_concrete hg .homogeneous) (liftAnalysis_framework hg .homogeneous)
      hg cap).imp_left ?_
    rintro ⟨_, ⟨n, hmany, hle, rfl⟩, herror⟩
    exact ⟨n, hmany, hle, .inr rfl, herror⟩

/-- The lift analysis proves that variables that are counted up together have the same parity. -/
theorem Kind.solve_sound_lockstep : Program.lockstep.graph = .ok .lockstep ∧ ∃ q,
    Solver.solve .lockstep (Kind.lift.analysis ["x", "y"]) 20 = .ok q ∧ q.converged = true ∧
      q.findings.map (·.outcome.verdict) = [.proved] ∧ Solver.Sound .lockstep (Kind.lift.Describes ["x", "y"]) q := by
  have hrun : (Solver.solve .lockstep (Kind.lift.analysis ["x", "y"]) 20).toOption.map
      (fun q => (q.converged, q.findings.map (·.outcome.verdict))) = some (true, [.proved]) := by
    decide +kernel
  rcases Kind.solve_sound lockstep_graph .lift 20 with ⟨n, hmany, hle, -⟩ | ⟨q, hq, hsound⟩
  · exact absurd (hmany.trans hle) (by decide)
  · change Solver.solve .lockstep (Kind.lift.analysis ["x", "y"]) 20 = .ok q at hq
    rw [hq] at hrun
    obtain ⟨hconv, hverdicts⟩ := Prod.mk.inj (Option.some.inj hrun)
    exact ⟨lockstep_graph, q, hq, hconv, hverdicts, hsound hconv⟩

end Kinds

end FlowFacts
