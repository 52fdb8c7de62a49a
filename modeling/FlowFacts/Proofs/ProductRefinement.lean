import Mathlib
import FlowFacts.Proofs.FixedPoints
import FlowFacts.Proofs.ReducedForms
import FlowFacts.Proofs.Soundness

/-!
# The product analysis proves what its halves prove

Runs of the three analyses evaluate nodes in different orders, and the parity half of the product may
list other alternatives than the parity analysis alone. But all three come to least solutions, and the
solutions of the product are pairs of solutions (`Solver.Solution.pair`, `Solver.Solution.halves`). So the
relations of both runs have the same points, hence are equal, and the parities of the product are covered
by those of the parity analysis. The checks need no more than that (`ProductState.check_of_parity`,
`ProductState.check_of_sum`), which gives `productAnalysis_refines`.
-/

namespace FlowFacts

/-! ## Pairs of solutions -/

namespace Solver

section Pairs

variable {D E : Type} [Domain D] [Domain E] {g : Graph} {a : Analysis D} {b : Analysis E} {c : Analysis (D × E)}
  {Valid : D → Prop} {le : D → D → Prop} {ValidE : E → Prop} {leE : E → E → Prop}
  (F : Framework g a Valid le) (G : Framework g b ValidE leE) (hg : g.Proper)
  (hinitial : c.initial = (a.initial, b.initial))
  (htransfer : ∀ statement d e d' e', a.transfer statement d = .ok d' → b.transfer statement e = .ok e' →
    c.transfer statement (d, e) = .ok (d', e'))

include F G hg hinitial htransfer

/-- Solutions of two analyses are a solution of the two side by side. -/
theorem Solution.pair {y : Nat → D} {z : Nat → E} (hy : Solution g a Valid le y) (hz : Solution g b ValidE leE z) :
    Solution g c (fun x => Valid x.1 ∧ ValidE x.2) (fun x w => le x.1 w.1 ∧ leE x.2 w.2) fun n => (y n, z n) where
  valid n hn := ⟨hy.valid n hn, hz.valid n hn⟩
  entry := by
    rw [hinitial]
    exact ⟨hy.entry, hz.entry⟩
  arc arc harc x hx := by
    obtain ⟨d, hd, -⟩ := F.transfer arc harc _ (hy.valid _ (hg.source_lt arc harc))
    obtain ⟨e, he, -⟩ := G.transfer arc harc _ (hz.valid _ (hg.source_lt arc harc))
    obtain rfl := Except.ok.inj (hx.symm.trans (htransfer _ _ _ _ _ hd he))
    exact ⟨hy.arc arc harc d hd, hz.arc arc harc e he⟩

/-- The halves of a solution of two analyses side by side are solutions of each. -/
theorem Solution.halves {w : Nat → D × E}
    (hw : Solution g c (fun x => Valid x.1 ∧ ValidE x.2) (fun x w => le x.1 w.1 ∧ leE x.2 w.2) w) :
    Solution g a Valid le (fun n => (w n).1) ∧ Solution g b ValidE leE (fun n => (w n).2) := by
  have hentry := hw.entry
  rw [hinitial] at hentry
  have harcs : ∀ arc ∈ g.arcs, ∀ d e, a.transfer arc.statement (w arc.source).1 = .ok d →
      b.transfer arc.statement (w arc.source).2 = .ok e → le d (w arc.target).1 ∧ leE e (w arc.target).2 :=
    fun arc harc d e hd he => hw.arc arc harc (d, e) (htransfer _ _ _ _ _ hd he)
  refine ⟨⟨fun n hn => (hw.valid n hn).1, hentry.1, fun arc harc d hd => ?_⟩,
    ⟨fun n hn => (hw.valid n hn).2, hentry.2, fun arc harc e he => ?_⟩⟩
  · obtain ⟨e, he, -⟩ := G.transfer arc harc _ (hw.valid _ (hg.source_lt arc harc)).2
    exact (harcs arc harc d e hd he).1
  · obtain ⟨d, hd, -⟩ := F.transfer arc harc _ (hw.valid _ (hg.source_lt arc harc)).1
    exact (harcs arc harc d e hd he).2

end Pairs

end Solver

/-! ## Findings of two runs -/

theorem Outcome.ofVerdict_eq_proved {D : Type} {d : D} {v : Verdict} :
    Outcome.ofVerdict d v = .proved ↔ v = .proved := by
  cases v <;> simp [Outcome.ofVerdict]

/-- Two findings are about the same assertion, and if the first is that it is proved then so is the
second. -/
structure Finding.KeptBy {D E : Type} (f : Finding D) (h : Finding E) : Prop where
  label : h.label = f.label
  assertion : h.assertion = f.assertion
  proved : f.outcome = .proved → h.outcome = .proved

namespace Solver

theorem forall₂_of_common {α β γ : Type} {R : α → β → Prop} {S : α → γ → Prop} {T : β → γ → Prop} {xs : List α}
    {ys : List β} {zs : List γ} (hR : List.Forall₂ R xs ys) (hS : List.Forall₂ S xs zs)
    (hT : ∀ x ∈ xs, ∀ y z, R x y → S x z → T y z) : List.Forall₂ T ys zs := by
  induction hR generalizing zs with
  | nil =>
    cases hS
    exact .nil
  | cons hxy _ ih =>
    cases hS with
    | cons hxz hrest =>
      exact .cons (hT _ List.mem_cons_self _ _ hxy hxz) (ih hrest fun x hx => hT x (List.mem_cons_of_mem _ hx))

/-- If the checks of one run are proved where those of another are, so are its findings. -/
theorem forall₂_keptBy {D E : Type} [Domain D] [Domain E] {g : Graph} {a : Analysis D} {b : Analysis E}
    {states : List D} {others : List E} {fs : List (Finding D)} {hs : List (Finding E)}
    (hfs : judge g a states g.arcs = .ok fs) (hhs : judge g b others g.arcs = .ok hs)
    (hcheck : ∀ arc ∈ g.arcs, ∀ x, arc.statement = .assert x → a.check x (known states arc.source) = .ok .proved →
      b.check x (known others arc.source) = .ok .proved) : List.Forall₂ Finding.KeptBy fs hs := by
  refine forall₂_of_common (forall₂_judge hfs) (forall₂_judge hhs) fun arc harc f h => ?_
  rintro ⟨x, v, hx, hv, rfl, -⟩ ⟨x', v', hx', hv', rfl, -⟩
  obtain rfl : x = x' := Statement.assert.inj (hx.symm.trans hx')
  refine ⟨rfl, rfl, fun hproved => ?_⟩
  rw [Outcome.ofVerdict_eq_proved] at hproved ⊢
  have hother := hcheck arc (List.mem_filter.1 harc).1 x hx (hproved ▸ hv)
  exact Except.ok.inj (hv'.symm.trans hother)

end Solver

/-! ## Alternatives that are listed -/

namespace ParityState

variable {d e : ParityState}

theorem Covered.expand_eq_nil (h : d.Covered e) (he : e.expand = []) : d.expand = [] := by
  refine List.eq_nil_iff_forall_not_mem.2 fun m hm => ?_
  obtain ⟨k, hk, -⟩ := h m hm
  rw [he] at hk
  cases hk

/-- A state without alternatives is the least one. -/
def Listed (d : ParityState) : Prop := d.expand = [] → d = .bottom

theorem listed_ofDisjuncts (maps : List ParityMap) : Listed (.ofDisjuncts maps) := by
  unfold Listed Disjunction.ofDisjuncts
  split
  · exact fun h => absurd h (List.cons_ne_nil _ _)
  · dsimp only
    split
    · exact fun _ => rfl
    · next hne => exact fun h => absurd (List.isEmpty_iff.2 h) hne

theorem listed_join (hd : d.Listed) (he : e.Listed) : Listed (Disjunction.join d e) := by
  intro h
  rw [hd ((covered_join_left d e).expand_eq_nil h), he ((covered_join_right d e).expand_eq_nil h)]
  rfl

theorem listed_transfer (hd : d.Listed) (statement : Statement) : Listed (d.transfer statement) := by
  rcases transfer_cases (fun x (h : x ∈ statement.mentions) => h) with hp | hb | ⟨f, -, htransfer⟩
  · rwa [hp.transfer]
  · rw [hb.transfer]
    exact fun _ => rfl
  · rw [htransfer, mapDisjuncts_eq]
    exact listed_ofDisjuncts _

theorem listed_top : Listed .top := fun h => absurd h (List.cons_ne_nil _ _)

end ParityState

/-- The parities of the product are listed at every node. -/
theorem product_listed {g : Graph} (hg : g.Proper) {f : Frame} {cap : Nat} {q : FixedPoint ProductState}
    (hq : Solver.solve g (productAnalysis f) cap = .ok q) (n : Nat) : (Solver.known q.states n).1.Listed := by
  refine Solver.states_induction (Q := fun _ x => x.1.Listed) hg (fun _ _ => rfl) ParityState.listed_top ?_ ?_ hq n
  · intro _ x y z hx hy hz
    simp only [Domain.join, Product.join, bind, Except.bind, pure, Except.pure] at hz
    split at hz
    · cases hz
    · obtain rfl := Except.ok.inj hz
      exact ParityState.listed_join hx hy
  · intro arc _ x z hx hz
    simp only [productAnalysis, ProductState.transfer, bind, Except.bind, pure, Except.pure] at hz
    split at hz
    · cases hz
    · obtain rfl := Except.ok.inj hz
      exact ParityState.listed_transfer hx _

/-! ## Checks of the halves -/

namespace Frame

variable {f : Frame} {s : Relations} {c : Clause}

/-- A clause is dropped if it has sums that are not proved. -/
theorem dischargeSums_cons {rest kept : List Clause} (h : f.dischargeSums s (c :: rest) = .ok kept) :
    ∃ others, f.dischargeSums s rest = .ok others ∧
      (kept = c.filter Atom.isParity :: others ∧ (c.any Atom.isSum = true → f.provesSums s c = .ok true) ∨
        kept = others ∧ c.any Atom.isSum = true ∧ f.provesSums s c = .ok false) := by
  by_cases hany : c.any Atom.isSum = true
  · simp only [dischargeSums, hany, if_true, bind, Except.bind, pure, Except.pure] at h
    split at h
    · cases h
    · next b hb =>
      split at h
      · cases h
      · next others hothers =>
        refine ⟨others, hothers, ?_⟩
        cases b with
        | true => exact .inl ⟨(Except.ok.inj h).symm, fun _ => hb⟩
        | false => exact .inr ⟨(Except.ok.inj h).symm, hany, hb⟩
  · simp only [dischargeSums, hany, Bool.false_eq_true, if_false, bind, Except.bind, pure, Except.pure] at h
    split at h
    · cases h
    · next others hothers => exact ⟨others, hothers, .inl ⟨(Except.ok.inj h).symm, fun hany' => absurd hany' hany⟩⟩

/-- What remains are the parity atoms of the clauses whose sums are proved, or that have none. -/
theorem mem_dischargeSums {clauses kept : List Clause} (hkept : f.dischargeSums s clauses = .ok kept) {k : Clause} :
    k ∈ kept ↔ ∃ c ∈ clauses, (c.any Atom.isSum = true → f.provesSums s c = .ok true) ∧ c.filter Atom.isParity = k := by
  induction clauses generalizing kept with
  | nil =>
    obtain rfl := Except.ok.inj hkept
    simp
  | cons c rest ih =>
    obtain ⟨others, hothers, ⟨rfl, hproves⟩ | ⟨rfl, hany, hfalse⟩⟩ := dischargeSums_cons hkept
    · rw [List.exists_mem_cons_iff, and_iff_right hproves, ← ih hothers, List.mem_cons, eq_comm]
    · rw [List.exists_mem_cons_iff, ← ih hothers, or_iff_right]
      rintro ⟨hproves, -⟩
      cases hfalse.symm.trans (hproves hany)

end Frame

namespace ParityState

variable {d e : ParityState}

/-- What the parity analysis proves without looking at the clauses it proves of the least state only. -/
theorem satisfies_of_check {a : Assertion} (h : d.check a = .proved) :
    d.isBottom = true ∨ a.hasSum = false ∧ d.satisfies (a.clauses.map ParityMap.ofClause) = true := by
  unfold check at h
  split at h
  · next hbot => exact .inl hbot
  · split at h
    · cases h
    · next hsum =>
      refine .inr ⟨Bool.eq_false_iff.2 hsum, ?_⟩
      by_contra hn
      rw [Bool.eq_false_iff.2 hn] at h
      cases h

theorem satisfies_mono (hed : e.Covered d) {facts others : List ParityMap} (hfacts : facts ⊆ others)
    (h : d.satisfies facts = true) : e.satisfies others = true := by
  refine List.all_eq_true.2 fun m hm => ?_
  obtain ⟨k, hk, hmk⟩ := hed m hm
  obtain ⟨fact, hfact, hle⟩ := List.any_eq_true.1 (List.all_eq_true.1 h k hk)
  have hkf : k ≤ fact := hle
  exact List.any_eq_true.2 ⟨fact, hfacts hfact, hmk.trans hkf⟩

end ParityState

namespace ProductState

variable {f : Frame} {a : Assertion} {d e : ParityState} {r : Relations}

theorem check_of_hasBottom (h : Product.hasBottom (e, r) = true) : check f a (e, r) = .ok .proved := by
  simp only [check, h, if_true, pure, Except.pure]

theorem check_of_dischargeSums {kept : List Clause} (h : Product.hasBottom (e, r) = false)
    (hkept : f.dischargeSums r a.clauses = .ok kept)
    (hproved : kept.any List.isEmpty = true ∨
      kept ≠ [] ∧ e.satisfies (kept.map ParityMap.ofClause) = true) : check f a (e, r) = .ok .proved := by
  simp only [check, h, hkept, Bool.false_eq_true, if_false, bind, Except.bind, pure, Except.pure]
  by_cases hempty : kept.any List.isEmpty = true
  · rw [if_pos hempty]
  · obtain ⟨hne, hsat⟩ := hproved.resolve_left hempty
    rw [if_neg hempty, if_neg (by simpa using hne), hsat]
    rfl

/-- The product proves what the relations of its state prove. -/
theorem check_of_sum (h : ∀ x ∈ (Statement.assert a).mentions, x ∈ f.names) (hr : r.Canonical f.names.length)
    (hproved : f.check a r = .ok .proved) : check f a (e, r) = .ok .proved := by
  by_cases hbot : Product.hasBottom (e, r) = true
  · exact check_of_hasBottom hbot
  · rcases (Frame.check_eq_proved h hr).1 hproved with hr0 | ⟨hpar, c, hc, hsums⟩
    · exact check_of_hasBottom (Bool.or_eq_true_iff.2 (.inr hr0))
    · -- The clause has no parity atoms, so nothing of it remains.
      obtain ⟨kept, hkept, -⟩ := Frame.dischargeSums_spec hr (Frame.names_of_clause h)
      have hnone : c.filter Atom.isParity = [] := by
        refine List.filter_eq_nil_iff.2 fun atom hatom => ?_
        exact List.any_eq_false.1 hpar atom (List.mem_flatten.2 ⟨c, hc, hatom⟩)
      have hmem := (Frame.mem_dischargeSums hkept).2 ⟨c, hc, fun _ => hsums, rfl⟩
      refine check_of_dischargeSums (Bool.eq_false_iff.2 hbot) hkept (.inl ?_)
      exact List.any_eq_true.2 ⟨[], hnone ▸ hmem, rfl⟩

/-- The product proves what parities prove that cover those of its state. -/
theorem check_of_parity (h : ∀ x ∈ (Statement.assert a).mentions, x ∈ f.names) (hr : r.Canonical f.names.length)
    (he : e.Listed) (hed : e.Covered d) (hproved : d.check a = .proved) : check f a (e, r) = .ok .proved := by
  by_cases hbot : Product.hasBottom (e, r) = true
  · exact check_of_hasBottom hbot
  · have hlive : d.expand ≠ [] := by
      intro hnil
      rw [he (hed.expand_eq_nil hnil)] at hbot
      exact hbot rfl
    rcases ParityState.satisfies_of_check hproved with hd | ⟨hsum, hsat⟩
    · cases d with
      | bottom => exact absurd rfl hlive
      | top => cases hd
      | any _ => cases hd
    · obtain ⟨kept, hkept, -⟩ := Frame.dischargeSums_spec hr (Frame.names_of_clause h)
      -- No clause has sums, so all of them remain as they are.
      have hclauses : a.clauses ⊆ kept := by
        intro c hc
        have hatoms : ∀ atom ∈ c, atom.isSum = false := fun atom hatom =>
          Bool.eq_false_iff.2 (List.any_eq_false.1 hsum atom (List.mem_flatten.2 ⟨c, hc, hatom⟩))
        have hself : c.filter Atom.isParity = c :=
          List.filter_eq_self.2 fun atom hatom => by rw [Atom.isParity, hatoms atom hatom]; rfl
        refine (Frame.mem_dischargeSums hkept).2 ⟨c, hc, fun hany => ?_, hself⟩
        obtain ⟨atom, hatom, htrue⟩ := List.any_eq_true.1 hany
        cases (hatoms atom hatom).symm.trans htrue
      refine check_of_dischargeSums (Bool.eq_false_iff.2 hbot) hkept (.inr ⟨?_, ?_⟩)
      · -- An alternative of the parities is covered by some clause.
        rintro rfl
        obtain ⟨m, hm⟩ := List.exists_mem_of_ne_nil _ hlive
        obtain ⟨fact, hfact, -⟩ := List.any_eq_true.1 (List.all_eq_true.1 hsat m hm)
        obtain ⟨c, hc, -⟩ := List.mem_map.1 hfact
        cases hclauses hc
      · exact ParityState.satisfies_mono hed (List.map_subset _ hclauses) hsat

end ProductState

/-! ## The three runs -/

/-- Runs of the parity, the sum and the product analysis answer. Once all three have converged, the
relations of the product are those of the sum analysis, and every assertion that one of the two other runs
calls proved is proved in the product too. -/
theorem productAnalysis_refines {p : Program} {g : Graph} (hp : p.graph = .ok g) (enc : Encoding)
    (cap₁ cap₂ cap₃ : Nat) :
    ∃ q₁ q₂ q₃, Solver.solve g parityAnalysis cap₁ = .ok q₁ ∧
      Solver.solve g (sumAnalysis ⟨g.names, enc⟩) cap₂ = .ok q₂ ∧
      Solver.solve g (productAnalysis ⟨g.names, enc⟩) cap₃ = .ok q₃ ∧
      (q₁.converged = true → q₂.converged = true → q₃.converged = true →
        (∀ n < g.size, ∃ d r, q₃.states[n]? = some (d, r) ∧ q₂.states[n]? = some r) ∧
        List.Forall₂ Finding.KeptBy q₁.findings q₃.findings ∧
        List.Forall₂ Finding.KeptBy q₂.findings q₃.findings) := by
  have hg := Program.proper_graph hp
  have hmentions : ∀ arc ∈ g.arcs, ∀ x, arc.statement = .assert x →
      ∀ y ∈ (Statement.assert x).mentions, y ∈ g.names := fun arc harc x hx => hx ▸ hg.mentions arc harc
  have F := parityAnalysis_framework hg
  have G := sumAnalysis_framework hg enc
  obtain ⟨q₁, hq₁, -, -, -, hsol₁, hjudge₁⟩ := Solver.exists_solve_least F hg (fun _ _ _ _ _ _ => ⟨_, rfl⟩) cap₁
  obtain ⟨q₂, hq₂, hlength₂, hvalid₂, hbelow₂, hsol₂, hjudge₂⟩ := Solver.exists_solve_least G hg
    (fun arc harc x hx s hs => (Frame.check_spec (hmentions arc harc x hx) hs).imp fun _ => And.left) cap₂
  obtain ⟨q₃, hq₃, hlength₃, hvalid₃, hbelow₃, hsol₃, hjudge₃⟩ :=
    Solver.exists_solve_least (productAnalysis_framework hg enc) hg (fun arc harc x hx s hs =>
      (ProductState.check_spec (f := ⟨g.names, enc⟩) (hmentions arc harc x hx) hs.2).imp fun _ => And.left) cap₃
  refine ⟨q₁, q₂, q₃, hq₁, hq₂, hq₃, fun hconv₁ hconv₂ hconv₃ => ?_⟩
  have hbelow := hbelow₃ _ (Solver.Solution.pair F G hg rfl (fun _ _ _ _ _ => productAnalysis_transfer)
    (hsol₁ hconv₁) (hsol₂ hconv₂))
  have habove := hbelow₂ _ (Solver.Solution.halves F G hg rfl (fun _ _ _ _ _ => productAnalysis_transfer)
    (hsol₃ hconv₃)).2
  have hequal : ∀ n < g.size, (Solver.known q₃.states n).2 = Solver.known q₂.states n := fun n hn =>
    Relations.eq_of_points_eq (hvalid₃ n).2 (hvalid₂ n) (Set.Subset.antisymm (hbelow n hn).2 (habove n hn))
  refine ⟨fun n hn => ⟨(Solver.known q₃.states n).1, _, ?_, Solver.getElem?_eq_known (hlength₂ ▸ hn)⟩, ?_, ?_⟩
  · rw [Solver.getElem?_eq_known (hlength₃ ▸ hn), ← hequal n hn]
  · refine Solver.forall₂_keptBy hjudge₁ hjudge₃ fun arc harc x hx hproved => ?_
    exact ProductState.check_of_parity (f := ⟨g.names, enc⟩) (hmentions arc harc x hx) (hvalid₃ _).2
      (product_listed hg hq₃ _) (hbelow _ (hg.source_lt arc harc)).1 (Except.ok.inj hproved)
  · refine Solver.forall₂_keptBy hjudge₂ hjudge₃ fun arc harc x hx hproved => ?_
    rw [← hequal _ (hg.source_lt arc harc)] at hproved
    exact ProductState.check_of_sum (f := ⟨g.names, enc⟩) (hmentions arc harc x hx) (hvalid₃ _).2 hproved

/-- Parities alone prove that two variables that are counted up together have the same parity, and so does
the product, with relations that are those of the sum analysis. -/
theorem productAnalysis_refines_lockstep : Program.lockstep.graph = .ok .lockstep ∧ ∃ q₁ q₂ q₃,
    Solver.solve .lockstep parityAnalysis 20 = .ok q₁ ∧ q₁.converged = true ∧
      q₁.findings.map (·.outcome) = [.proved] ∧
      Solver.solve .lockstep (sumAnalysis ⟨["x", "y"], .affine⟩) 28 = .ok q₂ ∧ q₂.converged = true ∧
      q₂.findings.map (·.outcome) = [.unsupported] ∧
      Solver.solve .lockstep (productAnalysis ⟨["x", "y"], .affine⟩) 40 = .ok q₃ ∧ q₃.converged = true ∧
      (∀ n < 7, ∃ d r, q₃.states[n]? = some (d, r) ∧ q₂.states[n]? = some r) ∧
      List.Forall₂ Finding.KeptBy q₁.findings q₃.findings ∧
      List.Forall₂ Finding.KeptBy q₂.findings q₃.findings := by
  have hrun₁ : (Solver.solve .lockstep parityAnalysis 20).toOption.map
      (fun q => (q.converged, q.findings.map (·.outcome))) = some (true, [.proved]) := by
    decide +kernel
  have hrun₂ : (Solver.solve .lockstep (sumAnalysis ⟨["x", "y"], .affine⟩) 28).toOption.map
      (fun q => (q.converged, q.findings.map (·.outcome))) = some (true, [.unsupported]) := by
    decide +kernel
  have hrun₃ : (Solver.solve .lockstep (productAnalysis ⟨["x", "y"], .affine⟩) 40).toOption.map (·.converged) =
      some true := by
    decide +kernel
  obtain ⟨q₁, q₂, q₃, hq₁, hq₂, hq₃, hrefines⟩ := productAnalysis_refines lockstep_graph .affine 20 28 40
  change Solver.solve .lockstep (sumAnalysis ⟨["x", "y"], .affine⟩) 28 = .ok q₂ at hq₂
  change Solver.solve .lockstep (productAnalysis ⟨["x", "y"], .affine⟩) 40 = .ok q₃ at hq₃
  rw [hq₁] at hrun₁
  rw [hq₂] at hrun₂
  rw [hq₃] at hrun₃
  obtain ⟨hconv₁, hproved⟩ := Prod.mk.inj (Option.some.inj hrun₁)
  obtain ⟨hconv₂, hunsupported⟩ := Prod.mk.inj (Option.some.inj hrun₂)
  have hconv₃ : q₃.converged = true := Option.some.inj hrun₃
  obtain ⟨hstates, hparity, hsum⟩ := hrefines hconv₁ hconv₂ hconv₃
  exact ⟨lockstep_graph, q₁, q₂, q₃, hq₁, hconv₁, hproved, hq₂, hconv₂, hunsupported, hq₃, hconv₃, hstates, hparity,
    hsum⟩

end FlowFacts
