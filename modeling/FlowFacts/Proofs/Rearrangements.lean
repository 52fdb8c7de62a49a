import Mathlib
import FlowFacts.Proofs.ProductRefinement

/-!
# The order of edges and the labels of points

A program may be written down with its edges in another order and with other labels
(`Program.Rearranges`). It is accepted all the same, but its nodes are numbered and queued differently, and
a run of the parity analysis may end with other alternatives at its nodes. Solutions, however, can be
stated by labels (`Program.SolvedBy`), and those of one program are those of the other. Runs that have
converged are least solutions, so their states cover each other, and the check of an assertion cannot
tell such states apart (`ParityState.check_congr`): `parityAnalysis_rearranged`.
-/

namespace FlowFacts

/-- The same statement between relabelled points. -/
def Edge.relabel (ρ : Nat → Nat) (e : Edge) : Edge := ⟨ρ e.source, e.statement, ρ e.target⟩

/-- The second program is the first one with its points relabelled and its edges in some other order. -/
structure Program.Rearranges (p : Program) (ρ : Nat → Nat) (p' : Program) : Prop where
  declared : p'.declared = p.declared
  edges : (p.edges.map (Edge.relabel ρ)).Perm p'.edges
  injOn : Set.InjOn ρ {l | l ∈ p.labels.toList}

/-! ## Acceptance -/

namespace Program.Rearranges

variable {p p' : Program} {ρ : Nat → Nat} {l : Nat}

theorem mem_edges (h : p.Rearranges ρ p') {e : Edge} : e ∈ p'.edges ↔ ∃ d ∈ p.edges, d.relabel ρ = e := by
  rw [← h.edges.mem_iff, List.mem_map]

theorem mem_labels (h : p.Rearranges ρ p') : l ∈ p'.labels.toList ↔ ∃ k ∈ p.labels.toList, ρ k = l := by
  simp only [Program.mem_labels, h.mem_edges]
  constructor
  · rintro ⟨e, ⟨d, hd, rfl⟩, rfl | rfl⟩
    · exact ⟨d.source, ⟨d, hd, .inl rfl⟩, rfl⟩
    · exact ⟨d.target, ⟨d, hd, .inr rfl⟩, rfl⟩
  · rintro ⟨k, ⟨d, hd, rfl | rfl⟩, rfl⟩
    · exact ⟨_, ⟨d, hd, rfl⟩, .inl rfl⟩
    · exact ⟨_, ⟨d, hd, rfl⟩, .inr rfl⟩

/-- Rearranging can be undone. -/
theorem exists_inverse (h : p.Rearranges ρ p') :
    ∃ τ, p'.Rearranges τ p ∧ ∀ l ∈ p.labels.toList, τ (ρ l) = l := by
  have hleft : ∀ l ∈ p.labels.toList, Function.invFunOn ρ {l | l ∈ p.labels.toList} (ρ l) = l := fun l hl =>
    h.injOn.leftInvOn_invFunOn hl
  refine ⟨_, ⟨h.declared.symm, ?_, ?_⟩, hleft⟩
  · refine (h.edges.map _).symm.trans (List.Perm.of_eq ?_)
    rw [List.map_map]
    refine (List.map_congr_left fun e he => ?_).trans (List.map_id _)
    obtain ⟨hsource, htarget⟩ := mem_labels_of_edge he
    simp [Edge.relabel, hleft _ hsource, hleft _ htarget]
  · intro l hl k hk heq
    obtain ⟨a, ha, rfl⟩ := h.mem_labels.1 hl
    obtain ⟨b, hb, rfl⟩ := h.mem_labels.1 hk
    rw [hleft a ha, hleft b hb] at heq
    rw [heq]

theorem used_eq (h : p.Rearranges ρ p') : p'.used = p.used := by
  refine SortedSet.ext_mem fun x => ?_
  simp only [used, SortedSet.mem_ofList, List.mem_flatMap, h.mem_edges]
  constructor
  · rintro ⟨_, ⟨e, he, rfl⟩, hx⟩
    exact ⟨e, he, hx⟩
  · rintro ⟨e, he, hx⟩
    exact ⟨_, ⟨e, he, rfl⟩, hx⟩

/-- The edges that leave a point are those that left it before. -/
theorem leaving_perm (h : p.Rearranges ρ p') (hl : l ∈ p.labels.toList) :
    ((p.edges.filter (·.source = l)).map (Edge.relabel ρ)).Perm (p'.edges.filter (·.source = ρ l)) := by
  refine List.Perm.trans (List.Perm.of_eq ?_) (h.edges.filter _)
  rw [List.filter_map]
  congr 1
  refine List.filter_congr fun e he => ?_
  have hsource : ρ e.source = ρ l ↔ e.source = l := h.injOn.eq_iff (mem_labels_of_edge he).1 hl
  simp [Edge.relabel, hsource]

theorem isAmbiguous_eq (h : p.Rearranges ρ p') (hl : l ∈ p.labels.toList) :
    p'.isAmbiguous (ρ l) = p.isAmbiguous l := by
  have hperm := h.leaving_perm hl
  simp only [isAmbiguous, ← hperm.length_eq, ← hperm.any_eq, List.length_map, List.any_map]
  rfl

theorem mem_entries (h : p.Rearranges ρ p') : l ∈ p'.entries ↔ ∃ k ∈ p.entries, ρ k = l := by
  simp only [Program.mem_entries, h.mem_labels, h.mem_edges]
  constructor
  · rintro ⟨⟨k, hk, rfl⟩, hnone⟩
    refine ⟨k, ⟨hk, fun e he htarget => ?_⟩, rfl⟩
    exact hnone _ ⟨e, he, rfl⟩ (congrArg ρ htarget)
  · rintro ⟨k, ⟨hk, hnone⟩, rfl⟩
    refine ⟨⟨k, hk, rfl⟩, ?_⟩
    rintro _ ⟨e, he, rfl⟩ htarget
    exact hnone e he (h.injOn (mem_labels_of_edge he).2 hk htarget)

theorem exists_graph (h : p.Rearranges ρ p') {g : Graph} (hp : p.graph = .ok g) : ∃ g', p'.graph = .ok g' := by
  obtain ⟨hused, hclear, entry, hentries, -⟩ := graph_eq_ok.1 hp
  have hnodup : p'.entries.Nodup := p'.labels.nodup_toList.filter _
  have hsingle : p'.entries = [ρ entry] := by
    refine List.perm_singleton.1 ((List.perm_ext_iff_of_nodup hnodup (List.nodup_singleton _)).2 fun l => ?_)
    rw [h.mem_entries, hentries]
    simp [eq_comm]
  refine ⟨_, graph_eq_ok.2 ⟨?_, fun l hl => ?_, ρ entry, hsingle, rfl⟩⟩
  · rw [h.used_eq, hused, h.declared]
  · obtain ⟨k, hk, rfl⟩ := h.mem_labels.1 hl
    rw [h.isAmbiguous_eq hk, hclear k hk]

end Program.Rearranges

/-! ## Solutions by labels -/

section Solutions

variable {D : Type} {a : Analysis D} {Valid : D → Prop} {le : D → D → Prop} {p p' : Program} {g : Graph}

/-- A state for each label that the edges cannot lift. -/
structure Program.SolvedBy (p : Program) (a : Analysis D) (Valid : D → Prop) (le : D → D → Prop) (y : Nat → D) :
    Prop where
  valid : ∀ l ∈ p.labels.toList, Valid (y l)
  entry : ∀ l ∈ p.entries, le a.initial (y l)
  edge : ∀ e ∈ p.edges, ∀ d, a.transfer e.statement (y e.source) = .ok d → le d (y e.target)

/-- What is known at the node of a label. -/
abbrev Solver.knownAt [Domain D] (g : Graph) (states : List D) (label : Nat) : D := known states (g.labels.idxOf label)

theorem Program.getD_labels (hp : p.graph = .ok g) {l : Nat} (hl : l ∈ p.labels.toList) :
    g.labels.getD (g.labels.idxOf l) 0 = l := by
  rw [graph_labels hp, List.getD_eq_getElem _ _ (List.idxOf_lt_length_of_mem hl), List.getElem_idxOf]

theorem Program.SolvedBy.solution (hp : p.graph = .ok g) {y : Nat → D} (h : p.SolvedBy a Valid le y) :
    Solver.Solution g a Valid le fun n => y (g.labels.getD n 0) := by
  have hback := fun {l} hl => getD_labels hp (l := l) hl
  obtain ⟨-, -, entry, hentries, rfl⟩ := graph_eq_ok.1 hp
  have hentry : entry ∈ p.entries := hentries ▸ List.mem_singleton.2 rfl
  refine ⟨fun n hn => ?_, ?_, fun arc harc d hd => ?_⟩
  · refine h.valid _ ?_
    rw [List.getD_eq_getElem _ _ hn]
    exact List.getElem_mem hn
  · rw [hback (mem_entries.1 hentry).1]
    exact h.entry entry hentry
  · obtain ⟨e, he, rfl⟩ := mem_arcs.1 harc
    obtain ⟨hsource, htarget⟩ := mem_labels_of_edge he
    rw [hback htarget]
    rw [hback hsource] at hd
    exact h.edge e he d hd

theorem Program.solvedBy_of_solution [Domain D] (hp : p.graph = .ok g) {states : List D}
    (h : Solver.Solution g a Valid le (Solver.known states)) : p.SolvedBy a Valid le (Solver.knownAt g states) := by
  obtain ⟨-, -, entry, hentries, rfl⟩ := graph_eq_ok.1 hp
  refine ⟨fun l hl => h.valid _ (List.idxOf_lt_length_of_mem hl), fun l hl => ?_, fun e he d hd => ?_⟩
  · rw [hentries] at hl
    rw [List.mem_singleton.1 hl]
    exact h.entry
  · exact h.arc _ (mem_arcs.2 ⟨e, he, rfl⟩) d hd

/-- Solutions of a program can be read at the labels of the program that it was made from. -/
theorem Program.Rearranges.solvedBy {ρ : Nat → Nat} (h : p.Rearranges ρ p') {y : Nat → D}
    (hy : p'.SolvedBy a Valid le y) : p.SolvedBy a Valid le fun l => y (ρ l) where
  valid l hl := hy.valid _ (h.mem_labels.2 ⟨l, hl, rfl⟩)
  entry l hl := hy.entry _ (h.mem_entries.2 ⟨l, hl, rfl⟩)
  edge e he d hd := hy.edge _ (h.mem_edges.2 ⟨e, he, rfl⟩) d hd

/-- States that are below every solution are below those of a rearranged program, label by label. -/
theorem Program.Rearranges.le_of_least [Domain D] {ρ : Nat → Nat} (h : p.Rearranges ρ p') {g' : Graph}
    (hp : p.graph = .ok g) (hp' : p'.graph = .ok g') {states others : List D}
    (hleast : ∀ y, Solver.Solution g a Valid le y → ∀ n < g.size, le (Solver.known states n) (y n))
    (hothers : Solver.Solution g' a Valid le (Solver.known others)) {l : Nat} (hl : l ∈ p.labels.toList) :
    le (Solver.knownAt g states l) (Solver.knownAt g' others (ρ l)) := by
  have hsolution := (h.solvedBy (solvedBy_of_solution hp' hothers)).solution hp
  have hnode : g.labels.idxOf l < g.size := by
    rw [Graph.size, graph_labels hp]
    exact List.idxOf_lt_length_of_mem hl
  have hle := hleast _ hsolution _ hnode
  rwa [getD_labels hp hl] at hle

end Solutions

/-! ## Verdicts by labels -/

/-- What is told of an edge, if it is an assertion. -/
def Edge.told? (verdict : Nat → Assertion → Verdict) (e : Edge) : Option (Nat × Assertion × Verdict) :=
  match e.statement with
  | .assert x => some (e.source, x, verdict e.source x)
  | .skip | .assign _ _ | .assume _ => none

section Verdicts

variable {D : Type} [Domain D] {a : Analysis D} {p : Program} {g : Graph} {states : List D}

/-- The findings tell of each assertion edge the verdict at its point. -/
theorem Solver.told_judge {verdict : Nat → Assertion → Verdict}
    (hverdict : ∀ l x v, a.check x (knownAt g states l) = .ok v → v = verdict l x)
    {edges : List Edge} (hedges : ∀ e ∈ edges, g.labels.getD (g.labels.idxOf e.source) 0 = e.source)
    {fs : List (Finding D)}
    (h : judge g a states
      (edges.map fun e => ⟨g.labels.idxOf e.source, g.labels.idxOf e.target, e.statement⟩) = .ok fs) :
    fs.map Finding.told = edges.filterMap (Edge.told? verdict) := by
  induction edges generalizing fs with
  | nil =>
    obtain rfl := Except.ok.inj h
    rfl
  | cons e rest ih =>
    have hrest := fun d hd => hedges d (List.mem_cons_of_mem _ hd)
    rw [List.map_cons] at h
    cases hst : e.statement with
    | assert x =>
      obtain ⟨v, others, hv, hothers, rfl, -⟩ := judge_cons_eq_ok hst h
      have htold : Edge.told? verdict e = some (e.source, x, v) := by
        simp only [Edge.told?, hst, hverdict _ _ _ hv]
      rw [List.filterMap_cons_some htold, List.map_cons, ih hrest hothers, Finding.told, Outcome.verdict_ofVerdict,
        hedges e List.mem_cons_self]
    | skip | assign _ _ | assume _ =>
      rw [judge_cons_of_not (by simp [isAssertion, hst])] at h
      rw [List.filterMap_cons_none (by simp [Edge.told?, hst])]
      exact ih hrest h

theorem Program.told_findings (verdict : Nat → Assertion → Verdict) (hp : p.graph = .ok g)
    (hverdict : ∀ l x v, a.check x (Solver.knownAt g states l) = .ok v → v = verdict l x) {fs : List (Finding D)}
    (h : Solver.judge g a states g.arcs = .ok fs) : fs.map Finding.told = p.edges.filterMap (Edge.told? verdict) := by
  have hback := fun {l} hl => getD_labels hp (l := l) hl
  obtain ⟨-, -, entry, -, rfl⟩ := graph_eq_ok.1 hp
  exact Solver.told_judge hverdict (fun e he => hback (mem_labels_of_edge he).1) h

/-- Only assumptions leave a point together. -/
theorem Program.pairwise_edges (hp : p.graph = .ok g) : p.edges.Pairwise fun e d =>
    e.source = d.source → e.statement.isAssume = true := by
  obtain ⟨-, hclear, -⟩ := graph_eq_ok.1 hp
  refine List.pairwise_iff_forall_sublist.2 fun {e d} hsub hsource => ?_
  have hleaving : [e, d].Sublist (p.edges.filter (·.source = e.source)) := by
    have hfilter := hsub.filter (·.source = e.source)
    rwa [List.filter_eq_self.2 (by simp [hsource])] at hfilter
  have he := (mem_labels_of_edge (hsub.subset List.mem_cons_self)).1
  by_contra hassume
  have hany : (p.edges.filter (·.source = e.source)).any (fun e => !e.statement.isAssume) = true :=
    List.any_eq_true.2 ⟨e, hleaving.subset List.mem_cons_self, by simpa using hassume⟩
  have hlength : 1 < (p.edges.filter (·.source = e.source)).length := hleaving.length_le
  have hambiguous := hclear e.source he
  simp only [isAmbiguous, hany, hlength, decide_true, Bool.and_true, Bool.true_eq_false] at hambiguous

/-- At most one assertion stands at a point. -/
theorem Program.nodup_told (hp : p.graph = .ok g) (verdict : Nat → Assertion → Verdict) :
    ((p.edges.filterMap (Edge.told? verdict)).map Prod.fst).Nodup := by
  have hassert : ∀ {e : Edge} {t}, e.told? verdict = some t → t.1 = e.source ∧ e.statement.isAssume = false := by
    intro e t ht
    cases hst : e.statement <;> simp only [Edge.told?, hst, reduceCtorEq, Option.some.injEq] at ht
    subst ht
    exact ⟨rfl, rfl⟩
  refine List.pairwise_map.2 (List.pairwise_filterMap.2 ((pairwise_edges hp).imp ?_))
  intro e d hassume t ht u hu heq
  obtain ⟨hsource, hnot⟩ := hassert ht
  rw [hsource, (hassert hu).1] at heq
  exact Bool.false_ne_true (hnot.symm.trans (hassume heq))

/-- Where two programs that are rearrangements of each other have the same verdicts, they tell the same. -/
theorem Program.Rearranges.told_perm {p' : Program} {ρ : Nat → Nat} (h : p.Rearranges ρ p')
    (verdict verdict' : Nat → Assertion → Verdict)
    (hverdict : ∀ l ∈ p.labels.toList, ∀ x, verdict' (ρ l) x = verdict l x) :
    ((p.edges.filterMap (Edge.told? verdict)).map fun t => (ρ t.1, t.2)).Perm
      (p'.edges.filterMap (Edge.told? verdict')) := by
  refine List.Perm.trans (List.Perm.of_eq ?_) (h.edges.filterMap _)
  rw [List.map_filterMap, List.filterMap_map]
  refine List.filterMap_congr fun e he => ?_
  have hsource := hverdict e.source (mem_labels_of_edge he).1
  cases hst : e.statement <;> simp [Edge.told?, Edge.relabel, hst, hsource]

end Verdicts

/-! ## Parities -/

namespace ParityState

variable {d e : ParityState}

theorem Listed.isBottom_eq (hd : d.Listed) (he : e.Listed) (hde : d.Covered e) (hed : e.Covered d) :
    d.isBottom = e.isBottom := by
  have hiff : ∀ {d : ParityState}, d.Listed → (d.isBottom = true ↔ d.expand = []) := fun {d} hd => by
    constructor
    · intro h
      cases d with
      | bottom => rfl
      | top => cases h
      | any _ => cases h
    · intro h
      rw [hd h]
      rfl
  rw [Bool.eq_iff_iff, hiff hd, hiff he]
  exact ⟨hed.expand_eq_nil, hde.expand_eq_nil⟩

/-- The check of an assertion cannot tell states apart that cover each other. -/
theorem check_congr (hd : d.Listed) (he : e.Listed) (hde : d.Covered e) (hed : e.Covered d) (x : Assertion) :
    d.check x = e.check x := by
  have hsatisfies : ∀ facts, d.satisfies facts = e.satisfies facts := fun facts =>
    Bool.eq_iff_iff.2 ⟨satisfies_mono hed fun _ => id, satisfies_mono hde fun _ => id⟩
  simp only [check, hd.isBottom_eq he hde hed, hsatisfies]

end ParityState

theorem parity_listed {g : Graph} (hg : g.Proper) {cap : Nat} {q : FixedPoint ParityState}
    (hq : Solver.solve g parityAnalysis cap = .ok q) (n : Nat) : (Solver.known q.states n).Listed := by
  refine Solver.states_induction (Q := fun _ d => d.Listed) hg (fun _ _ => rfl) ParityState.listed_top ?_ ?_ hq n
  · intro _ x y z hx hy hz
    obtain rfl := Except.ok.inj hz
    exact ParityState.listed_join hx hy
  · intro arc _ d e hd he
    obtain rfl := Except.ok.inj he
    exact ParityState.listed_transfer hd _

/-- The verdict on an assertion at a label. -/
def parityVerdict (g : Graph) (states : List ParityState) (label : Nat) (x : Assertion) : Verdict :=
  (Solver.knownAt g states label).check x

/-- Of an accepted program and a rearrangement of it, which is accepted too, runs of the parity analysis
answer, with at most one finding at each point. Once both have converged they tell the same of
corresponding assertions. -/
theorem parityAnalysis_rearranged {p p' : Program} {ρ : Nat → Nat} (h : p.Rearranges ρ p') {g : Graph}
    (hp : p.graph = .ok g) (cap cap' : Nat) :
    ∃ g' q q', p'.graph = .ok g' ∧ Solver.solve g parityAnalysis cap = .ok q ∧
      Solver.solve g' parityAnalysis cap' = .ok q' ∧ (q.findings.map (·.label)).Nodup ∧
      (q.converged = true → q'.converged = true →
        (q.findings.map fun f => (ρ f.label, f.assertion, f.outcome.verdict)).Perm (q'.findings.map Finding.told)) := by
  obtain ⟨g', hp'⟩ := h.exists_graph hp
  obtain ⟨τ, hback, hτ⟩ := h.exists_inverse
  have hg := Program.proper_graph hp
  have hg' := Program.proper_graph hp'
  have hnames : g'.names = g.names := by rw [Program.graph_names hp, Program.graph_names hp', h.declared]
  obtain ⟨q, hq, -, -, hleast, hsol, hjudge⟩ :=
    Solver.exists_solve_least (parityAnalysis_framework hg) hg (fun _ _ _ _ _ _ => ⟨_, rfl⟩) cap
  obtain ⟨q', hq', -, -, hleast', hsol', hjudge'⟩ :=
    Solver.exists_solve_least (parityAnalysis_framework hg') hg' (fun _ _ _ _ _ _ => ⟨_, rfl⟩) cap'
  have htold := Program.told_findings (parityVerdict g q.states) hp
    (fun _ _ _ hv => (Except.ok.inj hv).symm) hjudge
  have htold' := Program.told_findings (parityVerdict g' q'.states) hp'
    (fun _ _ _ hv => (Except.ok.inj hv).symm) hjudge'
  refine ⟨g', q, q', hp', hq, hq', ?_, fun hconv hconv' => ?_⟩
  · have hnodup := Program.nodup_told hp (parityVerdict g q.states)
    rwa [← htold, List.map_map] at hnodup
  · have hverdict : ∀ l ∈ p.labels.toList, ∀ x,
        (Solver.knownAt g' q'.states (ρ l)).check x = (Solver.knownAt g q.states l).check x := fun l hl x => by
      rw [hnames] at hleast' hsol'
      have hbelow := h.le_of_least hp hp' hleast (hsol' hconv') hl
      have habove := hback.le_of_least hp' hp hleast' (hsol hconv) (h.mem_labels.2 ⟨l, hl, rfl⟩)
      rw [hτ l hl] at habove
      exact ParityState.check_congr (parity_listed hg' hq' _) (parity_listed hg hq _) habove hbelow x
    have hperm := h.told_perm (parityVerdict g q.states) (parityVerdict g' q'.states) hverdict
    rwa [← htold, ← htold', List.map_map] at hperm

/-- The points numbered from the end, and the last edge first. -/
def Program.lockstepBackwards : Program where
  declared := Program.lockstep.declared
  edges := (Program.lockstep.edges.map (Edge.relabel (6 - ·))).reverse

/-- Two variables that are counted up together are found to have the same parity either way. -/
theorem parityAnalysis_rearranged_lockstep : Program.lockstep.Rearranges (6 - ·) .lockstepBackwards ∧
    Program.lockstep.graph = .ok .lockstep ∧ ∃ g' q q', Program.lockstepBackwards.graph = .ok g' ∧
      Solver.solve .lockstep parityAnalysis 20 = .ok q ∧ q.converged = true ∧
      Solver.solve g' parityAnalysis 20 = .ok q' ∧ q'.converged = true ∧ (q.findings.map (·.label)).Nodup ∧
      (q.findings.map fun f => (6 - f.label, f.assertion, f.outcome.verdict)).Perm (q'.findings.map Finding.told) ∧
      q'.findings.map (fun f => (f.label, f.outcome.verdict)) = [(1, .proved)] := by
  have hrearranges : Program.lockstep.Rearranges (6 - ·) .lockstepBackwards := by
    refine ⟨rfl, (List.reverse_perm _).symm, fun l hl k hk heq => ?_⟩
    have hlabels : ∀ l ∈ Program.lockstep.labels.toList, l ≤ 6 := by decide
    have hl6 := hlabels l hl
    have hk6 := hlabels k hk
    have heq : 6 - l = 6 - k := heq
    omega
  have hrun : (Solver.solve .lockstep parityAnalysis 20).toOption.map (·.converged) = some true := by
    decide +kernel
  have hrun' : (Program.lockstepBackwards.graph.toOption.bind fun g => (Solver.solve g parityAnalysis 20).toOption).map
      (fun q => (q.converged, q.findings.map fun f => (f.label, f.outcome.verdict))) =
        some (true, [(1, .proved)]) := by
    decide +kernel
  obtain ⟨g', q, q', hp', hq, hq', hnodup, hperm⟩ := parityAnalysis_rearranged hrearranges lockstep_graph 20 20
  rw [hq] at hrun
  rw [hp', Except.toOption, Option.bind_some, hq'] at hrun'
  have hconv : q.converged = true := Option.some.inj hrun
  obtain ⟨hconv', hproved⟩ := Prod.mk.inj (Option.some.inj hrun')
  exact ⟨hrearranges, lockstep_graph, g', q, q', hp', hq, hconv, hq', hconv', hnodup, hperm hconv hconv', hproved⟩

end FlowFacts
