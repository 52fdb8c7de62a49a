import Mathlib
import FlowFacts.Proofs.ColumnOrder
import FlowFacts.Proofs.FixedPoints
import FlowFacts.Proofs.Simulation
import FlowFacts.Proofs.SumSolver

/-!
# The names of variables

Renaming the variables of a program renames those of its graph (`Program.graph_rename`), but it may change
the order of their columns. The columns are then moved by a permutation (`Frame.Renames`), and so are the
equations of statements and sums (`Frame.Renames.valueEquation`, `Frame.Renames.sumEquation`), what a
statement does to points (`Frame.Renames.exists_acts`), and what is asked of them (`Frame.Renames.check`).
A run of the sum analysis over the renamed program therefore stays in step with one over the program:
`sumAnalysis_renamed`.
-/

namespace FlowFacts

/-! ## Renamed programs -/

section Syntax

variable (σ : String → String)

def Value.rename : Value → Value
  | const c => const c
  | var u => var (σ u)
  | plus u c => plus (σ u) c
  | minus u c => minus (σ u) c
  | unknown => unknown

def Condition.rename : Condition → Condition
  | always => always
  | never => never
  | equal x value => equal (σ x) (value.rename σ)
  | unequal x value => unequal (σ x) (value.rename σ)

def Atom.rename : Atom → Atom
  | even x => even (σ x)
  | odd x => odd (σ x)
  | sum left right => sum (left.map σ) (right.map σ)

def Assertion.rename (a : Assertion) : Assertion := ⟨a.clauses.map fun clause => clause.map (Atom.rename σ)⟩

def Statement.rename : Statement → Statement
  | skip => skip
  | assign x value => assign (σ x) (value.rename σ)
  | assume condition => assume (condition.rename σ)
  | assert a => assert (a.rename σ)

def Edge.rename (e : Edge) : Edge := ⟨e.source, e.statement.rename σ, e.target⟩

/-- The program with other names for its variables. -/
def Program.rename (p : Program) : Program := ⟨.ofList (p.declared.toList.map σ), p.edges.map (Edge.rename σ)⟩

/-- The graph with other names for its variables, in their own order. -/
def Graph.rename (g : Graph) : Graph where
  names := (SortedSet.ofList (g.names.map σ)).toList
  labels := g.labels
  arcs := g.arcs.map (Arc.mapStatement (Statement.rename σ))
  entry := g.entry

end Syntax

variable {σ : String → String}

theorem Value.reads_rename (value : Value) : (value.rename σ).reads = value.reads.map σ := by
  cases value <;> rfl

theorem Value.offset_rename (value : Value) : (value.rename σ).offset = value.offset := by
  cases value <;> rfl

theorem Atom.names_rename (a : Atom) : (a.rename σ).names = a.names.map σ := by
  cases a <;> simp [rename, names]

theorem Assertion.atoms_rename (a : Assertion) : (a.rename σ).atoms = a.atoms.map (Atom.rename σ) :=
  List.map_flatten.symm

theorem Assertion.hasParity_rename (a : Assertion) : (a.rename σ).hasParity = a.hasParity := by
  have hatom : (Atom.isParity ∘ Atom.rename σ) = Atom.isParity := funext fun atom => by cases atom <;> rfl
  rw [hasParity, atoms_rename, List.any_map, hatom, hasParity]

theorem Statement.mentions_rename (s : Statement) : (s.rename σ).mentions = s.mentions.map σ := by
  have hvalue : ∀ x (value : Value), σ x :: (value.rename σ).reads.toList = (x :: value.reads.toList).map σ := by
    intro x value
    rw [Value.reads_rename, List.map_cons]
    cases value.reads <;> rfl
  cases s with
  | skip => rfl
  | assign x value => exact hvalue x value
  | assume condition =>
    cases condition with
    | always => rfl
    | never => rfl
    | equal x value => exact hvalue x value
    | unequal x value => exact hvalue x value
  | assert a =>
    simp only [rename, mentions, Assertion.atoms_rename, List.flatMap_map, List.map_flatMap, Atom.names_rename]

namespace Program

variable {p : Program}

theorem edges_rename (p : Program) : (p.rename σ).edges = p.edges.map (Edge.rename σ) := rfl

theorem used_rename (p : Program) : (p.rename σ).used = .ofList (p.used.toList.map σ) := by
  refine SortedSet.ext_mem fun y => ?_
  simp only [used, edges_rename, SortedSet.mem_ofList, List.mem_flatMap, List.mem_map]
  constructor
  · rintro ⟨_, ⟨e, he, rfl⟩, hy⟩
    rw [Edge.rename, Statement.mentions_rename, List.mem_map] at hy
    obtain ⟨x, hx, rfl⟩ := hy
    exact ⟨x, ⟨e, he, hx⟩, rfl⟩
  · rintro ⟨x, ⟨e, he, hx⟩, rfl⟩
    refine ⟨_, ⟨e, he, rfl⟩, ?_⟩
    rw [Edge.rename, Statement.mentions_rename]
    exact List.mem_map_of_mem hx

theorem isAmbiguous_rename (p : Program) (l : Nat) : (p.rename σ).isAmbiguous l = p.isAmbiguous l := by
  have hassume : ∀ s : Statement, (s.rename σ).isAssume = s.isAssume := fun s => by cases s <;> rfl
  simp only [isAmbiguous, edges_rename, List.filter_map, List.length_map, List.any_map, Function.comp_def, Edge.rename,
    hassume]
  rfl

theorem graph_rename {g : Graph} (hp : p.graph = .ok g) : (p.rename σ).graph = .ok (g.rename σ) := by
  obtain ⟨hused, hclear, entry, hentries, rfl⟩ := graph_eq_ok.1 hp
  have hlabels : (p.rename σ).labels = p.labels := by
    rw [labels, edges_rename, List.flatMap_map]
    rfl
  refine graph_eq_ok.2 ⟨?_, fun l hl => ?_, entry, ?_, ?_⟩
  · rw [used_rename, hused]
    rfl
  · rw [isAmbiguous_rename, hclear l (hlabels ▸ hl)]
  · rw [← hentries]
    simp only [entries, hlabels, edges_rename, List.all_map]
    rfl
  · simp only [Graph.rename, hlabels, arcs, edges_rename, List.map_map]
    rfl

end Program

/-! ## Renamed columns -/

section Positions

variable {xs ys : List String}

/-- Where a name at some position stands in another list. -/
def positionIn (ys xs : List String) (i : Nat) : Nat :=
  match xs[i]? with
  | some x => ys.idxOf x
  | none => i

theorem getElem?_positionIn (h : xs.Perm ys) (i : Nat) : ys[positionIn ys xs i]? = xs[i]? := by
  unfold positionIn
  cases hx : xs[i]? with
  | some x => exact List.getElem?_idxOf (h.subset (List.mem_of_getElem? hx))
  | none => exact List.getElem?_eq_none (h.length_eq ▸ List.getElem?_eq_none_iff.1 hx)

theorem positionIn_positionIn (h : xs.Perm ys) (hxs : xs.Nodup) (i : Nat) :
    positionIn xs ys (positionIn ys xs i) = i := by
  rw [positionIn, getElem?_positionIn h]
  cases hx : xs[i]? with
  | some x =>
    obtain ⟨hi, rfl⟩ := List.getElem?_eq_some_iff.1 hx
    exact hxs.idxOf_getElem i hi
  | none => simp only [positionIn, hx]

/-- How the names of one list move to their positions in another. -/
def positionPerm (h : xs.Perm ys) (hxs : xs.Nodup) : Equiv.Perm Nat where
  toFun := positionIn ys xs
  invFun := positionIn xs ys
  left_inv := positionIn_positionIn h hxs
  right_inv := positionIn_positionIn h.symm (h.nodup_iff.1 hxs)

end Positions

namespace Frame

/-- Two frames of the same encoding, where the variables of the second have other names and columns. -/
structure Renames (σ : String → String) (π : Equiv.Perm Nat) (f f' : Frame) : Prop where
  encoding : f'.encoding = f.encoding
  nodup : f.names.Nodup
  nodup' : f'.names.Nodup
  length : f'.names.length = f.names.length
  permutes : Permutes f.names.length π
  names : ∀ i, f'.names[π i]? = f.names[i]?.map σ

theorem exists_renames {names : List String} (hnames : names.Nodup) (hσ : Set.InjOn σ {x | x ∈ names})
    (enc : Encoding) :
    ∃ π, Renames σ π ⟨names, enc⟩ ⟨(SortedSet.ofList (names.map σ)).toList, enc⟩ := by
  have hmap : (names.map σ).Nodup := hnames.map_on fun x hx y hy heq => hσ hx hy heq
  have hsorted := SortedSet.nodup_toList (SortedSet.ofList (names.map σ))
  have hperm : (names.map σ).Perm (SortedSet.ofList (names.map σ)).toList :=
    (List.perm_ext_iff_of_nodup hmap hsorted).2 fun x => SortedSet.mem_ofList.symm
  refine ⟨positionPerm hperm hmap, rfl, hnames, hsorted, ?_, fun i hi => ?_, fun i => ?_⟩
  · exact hperm.length_eq.symm.trans (List.length_map _)
  · have hnone : (names.map σ)[i]? = none := List.getElem?_eq_none (by rw [List.length_map]; exact hi)
    show positionIn _ _ i = i
    rw [positionIn, hnone]
  · exact (getElem?_positionIn hperm i).trans List.getElem?_map

namespace Renames

variable {π : Equiv.Perm Nat} {f f' : Frame} {x u : String} {c d : Nat}

theorem column (h : Renames σ π f f') (hx : f.HasColumn x c) : f'.HasColumn (σ x) (π c) := by
  refine hasColumn_of_nodup h.nodup' ?_
  rw [h.names, hx.name]
  rfl

theorem reads_iff (h : Renames σ π f f') (hx : f.HasColumn x c) {value : Value} (hu : ∀ u ∈ value.reads, u ∈ f.names) :
    (value.rename σ).reads = some (σ x) ↔ value.reads = some x := by
  rw [Value.reads_rename]
  cases hread : value.reads with
  | none => simp
  | some u =>
    obtain ⟨d, hd⟩ := exists_column (hu u hread)
    simp only [Option.map_some, Option.some.injEq]
    refine ⟨fun heq => ?_, congrArg σ⟩
    -- Variables with the same new name have the same new column, hence the same old one.
    have hcolumn := (h.column hd).column
    rw [heq, (h.column hx).column] at hcolumn
    have hcd : c = d := π.injective (Except.ok.inj hcolumn)
    exact Option.some.inj (hd.name.symm.trans (hcd ▸ hx.name))

theorem mentions (h : Renames σ π f f') {s : Statement} (hs : ∀ x ∈ s.mentions, x ∈ f.names) :
    ∀ x ∈ (s.rename σ).mentions, x ∈ f'.names := by
  intro y hy
  rw [Statement.mentions_rename] at hy
  obtain ⟨x, hx, rfl⟩ := List.mem_map.1 hy
  obtain ⟨c, hc⟩ := exists_column (hs x hx)
  exact List.mem_of_getElem? (h.column hc).name

/-! ### Equations -/

theorem equation (h : Renames σ π f f') {coeff coeff' : Nat → Fraction} (hcoeff : ∀ j, coeff' (π j) = coeff j) :
    Relations.Moved f.names.length π (f.equation coeff) (f'.equation coeff') := by
  obtain ⟨hcan, hpts⟩ := f.equation_spec coeff
  obtain ⟨hcan', hpts'⟩ := f'.equation_spec coeff'
  rw [h.length] at hcan' hpts'
  refine ⟨hcan, hcan', Set.ext fun y => ?_⟩
  have hmoved : (fun i => (coeff i).toRat) ∘ π.symm = fun i => (coeff' i).toRat := by
    funext i
    simp [← hcoeff]
  have hlast : coeff' f.names.length = coeff f.names.length := by
    rw [← hcoeff, h.permutes _ le_rfl]
  rw [hpts', mem_reordered, hpts, h.permutes.dotTo_comp, hmoved, hlast]

theorem constEquation (h : Renames σ π f f') (c : Nat) (k : Int) :
    Option.Rel (Relations.Moved f.names.length π) (f.constEquation c k) (f'.constEquation (π c) k) := by
  unfold Frame.constEquation
  rw [h.encoding, h.length]
  split
  · exact .none
  · refine .some (h.equation fun j => ?_)
    simp only [h.permutes.eq_iff, π.apply_eq_iff_eq]

theorem copyEquation (h : Renames σ π f f') (c d : Nat) (k : Int) :
    Option.Rel (Relations.Moved f.names.length π) (f.copyEquation c d k) (f'.copyEquation (π c) (π d) k) := by
  unfold Frame.copyEquation
  rw [h.encoding, h.length]
  split
  · exact .none
  · refine .some (h.equation fun j => ?_)
    simp only [h.permutes.eq_iff, π.apply_eq_iff_eq]

theorem valueEquation (h : Renames σ π f f') (hx : f.HasColumn x c) {value : Value} (hreads : value.reads ≠ some x)
    (hu : ∀ u ∈ value.reads, u ∈ f.names) :
    ∃ o o', f.valueEquation x value = .ok o ∧ f'.valueEquation (σ x) (value.rename σ) = .ok o' ∧
      Option.Rel (Relations.Moved f.names.length π) o o' := by
  have hx' := h.column hx
  cases hread : value.reads with
  | some u =>
    obtain ⟨d, hd⟩ := exists_column (hu u hread)
    have hread' : (value.rename σ).reads = some (σ u) := by rw [Value.reads_rename, hread, Option.map_some]
    have hne : u ≠ x := fun heq => hreads (heq ▸ hread)
    have hne' : σ u ≠ σ x := fun heq => hreads ((h.reads_iff hx hu).1 (heq ▸ hread'))
    refine ⟨_, _, valueEquation_copy hx hd hne hread, valueEquation_copy hx' (h.column hd) hne' hread', ?_⟩
    rw [Value.offset_rename]
    exact h.copyEquation c d _
  | none =>
    cases value with
    | unknown => exact ⟨none, none, valueEquation_unknown hx, valueEquation_unknown hx', .none⟩
    | const k => exact ⟨_, _, valueEquation_const hx k, valueEquation_const hx' k, h.constEquation c k⟩
    | var | plus | minus => cases hread

theorem columns (h : Renames σ π f f') {names : List String} {cs : List Nat} (hcs : List.Forall₂ f.HasColumn names cs) :
    List.Forall₂ f'.HasColumn (names.map σ) (cs.map π) := by
  rw [List.forall₂_map_left_iff, List.forall₂_map_right_iff]
  exact hcs.imp fun _ _ => h.column

theorem sumEquation (h : Renames σ π f f') {left right : List String} (hl : ∀ x ∈ left, x ∈ f.names)
    (hr : ∀ x ∈ right, x ∈ f.names) :
    ∃ e e', f.sumEquation left right = .ok e ∧ f'.sumEquation (left.map σ) (right.map σ) = .ok e' ∧
      Relations.Moved f.names.length π e e' := by
  obtain ⟨plus, -, hplus⟩ := mapM_column hl
  obtain ⟨minus, -, hminus⟩ := mapM_column hr
  refine ⟨_, _, sumEquation_eq hplus hminus, sumEquation_eq (h.columns hplus) (h.columns hminus),
    h.equation fun j => ?_⟩
  rw [List.count_map_of_injective _ _ π.injective, List.count_map_of_injective _ _ π.injective]

/-! ### Statements -/

theorem freed_reordered (S : Set (Nat → ℚ)) : freed (π c) (reordered π S) = reordered π (freed c S) := by
  ext y
  refine exists_congr fun q => ?_
  rw [mem_reordered, Function.update_comp_eq_of_injective _ π.injective]

theorem forall_mem_points {n : Nat} {o o' : Option Relations} (h : Option.Rel (Relations.Moved n π) o o')
    {y : Nat → ℚ} : (∀ e ∈ o', y ∈ e.Points n) ↔ ∀ e ∈ o, y ∘ π ∈ e.Points n := by
  cases h with
  | none => simp
  | some hmoved => simp [hmoved.points, mem_reordered]

theorem forall_not_subset {n : Nat} {o o' : Option Relations} (h : Option.Rel (Relations.Moved n π) o o')
    {S : Set (Nat → ℚ)} : (∀ e ∈ o', ¬ reordered π S ⊆ e.Points n) ↔ ∀ e ∈ o, ¬ S ⊆ e.Points n := by
  cases h with
  | none => simp
  | some hmoved => simp [hmoved.points, reordered_subset_iff]

/-- A statement moves points as the renamed one moves those in the other order. -/
structure MovesAs (π : Equiv.Perm Nat) (f f' : Frame) (s s' : Statement) (F F' : Set (Nat → ℚ) → Set (Nat → ℚ)) :
    Prop where
  left : f.Acts s F
  right : f'.Acts s' F'
  points : ∀ S, F' (reordered π S) = reordered π (F S)

theorem exists_assign (h : Renames σ π f f') {value : Value} (hx : f.HasColumn x c)
    (hu : ∀ u ∈ value.reads, u ∈ f.names) (hu' : ∀ u ∈ (value.rename σ).reads, u ∈ f'.names) :
    ∃ F F', MovesAs π f f' (.assign x value) (.assign (σ x) (value.rename σ)) F F' := by
  have hx' := h.column hx
  by_cases hreads : value.reads = some x
  · have hreads' := (h.reads_iff hx hu).2 hreads
    have hoffset := value.offset_rename (σ := σ)
    by_cases hzero : value.offset = 0
    · exact ⟨_, _, acts_keep h.nodup hx hreads hzero, acts_keep h.nodup' hx' hreads' (hoffset.trans hzero),
        fun _ => rfl⟩
    · cases henc : f.encoding with
      | affine =>
        refine ⟨_, _, acts_shift h.nodup hx hreads hzero henc,
          acts_shift h.nodup' hx' hreads' (hoffset ▸ hzero) (h.encoding.trans henc), fun S => Set.ext fun y => ?_⟩
        simp only [Set.mem_ofPred_eq, mem_reordered, Function.update_comp_eq_of_injective _ π.injective, hoffset]
        rfl
      | homogeneous =>
        exact ⟨_, _, acts_increment h.nodup hx hreads hzero henc,
          acts_increment h.nodup' hx' hreads' (hoffset ▸ hzero) (h.encoding.trans henc), freed_reordered⟩
  · have hreads' := fun heq => hreads ((h.reads_iff hx hu).1 heq)
    obtain ⟨o, o', ho, ho', hmoved⟩ := h.valueEquation hx hreads hu
    refine ⟨_, _, acts_assign h.nodup hx hreads hu ho, acts_assign h.nodup' hx' hreads' hu' ho',
      fun S => Set.ext fun y => ?_⟩
    rw [Set.mem_ofPred_eq, freed_reordered, h.length, forall_mem_points hmoved]
    rfl

theorem exists_equal (h : Renames σ π f f') {value : Value} (hx : f.HasColumn x c)
    (hu : ∀ u ∈ value.reads, u ∈ f.names) (hu' : ∀ u ∈ (value.rename σ).reads, u ∈ f'.names) :
    ∃ F F', MovesAs π f f' (.assume (.equal x value)) (.assume (.equal (σ x) (value.rename σ))) F F' := by
  by_cases hreads : value.reads = some x
  · refine ⟨_, _, acts_equal_self hreads, acts_equal_self ((h.reads_iff hx hu).2 hreads), fun S => ?_⟩
    rw [Value.offset_rename]
    rfl
  · have hreads' := fun heq => hreads ((h.reads_iff hx hu).1 heq)
    obtain ⟨o, o', ho, ho', hmoved⟩ := h.valueEquation hx hreads hu
    refine ⟨_, _, acts_equal hx hreads hu ho, acts_equal (h.column hx) hreads' hu' ho', fun S => Set.ext fun y => ?_⟩
    rw [Set.mem_ofPred_eq, h.length, forall_mem_points hmoved]
    rfl

theorem exists_unequal (h : Renames σ π f f') {value : Value} (hx : f.HasColumn x c)
    (hu : ∀ u ∈ value.reads, u ∈ f.names) (hu' : ∀ u ∈ (value.rename σ).reads, u ∈ f'.names) :
    ∃ F F', MovesAs π f f' (.assume (.unequal x value)) (.assume (.unequal (σ x) (value.rename σ))) F F' := by
  by_cases hreads : value.reads = some x
  · refine ⟨_, _, acts_unequal_self hreads, acts_unequal_self ((h.reads_iff hx hu).2 hreads), fun S => ?_⟩
    rw [Value.offset_rename]
    rfl
  · have hreads' := fun heq => hreads ((h.reads_iff hx hu).1 heq)
    obtain ⟨o, o', ho, ho', hmoved⟩ := h.valueEquation hx hreads hu
    refine ⟨_, _, acts_unequal hx hreads hu ho, acts_unequal (h.column hx) hreads' hu' ho',
      fun S => Set.ext fun y => ?_⟩
    rw [Set.mem_ofPred_eq, h.length, forall_not_subset hmoved]
    rfl

theorem exists_acts (h : Renames σ π f f') {s : Statement} (hs : ∀ x ∈ s.mentions, x ∈ f.names) :
    ∃ F F', MovesAs π f f' s (s.rename σ) F F' := by
  have hs' := h.mentions hs
  cases s with
  | skip => exact ⟨_, _, acts_skip, acts_skip, fun _ => rfl⟩
  | assert a => exact ⟨_, _, acts_assert a, acts_assert _, fun _ => rfl⟩
  | assign x value =>
    obtain ⟨c, hc⟩ := exists_column (hs x List.mem_cons_self)
    exact h.exists_assign hc (Value.reads_mem hs) (Value.reads_mem hs')
  | assume condition =>
    cases condition with
    | always => exact ⟨_, _, acts_always, acts_always, fun _ => rfl⟩
    | never => exact ⟨_, _, acts_never, acts_never, fun _ => rfl⟩
    | equal x value =>
      obtain ⟨c, hc⟩ := exists_column (hs x List.mem_cons_self)
      exact h.exists_equal hc (Value.reads_mem hs) (Value.reads_mem hs')
    | unequal x value =>
      obtain ⟨c, hc⟩ := exists_column (hs x List.mem_cons_self)
      exact h.exists_unequal hc (Value.reads_mem hs) (Value.reads_mem hs')

variable {r r' : Relations}

theorem transfer (h : Renames σ π f f') {s : Statement} (hs : ∀ x ∈ s.mentions, x ∈ f.names)
    (hr : Relations.Moved f.names.length π r r') :
    ∃ t t', f.transfer s r = .ok t ∧ f'.transfer (s.rename σ) r' = .ok t' ∧ Relations.Moved f.names.length π t t' := by
  obtain ⟨F, F', hF⟩ := h.exists_acts hs
  obtain ⟨t, ht, hcan, hpts⟩ := hF.left.transfer r hr.left
  obtain ⟨t', ht', hcan', hpts'⟩ := hF.right.transfer r' (h.length ▸ hr.right)
  rw [h.length] at hcan' hpts'
  refine ⟨t, t', ht, ht', hcan, hcan', ?_⟩
  rw [hpts', hr.points, hF.points, hpts]

/-! ### Checks -/

theorem sumConstraint (h : Renames σ π f f') {clause : Clause}
    (hc : ∀ atom ∈ clause, ∀ x ∈ atom.names, x ∈ f.names) :
    ∃ t t', f.sumConstraint clause = .ok t ∧ f'.sumConstraint (clause.map (Atom.rename σ)) = .ok t' ∧
      Relations.Moved f.names.length π t t' := by
  refine exists_foldlM₂ (Atom.rename σ) Relations.Moved.top fun atom hatom {d e} hde => ?_
  cases atom with
  | even x => exact ⟨d, e, rfl, rfl, hde⟩
  | odd x => exact ⟨d, e, rfl, rfl, hde⟩
  | sum left right =>
    have hnames := hc _ hatom
    obtain ⟨u, u', hu, hu', hmoved⟩ := h.sumEquation (fun x hx => hnames x (List.mem_append_left _ hx))
      fun x hx => hnames x (List.mem_append_right _ hx)
    obtain ⟨t, t', ht, ht', hmeet⟩ := hde.meet hmoved
    refine ⟨t, t', ?_, ?_, hmeet⟩
    · simp only [hu, bind, Except.bind, ht]
    · simp only [Atom.rename, hu', bind, Except.bind, ht']

theorem provesSums (h : Renames σ π f f') (hr : Relations.Moved f.names.length π r r') {clause : Clause}
    (hc : ∀ atom ∈ clause, ∀ x ∈ atom.names, x ∈ f.names) :
    ∃ b, f.provesSums r clause = .ok b ∧ f'.provesSums r' (clause.map (Atom.rename σ)) = .ok b := by
  obtain ⟨t, t', ht, ht', hmoved⟩ := h.sumConstraint hc
  obtain ⟨b, hb, hb'⟩ := hr.le_eq hmoved
  refine ⟨b, ?_, ?_⟩
  · simp only [Frame.provesSums, ht, bind, Except.bind, hb]
  · simp only [Frame.provesSums, ht', bind, Except.bind, hb']

theorem anyM_provesSums (h : Renames σ π f f') (hr : Relations.Moved f.names.length π r r') {clauses : List Clause}
    (hc : ∀ clause ∈ clauses, ∀ atom ∈ clause, ∀ x ∈ atom.names, x ∈ f.names) :
    ∃ b, clauses.anyM (f.provesSums r) = .ok b ∧
      (clauses.map fun clause => clause.map (Atom.rename σ)).anyM (f'.provesSums r') = .ok b := by
  induction clauses with
  | nil => exact ⟨false, rfl, rfl⟩
  | cons clause rest ih =>
    obtain ⟨b, hb, hb'⟩ := h.provesSums hr (hc clause List.mem_cons_self)
    obtain ⟨d, hd, hd'⟩ := ih fun c hmem => hc c (List.mem_cons_of_mem _ hmem)
    simp only [List.map_cons, List.anyM, hb, hb', bind, Except.bind]
    cases b with
    | true => exact ⟨true, rfl, rfl⟩
    | false => exact ⟨d, hd, hd'⟩

/-- The verdict on an assertion does not depend on the names. -/
theorem check (h : Renames σ π f f') (hr : Relations.Moved f.names.length π r r') {a : Assertion}
    (ha : ∀ x ∈ (Statement.assert a).mentions, x ∈ f.names) :
    ∃ v, f.check a r = .ok v ∧ f'.check (a.rename σ) r' = .ok v := by
  obtain ⟨b, hb, hb'⟩ := h.anyM_provesSums hr (names_of_clause ha)
  change (a.rename σ).clauses.anyM (f'.provesSums r') = .ok b at hb'
  simp only [Frame.check, hr.isBottom_eq, a.hasParity_rename, hb, hb', bind, Except.bind, pure, Except.pure]
  split
  · exact ⟨.proved, rfl, rfl⟩
  · split
    · exact ⟨.unsupported, rfl, rfl⟩
    · exact ⟨_, rfl, rfl⟩

end Renames

end Frame

/-! ## Runs -/

/-- Whether rational values of the variables satisfy the equations of a state. -/
def Relations.Admits (names : List String) (r : Relations) (v : String → ℚ) : Prop :=
  (fun i => (names.map v).getD i 0) ∈ r.Points names.length

theorem Frame.Renames.admits_iff {π : Equiv.Perm Nat} {f f' : Frame} (h : Renames σ π f f') {r r' : Relations}
    (hr : Relations.Moved f.names.length π r r') (v : String → ℚ) :
    r'.Admits f'.names v ↔ r.Admits f.names (v ∘ σ) := by
  unfold Relations.Admits
  rw [h.length, hr.points, mem_reordered]
  have hpoint : (fun i => (f'.names.map v).getD i 0) ∘ π = fun i => (f.names.map (v ∘ σ)).getD i 0 := by
    funext i
    simp [List.getD_eq_getElem?_getD, List.getElem?_map, h.names]
  rw [hpoint]

theorem sumAnalysis_simulation {g : Graph} (hg : g.Proper) {enc : Encoding} {π : Equiv.Perm Nat}
    (h : Frame.Renames σ π ⟨g.names, enc⟩ ⟨(g.rename σ).names, enc⟩) :
    Solver.Simulation g (g.rename σ) (sumAnalysis ⟨g.names, enc⟩) (sumAnalysis ⟨(g.rename σ).names, enc⟩)
      (Statement.rename σ) (Assertion.rename σ) (Relations.Moved g.names.length π) where
  labels := rfl
  entry := rfl
  arcs := rfl
  bottom := Relations.Moved.bottom
  initial := Relations.Moved.top
  transfer arc harc _ _ hde := h.transfer (hg.mentions arc harc) hde
  join := Relations.Moved.join h.permutes
  compare := Relations.Moved.compare
  assertion _ := rfl
  other {s x} hx := by
    cases s with
    | assert a => exact ⟨a, rfl⟩
    | skip | assign _ _ | assume _ => cases hx
  check arc harc x hx _ _ hde := h.check hde (hx ▸ hg.mentions arc harc)

/-- Of an accepted program whose variables are renamed to different names, the renamed program is accepted
too, and runs of the sum analysis over both answer. They take the same number of rounds, converge or not
together, tell the same of the renamed assertions, and at each node admit the same values of the
variables, read by their new and by their old names. -/
theorem sumAnalysis_renamed {p : Program} {g : Graph} (hp : p.graph = .ok g)
    (hσ : Set.InjOn σ {x | x ∈ p.declared.toList}) (enc : Encoding) (cap : Nat) :
    ∃ q q', (p.rename σ).graph = .ok (g.rename σ) ∧
      Solver.solve g (sumAnalysis ⟨g.names, enc⟩) cap = .ok q ∧
      Solver.solve (g.rename σ) (sumAnalysis ⟨(g.rename σ).names, enc⟩) cap = .ok q' ∧
      q'.rounds = q.rounds ∧ q'.converged = q.converged ∧
      q'.findings.map Finding.told = q.findings.map (fun f => (f.label, f.assertion.rename σ, f.outcome.verdict)) ∧
      ∀ n < g.size, ∃ r r', q.states[n]? = some r ∧ q'.states[n]? = some r' ∧
        ∀ v, r'.Admits (g.rename σ).names v ↔ r.Admits g.names (v ∘ σ) := by
  have hg := Program.proper_graph hp
  have hnames : g.names = p.declared.toList := Program.graph_names hp
  obtain ⟨π, hπ⟩ := Frame.exists_renames hg.nodup (hnames ▸ hσ) enc
  obtain ⟨q, q', hq, hq', hrounds, hconv, hlength, hlength', hknown, htold⟩ :=
    (sumAnalysis_simulation hg hπ).solve hg cap
  refine ⟨q, q', Program.graph_rename hp, hq, hq', hrounds, hconv, htold, fun n hn => ?_⟩
  exact ⟨_, _, Solver.getElem?_eq_known (hlength ▸ hn), Solver.getElem?_eq_known (hlength' ▸ hn),
    hπ.admits_iff (hknown n)⟩

/-- A constant is copied from one variable to another, and the two change names. The equation of the
constant then stands in the other column. -/
theorem sumAnalysis_renamed_copied : Program.copied.graph = .ok .copied ∧
    Set.InjOn (Equiv.swap "x" "y") {x | x ∈ Program.copied.declared.toList} ∧ ∃ q q' r r',
      (Program.copied.rename (Equiv.swap "x" "y")).graph = .ok (Graph.copied.rename (Equiv.swap "x" "y")) ∧
      Solver.solve .copied (sumAnalysis ⟨["x", "y"], .affine⟩) 10 = .ok q ∧
      Solver.solve (Graph.copied.rename (Equiv.swap "x" "y")) (sumAnalysis ⟨["x", "y"], .affine⟩) 10 = .ok q' ∧
      q'.rounds = q.rounds ∧ q'.converged = true ∧ q.converged = true ∧
      q'.findings.map Finding.told = [(2, ⟨[[.sum ["y"] ["x"]]]⟩, .proved)] ∧
      q.states[1]? = some r ∧ q'.states[1]? = some r' ∧ r' ≠ r ∧
      ∀ v, r'.Admits ["x", "y"] v ↔ r.Admits ["x", "y"] (v ∘ Equiv.swap "x" "y") := by
  have hrun : (Solver.solve (Graph.copied.rename (Equiv.swap "x" "y"))
      (sumAnalysis ⟨["x", "y"], .affine⟩) 10).toOption.map
      (fun q => (q.converged, q.findings.map Finding.told)) = some (true, [(2, ⟨[[.sum ["y"] ["x"]]]⟩, .proved)]) := by
    decide +kernel
  have hne : (Solver.solve (Graph.copied.rename (Equiv.swap "x" "y"))
      (sumAnalysis ⟨["x", "y"], .affine⟩) 10).toOption.bind (·.states[1]?) ≠
      (Solver.solve .copied (sumAnalysis ⟨["x", "y"], .affine⟩) 10).toOption.bind (·.states[1]?) := by
    decide +kernel
  have hnames : (Graph.copied.rename (Equiv.swap "x" "y")).names = ["x", "y"] := by decide
  have hinj := (Equiv.swap "x" "y").injective.injOn (s := {x | x ∈ Program.copied.declared.toList})
  obtain ⟨q, q', hgraph, hq, hq', hrounds, hconv, -, hstates⟩ := sumAnalysis_renamed copied_graph hinj .affine 10
  rw [hnames] at hq' hstates
  change Solver.solve .copied (sumAnalysis ⟨["x", "y"], .affine⟩) 10 = .ok q at hq
  rw [hq'] at hrun
  rw [hq, hq'] at hne
  obtain ⟨hconv', hfindings⟩ := Prod.mk.inj (Option.some.inj hrun)
  obtain ⟨r, r', hr, hr', hadmits⟩ := hstates 1 (by decide)
  refine ⟨copied_graph, hinj, q, q', r, r', hgraph, hq, hq', hrounds, hconv', hconv ▸ hconv', hfindings, hr, hr', ?_,
    hadmits⟩
  rintro rfl
  exact hne (hr'.trans hr.symm)

end FlowFacts
