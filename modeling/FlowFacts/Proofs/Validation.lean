import Mathlib
import FlowFacts.Proofs.Graphs

/-!
# Which programs have a graph

A program is accepted if it declares the variables that it mentions, branches on assumptions only and
starts at one label. `Program.Validated` says what is answered in each case: the first of these
conditions that fails, with the names or labels to blame, or a graph that `Depicts` the program. The
answer is determined by this description, and `Program.graph` gives it (`Program.graph_iff_validated`).
-/

namespace FlowFacts

/-! ## Mentioned variables -/

def Value.Mentions (x : String) : Value → Prop
  | .var u | .plus u _ | .minus u _ => x = u
  | .const _ | .unknown => False

def Condition.Mentions (x : String) : Condition → Prop
  | .equal y value | .unequal y value => x = y ∨ value.Mentions x
  | .always | .never => False

def Atom.Mentions (x : String) : Atom → Prop
  | .even y | .odd y => x = y
  | .sum left right => x ∈ left ∨ x ∈ right

/-- A variable occurs in a statement. -/
def Statement.Mentions (x : String) : Statement → Prop
  | .skip => False
  | .assign y value => x = y ∨ value.Mentions x
  | .assume c => c.Mentions x
  | .assert a => ∃ c ∈ a.clauses, ∃ atom ∈ c, atom.Mentions x

theorem Value.mem_reads {x : String} {value : Value} : x ∈ value.reads.toList ↔ value.Mentions x := by
  cases value <;> simp [reads, Mentions]

theorem Atom.mem_names {x : String} {atom : Atom} : x ∈ atom.names ↔ atom.Mentions x := by
  cases atom <;> simp [names, Mentions]

theorem Statement.mem_mentions {x : String} {s : Statement} : x ∈ s.mentions ↔ s.Mentions x := by
  cases s with
  | skip => simp [mentions, Mentions]
  | assign y value => simp [mentions, Mentions, ← Value.mem_reads]
  | assume c => cases c <;> simp [mentions, Mentions, Condition.Mentions, ← Value.mem_reads]
  | assert a =>
    simp only [mentions, Mentions, Assertion.atoms, List.mem_flatMap, List.mem_flatten, Atom.mem_names]
    exact ⟨fun ⟨atom, ⟨c, hc, hatom⟩, hx⟩ => ⟨c, hc, atom, hatom, hx⟩,
      fun ⟨c, hc, atom, hatom, hx⟩ => ⟨atom, ⟨c, hc, hatom⟩, hx⟩⟩

/-! ## What is asked of a program -/

namespace Program

variable (p : Program)

def Mentions (x : String) : Prop := ∃ e ∈ p.edges, e.statement.Mentions x

/-- The declared variables are those that are mentioned. -/
def Scoped : Prop := ∀ x, x ∈ p.declared ↔ p.Mentions x

def HasLabel (l : Nat) : Prop := ∃ e ∈ p.edges, l = e.source ∨ l = e.target

/-- Two edges or more leave a label, and one of them is not an assumption. -/
def Ambiguous (l : Nat) : Prop :=
  2 ≤ p.edges.countP (·.source = l) ∧ ∃ e ∈ p.edges, e.source = l ∧ ∀ c, e.statement ≠ .assume c

/-- A label that no edge leads to. -/
def StartsAt (l : Nat) : Prop := p.HasLabel l ∧ ∀ e ∈ p.edges, e.target ≠ l

end Program

/-- The graph of a program: its nodes are the labels in ascending order, and its arcs are the edges in
their order, each between the nodes of its labels and in the lists of both. -/
structure Graph.Depicts (g : Graph) (p : Program) : Prop where
  names : Ascending g.names ∧ ∀ x, x ∈ g.names ↔ x ∈ p.declared
  labels : Ascending g.labels ∧ ∀ l, l ∈ g.labels ↔ p.HasLabel l
  arcs : List.Forall₂ (fun e arc => g.labels[arc.source]? = some e.source ∧
    g.labels[arc.target]? = some e.target ∧ arc.statement = e.statement) p.edges g.arcs
  nodes : g.nodes.map (·.label) = g.labels
  incoming : ∀ (n : Nat) (v : Node), g.nodes[n]? = some v → Ascending v.incoming ∧
    ∀ i, i ∈ v.incoming ↔ ∃ arc : Arc, g.arcs[i]? = some arc ∧ arc.target = n
  outgoing : ∀ (n : Nat) (v : Node), g.nodes[n]? = some v → Ascending v.outgoing ∧
    ∀ i, i ∈ v.outgoing ↔ ∃ arc : Arc, g.arcs[i]? = some arc ∧ arc.source = n
  /-- The arcs that a run follows are those at the listed positions. -/
  arcsInto : ∀ (n : Nat) (v : Node), g.nodes[n]? = some v →
    g.incoming n = .ok v.incoming ∧ g.arcsAt v.incoming = .ok (g.arcsInto n)
  arcsFrom : ∀ (n : Nat) (v : Node), g.nodes[n]? = some v →
    g.outgoing n = .ok v.outgoing ∧ g.arcsAt v.outgoing = .ok (g.arcsFrom n)
  entry : g.entry < g.size ∧ ∀ (n : Nat) (v : Node), g.nodes[n]? = some v → (v.incoming = [] ↔ n = g.entry)
  find : ∀ l n, g.find? l = some n ↔ g.labels[n]? = some l

/-- What is answered to a program: the first condition that it breaks, or its graph. -/
inductive Program.Validated (p : Program) : Except GraphError Graph → Prop where
  | mismatch {undeclared unused : List String} (hscoped : ¬ p.Scoped) (hundeclared : Ascending undeclared)
    (hunused : Ascending unused) (hmentioned : ∀ x, x ∈ undeclared ↔ p.Mentions x ∧ x ∉ p.declared)
    (hdeclared : ∀ x, x ∈ unused ↔ x ∈ p.declared ∧ ¬ p.Mentions x) :
    Validated p (.error (.variableMismatch undeclared unused))
  | ambiguous {l : Nat} (hscoped : p.Scoped) (hleast : IsLeast {l | p.Ambiguous l} l) :
    Validated p (.error (.ambiguousBranch l))
  | unentered (hscoped : p.Scoped) (hclear : ∀ l, ¬ p.Ambiguous l) (hnone : ∀ l, ¬ p.StartsAt l) :
    Validated p (.error .noEntry)
  | crowded {labels : List Nat} (hscoped : p.Scoped) (hclear : ∀ l, ¬ p.Ambiguous l) (hmany : 2 ≤ labels.length)
    (hascending : Ascending labels) (hentries : ∀ l, l ∈ labels ↔ p.StartsAt l) :
    Validated p (.error (.multipleEntries labels))
  | accepted {g : Graph} (hscoped : p.Scoped) (hclear : ∀ l, ¬ p.Ambiguous l) (hentry : ∃! l, p.StartsAt l)
    (hdepicts : g.Depicts p) : Validated p (.ok g)

/-! ## Ascending lists -/

theorem ascending_positions {α : Type} (q : α → Bool) (xs : List α) : Ascending (positions q xs) := by
  have hsub : List.Sublist (positions q xs) (List.range' 0 xs.length) := by
    rw [← List.zipIdx_map_snd]
    exact List.filter_sublist.map _
  exact ((List.pairwise_lt_range' 1).sublist hsub).imp Nat.compare_eq_lt.2

/-- In an ascending list the first element that passes a test is the least one. -/
theorem isLeast_of_find? {q : Nat → Bool} {xs : List Nat} (hxs : Ascending xs) {l : Nat} (h : xs.find? q = some l) :
    IsLeast {l | l ∈ xs ∧ q l = true} l := by
  obtain ⟨hl, before, after, rfl, hbefore⟩ := List.find?_eq_some_iff_append.1 h
  refine ⟨⟨by simp, hl⟩, ?_⟩
  rintro k ⟨hk, hq⟩
  rcases List.mem_append.1 hk with hk | hk
  · have := hbefore k hk
    rw [hq] at this
    cases this
  · rcases List.mem_cons.1 hk with rfl | hk
    · exact le_rfl
    · have hlt := (List.pairwise_cons.1 (List.pairwise_append.1 hxs).2.1).1 k hk
      exact (Nat.compare_eq_lt.1 hlt).le

/-! ## Arcs at a node -/

namespace Graph

variable {g : Graph} {n : Nat}

theorem map_label_nodes (g : Graph) : g.nodes.map (·.label) = g.labels := by
  refine List.ext_getElem? fun n => ?_
  rw [List.getElem?_map, nodes, Arc.getElem?_nodes, Option.map_map]
  exact congrFun Option.map_id_fun _

/-- The lists of a node are the positions of its arcs. -/
theorem lists_of_node {v : Node} (h : g.nodes[n]? = some v) :
    v.incoming = Arc.into g.arcs n ∧ v.outgoing = Arc.leaving g.arcs n := by
  rw [nodes, Arc.getElem?_nodes] at h
  obtain ⟨l, -, rfl⟩ := Option.map_eq_some_iff.1 h
  exact ⟨rfl, rfl⟩

theorem into_eq_nil : Arc.into g.arcs n = [] ↔ g.arcsInto n = [] := by
  rw [← List.isEmpty_iff, into_isEmpty, List.isEmpty_iff]

theorem find?_eq_some (hlabels : g.labels.Nodup) {l : Nat} : g.find? l = some n ↔ g.labels[n]? = some l := by
  unfold find?
  rw [List.findIdx?_eq_some_iff_getElem, List.getElem?_eq_some_iff]
  refine exists_congr fun hn => ?_
  simp only [decide_eq_true_eq]
  refine and_iff_left_of_imp fun hl j hj hlj => ?_
  have := (hlabels.getElem_inj_iff).1 (hlj.trans hl.symm)
  omega

end Graph

/-! ## Programs and their graphs -/

namespace Program

variable {p : Program}

theorem mem_used {x : String} : x ∈ p.used.toList ↔ p.Mentions x := by
  unfold used
  rw [SortedSet.mem_ofList, List.mem_flatMap]
  exact exists_congr fun e => and_congr_right fun _ => Statement.mem_mentions

theorem used_eq_declared_iff : p.used = p.declared ↔ p.Scoped := by
  refine ⟨fun h x => ?_, fun h => SortedSet.ext_mem fun x => mem_used.trans (h x).symm⟩
  rw [← mem_used, h]
  exact Iff.rfl

theorem isAmbiguous_iff {l : Nat} : p.isAmbiguous l = true ↔ p.Ambiguous l := by
  have hassume : ∀ s : Statement, s.isAssume = false ↔ ∀ c, s ≠ .assume c := fun s => by
    cases s <;> simp [Statement.isAssume]
  simp [isAmbiguous, Ambiguous, List.countP_eq_length_filter, hassume, Nat.lt_iff_add_one_le]

theorem Ambiguous.mem_labels {l : Nat} (h : p.Ambiguous l) : l ∈ p.labels.toList := by
  obtain ⟨-, e, he, rfl, -⟩ := h
  exact (mem_labels_of_edge he).1

theorem mem_entries_iff {l : Nat} : l ∈ p.entries ↔ p.StartsAt l := by
  rw [mem_entries, mem_labels]
  exact Iff.rfl

theorem ascending_entries : Ascending p.entries := p.labels.ascending.filter _

/-- The nodes that no arc leads to are those of the labels that a program starts at. -/
theorem arcsInto_idxOf_eq_nil {g : Graph} (h : p.graph = .ok g) {l : Nat} (hl : l ∈ g.labels) :
    g.arcsInto (g.labels.idxOf l) = [] ↔ p.StartsAt l := by
  obtain ⟨-, -, entry, -, rfl⟩ := graph_eq_ok.1 h
  rw [← mem_entries_iff, mem_entries, and_iff_right hl, Graph.arcsInto, List.filter_eq_nil_iff]
  simp only [arcs, List.forall_mem_map, decide_eq_true_eq]
  exact forall₂_congr fun e he => not_congr (List.idxOf_inj (mem_labels_of_edge he).2)

theorem startsAt_iff {entry : Nat} (h : p.entries = [entry]) (l : Nat) : p.StartsAt l ↔ l = entry := by
  rw [← mem_entries_iff, h, List.mem_singleton]

theorem exists_entry (h : ∃! l, p.StartsAt l) : ∃ entry, p.entries = [entry] := by
  obtain ⟨entry, hstarts, honly⟩ := h
  refine ⟨entry, ascending_entries.eq_of_mem_iff (List.pairwise_singleton _ _) fun l => ?_⟩
  rw [mem_entries_iff, List.mem_singleton]
  exact ⟨honly l, fun h => h ▸ hstarts⟩

theorem depicts_graph {g : Graph} (h : p.graph = .ok g) : g.Depicts p := by
  have hstarts := fun l (hl : l ∈ g.labels) => arcsInto_idxOf_eq_nil h hl
  have hlabels : g.labels.Nodup := graph_labels h ▸ p.labels.nodup_toList
  obtain ⟨-, -, entry, hentries, rfl⟩ := graph_eq_ok.1 h
  constructor
  · exact ⟨p.declared.ascending, fun x => Iff.rfl⟩
  · exact ⟨p.labels.ascending, fun l => mem_labels⟩
  · refine List.forall₂_map_right_iff.2 (List.forall₂_same.2 fun e he => ?_)
    obtain ⟨hsource, htarget⟩ := mem_labels_of_edge he
    exact ⟨List.getElem?_idxOf hsource, List.getElem?_idxOf htarget, rfl⟩
  · exact Graph.map_label_nodes _
  · intro n v hv
    rw [(Graph.lists_of_node hv).1]
    exact ⟨ascending_positions _ _, fun i => mem_positions.trans (by simp)⟩
  · intro n v hv
    rw [(Graph.lists_of_node hv).2]
    exact ⟨ascending_positions _ _, fun i => mem_positions.trans (by simp)⟩
  · intro n v hv
    refine ⟨by simp only [Graph.incoming, entryAt_eq_ok.2 hv, bind, Except.bind, pure, Except.pure], ?_⟩
    rw [(Graph.lists_of_node hv).1]
    exact mapM_positions _ _
  · intro n v hv
    refine ⟨by simp only [Graph.outgoing, entryAt_eq_ok.2 hv, bind, Except.bind, pure, Except.pure], ?_⟩
    rw [(Graph.lists_of_node hv).2]
    exact mapM_positions _ _
  · have hmem : entry ∈ p.labels.toList := (mem_entries.1 (hentries ▸ List.mem_singleton.2 rfl)).1
    refine ⟨List.idxOf_lt_length_of_mem hmem, fun n v hv => ?_⟩
    -- A node is the one of its label.
    obtain ⟨l, hl, rfl⟩ : ∃ l ∈ p.labels.toList, p.labels.toList.idxOf l = n := by
      rw [Graph.nodes, Arc.getElem?_nodes] at hv
      obtain ⟨l, hl, -⟩ := Option.map_eq_some_iff.1 hv
      exact ⟨l, List.mem_of_getElem? hl, (idxOf_eq_iff hl (List.mem_of_getElem? hl)).2 rfl⟩
    rw [(Graph.lists_of_node hv).1, Graph.into_eq_nil, hstarts l hl, startsAt_iff hentries, List.idxOf_inj hl]
  · exact fun l n => Graph.find?_eq_some hlabels

end Program

/-! ## Answers -/

namespace Graph.Depicts

variable {p : Program} {g g' : Graph}

/-- A graph is determined by what it depicts: an edge has one arc, since no label is listed twice. -/
theorem unique (h : g.Depicts p) (h' : g'.Depicts p) : g = g' := by
  have hnames : g.names = g'.names :=
    h.names.1.eq_of_mem_iff h'.names.1 fun x => (h.names.2 x).trans (h'.names.2 x).symm
  have hlabels : g.labels = g'.labels :=
    h.labels.1.eq_of_mem_iff h'.labels.1 fun l => (h.labels.2 l).trans (h'.labels.2 l).symm
  have hnode : ∀ {i j l : Nat}, g.labels[i]? = some l → g.labels[j]? = some l → i = j := fun hi hj =>
    (List.getElem?_inj (List.getElem?_eq_some_iff.1 hi).1 h.labels.1.nodup).1 (hi.trans hj.symm)
  have harcs : g.arcs = g'.arcs := by
    have harcs' := h'.arcs
    rw [← hlabels] at harcs'
    refine List.right_unique_forall₂' ?_ h.arcs harcs'
    rintro e ⟨source, target, statement⟩ ⟨source', target', statement'⟩ ⟨hs, ht, rfl⟩ ⟨hs', ht', rfl⟩
    cases hnode hs hs'
    cases hnode ht ht'
    rfl
  have hentry : g.entry = g'.entry := by
    have hnodes : g.nodes = g'.nodes := by rw [Graph.nodes, Graph.nodes, hlabels, harcs]
    have hv := entryAt_eq_ok.1 (Graph.entryAt_nodes h.entry.1)
    exact (h'.entry.2 g.entry _ (hnodes ▸ hv)).1 ((h.entry.2 g.entry _ hv).2 rfl)
  cases g
  cases g'
  cases hnames
  cases hlabels
  cases harcs
  cases hentry
  rfl

end Graph.Depicts

namespace Program

variable {p : Program}

theorem find?_isAmbiguous_eq_some {l : Nat} :
    p.labels.toList.find? p.isAmbiguous = some l ↔ IsLeast {l | p.Ambiguous l} l := by
  have hset : {l | l ∈ p.labels.toList ∧ p.isAmbiguous l = true} = {l | p.Ambiguous l} :=
    Set.ext fun l => ⟨fun h => isAmbiguous_iff.1 h.2, fun h => ⟨h.mem_labels, isAmbiguous_iff.2 h⟩⟩
  constructor
  · exact fun h => hset ▸ isLeast_of_find? p.labels.ascending h
  · intro h
    cases hfind : p.labels.toList.find? p.isAmbiguous with
    | none => exact absurd (isAmbiguous_iff.2 h.1) (List.find?_eq_none.1 hfind l h.1.mem_labels)
    | some k => rw [h.unique (hset ▸ isLeast_of_find? p.labels.ascending hfind)]

theorem find?_isAmbiguous_eq_none : p.labels.toList.find? p.isAmbiguous = none ↔ ∀ l, ¬ p.Ambiguous l := by
  rw [List.find?_eq_none]
  exact ⟨fun h l hl => h l hl.mem_labels (isAmbiguous_iff.2 hl), fun h l _ hl => h l (isAmbiguous_iff.1 hl)⟩

theorem graph_of_not_scoped (h : ¬ p.Scoped) : p.graph =
    .error (.variableMismatch (p.used.diff p.declared).toList (p.declared.diff p.used).toList) := by
  rw [graph, if_pos (mt used_eq_declared_iff.1 h)]

section Scoped

variable (hscoped : p.Scoped)

include hscoped

theorem graph_of_ambiguous {l : Nat} (h : IsLeast {l | p.Ambiguous l} l) : p.graph = .error (.ambiguousBranch l) := by
  simp only [graph, if_neg (not_not.2 (used_eq_declared_iff.2 hscoped)), find?_nodes, find?_isAmbiguous_eq_some.2 h,
    Option.map_some, node]

variable (hclear : ∀ l, ¬ p.Ambiguous l)

include hclear

theorem graph_of_noEntry (h : p.entries = []) : p.graph = .error .noEntry := by
  simp only [graph, if_neg (not_not.2 (used_eq_declared_iff.2 hscoped)), find?_nodes, filter_nodes,
    find?_isAmbiguous_eq_none.2 hclear, Option.map_none, h, List.map_nil]

theorem exists_graph_of_entry {entry : Nat} (h : p.entries = [entry]) : ∃ g, p.graph = .ok g := by
  refine ⟨_, graph_eq_ok.2 ⟨used_eq_declared_iff.2 hscoped, fun l _ => ?_, entry, h, rfl⟩⟩
  exact Bool.eq_false_iff.2 (mt isAmbiguous_iff.1 (hclear l))

theorem graph_of_entries (h : 2 ≤ p.entries.length) : p.graph = .error (.multipleEntries p.entries) := by
  rcases hentries : p.entries with _ | ⟨l, _ | ⟨k, rest⟩⟩
  · simp [hentries] at h
  · simp [hentries] at h
  · simp only [graph, if_neg (not_not.2 (used_eq_declared_iff.2 hscoped)), find?_nodes, filter_nodes,
      find?_isAmbiguous_eq_none.2 hclear, Option.map_none, hentries, List.map_cons]
    simp [node, Function.comp_def]

end Scoped

theorem mem_undeclared {x : String} : x ∈ (p.used.diff p.declared).toList ↔ p.Mentions x ∧ x ∉ p.declared := by
  rw [SortedSet.mem_diff, mem_used]
  exact Iff.rfl

theorem mem_unused {x : String} : x ∈ (p.declared.diff p.used).toList ↔ x ∈ p.declared ∧ ¬ p.Mentions x := by
  rw [SortedSet.mem_diff, mem_used]
  exact Iff.rfl

theorem validated_graph (p : Program) : p.Validated p.graph := by
  by_cases hscoped : p.Scoped
  · by_cases hclear : ∀ l, ¬ p.Ambiguous l
    · cases hentries : p.entries with
      | nil =>
        rw [graph_of_noEntry hscoped hclear hentries]
        refine .unentered hscoped hclear fun l => ?_
        rw [← mem_entries_iff, hentries]
        exact List.not_mem_nil
      | cons entry rest =>
        cases rest with
        | nil =>
          obtain ⟨g, hg⟩ := exists_graph_of_entry hscoped hclear hentries
          rw [hg]
          refine .accepted hscoped hclear ⟨entry, ?_, fun l => ?_⟩ (depicts_graph hg)
          · exact (startsAt_iff hentries entry).2 rfl
          · exact (startsAt_iff hentries l).1
        | cons k rest =>
          have hmany : 2 ≤ p.entries.length := by simp [hentries]
          rw [graph_of_entries hscoped hclear hmany]
          exact .crowded hscoped hclear hmany ascending_entries fun l => mem_entries_iff
    · have hsome : ∃ l, p.labels.toList.find? p.isAmbiguous = some l :=
        Option.ne_none_iff_exists'.1 (mt find?_isAmbiguous_eq_none.1 hclear)
      obtain ⟨l, hl⟩ := hsome
      have hleast := find?_isAmbiguous_eq_some.1 hl
      rw [graph_of_ambiguous hscoped hleast]
      exact .ambiguous hscoped hleast
  · rw [graph_of_not_scoped hscoped]
    exact .mismatch hscoped (SortedSet.ascending _) (SortedSet.ascending _) (fun x => mem_undeclared)
      fun x => mem_unused

theorem graph_of_validated {r : Except GraphError Graph} (h : p.Validated r) : p.graph = r := by
  cases h with
  | mismatch hscoped hundeclared hunused hmentioned hdeclared =>
    rw [graph_of_not_scoped hscoped,
      (SortedSet.ascending _).eq_of_mem_iff hundeclared fun x => mem_undeclared.trans (hmentioned x).symm,
      (SortedSet.ascending _).eq_of_mem_iff hunused fun x => mem_unused.trans (hdeclared x).symm]
  | ambiguous hscoped hleast => exact graph_of_ambiguous hscoped hleast
  | unentered hscoped hclear hnone =>
    refine graph_of_noEntry hscoped hclear (List.eq_nil_iff_forall_not_mem.2 fun l hl => ?_)
    exact hnone l (mem_entries_iff.1 hl)
  | crowded hscoped hclear hmany hascending hentries =>
    have heq := ascending_entries.eq_of_mem_iff hascending fun l => mem_entries_iff.trans (hentries l).symm
    rw [← heq] at hmany ⊢
    exact graph_of_entries hscoped hclear hmany
  | accepted hscoped hclear hentry hdepicts =>
    obtain ⟨entry, hentries⟩ := exists_entry hentry
    obtain ⟨g', hg'⟩ := exists_graph_of_entry hscoped hclear hentries
    rw [hg', (depicts_graph hg').unique hdepicts]

/-- A program has a graph exactly if it declares the variables that it mentions, every label that two edges or
more leave has assumptions only, and it starts at exactly one label. What is answered is the one thing that
validation describes: the first condition that fails, or the graph. -/
theorem graph_iff_validated (p : Program) :
    ((∃ g, p.graph = .ok g) ↔ p.Scoped ∧ (∀ l, ¬ p.Ambiguous l) ∧ ∃! l, p.StartsAt l) ∧
      ∀ r, p.graph = r ↔ p.Validated r := by
  refine ⟨⟨?_, ?_⟩, fun r => ⟨fun h => h ▸ validated_graph p, graph_of_validated⟩⟩
  · rintro ⟨g, hg⟩
    cases hg ▸ validated_graph p with
    | accepted hscoped hclear hentry _ => exact ⟨hscoped, hclear, hentry⟩
  · rintro ⟨hscoped, hclear, hentry⟩
    obtain ⟨entry, hentries⟩ := exists_entry hentry
    exact exists_graph_of_entry hscoped hclear hentries

/-- Labels `5` and `7` are both left by two edges, of which one is a loop and two lead to the same label. The smaller
one is named, although the program starts nowhere either. -/
example : (⟨.empty, [⟨7, .skip, 9⟩, ⟨7, .skip, 9⟩, ⟨5, .assume .always, 5⟩, ⟨5, .skip, 7⟩]⟩ : Program).graph =
    .error (.ambiguousBranch 5) := by decide

end Program

end FlowFacts
