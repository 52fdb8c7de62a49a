import Mathlib
import FlowFacts.Graph.Execution
import FlowFacts.Proofs.Faults
import FlowFacts.Proofs.SortedSets

/-!
# What validation leaves of a program

The nodes of a graph are filled in a loop over the arcs. At its end the lists of a node hold the positions of the
arcs that lead to it and of those that leave it (`Arc.getElem?_nodes`), so that the arcs found through the lists are
those with the node as their target or source (`Graph.arcsAt_incoming`, `Graph.successors_eq`).

A program that is accepted has a proper graph (`Program.proper_graph`): its variables are all
different and its statements mention no others, its arcs run between its nodes, and no arc leads to
the entry.
-/

namespace FlowFacts

/-! ## Positions in a list -/

/-- The positions of the elements that pass a test. -/
def positions {α : Type} (q : α → Bool) (xs : List α) : List Nat := (xs.zipIdx.filter fun e => q e.1).map (·.2)

section Positions

variable {α : Type} (q : α → Bool) (xs : List α)

theorem filter_eq_map_zipIdx : xs.filter q = (xs.zipIdx.filter fun e => q e.1).map (·.1) := by
  conv_lhs => rw [← List.zipIdx_map_fst 0 xs, List.filter_map]
  rfl

theorem length_positions : (positions q xs).length = (xs.filter q).length := by
  rw [positions, filter_eq_map_zipIdx q xs, List.length_map, List.length_map]

variable {q xs} in
theorem mem_positions {i : Nat} : i ∈ positions q xs ↔ ∃ x, xs[i]? = some x ∧ q x = true := by
  simp [positions, List.mem_zipIdx_iff_getElem?]

/-- The elements at the positions are those that pass the test. -/
theorem mapM_positions : (positions q xs).mapM (entryAt xs) = .ok (xs.filter q) := by
  rw [filter_eq_map_zipIdx q xs, positions]
  refine mapM_of_forall₂ (List.forall₂_map_left_iff.2 (List.forall₂_map_right_iff.2 (List.forall₂_same.2 ?_)))
  intro e he
  exact entryAt_eq_ok.2 (List.mem_zipIdx_iff_getElem?.1 (List.mem_filter.1 he).1)

variable {xs} in
theorem positions_congr {q r : α → Bool} (h : ∀ x ∈ xs, q x = r x) : positions q xs = positions r xs := by
  refine congrArg (List.map _) (List.filter_congr fun e he => h e.1 ?_)
  exact List.mem_of_getElem? (List.mem_zipIdx_iff_getElem?.1 he)

theorem positions_map {β : Type} (q : β → Bool) (f : α → β) :
    positions q (xs.map f) = positions (fun x => q (f x)) xs := by
  rw [positions, positions, List.zipIdx_map, List.filter_map, List.map_map]
  rfl

end Positions

/-! ## Nodes -/

/-- A node to whose lists some numbered arcs have been added, at the place that it has among the nodes. -/
def Node.joined (n : Nat) (qs : List (Arc × Nat)) (v : Node) : Node where
  label := v.label
  incoming := v.incoming ++ (qs.filter (·.1.target = n)).map (·.2)
  outgoing := v.outgoing ++ (qs.filter (·.1.source = n)).map (·.2)

namespace Arc

/-- An arc is added to the lists of its target and its source, and no other list changes. -/
theorem getElem?_enter (nodes : List Node) (q : Arc × Nat) (n : Nat) :
    (enter nodes q)[n]? = nodes[n]?.map (Node.joined n [q]) := by
  simp only [enter, List.getElem?_modify]
  cases nodes[n]? with
  | none => rfl
  | some v => by_cases htarget : q.1.target = n <;> by_cases hsource : q.1.source = n <;>
      simp [Node.joined, htarget, hsource]

theorem getElem?_foldl_enter (qs : List (Arc × Nat)) (nodes : List Node) (n : Nat) :
    (qs.foldl enter nodes)[n]? = nodes[n]?.map (Node.joined n qs) := by
  induction qs generalizing nodes with
  | nil =>
    have hnone : Node.joined n [] = id := by
      funext v
      simp [Node.joined]
    rw [List.foldl_nil, hnone, Option.map_id_fun, id]
  | cons q rest ih =>
    have hjoined : Node.joined n rest ∘ Node.joined n [q] = Node.joined n (q :: rest) := by
      funext v
      simp only [Node.joined, Function.comp, List.append_assoc, ← List.map_append, ← List.filter_append,
        List.singleton_append]
    rw [List.foldl_cons, ih, getElem?_enter, Option.map_map, hjoined]

/-- The positions of the arcs that lead to a node. -/
def into (arcs : List Arc) (n : Nat) : List Nat := positions (·.target = n) arcs

/-- The positions of the arcs that leave a node. -/
def leaving (arcs : List Arc) (n : Nat) : List Nat := positions (·.source = n) arcs

/-- When all arcs have been entered, each node lists those that lead to it and those that leave it. -/
theorem getElem?_nodes (labels : List Nat) (arcs : List Arc) (n : Nat) :
    (nodes labels arcs)[n]? = labels[n]?.map fun l => ⟨l, into arcs n, leaving arcs n⟩ := by
  rw [nodes, getElem?_foldl_enter, List.getElem?_map, Option.map_map]
  rfl

end Arc

namespace Graph

variable {g : Graph} {n : Nat}

/-- The arcs that lead to a node. -/
def arcsInto (g : Graph) (n : Nat) : List Arc := g.arcs.filter (·.target = n)

/-- The arcs that leave a node. -/
def arcsFrom (g : Graph) (n : Nat) : List Arc := g.arcs.filter (·.source = n)

/-- The nodes to which arcs lead from a node, one for each arc. -/
def targets (g : Graph) (n : Nat) : List Nat := (g.arcsFrom n).map (·.target)

theorem entryAt_labels (h : n < g.size) : entryAt g.labels n = .ok (g.labels.get ⟨n, h⟩) := entryAt_of_lt h

theorem entryAt_nodes (h : n < g.size) :
    entryAt g.nodes n = .ok ⟨g.labels.get ⟨n, h⟩, Arc.into g.arcs n, Arc.leaving g.arcs n⟩ := by
  rw [entryAt_eq_ok, nodes, Arc.getElem?_nodes, List.getElem?_eq_getElem h]
  rfl

theorem incoming_eq (h : n < g.size) : g.incoming n = .ok (Arc.into g.arcs n) := by
  simp only [incoming, entryAt_nodes h, bind, Except.bind, pure, Except.pure]

theorem arcsAt_incoming (g : Graph) (n : Nat) : g.arcsAt (Arc.into g.arcs n) = .ok (g.arcsInto n) :=
  mapM_positions _ _

theorem successors_eq (h : n < g.size) : g.successors n = .ok (g.targets n) := by
  have harcs : g.arcsAt (Arc.leaving g.arcs n) = .ok (g.arcsFrom n) := mapM_positions _ _
  simp only [successors, outgoing, entryAt_nodes h, harcs, bind, Except.bind, pure, Except.pure, targets]

theorem into_isEmpty (g : Graph) (n : Nat) : (Arc.into g.arcs n).isEmpty = (g.arcsInto n).isEmpty := by
  rw [Bool.eq_iff_iff, List.isEmpty_iff_length_eq_zero, List.isEmpty_iff_length_eq_zero, Arc.into, length_positions,
    arcsInto]

theorem mem_arcsInto {arc : Arc} : arc ∈ g.arcsInto n ↔ arc ∈ g.arcs ∧ arc.target = n := by
  simp [arcsInto]

theorem mem_targets {m : Nat} : m ∈ g.targets n ↔ ∃ arc ∈ g.arcs, arc.source = n ∧ arc.target = m := by
  simp [targets, arcsFrom, and_assoc]

/-- What every graph of an accepted program satisfies. -/
structure Proper (g : Graph) : Prop where
  nodup : g.names.Nodup
  mentions : ∀ arc ∈ g.arcs, ∀ x ∈ arc.statement.mentions, x ∈ g.names
  source_lt : ∀ arc ∈ g.arcs, arc.source < g.size
  target_lt : ∀ arc ∈ g.arcs, arc.target < g.size
  entry_lt : g.entry < g.size
  entry : g.arcsInto g.entry = []

theorem Proper.node_lt (hg : g.Proper) (h : g.arcsInto n ≠ []) : n < g.size := by
  obtain ⟨arc, harc⟩ := List.exists_mem_of_ne_nil _ h
  obtain ⟨hmem, rfl⟩ := mem_arcsInto.1 harc
  exact hg.target_lt arc hmem

theorem Proper.ne_entry (hg : g.Proper) (h : g.arcsInto n ≠ []) : g.entry ≠ n := by
  rintro rfl
  exact h hg.entry

end Graph

namespace Program

variable {p : Program}

theorem mem_labels {l : Nat} : l ∈ p.labels.toList ↔ ∃ e ∈ p.edges, l = e.source ∨ l = e.target := by
  unfold labels
  rw [SortedSet.mem_ofList, List.mem_flatMap]
  simp

theorem mem_labels_of_edge {e : Edge} (he : e ∈ p.edges) :
    e.source ∈ p.labels.toList ∧ e.target ∈ p.labels.toList :=
  ⟨mem_labels.2 ⟨e, he, .inl rfl⟩, mem_labels.2 ⟨e, he, .inr rfl⟩⟩

theorem mem_arcs {arc : Arc} : arc ∈ p.arcs ↔ ∃ e ∈ p.edges,
    arc = ⟨p.labels.toList.idxOf e.source, p.labels.toList.idxOf e.target, e.statement⟩ := by
  simp only [arcs, List.mem_map]
  exact exists_congr fun e => and_congr_right fun _ => eq_comm

/-! ### The checks on the nodes -/

/-- The node of a label. -/
def node (p : Program) (l : Nat) : Node := ⟨l, positions (·.target = l) p.edges, positions (·.source = l) p.edges⟩

/-- Whether several edges leave a label and one of them is not an assumption. -/
def isAmbiguous (p : Program) (l : Nat) : Bool :=
  1 < (p.edges.filter (·.source = l)).length && (p.edges.filter (·.source = l)).any fun e => !e.statement.isAssume

/-- The labels that no edge leads to. -/
def entries (p : Program) : List Nat := p.labels.toList.filter fun l => p.edges.all (·.target ≠ l)

theorem mem_entries {l : Nat} : l ∈ p.entries ↔ l ∈ p.labels.toList ∧ ∀ e ∈ p.edges, e.target ≠ l := by
  simp [entries]

theorem idxOf_eq_iff {n l k : Nat} (hl : p.labels.toList[n]? = some l) (hk : k ∈ p.labels.toList) :
    p.labels.toList.idxOf k = n ↔ k = l := by
  obtain ⟨hn, rfl⟩ := List.getElem?_eq_some_iff.1 hl
  rw [← List.idxOf_inj hk, p.labels.nodup_toList.idxOf_getElem]

/-- The loop over the arcs gives every label its node. -/
theorem nodes_eq (p : Program) : p.nodes = p.labels.toList.map p.node := by
  refine List.ext_getElem? fun n => ?_
  rw [nodes, Arc.getElem?_nodes, List.getElem?_map]
  cases hl : p.labels.toList[n]? with
  | none => rfl
  | some l =>
    have hinto : Arc.into p.arcs n = positions (·.target = l) p.edges := by
      rw [Arc.into, arcs, positions_map]
      exact positions_congr fun e he => by simp [idxOf_eq_iff hl (mem_labels_of_edge he).2]
    have hleaving : Arc.leaving p.arcs n = positions (·.source = l) p.edges := by
      rw [Arc.leaving, arcs, positions_map]
      exact positions_congr fun e he => by simp [idxOf_eq_iff hl (mem_labels_of_edge he).1]
    simp only [Option.map_some, node, hinto, hleaving]

theorem isAmbiguous_node (l : Nat) : (p.node l).isAmbiguous p.arcs = p.isAmbiguous l := by
  have houtgoing : (p.node l).outgoing = positions (·.source = l) p.edges := rfl
  rw [Node.isAmbiguous, isAmbiguous, houtgoing, length_positions]
  congr 1
  rw [Bool.eq_iff_iff, List.any_eq_true, List.any_eq_true]
  constructor
  · rintro ⟨i, hi, hany⟩
    obtain ⟨e, he, hsource⟩ := mem_positions.1 hi
    refine ⟨e, List.mem_filter.2 ⟨List.mem_of_getElem? he, hsource⟩, ?_⟩
    simpa [arcs, he] using hany
  · rintro ⟨e, he, hany⟩
    obtain ⟨hmem, hsource⟩ := List.mem_filter.1 he
    obtain ⟨i, hi⟩ := List.mem_iff_getElem?.1 hmem
    refine ⟨i, mem_positions.2 ⟨e, hi, hsource⟩, ?_⟩
    simpa [arcs, hi] using hany

/-- The first node with a mixed branch is that of the first label with one. -/
theorem find?_nodes (p : Program) :
    p.nodes.find? (Node.isAmbiguous p.arcs) = (p.labels.toList.find? p.isAmbiguous).map p.node := by
  rw [nodes_eq, List.find?_map]
  exact congrArg (fun q => (p.labels.toList.find? q).map p.node) (funext isAmbiguous_node)

/-- The nodes that no arc leads to are those of the entries. -/
theorem filter_nodes (p : Program) : p.nodes.zipIdx.filter (fun q => q.1.incoming.isEmpty) =
    p.entries.map fun l => (p.node l, p.labels.toList.idxOf l) := by
  have hempty : ∀ l, (p.node l).incoming.isEmpty = p.edges.all (·.target ≠ l) := by
    intro l
    rw [Bool.eq_iff_iff, List.isEmpty_iff_length_eq_zero, node, length_positions, List.length_eq_zero_iff,
      List.filter_eq_nil_iff]
    simp
  have hzip : p.labels.toList.zipIdx = p.labels.toList.map fun l => (l, p.labels.toList.idxOf l) := by
    refine List.ext_getElem (by simp) fun n hn _ => ?_
    simp [p.labels.nodup_toList.idxOf_getElem]
  rw [nodes_eq, List.zipIdx_map, hzip, List.map_map, List.filter_map, entries]
  exact congrArg (fun q => (p.labels.toList.filter q).map fun l => (p.node l, p.labels.toList.idxOf l)) (funext hempty)

/-- Which programs are accepted, and what their graphs are made of. -/
theorem graph_eq_ok {g : Graph} : p.graph = .ok g ↔
    p.used = p.declared ∧ (∀ l ∈ p.labels.toList, p.isAmbiguous l = false) ∧ ∃ entry, p.entries = [entry] ∧
      g = ⟨p.declared.toList, p.labels.toList, p.arcs, p.labels.toList.idxOf entry⟩ := by
  have hfind : p.nodes.find? (Node.isAmbiguous p.arcs) = none ↔ ∀ l ∈ p.labels.toList, p.isAmbiguous l = false := by
    simp [find?_nodes]
  unfold graph
  rw [filter_nodes]
  constructor
  · intro h
    split at h
    · cases h
    · next hused =>
      split at h
      · cases h
      · next hnone =>
        split at h
        · cases h
        · next found hentries =>
          obtain ⟨entry, hentry, rfl⟩ := List.map_eq_singleton_iff.1 hentries
          exact ⟨not_not.1 hused, hfind.1 hnone, entry, hentry, (Except.ok.inj h).symm⟩
        · cases h
  · rintro ⟨hused, hclear, entry, hentries, rfl⟩
    simp only [if_neg (not_not.2 hused), hfind.2 hclear, hentries, List.map_cons, List.map_nil]

theorem graph_names {g : Graph} (h : p.graph = .ok g) : g.names = p.declared.toList := by
  obtain ⟨-, -, entry, -, rfl⟩ := graph_eq_ok.1 h
  rfl

theorem graph_labels {g : Graph} (h : p.graph = .ok g) : g.labels = p.labels.toList := by
  obtain ⟨-, -, entry, -, rfl⟩ := graph_eq_ok.1 h
  rfl

theorem proper_graph {g : Graph} (h : p.graph = .ok g) : g.Proper := by
  obtain ⟨hused, -, entry, hentries, rfl⟩ := graph_eq_ok.1 h
  have hentry : entry ∈ p.labels.toList ∧ ∀ e ∈ p.edges, e.target ≠ entry :=
    mem_entries.1 (hentries ▸ List.mem_singleton.2 rfl)
  constructor
  · exact p.declared.nodup_toList
  · intro arc harc x hx
    obtain ⟨e, he, rfl⟩ := mem_arcs.1 harc
    show x ∈ p.declared.toList
    rw [← hused]
    exact SortedSet.mem_ofList.2 (List.mem_flatMap.2 ⟨e, he, hx⟩)
  · intro arc harc
    obtain ⟨e, he, rfl⟩ := mem_arcs.1 harc
    exact List.idxOf_lt_length_of_mem (mem_labels_of_edge he).1
  · intro arc harc
    obtain ⟨e, he, rfl⟩ := mem_arcs.1 harc
    exact List.idxOf_lt_length_of_mem (mem_labels_of_edge he).2
  · exact List.idxOf_lt_length_of_mem hentry.1
  · refine List.eq_nil_iff_forall_not_mem.2 fun arc harc => ?_
    obtain ⟨hmem, htarget⟩ := Graph.mem_arcsInto.1 harc
    obtain ⟨e, he, rfl⟩ := mem_arcs.1 hmem
    exact hentry.2 e he ((List.idxOf_inj (mem_labels_of_edge he).2).1 htarget)

end Program

/-! ## Programs that serve as examples -/

/-- A constant is copied from one variable to another. -/
def Program.copied : Program where
  declared := .ofList ["x", "y"]
  edges := [⟨0, .assign "x" (.const 3), 1⟩, ⟨1, .assign "y" (.var "x"), 2⟩, ⟨2, .assert ⟨[[.sum ["x"] ["y"]]]⟩, 3⟩]

def Graph.copied : Graph where
  names := ["x", "y"]
  labels := [0, 1, 2, 3]
  arcs := [⟨0, 1, .assign "x" (.const 3)⟩, ⟨1, 2, .assign "y" (.var "x")⟩, ⟨2, 3, .assert ⟨[[.sum ["x"] ["y"]]]⟩⟩]
  entry := 0

theorem copied_graph : Program.copied.graph = .ok .copied := by decide

/-- Two variables start with the same value and are counted up together. -/
def Program.lockstep : Program where
  declared := .ofList ["x", "y"]
  edges := [⟨0, .assign "x" .unknown, 1⟩, ⟨1, .assign "y" (.var "x"), 2⟩, ⟨2, .assume .always, 3⟩,
    ⟨3, .assign "x" (.plus "x" 1), 4⟩, ⟨4, .assign "y" (.plus "y" 1), 2⟩, ⟨2, .assume .always, 5⟩,
    ⟨5, .assert ⟨[[.even "x", .even "y"], [.odd "x", .odd "y"]]⟩, 6⟩]

def Graph.lockstep : Graph where
  names := ["x", "y"]
  labels := [0, 1, 2, 3, 4, 5, 6]
  arcs := [⟨0, 1, .assign "x" .unknown⟩, ⟨1, 2, .assign "y" (.var "x")⟩, ⟨2, 3, .assume .always⟩,
    ⟨3, 4, .assign "x" (.plus "x" 1)⟩, ⟨4, 2, .assign "y" (.plus "y" 1)⟩, ⟨2, 5, .assume .always⟩,
    ⟨5, 6, .assert ⟨[[.even "x", .even "y"], [.odd "x", .odd "y"]]⟩⟩]
  entry := 0

theorem lockstep_graph : Program.lockstep.graph = .ok .lockstep := by decide

end FlowFacts
