/-
**What explanations show.**

An explanation follows producers from the roots of a graph, whatever the edges are: a path may come
back to an operator, or lead to one that is missing.  An operator is shown in full where it is met
first, and by its name where it is met again, so every step down meets an operator that was not
shown yet, or ends there.

Main results:

* `Graph.drawn_explainNode` — operators are drawn so, if the depth exceeds the number of those not
  shown yet;
* `Graph.Drawn.nodup`, `Graph.Drawn.closed`, `Graph.Drawn.within` — what is shown in full;
* `Graph.upstream_shown_once` — **at every level exactly the operators upstream of the roots are
  shown in full**, each once.
-/

import Dataflow.Explain
import Dataflow.Proofs.Graph.Traversal
import Mathlib

namespace Dataflow.Graph

open List

variable {g : Dag} {ids shown full : List Nat} {trees : List Text.Tree}

/-- What stands below the producers of an operator: the graph of a pipeline. -/
def innerTrees (g : Dag) (id : Nat) : List Text.Tree :=
  ((g.inner? id).map fun h => Text.Tree.node "inner" none [] h.explanations).toList

/-- How operators are drawn one after the other, when some were shown before: one that is missing
and one that was shown by their names and without children, and any other in full, with its
producers and the graph inside it below. The last list has those in full, the last one first. -/
inductive Drawn (g : Dag) : (shown ids : List Nat) → List Text.Tree → (full : List Nat) → Prop
  | nil {shown : List Nat} : Drawn g shown [] [] []
  | missing {id : Nat} {shown ids full : List Nat} {trees : List Text.Tree}
      (hid : g.node? id = none) (rest : Drawn g shown ids trees full) :
      Drawn g shown (id :: ids) (.node s!"<missing {id}>" none [] [] :: trees) full
  | shared {id : Nat} {node : Node Operator} {shown ids full : List Nat} {trees : List Text.Tree}
      (hid : g.node? id = some node) (again : id ∈ shown) (rest : Drawn g shown ids trees full) :
      Drawn g shown (id :: ids) (.node node.name (some "shared") [] [] :: trees) full
  | full {id : Nat} {node : Node Operator} {shown ids full more : List Nat}
      {below trees : List Text.Tree} (hid : g.node? id = some node) (new : id ∉ shown)
      (producers : Drawn g (id :: shown) (g.producers id) below full)
      (rest : Drawn g (full ++ id :: shown) ids trees more) :
      Drawn g shown (id :: ids) (.node node.name
        (some node.kind.text) node.note.lines (below ++ g.innerTrees id) :: trees)
        (more ++ full ++ [id])

/-- The operators that can be reached from the roots along producers, all of which there are. -/
inductive Upstream (g : Dag) : Nat → Prop
  | root {id : Nat} (hroot : id ∈ g.roots) (hid : id ∈ g.ids) : Upstream g id
  | producer {id q : Nat} (down : Upstream g id) (hq : q ∈ g.producers id)
      (hid : q ∈ g.ids) : Upstream g q

/-! ### What is shown in full -/

theorem Drawn.nodup (h : Drawn g shown ids trees full) (hshown : shown.Nodup) :
    (full ++ shown).Nodup := by
  induction h with
  | nil => exact hshown
  | missing _ _ ih | shared _ _ _ ih => exact ih hshown
  | full _ new _ _ ihp ih => simpa using ih (ihp (nodup_cons.2 ⟨new, hshown⟩))

/-- What is shown in the end has the operators that were to be drawn, and the producers of all that
was added. -/
theorem Drawn.closed (h : Drawn g shown ids trees full) :
    (∀ id ∈ ids, id ∈ g.ids → id ∈ full ++ shown) ∧ ∀ id ∈ full, ∀ q ∈ g.producers id, q ∈ g.ids →
      q ∈ full ++ shown := by
  induction h with
  | nil => simp
  | missing hid _ ih =>
    refine ⟨forall_mem_cons.2 ⟨fun hmem => ?_, ih.1⟩, ih.2⟩
    obtain ⟨node, hnode⟩ := node?_of_mem_ids hmem
    rw [hid] at hnode
    cases hnode
  | shared _ again _ ih => exact ⟨forall_mem_cons.2 ⟨fun _ => mem_append_right _ again, ih.1⟩, ih.2⟩
  | @full id _ _ _ full more _ _ _ _ _ _ ihp ih =>
    simp only [mem_append, mem_cons] at ihp ih ⊢
    grind

theorem Drawn.within (h : Drawn g shown ids trees full) {P : Nat → Prop}
    (hids : ∀ id ∈ ids, id ∈ g.ids → P id) (hstep : ∀ id, P id → ∀ q ∈ g.producers id, q ∈ g.ids →
      P q) : ∀ id ∈ full, P id := by
  induction h with
  | nil => simp
  | missing _ _ ih | shared _ _ _ ih => exact ih (forall_mem_cons.1 hids).2
  | full hid _ _ _ ihp ih =>
    rw [forall_mem_cons] at hids
    have hself := hids.1 (mem_ids_of_node? hid)
    simp only [forall_mem_append, forall_mem_singleton]
    exact ⟨⟨ih hids.2, ihp (hstep _ hself)⟩, hself⟩

/-! ### The run -/

/-- The number of operators that were not shown yet. -/
def unshown (g : Dag) (shown : List Nat) : Nat := (g.ids.filter (· ∉ shown)).length

theorem unshown_append_le (full shown : List Nat) : g.unshown (full ++ shown) ≤ g.unshown shown :=
  (monotone_filter_right _ fun _ h => by simp at h ⊢; exact h.2).length_le

theorem unshown_cons_lt {id : Nat} (hid : id ∈ g.ids) (hnew : id ∉ shown) :
    g.unshown (id :: shown) < g.unshown shown := by
  have hfilter : g.ids.filter (· ∉ id :: shown) = (g.ids.filter (· ∉ shown)).filter (· ≠ id) := by
    rw [List.filter_filter]
    exact filter_congr fun q _ => by simp
  rw [unshown, hfilter]
  exact length_filter_lt_length_iff_exists.2 ⟨id, by simp [hid, hnew], by simp⟩

theorem run_mapM_cons {α : Type} (f : Nat → StateM (List Nat) α) (id : Nat) (ids shown : List Nat) :
    ((id :: ids).mapM f).run shown = let first := (f id).run shown
      let others := (ids.mapM f).run first.2
      (first.1 :: others.1, others.2) := by
  rw [mapM_cons]
  rfl

section

variable {inner : Table (List Text.Tree)}

theorem innerTrees_eq {id : Nat} (hinner : inner.get? id = (g.inner? id).map explanations) :
    g.innerTrees id = match inner.get? id with
    | some trees => [.node "inner" none [] trees]
    | none => [] := by
  rw [hinner, innerTrees]
  cases g.inner? id <;> rfl

theorem run_explainNode {depth id : Nat} {node : Node Operator} (hnode : g.node? id = some node)
    (hinner : inner.get? id = (g.inner? id).map explanations) :
    (g.explainNode inner (depth + 1) id).run shown =
      if id ∈ shown then (.node node.name (some "shared") [] [], shown)
      else
        let below := ((g.producers id).mapM (g.explainNode inner depth)).run (id :: shown)
        (.node node.name (some node.kind.text)
          node.note.lines (below.1 ++ g.innerTrees id), below.2) := by
  rw [innerTrees_eq hinner]
  unfold explainNode
  rw [hnode]
  show (if id ∈ shown then _ else _ : StateM (List Nat) Text.Tree).run shown = _
  split <;> rfl

/-- **Operators are drawn so**, if the depth exceeds the number of operators that were not shown
yet. -/
theorem drawn_explainNode (hinner : ∀ id, inner.get? id = (g.inner? id).map explanations)
    (depth : Nat) (ids shown : List Nat) (hdepth : g.unshown shown < depth) : ∃ trees full,
      (ids.mapM (g.explainNode inner depth)).run shown = (trees, full ++ shown) ∧
      Drawn g shown ids trees full := by
  induction depth generalizing ids shown with
  | zero => omega
  | succ depth ihdepth =>
    induction ids generalizing shown with
    | nil => exact ⟨[], [], rfl, .nil⟩
    | cons id ids ih =>
      rw [run_mapM_cons]
      cases hnode : g.node? id with
      | none =>
        have hmissing : (g.explainNode inner (depth + 1) id).run shown =
            (.node s!"<missing {id}>" none [] [], shown) := by
          simp only [explainNode, hnode]
          rfl
        obtain ⟨trees, full, hrun, hdrawn⟩ := ih shown hdepth
        exact ⟨_, full, by simp only [hmissing, hrun], .missing hnode hdrawn⟩
      | some node =>
        rw [run_explainNode hnode (hinner id)]
        by_cases hagain : id ∈ shown
        · obtain ⟨trees, full, hrun, hdrawn⟩ := ih shown hdepth
          exact ⟨_, full, by simp only [if_pos hagain, hrun], .shared hnode hagain hdrawn⟩
        · have hless := unshown_cons_lt (mem_ids_of_node? hnode) hagain
          obtain ⟨below, full, hbelow, hproducers⟩ :=
            ihdepth (g.producers id) (id :: shown) (by omega)
          have hle := unshown_append_le (g := g) full (id :: shown)
          obtain ⟨trees, more, hrun, hdrawn⟩ := ih (full ++ id :: shown) (by omega)
          refine ⟨_, _, ?_, .full hnode hagain hproducers hdrawn⟩
          simp only [if_neg hagain, hbelow, hrun, List.append_assoc, singleton_append]

end

/-- **At every level exactly the operators upstream of the roots are shown in full**, each once,
whatever the edges are.  Every other place of an operator has its name and no children. -/
theorem upstream_shown_once (hg : g.Numbered) : g.Everywhere fun h => ∃ full,
    Drawn h [] h.roots h.explanations full ∧ full.Nodup ∧ ∀ id, id ∈ full ↔ h.Upstream id := by
  refine hg.imp fun h hascending => ?_
  have hinner : ∀ id, Table.get? (h.inner.map fun e => (e.1, explanations e.2)) id =
      (h.inner? id).map explanations := by
    intro id
    rw [Table.get?_map, get?_inner_eq hascending]
  have hsize : h.unshown [] < h.size + 1 := by simp [unshown, ids, size]
  obtain ⟨trees, full, hrun, hdrawn⟩ := drawn_explainNode hinner (h.size + 1) h.roots [] hsize
  have htrees : h.explanations = trees := (fold_eq _ h).trans (congrArg Prod.fst hrun)
  have hclosed := hdrawn.closed
  simp only [append_nil] at hclosed
  refine ⟨full, htrees ▸ hdrawn, by simpa using hdrawn.nodup .nil,
    fun id => ⟨fun hid => ?_, fun hid => ?_⟩⟩
  · exact hdrawn.within (fun _ => .root) (fun _ hdown _ => hdown.producer) id hid
  · induction hid with
    | root hroot hid => exact hclosed.1 _ hroot hid
    | producer _ hq hid ih => exact hclosed.2 _ ih _ hq hid

/-- A graph with a way back, two uses of one producer, and an input that is missing. -/
def tangled : Dag where
  nodes := [⟨0, .primitive (.range ⟨0, 5, 1⟩), {}⟩,
    ⟨1, .primitive .cartesian, {}⟩, ⟨2, .pipeline 3 {
      nodes := [⟨0, .primitive .cartesian, {}⟩]
      edges := [⟨0, 0, 0, 0⟩]
      sink := some 0 }, {}⟩]
  edges := [⟨0, 0, 1, 0⟩, ⟨2, 0, 1, 1⟩, ⟨1, 0, 2, 0⟩, ⟨9, 0, 2, 1⟩, ⟨0, 0, 2, 2⟩]
  sink := some 1

theorem tangled_shown_once : tangled.Numbered ∧ (tangled.Everywhere fun h => ∃ full,
    Drawn h [] h.roots h.explanations full ∧ full.Nodup ∧ ∀ id, id ∈ full ↔ h.Upstream id) ∧
    tangled.explain = "cartesian_1 (cartesian)\n├─ range_0 (range(from=0, to=5, step=1))\n" ++
      "└─ pipeline_2 (pipeline(num_inputs=3, operators=1))\n   ├─ cartesian_1 (shared)\n" ++
      "   ├─ <missing 9>\n   ├─ range_0 (shared)\n   └─ inner\n" ++
      "      └─ cartesian_0 (cartesian)\n         └─ cartesian_0 (shared)\n" := by
  have hg : tangled.Numbered := isNumbered_iff.1 (by cbv)
  exact ⟨hg, upstream_shown_once hg, by cbv⟩

/-- A range from which the sink can be reached only through an operator that is missing. -/
def behindMissing : Dag where
  nodes := [⟨0, .primitive (.range ⟨0, 5, 1⟩), {}⟩, ⟨1, .primitive .ensureSingleTuple, {}⟩]
  edges := [⟨0, 0, 7, 0⟩, ⟨7, 0, 1, 0⟩]
  sink := some 1

/-- The range is not shown: the explanation ends at the operator that is missing. -/
theorem behindMissing_not_shown : behindMissing.reaches 0 1 = true ∧ 0 ∈ behindMissing.ids ∧
    behindMissing.roots = [1] ∧
    behindMissing.explain = "ensure_single_tuple_1 (ensure_single_tuple)\n└─ <missing 7>\n" :=
  ⟨by cbv, by decide, rfl, by cbv⟩

end Dataflow.Graph
