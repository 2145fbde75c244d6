/-
**Copies of a graph.**

A copy of a graph has the same operators under the same numbers, with copies of the graphs inside
pipelines, the same edges in any order, and the same sink.  What annotation found out is not copied.
The order of the edges of a valid graph has no influence on its topological order or on the
producers of an operator.

Main results:

* `Graph.schedule_congr` — scheduling depends on which edges there are, not on their order;
* `Graph.Copied.producers`, `Graph.Copied.order` — a copy has the same producers and the same order;
* `Graph.same_of_copies` — **a copy of a graph is equal to it**, if its constants are finite.
-/

import Dataflow.Proofs.Document.Operators
import Dataflow.Proofs.Graph.Validity

namespace Dataflow

open List

/-- Whether the constants of an operator are finite; the graph of a pipeline is not looked at. -/
def Operator.isFinite : Operator → Bool
  | primitive p => p.isFinite
  | pipeline _ _ => true

/-- The copy of a node, given the copies of the graphs of pipelines. -/
def Node.copy (inside : Nat → Dag) (n : Node Operator) : Node Operator :=
  { id := n.id, kind := n.kind.withInner (inside n.id) }

namespace Graph

/-- The constants of a graph, and of the graphs inside it, are finite. -/
def Finite (g : Dag) : Prop := g.Everywhere fun h => ∀ n ∈ h.nodes, n.kind.isFinite = true

/-- One level of a copy, given the copies of the graphs of pipelines. -/
structure Copied (inside : Nat → Dag) (g e : Dag) : Prop where
  nodes : e.nodes = g.nodes.map (Node.copy inside)
  edges : e.edges.Perm g.edges
  sink : e.sink = g.sink

/-- The copies of a graph. -/
inductive Copies : Dag → Dag → Prop
  | intro {g e : Dag} (inside : Nat → Dag) (here : Copied inside g e)
      (inner : ∀ id h, g.inner? id = some h → Copies h (inside id)) : Copies g e

/-! ### Orders -/

variable {edges edges' : List Edge}

theorem dropSource_congr (h : ∀ e, e ∈ edges ↔ e ∈ edges') (id : Nat) (e : Edge) :
    e ∈ dropSource edges id ↔ e ∈ dropSource edges' id := by
  simp only [dropSource, mem_filter, h]

theorem ready?_congr (h : ∀ e, e ∈ edges ↔ e ∈ edges') (ids : List Nat) :
    ready? edges ids = ready? edges' ids := by
  have hany : ∀ id, edges.any (·.target == id) = edges'.any (·.target == id) := by
    intro id
    rw [Bool.eq_iff_iff]
    simp only [List.any_eq_true, h]
  simp only [ready?, hany]

/-- Scheduling depends on which edges there are, not on their order. -/
theorem schedule_congr (h : ∀ e, e ∈ edges ↔ e ∈ edges') (ids : List Nat) :
    schedule edges ids = schedule edges' ids := by
  induction edges, ids using schedule.induct generalizing edges' with
  | case1 edges ids hnone =>
    rw [schedule, hnone, schedule, ← ready?_congr h, hnone]
  | case2 edges ids id hid placed stuck hrest ih =>
    rw [schedule, hid, schedule, ← ready?_congr h, hid]
    simp only [ih (dropSource_congr h id)]

/-- The topological order depends on the numbers and on which edges there are. -/
theorem order_congr {g g' : Dag} (hids : g'.ids = g.ids)
    (hedges : ∀ e, e ∈ g'.edges ↔ e ∈ g.edges) :
    g'.order = g.order := by
  have hcontains : ∀ id, g'.contains id = g.contains id := by
    intro id
    rw [Bool.eq_iff_iff, contains_iff_mem_ids, contains_iff_mem_ids, hids]
  have hinner : ∀ e, e ∈ g'.innerEdges ↔ e ∈ g.innerEdges := by
    intro e
    simp only [innerEdges, mem_filter, hedges, hcontains]
  rw [order, order, schedule_congr hinner, hids]

namespace Copied

variable {inside : Nat → Dag} {g e : Dag} {id : Nat} (h : Copied inside g e)
include h

theorem ids : e.ids = g.ids := by
  rw [Graph.ids, h.nodes, List.map_map]
  rfl

theorem node? (id : Nat) : e.node? id = (g.node? id).map (Node.copy inside) := by
  rw [Graph.node?, h.nodes, find?_map]
  rfl

theorem contains (id : Nat) : e.contains id = g.contains id := by
  rw [Graph.contains, Graph.contains, h.node?, Option.isSome_map]

theorem inner? (id : Nat) : e.inner? id = (g.inner? id).map fun _ => inside id := by
  rw [Graph.inner?, Graph.inner?, h.node?]
  cases hnode : g.node? id with
  | none => rfl
  | some n =>
    obtain rfl := id_eq_of_node? hnode
    obtain ⟨id, kind, note⟩ := n
    cases kind <;> rfl

theorem order : e.order = g.order := order_congr h.ids fun _ => h.edges.mem_iff

theorem producer? (honce : (g.edges.map Edge.port).Nodup) (id slot : Nat) :
    e.producer? id slot = g.producer? id slot :=
  producer?_of_perm h.edges honce id slot

theorem producers (hg : g.Wired) (hid : id ∈ g.ids) : e.producers id = g.producers id := by
  have honce : (e.edges.map Edge.port).Nodup := (h.edges.map Edge.port).nodup_iff.2 hg.once
  obtain ⟨node, hnode⟩ := node?_of_mem_ids hid
  refine ext_getElem? fun slot => ?_
  rw [hg.getElem?_producers hid, ← h.producer? hg.once]
  have hfed : ∀ slot, (e.producer? id slot).isSome = true ↔ slot < node.kind.inputs := by
    intro slot
    rw [h.producer? hg.once]
    exact hg.fed id node hnode slot
  exact getElem?_producers honce hfed

end Copied

/-! ### Equality -/

theorem same_eq (g e : Dag) : g.same e =
    (g.sink == e.sink && sameNodes g.nodes e.nodes && sameEdges g.edges e.edges) := by
  cases g
  rw [same]

theorem sameNodes_map {copy : Node Operator → Node Operator} {nodes : List (Node Operator)}
    (h : ∀ n ∈ nodes, sameNode n (copy n) = true) : sameNodes nodes (nodes.map copy) = true := by
  induction nodes with
  | nil => rw [map_nil, sameNodes]
  | cons n nodes ih =>
    rw [forall_mem_cons] at h
    rw [map_cons, sameNodes, h.1, ih h.2, Bool.and_self]

theorem sameEdges_congr {es es' fs fs' : List Edge} (hes : ∀ e, e ∈ es' ↔ e ∈ es)
    (hfs : ∀ e, e ∈ fs' ↔ e ∈ fs) : sameEdges es' fs' = sameEdges es fs := by
  rw [Bool.eq_iff_iff]
  simp only [sameEdges, Bool.and_eq_true, List.all_eq_true, contains_iff_mem, hes, hfs]

theorem sameEdges_of_perm (h : edges'.Perm edges) : sameEdges edges edges' = true := by
  simp only [sameEdges, Bool.and_eq_true, List.all_eq_true, contains_iff_mem]
  exact ⟨fun _ he => h.mem_iff.2 he, fun _ he => h.mem_iff.1 he⟩

/-- **A copy of a graph is equal to it**, if its constants are finite. -/
theorem same_of_copies {g e : Dag} (hg : g.Numbered) (hfinite : g.Finite) (h : Copies g e) :
    g.same e = true := by
  induction h with
  | @intro g e inside here inner ih =>
    have hnode : ∀ n ∈ g.nodes, sameNode n (n.copy inside) = true := by
      intro n hn
      have hfound := node?_of_mem hg.here hn
      have hconstants := hfinite.here n hn
      obtain ⟨id, kind, note⟩ := n
      cases kind with
      | primitive p => simpa [sameNode, sameOperator, Node.copy, Operator.withInner] using
          Primitive.same_self hconstants
      | pipeline m h =>
        have hid : g.inner? id = some h := inner?_eq_some_iff.2 ⟨_, m, hfound, rfl⟩
        simpa [sameNode, sameOperator, Node.copy, Operator.withInner] using
          ih id h hid (hg.inside hid) (hfinite.inside hid)
    rw [same_eq, here.nodes, sameNodes_map hnode, sameEdges_of_perm here.edges, here.sink]
    simp

end Graph

end Dataflow
