/-
**Edits that fail.**

An edit that fails leaves the graph as it was, up to the order of its edges: a rewiring takes the
edge at a slot away before it finds that no other can be put there, and then puts it back behind all
others.  The order of the edges shows nowhere, because no slot has two of them: what feeds a slot,
what an operator reads and feeds, where paths lead and in which order operators come are all
determined by the set of the edges.

Main results:

* `Graph.EdgesReordered.indistinct` — **the order of the edges cannot be told**;
* `Graph.edgesReordered_of_failure?` — an edit that fails changes that order at most;
* `Graph.indistinct_of_failed_edit` — **an edit that fails changes nothing that can be seen**.
-/

import Dataflow.Proofs.Graph.Edits
import Dataflow.Proofs.Graph.Equality

namespace Dataflow

/-- Why something fails, if it does. -/
def Outcome.failure? {α : Type} : Outcome α → Option Failure
  | .ok _ => none
  | .error failure => some failure

namespace Graph

/-- Why an edit of a graph fails, if it does. -/
def Edit.failure? (g : Dag) : Edit → Option Failure
  | .add _ => none
  | .addAt id op => (g.addAt id op).failure?
  | .connect e => (g.connect e).failure?
  | .disconnect _ _ => none
  | .remove id => (g.remove id).failure?
  | .rewire e => Outcome.failure? ((g.rewire e).mapError (·.failure))
  | .setSink id => (g.setSink id).failure?

/-- A graph with its edges in another order. -/
structure EdgesReordered (g g' : Dag) : Prop where
  nodes : g'.nodes = g.nodes
  sink : g'.sink = g.sink
  nextId : g'.nextId = g.nextId
  allocated : g'.allocated = g.allocated
  edges : g'.edges.Perm g.edges

/-- Nothing tells two graphs apart: they have the same operators, sink, next free number and next
free column, the same edges up to their order, are equal to the same graphs, and answer all
questions in the same way. -/
structure Indistinct (g g' : Dag) : Prop where
  nodes : g'.nodes = g.nodes
  sink : g'.sink = g.sink
  nextId : g'.nextId = g.nextId
  allocated : g'.allocated = g.allocated
  edges : g'.edges.Perm g.edges
  same_left : ∀ k : Dag, g'.same k = g.same k
  same_right : ∀ k : Dag, k.same g' = k.same g
  producer? : ∀ id slot, g'.producer? id slot = g.producer? id slot
  inFlows : ∀ id, g'.inFlows id = g.inFlows id
  outFlows : ∀ id, g'.outFlows id = g.outFlows id
  consumers : ∀ id, g'.consumers id = g.consumers id
  reaches : ∀ source goal, g'.reaches source goal = g.reaches source goal
  order : g'.order = g.order

namespace EdgesReordered

variable {g g' : Dag}

theorem refl (g : Dag) : EdgesReordered g g := ⟨rfl, rfl, rfl, rfl, .refl _⟩

/-! ### Neighbours -/

variable (h : EdgesReordered g g')
include h

theorem producer? (honce : (g.edges.map Edge.port).Nodup) (id slot : Nat) :
    g'.producer? id slot = g.producer? id slot :=
  producer?_of_perm h.edges honce id slot

/-- The edges that enter a node have different slots, so there is one way to sort them. -/
theorem incoming (honce : (g.edges.map Edge.port).Nodup) (id : Nat) :
    g'.incoming id = g.incoming id := by
  have honce' : (g'.edges.map Edge.port).Nodup := (h.edges.map Edge.port).nodup_iff.2 honce
  have hperm : (g'.incoming id).Perm (g.incoming id) :=
    (List.mergeSort_perm _ _).trans ((h.edges.filter _).trans (List.mergeSort_perm _ _).symm)
  have hsorted : ((g.incoming id).map (·.targetSlot)).Pairwise (· < ·) := pairwise_incoming honce
  have hsorted' : ((g'.incoming id).map (·.targetSlot)).Pairwise (· < ·) := pairwise_incoming honce'
  rw [List.pairwise_map] at hsorted hsorted'
  exact hperm.eq_of_pairwise (fun a b _ _ hab hba => absurd hab (Nat.lt_asymm hba)) hsorted' hsorted

theorem inFlows (honce : (g.edges.map Edge.port).Nodup) (id : Nat) : g'.inFlows id = g.inFlows id :=
  congrArg (List.map fun e : Edge => Flow.mk e.source e.sourceSlot) (h.incoming honce id)

/-- The slots that a node feeds are sorted by operator and number, and those who agree in both are
equal. -/
theorem outFlows (id : Nat) : g'.outFlows id = g.outFlows id := by
  have hperm : (g'.outFlows id).Perm (g.outFlows id) := (List.mergeSort_perm _ _).trans
      (((h.edges.filter _).map _).trans (List.mergeSort_perm _ _).symm)
  have hsorted : ∀ k : Dag, (k.outFlows id).Pairwise fun a b : Flow =>
      (a.operator < b.operator || (a.operator == b.operator && a.slot ≤ b.slot)) = true := by
    intro k
    refine List.pairwise_mergeSort (fun a b c hab hbc => ?_) (fun a b => ?_) _
    · simp only [Bool.or_eq_true, Bool.and_eq_true, decide_eq_true_eq, beq_iff_eq] at *
      omega
    · simp only [Bool.or_eq_true, Bool.and_eq_true, decide_eq_true_eq, beq_iff_eq]
      omega
  refine hperm.eq_of_pairwise (fun a b _ _ hab hba => ?_) (hsorted g') (hsorted g)
  simp only [Bool.or_eq_true, Bool.and_eq_true, decide_eq_true_eq, beq_iff_eq] at hab hba
  obtain ⟨operator, slot⟩ := a
  obtain ⟨operator', slot'⟩ := b
  simp only [Flow.mk.injEq]
  simp only at hab hba
  omega

theorem consumers (id : Nat) : g'.consumers id = g.consumers id := by
  refine (NatSet.pairwise_ofList _).eq_of_mem_iff (NatSet.pairwise_ofList _) fun m => ?_
  rw [NatSet.mem_ofList, Graph.consumers, NatSet.mem_ofList]
  exact ((h.edges.filter _).map _).mem_iff

/-! ### Paths and orders -/

theorem reaches (source goal : Nat) : g'.reaches source goal = g.reaches source goal := by
  have hjoined : Joined g'.edges = Joined g.edges := by
    funext a b
    simp only [Joined, h.edges.mem_iff]
  rw [Bool.eq_iff_iff, reaches_iff, reaches_iff, hjoined]

theorem order : g'.order = g.order :=
  order_congr (congrArg (List.map Node.id) h.nodes) fun _ => h.edges.mem_iff

/-! ### Equality -/

theorem same_left (k : Dag) : g'.same k = g.same k := by
  rw [same_eq, same_eq, h.nodes, h.sink,
    sameEdges_congr (fun _ => h.edges.mem_iff) fun _ => Iff.rfl]

theorem same_right (k : Dag) : k.same g' = k.same g := by
  rw [same_eq, same_eq, h.nodes, h.sink, sameEdges_congr (fun _ => Iff.rfl)
    fun _ => h.edges.mem_iff]

/-- **The order of the edges cannot be told**, if no slot has two of them. -/
theorem indistinct (honce : (g.edges.map Edge.port).Nodup) : Indistinct g g' where
  nodes := h.nodes
  sink := h.sink
  nextId := h.nextId
  allocated := h.allocated
  edges := h.edges
  same_left := h.same_left
  same_right := h.same_right
  producer? := h.producer? honce
  inFlows := h.inFlows honce
  outFlows := h.outFlows
  consumers := h.consumers
  reaches := h.reaches
  order := h.order

end EdgesReordered

variable {g : Dag}

/-! ### Failures -/

/-- **An edit that fails changes the order of the edges at most**: a rewiring puts the edge back
that it took away, and all others fail before they change anything. -/
theorem edgesReordered_of_failure? {edit : Edit} {failure : Failure}
    (h : edit.failure? g = some failure) :
    EdgesReordered g (edit.apply g) := by
  have hleft : ∀ {α : Type} {x : Outcome α}, x.failure? = some failure → x.toOption = none := by
    intro α x hx
    cases x with
    | ok a => cases hx
    | error _ => rfl
  cases edit with
  | add | disconnect => cases h
  | addAt | connect | remove | setSink =>
    rw [Edit.apply, hleft h]
    exact .refl g
  | rewire e =>
    simp only [Edit.failure?, rewire] at h
    simp only [Edit.apply, rewire]
    cases hconnect : (g.disconnect e.target e.targetSlot).connect e with
    | ok changed =>
      rw [hconnect] at h
      cases h
    | error _ =>
      cases hold : g.edgeAt? e.target e.targetSlot with
      | none => exact .refl g
      | some old => exact ⟨rfl, rfl, rfl, rfl, Intact.perm_putBack hold⟩

/-- **An edit that fails changes nothing that can be seen**, in a graph reached by edits: the
operators, the sink, the next free number and the edges, up to their order, are as they were, and so
are all answers.  The graph is then equal to the one that it was exactly if no constant in it is
unequal to itself. -/
theorem indistinct_of_failed_edit {start : Dag}
    (hstart : start = empty ∨ ∃ catalog document, ofJson catalog document = .ok start)
    (edits : List Edit) (hg : g = edits.foldl Edit.apply start) {edit : Edit} {failure : Failure}
    (h : edit.failure? g = some failure) :
    Indistinct g (edit.apply g) ∧ (g.Numbered → ((edit.apply g).same g = true ↔ g.Regular)) := by
  have hintact : g.Intact := by
    rw [hg]
    rcases hstart with rfl | ⟨catalog, document, hread⟩
    · exact intact_empty.edits edits
    · exact (intact_of_ofJson hread).edits edits
  have hreordered := edgesReordered_of_failure? h
  refine ⟨hreordered.indistinct hintact.once, fun hnumbered => ?_⟩
  rw [hreordered.same_left, same_self_iff hnumbered]

/-- A rewiring that would feed an operator by itself puts the edge back that it took away, behind
the edge of another operator. -/
theorem pairsWithOnly_rewire : ∃ start failure, ofJson .standard pairsWithOnly = .ok start ∧
    (Edit.rewire ⟨5, 0, 5, 1⟩).failure? start = some failure ∧
    ((Edit.rewire ⟨5, 0, 5, 1⟩).apply start).edges ≠ start.edges ∧
    Indistinct start ((Edit.rewire ⟨5, 0, 5, 1⟩).apply start) ∧
      (start.Numbered →
      (((Edit.rewire ⟨5, 0, 5, 1⟩).apply start).same start = true ↔ start.Regular)) := by
  have hread : ofJson .standard pairsWithOnly = .ok {
      nodes := [⟨2, .primitive (.parameterLookup 0 none), {}⟩,
        ⟨3, .primitive .ensureSingleTuple, {}⟩, ⟨5, .primitive .cartesian, {}⟩]
      edges := [⟨2, 0, 5, 0⟩, ⟨3, 0, 5, 1⟩, ⟨2, 0, 3, 0⟩]
      sink := some 5
      nextId := 6 } := by cbv
  refine ⟨_, .cyclicGraph (.closing 5 5), hread, by cbv, by decide, ?_⟩
  exact indistinct_of_failed_edit (.inr ⟨_, _, hread⟩) [] rfl (by cbv)

/-- A constant and an operator that reads it. -/
def checkedDouble (x : Float) : List Edit :=
  [.add (.primitive (.constantTuple [.float x])), .add (.primitive .ensureSingleTuple),
    .connect ⟨0, 0, 1, 0⟩]

/-- A graph with a constant that is not a number is unequal to what a failed edit leaves, which is
itself. -/
theorem notANumber_rewire : ∃ failure,
    (Edit.rewire ⟨1, 0, 1, 0⟩).failure? ((checkedDouble (0 / 0)).foldl Edit.apply empty) =
      some failure ∧
    ((Edit.rewire ⟨1, 0, 1, 0⟩).apply ((checkedDouble (0 / 0)).foldl Edit.apply empty)).same
      ((checkedDouble (0 / 0)).foldl Edit.apply empty) = false := by
  have hfails : ∀ x,
    (Edit.rewire ⟨1, 0, 1, 0⟩).failure? ((checkedDouble x).foldl Edit.apply empty) =
      some (.cyclicGraph (.closing 1 1)) := fun x => by cbv
  have hsame : ∀ x, same ((checkedDouble x).foldl Edit.apply empty)
      ((checkedDouble x).foldl Edit.apply empty) = (x == x) := by
    intro x
    have hreached : (checkedDouble x).foldl Edit.apply empty = {
        nodes := [⟨0, .primitive (.constantTuple [.float x]), {}⟩,
          ⟨1, .primitive .ensureSingleTuple, {}⟩]
        edges := [⟨0, 0, 1, 0⟩]
        nextId := 2 } := by cbv
    rw [hreached]
    simp [same_eq, sameNodes, sameNode, sameOperator, Primitive.same, Literal.same, sameEdges]
  refine ⟨_, hfails _, ?_⟩
  rw [(edgesReordered_of_failure? (hfails _)).same_left, hsame]
  rfl

end Graph

end Dataflow
