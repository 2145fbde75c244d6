/-
**Valid graphs are wired.**

The checks of a graph find every fault of its wiring, at every level.  Checking also asks for a
sink; the checks without that are enough for a graph to be wired.

Main results:

* `Graph.isNumbered_iff` — whether operators stand in the order of their numbers is decided;
* `Graph.checkOpenWithin_of_validateWithin` — a valid graph passes the checks without the sink;
* `Graph.wired_of_checkOpenWithin` — **a graph that passes those is wired**, at every level.
-/

import Dataflow.Graph.Validity
import Dataflow.Proofs.Graph.Wiring

namespace Dataflow.Graph

open List Outcome

/-- The operators of a graph stand in ascending order of their numbers, and so do those of the
graphs inside it. -/
def Numbered (g : Dag) : Prop := g.Everywhere fun h => h.ids.Pairwise (· < ·)

/-- Whether the operators of a graph stand in ascending order of their numbers, at every level. -/
def isNumbered : Dag → Bool :=
  fold fun g inner => decide (g.ids.Pairwise (· < ·)) && inner.all (·.2)

/-- Checks a graph as validation does, but lets the sink of every level be open. -/
def checkOpenWithin : Dag → (inputs : Option Nat) → Outcome Unit := fold fun g inner inputs => do
    checkEdges g [] g.edges
    g.nodes.forM (checkNode g inputs inner)
    let _ ← g.order
    if g.sink.isSome then g.checkSink

variable {g : Dag} {inputs : Option Nat} {node : Node Operator} {id : Nat}

/-! ### Edges and slots -/

theorem checkSlots_eq_ok_iff {e : Edge} : g.checkSlots e = .ok () ↔
    ∃ source target, g.node? e.source = some source ∧ g.node? e.target = some target ∧
      e.sourceSlot < source.kind.outputs ∧ e.targetSlot < target.kind.inputs := by
  simp only [checkSlots, bind_eq_ok_iff, ofOption_eq_ok_iff, guard_eq_ok_iff, Nat.not_le]
  constructor
  · rintro ⟨source, hsource, target, htarget, hout, hin⟩
    refine ⟨source, target, hsource, htarget, hout, ?_⟩
    split at hin
    · cases hin
    · omega
  · rintro ⟨source, target, hsource, htarget, hout, hin⟩
    refine ⟨source, hsource, target, htarget, hout, ?_⟩
    rw [if_neg (by omega)]
    rfl

/-- Checked edges have the slots that they join, and no two of them enter one slot. -/
theorem checkEdges_eq_ok_iff {before edges : List Edge} : g.checkEdges before edges = .ok () ↔
    (∀ e ∈ edges, g.checkSlots e = .ok ()) ∧ (edges.map Edge.port).Nodup ∧
      ∀ e ∈ edges, ∀ f ∈ before, f.port ≠ e.port := by
  induction edges generalizing before with
  | nil => simp [checkEdges]
  | cons e edges ih =>
    simp only [checkEdges, bind_eq_ok_iff, guard_eq_ok_iff, ih, List.any_eq_true,
      Edge.enters_iff, map_cons, nodup_cons, forall_mem_cons, List.mem_map]
    constructor
    · rintro ⟨_, hslots, hfresh, hall, honce, hbefore⟩
      refine ⟨⟨hslots, hall⟩, ⟨?_, honce⟩, ?_, fun f hf => (hbefore f hf).2⟩
      · rintro ⟨f, hf, hport⟩
        exact (hbefore f hf).1 hport.symm
      · exact fun f hf hport => hfresh ⟨f, hf, hport⟩
    · rintro ⟨⟨hslots, hall⟩, ⟨hnot, honce⟩, hfresh, hbefore⟩
      refine ⟨(), hslots, ?_, hall, honce, fun f hf => ⟨?_, hbefore f hf⟩⟩
      · rintro ⟨f, hf, hport⟩
        exact hfresh f hf hport
      · exact fun hport => hnot ⟨f, hf, hport.symm⟩

theorem isSome_producer?_iff {slot : Nat} :
    (g.producer? id slot).isSome = true ↔ ∃ e ∈ g.edges, e.port = (id, slot) := by
  simp [producer?, find?_isSome, Edge.enters_iff]

/-- An operator without an unbound slot has an edge at each of its slots. -/
theorem unboundSlot?_eq_none_iff {slots : Nat} : g.unboundSlot? id slots = none ↔
    ∀ slot < slots, (g.producer? id slot).isSome = true := by
  have hfind : g.unboundSlot? id slots = none ↔ ∀ slot, slot < slots → slot < g.edges.length + 1 →
      (g.producer? id slot).isSome = true := by
    simp only [unboundSlot?, find?_eq_none, mem_range, Nat.lt_min, and_imp, Bool.not_eq_true,
      Bool.not_eq_false', List.any_eq_true, Edge.enters_iff, isSome_producer?_iff]
  rw [hfind]
  refine ⟨fun h slot hslot => ?_, fun h slot hslot _ => h slot hslot⟩
  by_cases hlt : slot < g.edges.length + 1
  · exact h slot hslot hlt
  · -- The graph would have more edges at this operator than it has edges.
    have hsubset : (List.range (g.edges.length + 1)).map (Prod.mk id) ⊆ g.edges.map Edge.port := by
      intro port hport
      obtain ⟨k, hk, rfl⟩ := List.mem_map.1 hport
      rw [mem_range] at hk
      obtain ⟨e, he, hport⟩ := isSome_producer?_iff.1 (h k (by omega) hk)
      exact List.mem_map.2 ⟨e, he, hport⟩
    have hnodup : ((List.range (g.edges.length + 1)).map (Prod.mk id)).Nodup :=
      nodup_range.map (Prod.mk_right_injective id)
    have hle := (subperm_of_subset hnodup hsubset).length_le
    simp only [List.length_map, length_range] at hle
    omega

/-! ### Levels -/

theorem validateWithin_eq (g : Dag) (inputs : Option Nat) : g.validateWithin inputs = (do
    checkEdges g [] g.edges
    g.nodes.forM (checkNode g inputs (g.inner.map fun e => (e.1, e.2.validateWithin)))
    let _ ← g.order
    g.checkSink) := by
  rw [validateWithin, fold_eq]

theorem checkOpenWithin_eq (g : Dag) (inputs : Option Nat) : g.checkOpenWithin inputs = (do
    checkEdges g [] g.edges
    g.nodes.forM (checkNode g inputs (g.inner.map fun e => (e.1, e.2.checkOpenWithin)))
    let _ ← g.order
    if g.sink.isSome then g.checkSink) := by
  rw [checkOpenWithin, fold_eq]

/-- The checks of one operator: its slots are bound, its configuration is sound, a look-up reads an
input that there is, and the graph of a pipeline passes the checks of graphs. -/
theorem checkNode_eq_ok_iff (check : Dag → Option Nat → Outcome Unit)
    (hnode : g.node? id = some node) :
    checkNode g inputs (g.inner.map fun e => (e.1, check e.2)) node = .ok () ↔
      (∀ slot < node.kind.inputs, (g.producer? id slot).isSome = true) ∧ node.kind.check = .ok () ∧
      (∀ n declared k, node.kind = .primitive (.parameterLookup n declared) →
      inputs = some k → n < k) ∧ ∀ n h, node.kind = .pipeline n h → check h (some n) = .ok () := by
  obtain rfl := id_eq_of_node? hnode
  simp only [checkNode]
  rw [← unboundSlot?_eq_none_iff]
  cases g.unboundSlot? node.id node.kind.inputs with
  | some slot => simp
  | none =>
    have hunit : ∀ x : Outcome Unit, (∃ u, x = .ok u) ↔ x = .ok () := fun x =>
      ⟨fun ⟨_, hx⟩ => hx, fun hx => ⟨(), hx⟩⟩
    simp only [pure_eq_ok, bind_eq_ok_iff, exists_and_right, hunit, true_and]
    refine and_congr_right fun _ => ?_
    cases hkind : node.kind with
    | primitive p =>
      cases p with
      | parameterLookup n declared =>
        cases inputs with
        | none => simp
        | some k => by_cases hle : k ≤ n <;> simp [hle, Nat.lt_of_not_le]
      | _ => simp
    | pipeline n h =>
      simp [Table.get?_map, get?_inner (inner?_eq_some_iff.2 ⟨node, n, hnode, hkind⟩)]

theorem node?_of_mem (hascending : g.ids.Pairwise (· < ·)) (hnode : node ∈ g.nodes) :
    g.node? node.id = some node := by
  obtain ⟨found, hfound⟩ := node?_of_mem_ids (List.mem_map.2 ⟨node, hnode, rfl⟩ : node.id ∈ g.ids)
  have hnodup : (g.nodes.map (·.id)).Nodup := hascending.imp fun h => Nat.ne_of_lt h
  rw [hfound, inj_on_of_nodup_map hnodup (mem_of_node? hfound) hnode (id_eq_of_node? hfound)]

theorem inner?_of_mem_inner (hascending : g.ids.Pairwise (· < ·)) {h : Dag}
    (hmem : (id, h) ∈ g.inner) : g.inner? id = some h := by
  simp only [inner, mem_filterMap, Option.map_eq_some_iff] at hmem
  obtain ⟨node, hnode, h, hinner, heq⟩ := hmem
  cases heq
  rw [inner?, node?_of_mem hascending hnode, Option.bind_some, hinner]

theorem isNumbered_iff : g.isNumbered = true ↔ g.Numbered := by
  induction g using levelInduction with
  | step g ih =>
    rw [isNumbered, fold_eq, Bool.and_eq_true, decide_eq_true_eq, List.all_map, List.all_eq_true]
    constructor
    · rintro ⟨hascending, hinner⟩
      exact ⟨hascending, fun id h hid => (ih id h hid).1 (hinner (id, h) (mem_inner_of_inner? hid))⟩
    · intro hg
      refine ⟨hg.here, fun ⟨id, h⟩ hmem => ?_⟩
      have hid := inner?_of_mem_inner hg.here hmem
      exact (ih id h hid).2 (hg.inside hid)

theorem checkOpenWithin_of_validateWithin (hg : g.Numbered) (h : g.validateWithin inputs = .ok ()) :
    g.checkOpenWithin inputs = .ok () := by
  induction hg generalizing inputs with
  | @intro g hascending _ ih =>
    simp only [validateWithin_eq, checkOpenWithin_eq, bind_eq_ok_iff] at h ⊢
    obtain ⟨_, hedges, _, hnodes, order, horder, hsink⟩ := h
    rw [forM_eq_ok_iff] at hnodes
    refine ⟨(), hedges, (), forM_eq_ok_iff.2 fun node hnode => ?_, order, horder, ?_⟩
    · have hfound := node?_of_mem hascending hnode
      obtain ⟨hslots, hcheck, hlookup, hinside⟩ :=
        (checkNode_eq_ok_iff validateWithin hfound).1 (hnodes node hnode)
      refine (checkNode_eq_ok_iff checkOpenWithin hfound).2 ⟨hslots, hcheck, hlookup,
        fun n h hkind => ?_⟩
      exact ih node.id h (inner?_eq_some_iff.2 ⟨node, n, hfound, hkind⟩) (hinside n h hkind)
    · split
      · exact hsink
      · rfl

/-- **A graph that passes the checks is wired**, and so are the graphs inside it. -/
theorem wired_of_checkOpenWithin (hg : g.Numbered) (h : g.checkOpenWithin inputs = .ok ()) :
    g.Everywhere Wired := by
  induction hg generalizing inputs with
  | @intro g hascending _ ih =>
    simp only [checkOpenWithin_eq, bind_eq_ok_iff] at h
    obtain ⟨_, hedges, _, hnodes, order, horder, hsink⟩ := h
    rw [forM_eq_ok_iff] at hnodes
    obtain ⟨hslots, honce, -⟩ := checkEdges_eq_ok_iff.1 hedges
    refine ⟨.of_edges hascending honce order.idxOf (fun e he => ?_)
      (fun id node hnode slot hlt => ?_) ?_, fun id h hid => ?_⟩
    · obtain ⟨source, target, hsource, htarget, -, hin⟩ := checkSlots_eq_ok_iff.1 (hslots e he)
      have hmem := mem_ids_of_node? hsource
      exact ⟨hmem, ranks_of_order horder _ (mem_ids_of_node? htarget)
        _ (mem_producers.2 ⟨e, he, rfl, rfl⟩) hmem, target, htarget, hin⟩
    · exact ((checkNode_eq_ok_iff checkOpenWithin hnode).1 (hnodes node (mem_of_node? hnode))).1
        slot hlt
    · intro sink hsink'
      rw [hsink', Option.isSome_some, if_pos rfl, checkSink, hsink'] at hsink
      simp only at hsink
      split at hsink
      · next hcontains => exact (contains_iff_mem_ids g sink).1 hcontains
      · cases hsink
    · obtain ⟨node, n, hnode, hkind⟩ := inner?_eq_some_iff.1 hid
      have hinside := ((checkNode_eq_ok_iff checkOpenWithin hnode).1
        (hnodes node (mem_of_node? hnode))).2.2.2 n h hkind
      exact ih id h hid hinside

end Dataflow.Graph
