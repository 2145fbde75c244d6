/-
**Wiring.**

In a valid graph every input slot of every operator has exactly one edge, so the edges are a
function: the operator that feeds a slot.  All that typing, carrying out and rewriting a graph do
with its edges can be said through this function, and the changes of a graph are changes of the
function at a few slots.

Main results:

* `Graph.producer?_eq_some_iff` — what feeds a slot;
* `Graph.getElem?_producers` — the producers of an operator, slot by slot;
* `Graph.producer?_disconnect`, `Graph.producer?_connectUnchecked` — what feeds a slot after a
  change;
* `Graph.Rewired.disconnectAll`, `Graph.Rewired.connectAll` — what feeds a slot after a series of
  changes;
* `Graph.Wired.founded` — a wired graph has no cycle.
-/

import Dataflow.Graph.Edit
import Dataflow.Proofs.Meaning.Interpretation
import Mathlib.Data.List.Nodup
import Mathlib.Data.List.Sort

namespace Dataflow

open List Option Outcome Edge

variable {e : Edge}

/-- The input slot that an edge enters: an operator and a number. -/
def Edge.port (e : Edge) : Nat × Nat := (e.target, e.targetSlot)

theorem Edge.enters_iff {target slot : Nat} :
    e.enters target slot = true ↔ e.port = (target, slot) := by
  simp [enters, port]

namespace Graph

variable {g g' : Dag} {id slot q : Nat}

/-! ### What feeds a slot -/

theorem producer?_eq_some_iff (honce : (g.edges.map port).Nodup) :
    g.producer? id slot = some q ↔ ∃ e ∈ g.edges, e.port = (id, slot) ∧ e.source = q := by
  simp only [producer?, map_eq_some_iff]
  constructor
  · rintro ⟨e, he, rfl⟩
    have hport := find?_some (p := fun e : Edge => e.enters id slot) he
    exact ⟨e, mem_of_find?_eq_some he, enters_iff.1 hport, rfl⟩
  · rintro ⟨e, he, hport, rfl⟩
    cases hfind : g.edges.find? (·.enters id slot) with
    | none => exact absurd (enters_iff.2 hport) (find?_eq_none.1 hfind e he)
    | some f =>
      have hf := enters_iff.1 (find?_some (p := fun e : Edge => e.enters id slot) hfind)
      obtain rfl : f = e :=
        inj_on_of_nodup_map honce (mem_of_find?_eq_some hfind) he (hf.trans hport.symm)
      exact ⟨f, rfl, rfl⟩

theorem producer?_eq_none_iff :
    g.producer? id slot = none ↔ ∀ e ∈ g.edges, e.port ≠ (id, slot) := by
  simp [producer?, enters_iff]

theorem producer?_of_perm (h : g'.edges.Perm g.edges) (honce : (g.edges.map port).Nodup)
    (id slot : Nat) : g'.producer? id slot = g.producer? id slot := by
  have honce' : (g'.edges.map port).Nodup := (h.map port).nodup_iff.2 honce
  apply Option.ext
  intro q
  rw [producer?_eq_some_iff honce', producer?_eq_some_iff honce]
  simp only [h.mem_iff]

/-- The edges that enter a node, by slot. -/
def incoming (g : Dag) (id : Nat) : List Edge :=
  (g.edges.filter (·.target == id)).mergeSort fun a b => a.targetSlot ≤ b.targetSlot

theorem mem_incoming : e ∈ g.incoming id ↔ e ∈ g.edges ∧ e.target = id := by
  simp [incoming]

section Ports

variable (honce : (g.edges.map port).Nodup)
include honce

theorem pairwise_incoming : ((g.incoming id).map (·.targetSlot)).Pairwise (· < ·) := by
  have hle : (g.incoming id).Pairwise fun a b => a.targetSlot ≤ b.targetSlot := by
    have hsort : (g.incoming id).Pairwise fun a b =>
        decide (a.targetSlot ≤ b.targetSlot) = true := by
      refine pairwise_mergeSort (fun a b c hab hbc => ?_) (fun a b => ?_) _
      · rw [decide_eq_true_eq] at *
        omega
      · simp only [Bool.or_eq_true, decide_eq_true_eq]
        omega
    simpa using hsort
  have hports : ((g.incoming id).map port).Nodup := by
    have hperm := (mergeSort_perm (g.edges.filter (·.target == id))
      fun a b => decide (a.targetSlot ≤ b.targetSlot)).map port
    exact hperm.nodup_iff.2 (honce.sublist (filter_sublist.map port))
  have hne : (g.incoming id).Pairwise fun a b => a.targetSlot ≠ b.targetSlot := by
    rw [Nodup, pairwise_map] at hports
    refine hports.imp_of_mem fun {a b} ha hb hab hslot => hab ?_
    rw [port, port, (mem_incoming.1 ha).2, (mem_incoming.1 hb).2, hslot]
  rw [pairwise_map]
  exact (hle.and hne).imp fun h => by omega

/-- The producers of an operator, slot by slot, if its slots that have an edge are the first
ones. -/
theorem getElem?_producers {n : Nat}
    (hslots : ∀ slot, (g.producer? id slot).isSome = true ↔ slot < n) :
    (g.producers id)[slot]? = g.producer? id slot := by
  -- The slots of the sorted edges ascend strictly, so they are the first `n` numbers in order.
  have hrange : (g.incoming id).map (·.targetSlot) = List.range n := by
    refine (pairwise_incoming honce).eq_of_mem_iff pairwise_lt_range fun slot => ?_
    rw [mem_range, ← hslots, isSome_iff_exists]
    simp only [producer?_eq_some_iff honce, List.mem_map, mem_incoming, port, Prod.mk.injEq]
    constructor
    · rintro ⟨e, ⟨he, htarget⟩, hslot⟩
      exact ⟨e.source, e, he, ⟨htarget, hslot⟩, rfl⟩
    · rintro ⟨_, e, he, ⟨htarget, hslot⟩, -⟩
      exact ⟨e, ⟨he, htarget⟩, hslot⟩
  have hproducers : g.producers id = (g.incoming id).map (·.source) := by
    rw [producers, inFlows, List.map_map]
    rfl
  have hlength : (g.incoming id).length = n := by simpa using congrArg List.length hrange
  rw [hproducers, getElem?_map]
  cases hslot : (g.incoming id)[slot]? with
  | none =>
    rw [List.getElem?_eq_none_iff, hlength] at hslot
    rw [map_none, eq_comm, ← not_isSome_iff_eq_none, hslots]
    omega
  | some e =>
    have hnumber : e.targetSlot = slot := by
      have hget := congrArg (fun slots => slots[slot]?) hrange
      simp only [getElem?_map, hslot, map_some] at hget
      rw [getElem?_range (by
        rw [← hlength]
        exact (List.getElem?_eq_some_iff.1 hslot).1)] at hget
      exact some.inj hget
    obtain ⟨he, htarget⟩ := mem_incoming.1 (mem_of_getElem? hslot)
    rw [map_some, eq_comm, producer?_eq_some_iff honce]
    exact ⟨e, he, by rw [port, htarget, hnumber], rfl⟩

/-! ### Changes -/

theorem edges_disconnect (target slot : Nat) :
    (g.disconnect target slot).edges = g.edges.filter fun e => !e.enters target slot := by
  simp only [disconnect]
  generalize g.edges = edges at honce
  induction edges with
  | nil => rfl
  | cons e rest ih =>
    rw [map_cons, nodup_cons] at honce
    by_cases henters : e.enters target slot = true
    · have hport := enters_iff.1 henters
      rw [eraseP_cons, henters, cond_true, filter_cons, if_neg (by simpa using henters), eq_comm,
        filter_eq_self]
      intro f hf
      rw [Bool.not_eq_true', ← Bool.not_eq_true, enters_iff, ← hport]
      exact fun heq => honce.1 (heq ▸ List.mem_map_of_mem hf)
    · rw [eraseP_cons, Bool.eq_false_iff.2 henters, cond_false, filter_cons,
        if_pos (by simpa using henters), ih honce.2]

theorem once_disconnect (target slot : Nat) :
    ((g.disconnect target slot).edges.map port).Nodup := by
  rw [edges_disconnect honce]
  exact honce.sublist (filter_sublist.map port)

/-- What feeds the slots after the edge at one of them was removed. -/
theorem producer?_disconnect (target slot' : Nat) :
    (g.disconnect target slot').producer? id slot = if (id, slot) =
      (target, slot') then none else g.producer? id slot := by
  apply Option.ext
  intro q
  rw [producer?_eq_some_iff (once_disconnect honce target slot'), edges_disconnect honce]
  simp only [mem_filter, Bool.not_eq_true', ← Bool.not_eq_true, enters_iff]
  split
  · next heq =>
    rw [heq]
    simp only [reduceCtorEq, iff_false]
    rintro ⟨e, ⟨-, hne⟩, hport, -⟩
    exact hne hport
  · next hne =>
    rw [producer?_eq_some_iff honce]
    constructor
    · rintro ⟨e, ⟨he, -⟩, hport, hsource⟩
      exact ⟨e, he, hport, hsource⟩
    · rintro ⟨e, he, hport, hsource⟩
      exact ⟨e, ⟨he, fun h => hne (hport.symm.trans h)⟩, hport, hsource⟩

theorem once_connectUnchecked (hfree : g.producer? e.target e.targetSlot = none) :
    ((g.connectUnchecked e).edges.map port).Nodup := by
  rw [connectUnchecked, map_append, map_cons, map_nil, nodup_append']
  refine ⟨honce, nodup_singleton _, ?_⟩
  rw [disjoint_singleton, List.mem_map]
  rintro ⟨f, hf, hport⟩
  exact producer?_eq_none_iff.1 hfree f hf hport

end Ports

/-- What feeds the slots after an edge to a free slot was added. -/
theorem producer?_connectUnchecked (hfree : g.producer? e.target e.targetSlot = none) :
    (g.connectUnchecked e).producer? id slot =
      if (id, slot) = (e.target, e.targetSlot) then some e.source else g.producer? id slot := by
  simp only [producer?, connectUnchecked, find?_append, find?_singleton, enters_iff, port]
  split
  · next heq =>
    obtain ⟨rfl, rfl⟩ := Prod.mk.inj heq
    rw [producer?, map_eq_none_iff] at hfree
    rw [hfree, if_pos rfl]
    rfl
  · next hne => rw [if_neg (Ne.symm hne), or_none]

theorem connect_eq_ok (h : g.connect e = .ok g') :
    g' = g.connectUnchecked e ∧ g.producer? e.target e.targetSlot = none := by
  simp only [connect, bind_eq_ok_iff, guard_eq_ok_iff, pure_eq_ok, Except.ok.injEq] at h
  obtain ⟨_, -, hfree, -, rfl⟩ := h
  exact ⟨rfl, not_isSome_iff_eq_none.1 hfree⟩

theorem node?_erase (g : Dag) (id m : Nat) :
    (g.erase id).node? m = if m = id then none else g.node? m := by
  simp only [node?, erase, find?_filter]
  split
  · next h =>
    rw [find?_eq_none]
    intro n _
    simp [h]
  · next h =>
    refine congrArg (fun p => List.find? p g.nodes) (funext fun n => ?_)
    by_cases hn : n.id = m
    · simp [hn, h]
    · simp [hn]

theorem ids_erase (g : Dag) (id : Nat) : (g.erase id).ids = g.ids.filter (· != id) := by
  rw [ids, erase, ids, List.filter_map]
  rfl

/-! ### Edits -/

/-- A graph with other edges: the operators and the sink stay, and every slot is fed by what `feeds`
says. -/
structure Rewired (g g' : Dag) (feeds : Nat → Nat → Option Nat) : Prop where
  nodes : g'.nodes = g.nodes
  sink : g'.sink = g.sink
  once : (g'.edges.map port).Nodup
  producer? : ∀ id slot, g'.producer? id slot = feeds id slot

namespace Rewired

variable {g₀ g' : Dag} {feeds : Nat → Nat → Option Nat}

theorem refl (honce : (g.edges.map port).Nodup) : Rewired g g g.producer? :=
  ⟨rfl, rfl, honce, fun _ _ => rfl⟩

theorem disconnect (h : Rewired g₀ g feeds) (target slot : Nat) :
    Rewired g₀ (g.disconnect target slot) fun id s =>
      if id = target ∧ s = slot then none else feeds id s where
  nodes := h.nodes
  sink := h.sink
  once := once_disconnect h.once target slot
  producer? := by
    intro id s
    simp only [producer?_disconnect h.once, Prod.mk.injEq, h.producer?]

theorem connect (h : Rewired g₀ g feeds) (hconnect : g.connect e = .ok g') :
    Rewired g₀ g' fun id s => if id = e.target ∧
      s = e.targetSlot then some e.source else feeds id s := by
  obtain ⟨rfl, hfree⟩ := connect_eq_ok hconnect
  refine ⟨h.nodes, h.sink, once_connectUnchecked h.once hfree, fun id s => ?_⟩
  simp only [producer?_connectUnchecked hfree, Prod.mk.injEq, h.producer?]

/-- What is fed anew one flow after the other is fed anew by all of them. -/
theorem cons {f : Flow} {flows : List Flow} {new : Option Nat} (h : Rewired g₀ g fun id s =>
      if Flow.mk id s ∈ flows then new else
        if id = f.operator ∧ s = f.slot then new else feeds id s) :
    Rewired g₀ g fun id s => if Flow.mk id s ∈ f :: flows then new else feeds id s := by
  refine ⟨h.nodes, h.sink, h.once, fun id s => (h.producer? id s).trans ?_⟩
  obtain ⟨target, slot⟩ := f
  by_cases hflow : id = target ∧ s = slot
  · simp [hflow]
  · by_cases hmem : Flow.mk id s ∈ flows <;> simp [hflow, hmem]

theorem disconnectAll (h : Rewired g₀ g feeds) (flows : List Flow) :
    Rewired g₀ (flows.foldl (fun g f => g.disconnect f.operator f.slot) g) fun id s =>
      if Flow.mk id s ∈ flows then none else feeds id s := by
  induction flows generalizing g feeds with
  | nil => simpa using h
  | cons f flows ih => exact (ih (h.disconnect f.operator f.slot)).cons

theorem connectAll (h : Rewired g₀ g feeds) {source : Nat} {flows : List Flow}
    (hconnect : flows.foldlM (fun g f => g.connect ⟨source, 0, f.operator, f.slot⟩) g = .ok g') :
    Rewired g₀ g' fun id s => if Flow.mk id s ∈ flows then some source else feeds id s := by
  induction flows generalizing g feeds with
  | nil =>
    cases hconnect
    simpa using h
  | cons f flows ih =>
    rw [foldlM_cons, bind_eq_ok_iff] at hconnect
    obtain ⟨next, hnext, hconnect⟩ := hconnect
    exact (ih (h.connect hnext) hconnect).cons

end Rewired

/-! ### What a node feeds -/

theorem mem_outFlows (honce : (g.edges.map port).Nodup) {f : Flow} :
    f ∈ g.outFlows id ↔ g.producer? f.operator f.slot = some id := by
  rw [producer?_eq_some_iff honce, outFlows]
  simp only [mem_mergeSort, List.mem_map, mem_filter, beq_iff_eq, port, Prod.mk.injEq]
  constructor
  · rintro ⟨e, ⟨he, hsource⟩, rfl⟩
    exact ⟨e, he, ⟨rfl, rfl⟩, hsource⟩
  · rintro ⟨e, he, ⟨htarget, hslot⟩, hsource⟩
    exact ⟨e, ⟨he, hsource⟩, by rw [htarget, hslot]⟩

theorem eq_of_length_outFlows (honce : (g.edges.map port).Nodup)
    (hlength : (g.outFlows q).length = 1) {id' slot' : Nat} (h : g.producer? id slot = some q)
    (h' : g.producer? id' slot' = some q) : id = id' ∧ slot = slot' := by
  obtain ⟨f, hf⟩ := length_eq_one_iff.1 hlength
  have hmem := (mem_outFlows (f := ⟨id, slot⟩) honce).2 h
  have hmem' := (mem_outFlows (f := ⟨id', slot'⟩) honce).2 h'
  rw [hf, mem_singleton] at hmem hmem'
  simpa using hmem.trans hmem'.symm

/-! ### Wired graphs -/

/-- A graph whose operators stand in ascending order, in which every input slot of an operator, and
no other slot, is fed by one operator of the graph, without a cycle, and whose sink, if it has one,
is an operator of the graph. -/
structure Wired (g : Dag) : Prop where
  ascending : g.ids.Pairwise (· < ·)
  once : (g.edges.map port).Nodup
  fed : ∀ id node, g.node? id = some node → ∀ slot, (g.producer? id slot).isSome = true ↔
    slot < node.kind.inputs
  feeds : ∀ id slot q, g.producer? id slot = some q → id ∈ g.ids ∧ q ∈ g.ids
  acyclic : ∃ rank : Nat → Nat, ∀ id slot q, g.producer? id slot = some q → rank q < rank id
  sink : ∀ sink, g.sink = some sink → sink ∈ g.ids

namespace Wired

theorem ends (hg : g.Wired) (he : e ∈ g.edges) : e.source ∈ g.ids ∧ e.target ∈ g.ids :=
  (hg.feeds e.target e.targetSlot e.source
    ((producer?_eq_some_iff hg.once).2 ⟨e, he, rfl, rfl⟩)).symm

/-- A graph is wired if its edges go upwards along a rank, between operators, to all the slots that
these have. -/
theorem of_edges (hascending : g.ids.Pairwise (· < ·))
    (honce : (g.edges.map port).Nodup) (rank : Nat → Nat)
    (hedges : ∀ e ∈ g.edges, e.source ∈ g.ids ∧ rank e.source < rank e.target ∧
      ∃ node, g.node? e.target = some node ∧ e.targetSlot < node.kind.inputs)
    (hfed : ∀ id node, g.node? id = some node → ∀ slot < node.kind.inputs,
      (g.producer? id slot).isSome = true)
    (hsink : ∀ sink, g.sink = some sink → sink ∈ g.ids) : g.Wired := by
  have hfeeds : ∀ id slot q, g.producer? id slot = some q → q ∈ g.ids ∧ rank q < rank id ∧
      ∃ node, g.node? id = some node ∧ slot < node.kind.inputs := by
    intro id slot q hq
    obtain ⟨e, he, hport, rfl⟩ := (producer?_eq_some_iff honce).1 hq
    obtain ⟨rfl, rfl⟩ := Prod.mk.inj hport
    exact hedges e he
  refine ⟨hascending, honce, fun id node hnode slot => ⟨fun hsome => ?_, hfed id node hnode slot⟩,
    fun id slot q hq => ?_, ⟨rank, fun id slot q hq => (hfeeds id slot q hq).2.1⟩, hsink⟩
  · obtain ⟨q, hq⟩ := isSome_iff_exists.1 hsome
    obtain ⟨-, -, node', hnode', hslot⟩ := hfeeds id slot q hq
    rwa [mem_unique hnode hnode']
  · obtain ⟨hmem, -, node, hnode, -⟩ := hfeeds id slot q hq
    exact ⟨mem_ids_of_node? hnode, hmem⟩

variable (hg : g.Wired)
include hg

theorem getElem?_producers (hid : id ∈ g.ids) : (g.producers id)[slot]? = g.producer? id slot := by
  obtain ⟨node, hnode⟩ := node?_of_mem_ids hid
  exact Graph.getElem?_producers hg.once (hg.fed id node hnode)

/-- Putting the value of the producer at a slot in its place changes nothing. -/
theorem set_producer {α : Type} (h : g.producer? id slot = some q) (v : Nat → α) :
    ((g.producers id).map v).set slot (v q) = (g.producers id).map v := by
  have hget : (g.producers id)[slot]? = some q := by
    rw [hg.getElem?_producers (hg.feeds _ _ _ h).1, h]
  obtain ⟨hlt, hq⟩ := List.getElem?_eq_some_iff.1 hget
  rw [← map_set, ← hq, set_getElem_self]

variable {node : Node Operator}

theorem length_producers (hnode : g.node? id = some node) :
    (g.producers id).length = node.kind.inputs := by
  have hlt : ∀ slot, slot < (g.producers id).length ↔ slot < node.kind.inputs := by
    intro slot
    rw [← hg.fed id node hnode, ← hg.getElem?_producers (mem_ids_of_node? hnode)]
    simp
  have h := hlt (g.producers id).length
  have h' := hlt node.kind.inputs
  omega

theorem producers_of_inputs_one (hnode : g.node? id = some node) (hinputs : node.kind.inputs = 1) :
    ∃ q, g.producers id = [q] ∧ g.producer? id 0 = some q := by
  obtain ⟨q, hq⟩ := length_eq_one_iff.1 ((hg.length_producers hnode).trans hinputs)
  refine ⟨q, hq, ?_⟩
  rw [← hg.getElem?_producers (mem_ids_of_node? hnode), hq]
  rfl

theorem producers_eq_singleton (hnode : g.node? id = some node) (hinputs : node.kind.inputs = 1)
    (hq : g.producer? id 0 = some q) : g.producers id = [q] := by
  obtain ⟨q', hq', hproducer⟩ := hg.producers_of_inputs_one hnode hinputs
  rw [hq', mem_unique hq hproducer]

theorem producers_of_inputs_two (hnode : g.node? id = some node)
    (hinputs : node.kind.inputs = 2) : ∃ l r, g.producers id = [l, r] ∧ g.producer? id 0 = some l ∧
      g.producer? id 1 = some r := by
  obtain ⟨l, r, hlr⟩ := length_eq_two.1 ((hg.length_producers hnode).trans hinputs)
  refine ⟨l, r, hlr, ?_, ?_⟩
  · rw [← hg.getElem?_producers (mem_ids_of_node? hnode), hlr]
    rfl
  · rw [← hg.getElem?_producers (mem_ids_of_node? hnode), hlr]
    rfl

theorem mem_producers_iff : q ∈ g.producers id ↔ ∃ slot, g.producer? id slot = some q := by
  simp only [producer?_eq_some_iff hg.once, Graph.mem_producers, port, Prod.mk.injEq]
  constructor
  · rintro ⟨e, he, htarget, hsource⟩
    exact ⟨e.targetSlot, e, he, ⟨htarget, rfl⟩, hsource⟩
  · rintro ⟨slot, e, he, ⟨htarget, -⟩, hsource⟩
    exact ⟨e, he, htarget, hsource⟩

theorem mem_of_mem_producers (hq : q ∈ g.producers id) : q ∈ g.ids := by
  obtain ⟨slot, hslot⟩ := hg.mem_producers_iff.1 hq
  exact (hg.feeds id slot q hslot).2

theorem founded : g.Founded := by
  obtain ⟨rank, hrank⟩ := hg.acyclic
  refine ⟨rank, fun id _ q hq => ?_⟩
  obtain ⟨slot, hslot⟩ := hg.mem_producers_iff.1 hq
  exact ⟨hg.mem_of_mem_producers hq, hrank id slot q hslot⟩

end Wired

end Graph

end Dataflow
