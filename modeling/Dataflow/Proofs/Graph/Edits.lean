/-
**Edits keep a graph intact.**

A graph is changed under checks, one edit at a time.  An edit that fails leaves the graph as it was,
except that a failed rewiring puts the edge that it took away back behind all others.  So whatever
edits are made, in whatever order and with whatever success, a graph that starts empty or was read
from a document keeps its representation: edges join slots that there are, no slot has two edges,
there is no cycle, the sink is one of the operators, and every operator is found under its own
number, below the next free one.

Main results:

* `Graph.Intact.edit` — **an edit keeps a graph intact**, whether it succeeds or fails;
* `Graph.intact_of_ofJson` — a graph that was read is intact;
* `Graph.intact_of_edits` — **every graph reached by edits is intact**, and has an order.
-/

import Dataflow.Graph.Document
import Dataflow.Proofs.Graph.Reach
import Mathlib.Data.List.Permutation

namespace Dataflow.Graph

open List Outcome Relation

variable {id : Nat}

/-! ### Intact graphs -/

/-- The representation of a graph: operators stand in ascending order of their numbers, below the
next free one; every edge joins operators that there are through slots that they have; no slot has
two edges; some rank grows along all edges; and the sink, if there is one, is an operator. -/
structure Intact (g : Dag) : Prop where
  ascending : g.ids.Pairwise (· < ·)
  below : ∀ id ∈ g.ids, id < g.nextId
  slots : ∀ e ∈ g.edges, ∃ source target, g.node? e.source = some source ∧
    g.node? e.target = some target ∧ e.sourceSlot < source.kind.outputs ∧
    e.targetSlot < target.kind.inputs
  once : (g.edges.map Edge.port).Nodup
  acyclic : ∃ rank : Nat → Nat, ∀ e ∈ g.edges, rank e.source < rank e.target
  sink : ∀ id, g.sink = some id → id ∈ g.ids

/-- A checked change of a graph. -/
inductive Edit where
  | add (op : Operator)
  | addAt (id : Nat) (op : Operator)
  | connect (e : Edge)
  | disconnect (target slot : Nat)
  | remove (id : Nat)
  | rewire (e : Edge)
  | setSink (id : Nat)

/-- The graph that an edit leaves, whether it succeeds or fails. -/
def Edit.apply (g : Dag) : Edit → Dag
  | .add op => (g.add op).2
  | .addAt id op => (g.addAt id op).toOption.getD g
  | .connect e => (g.connect e).toOption.getD g
  | .disconnect target slot => g.disconnect target slot
  | .remove id => ((g.remove id).toOption.map (·.2)).getD g
  | .rewire e =>
    match g.rewire e with
    | .ok changed => changed
    | .error interruption => interruption.reached
  | .setSink id => (g.setSink id).toOption.getD g

variable {g g' : Dag}

theorem intact_empty : (empty : Dag).Intact where
  ascending := .nil
  below := fun _ hid => absurd hid not_mem_nil
  slots := fun _ he => absurd he not_mem_nil
  once := .nil
  acyclic := ⟨id, fun _ he => absurd he not_mem_nil⟩
  sink := fun _ hsink => nomatch hsink

namespace Intact

/-! ### Operators -/

section

variable (hg : g.Intact)
include hg

theorem insert (hnew : id ∉ g.ids) (op : Operator) : (g.insert id op).Intact := by
  have hids : (g.insert id op).ids.Perm (id :: g.ids) :=
    (perm_insertNode ⟨id, op, {}⟩ g.nodes).map Node.id
  have hnode : ∀ m node, g.node? m = some node → (g.insert id op).node? m = some node := by
    intro m node hm
    have hne : id ≠ m := fun heq => hnew (heq ▸ mem_ids_of_node? hm)
    rw [node?_insert g id m op (by rwa [contains_iff_mem_ids]), if_neg hne, hm]
  refine ⟨pairwise_insertNode hg.ascending hnew, fun m hm => ?_, fun e he => ?_,
    hg.once, hg.acyclic, fun m hm => hids.mem_iff.2 (mem_cons_of_mem _ (hg.sink m hm))⟩
  · show m < max g.nextId (id + 1)
    rcases mem_cons.1 (hids.mem_iff.1 hm) with rfl | hm
    · omega
    · have := hg.below m hm
      omega
  · obtain ⟨source, target, hsource, htarget, hslots⟩ := hg.slots e he
    exact ⟨source, target, hnode _ _ hsource, hnode _ _ htarget, hslots⟩

theorem add (op : Operator) : (g.add op).2.Intact :=
  hg.insert (fun hmem => Nat.lt_irrefl _ (hg.below _ hmem)) op

theorem addAt {op : Operator} (h : g.addAt id op = .ok g') : g'.Intact := by
  unfold Graph.addAt at h
  split at h
  · cases h
  · next hnew =>
    cases h
    exact hg.insert (by rwa [contains_iff_mem_ids] at hnew) op

/-- An operator at which no edge is left can be taken away. -/
theorem remove {node : Node Operator} (h : g.remove id = .ok (node, g')) : g'.Intact := by
  simp only [Graph.remove, bind_eq_ok_iff, guard_eq_ok_iff, pure_eq_ok,
    Except.ok.injEq, Prod.mk.injEq, Decidable.not_not] at h
  obtain ⟨hdegree, _, -, -, rfl⟩ := h
  rw [degree, countP_eq_zero] at hdegree
  have hnode : ∀ m node, g.node? m = some node → m ≠ id → (g.erase id).node? m = some node := by
    intro m node hm hne
    rw [node?_erase, if_neg hne, hm]
  refine ⟨hg.ascending.sublist (filter_sublist.map _), fun m hm => ?_, fun e he => ?_,
    hg.once, hg.acyclic, fun m hm => ?_⟩
  · exact hg.below m ((filter_sublist.map Node.id).subset hm)
  · obtain ⟨source, target, hsource, htarget, hslots⟩ := hg.slots e he
    have hfar := hdegree e he
    simp only [Edge.touches, Bool.or_eq_true, beq_iff_eq, not_or] at hfar
    exact ⟨source, target, hnode _ _ hsource hfar.1, hnode _ _ htarget hfar.2, hslots⟩
  · simp only [erase] at hm
    split at hm
    · cases hm
    · next hsink =>
      rw [ids_erase, mem_filter, bne_iff_ne]
      exact ⟨hg.sink m hm, fun heq => hsink (heq ▸ hm)⟩

theorem withoutSink : { g with sink := none }.Intact := { hg with
    slots := hg.slots
    sink := fun _ hsink => nomatch hsink }

theorem setSink (hid : id ∈ g.ids) : { g with sink := some id }.Intact := { hg with
    slots := hg.slots
    sink := fun _ hsink => Option.some.inj hsink ▸ hid }

/-! ### Edges -/

/-- What is said of the edges does not depend on their order, and holds of any of them. -/
theorem of_subperm {edges : List Edge} (h : edges.Subperm g.edges) :
    { g with edges := edges }.Intact := by
  obtain ⟨rank, hrank⟩ := hg.acyclic
  obtain ⟨chosen, hperm, hchosen⟩ := id h
  exact {
    ascending := hg.ascending
    below := hg.below
    slots := fun e he => hg.slots e (h.subset he)
    once := (hperm.map Edge.port).nodup_iff.1 (hg.once.sublist (hchosen.map Edge.port))
    acyclic := ⟨rank, fun e he => hrank e (h.subset he)⟩
    sink := hg.sink }

end

/-- The edge that was taken from a slot can be put back behind all others. -/
theorem perm_putBack {target slot : Nat} {old : Edge} (h : g.edgeAt? target slot = some old) :
    ((g.disconnect target slot).connectUnchecked old).edges.Perm g.edges := by
  obtain ⟨henters, before, after, hedges, hbefore⟩ := find?_eq_some_iff_append.1 h
  have herase : (before ++ old :: after).eraseP (·.enters target slot) = before ++ after := by
    rw [eraseP_append_right _ (fun f hf => by simpa using hbefore f hf),
      eraseP_cons_of_pos (by exact henters)]
  simp only [connectUnchecked, Graph.disconnect, hedges, herase]
  exact (perm_append_singleton _ _).trans perm_middle.symm

theorem disconnect (hg : g.Intact) (target slot : Nat) : (g.disconnect target slot).Intact :=
  hg.of_subperm eraseP_sublist.subperm

theorem connect (hg : g.Intact) {e : Edge} (h : g.connect e = .ok g') : g'.Intact := by
  obtain ⟨hslots, hfree, hback, rfl⟩ := connect_eq_ok_iff.1 h
  obtain ⟨rank, hrank⟩ := hg.acyclic
  refine ⟨hg.ascending, hg.below, fun f hf => ?_, once_connectUnchecked hg.once hfree,
    exists_rank_append hrank hback, hg.sink⟩
  rcases mem_append.1 hf with hf | hf
  · exact hg.slots f hf
  · obtain rfl := mem_singleton.1 hf
    exact checkSlots_eq_ok_iff.1 hslots

/-- A rewiring that fails changes the order of the edges only. -/
theorem rewire (hg : g.Intact) (e : Edge) : (Edit.apply g (.rewire e)).Intact := by
  simp only [Edit.apply, Graph.rewire]
  cases hconnect : (g.disconnect e.target e.targetSlot).connect e with
  | ok changed => exact (hg.disconnect _ _).connect hconnect
  | error failure =>
    cases hold : g.edgeAt? e.target e.targetSlot with
    | none => exact hg
    | some old =>
      exact hg.of_subperm (perm_putBack hold).subperm

/-! ### Edits -/

/-- **An edit keeps a graph intact**, whether it succeeds or fails. -/
theorem edit (hg : g.Intact) (edit : Edit) : (edit.apply g).Intact := by
  cases edit with
  | add op => exact hg.add op
  | addAt id op =>
    rw [Edit.apply]
    cases h : g.addAt id op with
    | ok g' => exact hg.addAt h
    | error _ => exact hg
  | connect e =>
    rw [Edit.apply]
    cases h : g.connect e with
    | ok g' => exact hg.connect h
    | error _ => exact hg
  | disconnect target slot => exact hg.disconnect target slot
  | remove id =>
    rw [Edit.apply]
    cases h : g.remove id with
    | ok removed => exact hg.remove h
    | error _ => exact hg
  | rewire e => exact hg.rewire e
  | setSink id =>
    rw [Edit.apply, Graph.setSink]
    cases h : g.get id with
    | ok node => exact hg.setSink (mem_ids_of_node? (ofOption_eq_ok_iff.1 h))
    | error _ => exact hg

end Intact

/-! ### Reading -/

/-- Connecting a record is connecting edges, one by one. -/
theorem connects_of_wire {entry : Entry} (h : g.wire entry = .ok g') :
    ∃ edges : List Edge, edges.foldlM Graph.connect g = .ok g' := by
  unfold wire at h
  cases hfind : entry.producers.find? fun p => !g.contains p with
  | some unknown =>
    rw [hfind] at h
    cases h
  | none =>
    rw [hfind] at h
    simp only [bind_eq_ok_iff, guard_eq_ok_iff] at h
    obtain ⟨_, -, -, h⟩ := h
    exact ⟨_, h⟩

theorem Intact.wire (hg : g.Intact) {entry : Entry} (h : g.wire entry = .ok g') : g'.Intact := by
  obtain ⟨edges, h⟩ := connects_of_wire h
  exact foldlM_ok_induction (P := Intact) (fun _ _ _ _ hg h => hg.connect h) hg h

theorem mem_ids_of_readSink {sink : Option Json} (h : g.readSink sink = .ok (some id)) :
    id ∈ g.ids := by
  cases sink with
  | none =>
    rw [readSink] at h
    split at h
    · next last hlast =>
      obtain rfl : last = id := by simpa using h
      exact (mem_filter.1 (hlast ▸ mem_singleton_self last : last ∈ g.lastOperators)).1
    · cases h
    · cases h
  | some value =>
    have hread : (do
        let id ← idOfJson "sink" value
        if g.contains id then return some id else throw (.parse (.unknownSink id)) :
        Outcome (Option Nat)) =
          .ok (some id) → id ∈ g.ids := by
      intro h
      obtain ⟨named, -, h⟩ := bind_eq_ok_iff.1 h
      split at h
      · next hcontains =>
        obtain rfl : named = id := by simpa using h
        exact (contains_iff_mem_ids g named).1 hcontains
      · cases h
    cases value with
    | null => cases h
    | _ => exact hread h

theorem intact_of_ofJson {catalog : Catalog} {document : Json}
    (h : ofJson catalog document = .ok g) : g.Intact := by
  obtain ⟨records, sink, h⟩ : ∃ records sink, assemble catalog records sink = .ok g := by
    cases document <;> exact ⟨_, _, h⟩
  simp only [assemble, bind_eq_ok_iff, pure_eq_ok, Except.ok.injEq] at h
  obtain ⟨_, -, entries, -, g₁, hadd, g₂, hwire, sink', hsink, rfl⟩ := h
  have hadded : g₁.Intact :=
    foldlM_ok_induction (P := Intact) (fun _ _ _ _ hg h => hg.addAt h) intact_empty hadd
  have hwired : g₂.Intact :=
    foldlM_ok_induction (P := Intact) (fun _ _ _ _ hg h => hg.wire h) hadded hwire
  cases sink' with
  | none => exact hwired.withoutSink
  | some id => exact hwired.setSink (mem_ids_of_readSink hsink)

/-! ### Runs of edits -/

theorem Intact.edits (hg : g.Intact) (edits : List Edit) : (edits.foldl Edit.apply g).Intact := by
  induction edits generalizing g with
  | nil => exact hg
  | cons edit edits ih => exact ih (hg.edit edit)

/-- **Every graph reached by edits is intact**: from the empty graph or from one that was read,
whatever edits are made and whether they succeed or fail.  So it has no cycle, its operators can be
put in order, and each is found under its own number. -/
theorem intact_of_edits {start : Dag}
    (hstart : start = empty ∨ ∃ catalog document, ofJson catalog document = .ok start)
    (edits : List Edit) :
    (edits.foldl Edit.apply start).Intact ∧
      (∀ id, ¬TransGen (Joined (edits.foldl Edit.apply start).edges) id id) ∧
      (∃ order, (edits.foldl Edit.apply start).order = .ok order) ∧
      ∀ node ∈ (edits.foldl Edit.apply start).nodes,
        (edits.foldl Edit.apply start).node? node.id = some node := by
  have hintact : start.Intact := by
    rcases hstart with rfl | ⟨catalog, document, hread⟩
    · exact intact_empty
    · exact intact_of_ofJson hread
  have hreached := hintact.edits edits
  obtain ⟨rank, hrank⟩ := hreached.acyclic
  exact ⟨hreached, not_cycle_of_rank hrank, exists_order hrank,
    fun node hnode => node?_of_mem hreached.ascending hnode⟩

/-- The pairs of the rows of an input with its only row. -/
def pairsWithOnly : Json := .object [("sink", .ofNat 5), ("dag", .array [
    .object [("id", .ofNat 5), ("op", .string "cartesian"),
      ("predecessors", .array [.ofNat 2, .ofNat 3])],
    .object [("id", .ofNat 3), ("op", .string "ensure_single_tuple"),
      ("predecessors", .array [.ofNat 2])],
    .object [("id", .ofNat 2), ("op", .string "parameter_lookup"), ("parameter_num", .ofNat 0)]])]

/-- Edits of which some fail: a rewiring that would close a cycle puts the old edge back, an
operator with edges stays, a slot that is taken stays so, and the sink is taken away with its
operator. -/
def someEdits : List Edit :=
  [.rewire ⟨5, 0, 3, 0⟩, .remove 3, .connect ⟨2, 0, 5, 1⟩,
    .addAt 9 (.primitive .materializeRowVector), .rewire ⟨9, 0, 5, 1⟩, .disconnect 5 0,
    .disconnect 5 1, .remove 5, .add (.primitive (.projection [0])), .connect ⟨9, 0, 10, 0⟩,
    .connect ⟨10, 0, 9, 0⟩, .setSink 5, .setSink 10]

theorem intact_someEdits : ∃ start, ofJson .standard pairsWithOnly = .ok start ∧
    (someEdits.foldl Edit.apply start).edges = [⟨2, 0, 3, 0⟩, ⟨9, 0, 10, 0⟩] ∧
    (someEdits.foldl Edit.apply start).ids = [2, 3, 9, 10] ∧
    (someEdits.foldl Edit.apply start).sink = some 10 ∧
    (someEdits.foldl Edit.apply start).Intact ∧
      (∀ id, ¬TransGen (Joined (someEdits.foldl Edit.apply start).edges) id id) ∧
      (∃ order, (someEdits.foldl Edit.apply start).order = .ok order) ∧
      ∀ node ∈ (someEdits.foldl Edit.apply start).nodes,
        (someEdits.foldl Edit.apply start).node? node.id = some node := by
  have hread : ofJson .standard pairsWithOnly = .ok {
      nodes := [⟨2, .primitive (.parameterLookup 0 none), {}⟩,
        ⟨3, .primitive .ensureSingleTuple, {}⟩, ⟨5, .primitive .cartesian, {}⟩]
      edges := [⟨2, 0, 5, 0⟩, ⟨3, 0, 5, 1⟩, ⟨2, 0, 3, 0⟩]
      sink := some 5
      nextId := 6 } := by cbv
  exact ⟨_, hread, by cbv, by cbv, by cbv, intact_of_edits (.inr ⟨_, _, hread⟩) someEdits⟩

end Dataflow.Graph
