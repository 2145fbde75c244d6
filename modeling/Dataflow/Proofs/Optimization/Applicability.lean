/-
**The changes that rules choose can be made.**

A move takes the edges at some slots away and adds edges at the same slots, and a fusion does so at
one slot, so no slot is entered twice.  Some rank grows along all edges before the change; with the
ranks of the filter and of the operator before it exchanged, it grows along all edges after a move,
so no edge that is added closes a cycle.

Main results:

* `Graph.foldl_disconnect` — a graph without the edges at some slots;
* `Graph.exists_applyPush` — **a move that was chosen can be made**;
* `Graph.exists_applyFusion` — **a fusion that was chosen can be made**.
-/

import Dataflow.Optimization.Fusion
import Dataflow.Optimization.Pushdown
import Dataflow.Proofs.Graph.Building

namespace Dataflow

open List Outcome Edge

/-- Where a flow ends, as an input slot. -/
def Flow.port (f : Flow) : Nat × Nat := (f.operator, f.slot)

namespace Graph

variable {g : Dag} {source : Nat}

/-- **A graph without the edges at some slots.** -/
theorem foldl_disconnect (honce : (g.edges.map port).Nodup) (ports : List (Nat × Nat)) :
    ports.foldl (fun g p => g.disconnect p.1 p.2) g =
      { g with edges := g.edges.filter fun e => e.port ∉ ports } := by
  induction ports generalizing g with
  | nil => simp
  | cons p ports ih =>
    have hedges : g.edges.filter (fun e => !e.enters p.1 p.2) =
        g.edges.filter fun e => e.port ≠ p := by
      refine filter_congr fun e _ => ?_
      rw [Bool.eq_iff_iff, Bool.not_eq_true', ← Bool.not_eq_true,
        enters_iff, decide_eq_true_eq]
    rw [foldl_cons, ih (once_disconnect honce p.1 p.2), edges_disconnect honce,
      hedges, List.filter_filter]
    simp only [disconnect, mem_cons, not_or, Bool.decide_and, Bool.and_comm]

/-- Edges at slots that were freed can be added, if they go upwards along a rank, as those that are
left do. -/
theorem foldlM_connect_freed {ports : List (Nat × Nat)} {fresh : List Edge} (rank : Nat → Nat)
    (honce : (g.edges.map port).Nodup) (hports : fresh.map port = ports)
    (hnodup : ports.Nodup) (hslots : ∀ e ∈ fresh, g.checkSlots e = .ok ())
    (hkept : ∀ e ∈ g.edges, e.port ∉ ports → rank e.source < rank e.target)
    (hfresh : ∀ e ∈ fresh, rank e.source < rank e.target) :
    fresh.foldlM connect { g with edges := g.edges.filter fun e => e.port ∉ ports } =
      .ok { g with edges := (g.edges.filter fun e => e.port ∉ ports) ++ fresh } := by
  refine foldlM_connect rank (g := { g with edges := g.edges.filter fun e => e.port ∉ ports })
    hslots ?_ ?_
  · rw [map_append, nodup_append']
    refine ⟨honce.sublist (filter_sublist.map _), hports ▸ hnodup, ?_⟩
    intro port hport hport'
    obtain ⟨e, he, rfl⟩ := List.mem_map.1 hport
    rw [hports] at hport'
    simpa [hport'] using (mem_filter.1 he).2
  · intro e he
    rcases mem_append.1 he with he | he
    · obtain ⟨he, hport⟩ := mem_filter.1 he
      exact hkept e he (by simpa using hport)
    · exact hfresh e he

theorem nodup_outFlows (honce : (g.edges.map port).Nodup) (id : Nat) :
    ((g.outFlows id).map Flow.port).Nodup := by
  have hperm : (g.outFlows id).Perm ((g.edges.filter (·.source == id)).map fun e =>
      Flow.mk e.target e.targetSlot) := mergeSort_perm _ _
  rw [(hperm.map Flow.port).nodup_iff, List.map_map]
  exact honce.sublist (filter_sublist.map port)

theorem checkSlots_of_producer? (hg : g.Wired) {e : Edge} (hsource : e.source ∈ g.ids)
    (hslot : e.sourceSlot = 0) (htarget : (g.producer? e.target e.targetSlot).isSome = true) :
    g.checkSlots e = .ok () := by
  obtain ⟨q, hq⟩ := Option.isSome_iff_exists.1 htarget
  obtain ⟨source, hsource⟩ := node?_of_mem_ids hsource
  obtain ⟨target, hnode⟩ := node?_of_mem_ids (hg.feeds _ _ q hq).1
  refine checkSlots_eq_ok_iff.2 ⟨source, target, hsource, hnode, ?_,
    (hg.fed _ target hnode _).1 htarget⟩
  rw [hslot]
  exact Nat.zero_lt_one

theorem setSink_of_mem {id : Nat} (hid : id ∈ g.ids) :
    g.setSink id = .ok { g with sink := some id } := by
  obtain ⟨node, hnode⟩ := node?_of_mem_ids hid
  rw [setSink, get, hnode, ofOption_some]
  rfl

/-! ### Moves -/

section Moves

variable {filter below slot source : Nat} {node : Node Operator} {e : Expr}

/-- The edges of a move: the filter reads the source, the operator reads the filter, and what read
the filter reads the operator. -/
def moveEdges (g : Dag) (filter below slot source : Nat) : List Edge :=
  ⟨source, 0, filter, 0⟩ :: ⟨filter, 0, below, slot⟩ :: (g.outFlows filter).map fun c =>
    ⟨below, 0, c.operator, c.slot⟩

theorem map_port_moveEdges : (g.moveEdges filter below slot source).map port =
    (filter, 0) :: (below, slot) :: (g.outFlows filter).map Flow.port := by
  rw [moveEdges, map_cons, map_cons, List.map_map]
  rfl

/-- With the ranks of the filter and of the operator exchanged, the edges that a move leaves and
those that it adds go upwards. -/
theorem exists_rank_of_move (hg : g.Wired) (hnode : g.node? filter = some node)
    (hkind : node.kind = .primitive (.filter e)) (hreads : g.producer? filter 0 = some below)
    (hlength : (g.outFlows below).length = 1) (hsource : g.producer? below slot = some source) :
    ∃ rank : Nat → Nat,
      (∀ e ∈ g.edges, e.port ∉ (g.moveEdges filter below slot source).map port →
      rank e.source < rank e.target) ∧ ∀ e ∈ g.moveEdges filter below slot source,
      rank e.source < rank e.target := by
  obtain ⟨rank, hrank⟩ := hg.acyclic
  have hbelow := hrank _ _ _ hreads
  have hfeeds := hrank _ _ _ hsource
  have hflows : ∀ f, f ∈ g.outFlows filter ↔ g.producer? f.operator f.slot = some filter :=
    fun f => mem_outFlows hg.once
  refine ⟨fun id => if id = filter then rank below else if id =
    below then rank filter else rank id, ?_, ?_⟩
  · intro e he hport
    have hedge : g.producer? e.target e.targetSlot = some e.source :=
      (producer?_eq_some_iff hg.once).2 ⟨e, he, rfl, rfl⟩
    have hlt := hrank _ _ _ hedge
    rw [map_port_moveEdges, mem_cons, mem_cons, not_or, not_or] at hport
    obtain ⟨hfilter, -, hnot⟩ := hport
    -- Nothing that is left reads the filter or the operator, and the filter reads nothing.
    have hsource' : e.source ≠ filter := by
      intro heq
      exact hnot (List.mem_map.2 ⟨⟨e.target, e.targetSlot⟩, (hflows _).2 (heq ▸ hedge), rfl⟩)
    have hsource'' : e.source ≠ below := by
      intro heq
      obtain ⟨htarget, hslot⟩ := eq_of_length_outFlows hg.once hlength (heq ▸ hedge) hreads
      exact hfilter (by rw [port, htarget, hslot])
    have htarget : e.target ≠ filter := by
      intro heq
      have hslot := (hg.fed filter node hnode e.targetSlot).1 (by rw [← heq, hedge]; rfl)
      rw [hkind] at hslot
      exact hfilter (by rw [port, heq, Nat.lt_one_iff.1 hslot])
    simp only [if_neg hsource', if_neg hsource'', if_neg htarget]
    split
    · next heq => rw [heq] at hlt; omega
    · exact hlt
  · intro e he
    have hne : below ≠ filter := fun heq => by rw [heq] at hbelow; omega
    have hne' : source ≠ filter := fun heq => by rw [heq] at hfeeds; omega
    have hne'' : source ≠ below := fun heq => by rw [heq] at hfeeds; omega
    simp only [moveEdges, mem_cons, List.mem_map] at he
    rcases he with rfl | rfl | ⟨f, hf, rfl⟩
    · simp [hne', hne'', hfeeds]
    · simp [hne, hbelow]
    · have hlt := hrank _ _ _ ((hflows f).1 hf)
      have hfilter : f.operator ≠ filter := fun heq => by rw [heq] at hlt; omega
      have hbelow' : f.operator ≠ below := fun heq => by rw [heq] at hlt; omega
      simp [hne, hfilter, hbelow', hlt]

theorem nodup_moveEdges (hg : g.Wired) (hreads : g.producer? filter 0 = some below)
    (hsource : g.producer? below slot = some source) :
    ((g.moveEdges filter below slot source).map port).Nodup := by
  obtain ⟨rank, hrank⟩ := hg.acyclic
  have hbelow := hrank _ _ _ hreads
  have hfeeds := hrank _ _ _ hsource
  have hne : filter ≠ below := fun heq => by rw [heq] at hbelow; omega
  have hnot : ∀ id s q, g.producer? id s = some q → q ≠ filter →
      (id, s) ∉ (g.outFlows filter).map Flow.port := by
    intro id s q hq hne hmem
    obtain ⟨f, hf, hport⟩ := List.mem_map.1 hmem
    obtain ⟨hid, hs⟩ := Prod.mk.inj hport
    have hfilter := (mem_outFlows hg.once).1 hf
    rw [hid, hs, hq] at hfilter
    exact hne (Option.some.inj hfilter)
  rw [map_port_moveEdges, nodup_cons, nodup_cons, mem_cons, not_or]
  refine ⟨⟨fun heq => hne (Prod.mk.inj heq).1, hnot _ _ _ hreads hne.symm⟩, hnot _ _ _ hsource ?_,
    nodup_outFlows hg.once filter⟩
  intro heq
  rw [heq] at hfeeds
  omega

/-- A move takes the edges at the slots of its edges away, adds these, and then chooses the sink. -/
theorem applyPush_eq (honce : (g.edges.map port).Nodup) {predicate : Expr}
    (hsource : g.producer? below slot = some source) :
    g.applyPush ⟨filter, below, slot, predicate⟩ = (do
      let g ← (g.moveEdges filter below slot source).foldlM connect { g with
        edges := g.edges.filter fun e =>
          e.port ∉ (g.moveEdges filter below slot source).map port }
      let g ← if g.sink = some filter then g.setSink below else pure g
      return g.setKind filter (.primitive (.filter predicate))) := by
  -- The edges are taken away in another order than edges are added.
  have hfreed :
    (((g.outFlows filter).foldl (fun g c => g.disconnect c.operator c.slot) g).disconnect
      filter 0).disconnect below slot = { g with
        edges := g.edges.filter fun e =>
          e.port ∉ (g.moveEdges filter below slot source).map port } := by
    have hfold := foldl_disconnect honce
      ((g.outFlows filter).map Flow.port ++ [(filter, 0), (below, slot)])
    rw [foldl_append, foldl_map] at hfold
    refine Eq.trans hfold ?_
    congr 1
    refine filter_congr fun e _ => ?_
    rw [map_port_moveEdges]
    simp only [mem_append, mem_cons, not_mem_nil, or_false, decide_eq_decide]
    tauto
  simp only [applyPush, hsource, ofOption_some, ok_bind, hfreed]
  generalize { g with edges := g.edges.filter fun e => e.port ∉
    (g.moveEdges filter below slot source).map port } = freed
  simp only [moveEdges, foldlM_cons, foldlM_map, bind_assoc]

end Moves

/-- **A move that was chosen can be made**: it takes edges away and adds edges from first output
slots. -/
theorem exists_applyPush (hg : g.Wired) {push : Push} {node : Node Operator} {e : Expr}
    (hnode : g.node? push.filter = some node) (hkind : node.kind = .primitive (.filter e))
    (hreads : g.producer? push.filter 0 = some push.below)
    (hlength : (g.outFlows push.below).length = 1)
    (hsource : g.producer? push.below push.slot = some source) :
    ∃ g', g.applyPush push = .ok g' ∧ g'.allocated = g.allocated ∧ ∀ e ∈ g'.edges, e ∈ g.edges ∨
      e.sourceSlot = 0 := by
  obtain ⟨filter, below, slot, predicate⟩ := push
  simp only at hnode hreads hlength hsource
  obtain ⟨rank, hkept, hfresh⟩ := exists_rank_of_move hg hnode hkind hreads hlength hsource
  have hslots : ∀ e ∈ g.moveEdges filter below slot source, g.checkSlots e = .ok () := by
    intro e he
    simp only [moveEdges, mem_cons, List.mem_map] at he
    rcases he with rfl | rfl | ⟨f, hf, rfl⟩
    · exact checkSlots_of_producer? hg (hg.feeds _ _ _ hsource).2 rfl (by rw [hreads]; rfl)
    · exact checkSlots_of_producer? hg (mem_ids_of_node? hnode) rfl (by rw [hsource]; rfl)
    · exact checkSlots_of_producer? hg (hg.feeds _ _ _ hsource).1 rfl
        (by rw [(mem_outFlows hg.once).1 hf]; rfl)
  have hconnect := foldlM_connect_freed rank hg.once rfl (nodup_moveEdges hg hreads hsource)
    hslots hkept hfresh
  have hedges : ∀ e ∈ (g.edges.filter fun e =>
      e.port ∉ (g.moveEdges filter below slot source).map port) ++
      g.moveEdges filter below slot source, e ∈ g.edges ∨ e.sourceSlot = 0 := by
    intro e he
    rcases mem_append.1 he with he | he
    · exact .inl (mem_filter.1 he).1
    · simp only [moveEdges, mem_cons, List.mem_map] at he
      rcases he with rfl | rfl | ⟨f, -, rfl⟩ <;> exact .inr rfl
  rw [applyPush_eq hg.once hsource, hconnect, ok_bind]
  split
  · rw [setSink_of_mem (by exact (hg.feeds _ _ _ hsource).1)]
    exact ⟨_, rfl, rfl, hedges⟩
  · exact ⟨_, rfl, rfl, hedges⟩

/-! ### Fusions -/

section Fusions

variable {outer inner source : Nat} {below : Node Operator} {fields : List Nat}

/-- The edges that are left when two projections are to be fused. -/
theorem disconnect_fusion (honce : (g.edges.map port).Nodup) (outer inner : Nat) :
    (g.disconnect outer 0).disconnect inner 0 =
      { g with edges := g.edges.filter fun e => e.port ∉ [(outer, 0), (inner, 0)] } :=
  foldl_disconnect honce [(outer, 0), (inner, 0)]

theorem remove_fusion (hg : g.Wired) (hreads : g.producer? outer 0 = some inner)
    (hbelow : g.node? inner = some below) (hkind : below.kind = .primitive (.projection fields))
    (hlength : (g.outFlows inner).length = 1) :
    ((g.disconnect outer 0).disconnect inner 0).remove inner =
      .ok (below, ((g.disconnect outer 0).disconnect inner 0).erase inner) := by
  have hdegree : ((g.disconnect outer 0).disconnect inner 0).degree inner = 0 := by
    rw [degree, disconnect_fusion hg.once, countP_eq_zero]
    intro e he
    obtain ⟨he, hport⟩ := mem_filter.1 he
    have hport : e.port ∉ [(outer, 0), (inner, 0)] := by simpa using hport
    have hedge : g.producer? e.target e.targetSlot = some e.source :=
      (producer?_eq_some_iff hg.once).2 ⟨e, he, rfl, rfl⟩
    have hsource : e.source ≠ inner := by
      intro heq
      obtain ⟨htarget, hslot⟩ := eq_of_length_outFlows hg.once hlength (heq ▸ hedge) hreads
      exact hport (by simp [port, htarget, hslot])
    have htarget : e.target ≠ inner := by
      intro heq
      have hslot := (hg.fed inner below hbelow e.targetSlot).1 (by rw [← heq, hedge]; rfl)
      rw [hkind] at hslot
      exact hport (by simp [port, heq, Nat.lt_one_iff.1 hslot])
    simp [touches, hsource, htarget]
  have hget : ((g.disconnect outer 0).disconnect inner 0).get inner = .ok below :=
    ofOption_eq_ok_iff.2 hbelow
  rw [remove, hdegree, if_neg (by simp), hget]
  rfl

theorem connect_fusion (hg : g.Wired) (hreads : g.producer? outer 0 = some inner)
    (hsource : g.producer? inner 0 = some source) :
    (((g.disconnect outer 0).disconnect inner 0).erase inner).connect ⟨source, 0, outer, 0⟩ =
      .ok ((((g.disconnect outer 0).disconnect inner 0).erase inner).connectUnchecked
      ⟨source, 0, outer, 0⟩) := by
  obtain ⟨rank, hrank⟩ := hg.acyclic
  have hinner := hrank _ _ _ hreads
  have hfeeds := hrank _ _ _ hsource
  have hlt : rank source < rank outer := hfeeds.trans hinner
  have hne : source ≠ inner := fun heq => by rw [heq] at hfeeds; omega
  have hne' : outer ≠ inner := fun heq => by rw [heq] at hinner; omega
  obtain ⟨snode, hsnode⟩ := node?_of_mem_ids (hg.feeds _ _ _ hsource).2
  obtain ⟨onode, honode⟩ := node?_of_mem_ids (hg.feeds _ _ _ hreads).1
  rw [disconnect_fusion hg.once]
  refine connect_of_rank (checkSlots_eq_ok_iff.2 ⟨snode, onode, ?_, ?_, Nat.zero_lt_one, ?_⟩)
    ?_ ?_ hlt
  · rw [node?_erase, if_neg hne]
    exact hsnode
  · rw [node?_erase, if_neg hne']
    exact honode
  · exact (hg.fed outer onode honode 0).1 (by rw [hreads]; rfl)
  · intro hport
    obtain ⟨e, he, heq⟩ := List.mem_map.1 hport
    have hnot := (mem_filter.1 he).2
    rw [heq] at hnot
    simp [port] at hnot
  · intro e he
    exact hrank _ _ _ ((producer?_eq_some_iff hg.once).2 ⟨e, (mem_filter.1 he).1, rfl, rfl⟩)

end Fusions

/-- **A fusion that was chosen can be made**: it takes edges away and adds one from a first output
slot. -/
theorem exists_applyFusion (hg : g.Wired) {fusion : Fusion}
    {below : Node Operator} {fields : List Nat} (hreads : g.producer? fusion.outer 0 =
      some fusion.inner) (hbelow : g.node? fusion.inner = some below)
    (hkind : below.kind = .primitive (.projection fields))
      (hlength : (g.outFlows fusion.inner).length = 1)
    (hsource : g.producer? fusion.inner 0 = some source) :
    ∃ g', g.applyFusion fusion = .ok g' ∧ g'.allocated = g.allocated ∧
      ∀ e ∈ g'.edges, e ∈ g.edges ∨ e.sourceSlot = 0 := by
  obtain ⟨outer, inner, positions⟩ := fusion
  simp only at hreads hbelow hlength hsource
  simp only [applyFusion, hsource, ofOption_some, ok_bind,
    remove_fusion hg hreads hbelow hkind hlength, connect_fusion hg hreads hsource]
  refine ⟨_, rfl, rfl, fun e he => ?_⟩
  rw [setKind, edges_modify, connectUnchecked, disconnect_fusion hg.once] at he
  rcases mem_append.1 he with he | he
  · exact .inl (mem_filter.1 he).1
  · rw [mem_singleton.1 he]
    exact .inr rfl

end Graph

end Dataflow
