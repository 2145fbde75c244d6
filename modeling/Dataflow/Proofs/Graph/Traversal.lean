/-
**Recursive traversals.**

A recursive traversal of a graph is a list of events.  It is made of the events at the operators in
topological order, and between entering and leaving a pipeline stand the events of the graph inside.
So it enters the operators of all levels and no others.

Main results:

* `Graph.get?_inner_eq` — the graphs inside, under the numbers of their pipelines;
* `Graph.trace_eq_ok` — what a traversal is made of;
* `Graph.exists_trace_of_orders`, `Graph.exists_trace` — a graph that has an order at every level
  can be traversed, as a graph that has types can;
* `Graph.forall_entered_iff` — **a traversal enters the operators of all levels**.
-/

import Dataflow.Graph.Traversal
import Dataflow.Proofs.Annotation

namespace Dataflow

open List Outcome

theorem Table.get?_of_mapM {α : Type} {t : Table (Outcome α)} {values : Table α}
    (h : t.mapM (fun (n, x) => return (n, ← x)) = .ok values) (n : Nat) :
    t.get? n = (values.get? n).map Except.ok := by
  rw [mapM_eq_ok_iff] at h
  induction h with
  | nil => rfl
  | @cons entry value _ _ hentry _ ih =>
    obtain ⟨k, x⟩ := entry
    obtain ⟨a, rfl, ha⟩ := bind_eq_ok_iff.1 hentry
    cases ha
    rw [Table.get?_cons, Table.get?_cons]
    split
    · rfl
    · exact ih

namespace Graph

variable {g h : Dag} {events : List Event} {id : Nat} {direction : Direction}
  {inner : Table (List Event)}

theorem get?_inner_eq (hascending : g.ids.Pairwise (· < ·)) (id : Nat) :
    g.inner.get? id = g.inner? id := by
  cases hinner : g.inner? id with
  | some h => exact get?_inner hinner
  | none =>
    cases hget : g.inner.get? id with
    | none => rfl
    | some h =>
      have hfound := inner?_of_mem_inner hascending (Table.mem_of_get? hget)
      rw [hinner] at hfound
      cases hfound

theorem trace_eq (direction : Direction) (g : Dag) : g.trace direction = (do
    let order ← g.orderIn direction
    let inner ← (g.inner.map fun e => (e.1, e.2.trace direction)).mapM fun (id, events) =>
      return (id, ← events)
    return order.flatMap (g.eventsAt inner)) :=
  fold_eq _ g

/-- **What a traversal is made of**: the events at the operators in order, with those of the graph
inside at a pipeline. -/
theorem trace_eq_ok (hascending : g.ids.Pairwise (· < ·)) (h : g.trace direction = .ok events) :
    ∃ order, ∃ inner : Table (List Event), g.orderIn direction = .ok order ∧
      events = order.flatMap (g.eventsAt inner) ∧
      ∀ id, (g.inner? id).map (trace direction) = (inner.get? id).map Except.ok := by
  rw [trace_eq] at h
  simp only [bind_eq_ok_iff] at h
  obtain ⟨order, horder, inner, hinner, hevents⟩ := h
  cases hevents
  refine ⟨order, inner, horder, rfl, fun id => ?_⟩
  rw [← Table.get?_of_mapM hinner, Table.get?_map, get?_inner_eq hascending]

/-- The traversals of the graphs inside, as far as a traversal goes through them. -/
theorem getD_of_traces (hinner : ∀ id, (g.inner? id).map (trace direction) =
      (inner.get? id).map Except.ok) (id : Nat) :
    (g.inner? id = none ∧ (inner.get? id).getD [] = []) ∨
      ∃ h, g.inner? id = some h ∧ h.trace direction = .ok ((inner.get? id).getD []) := by
  have hid := hinner id
  cases hh : g.inner? id with
  | none =>
    rw [hh, Option.map_none] at hid
    rw [Option.map_eq_none_iff.1 hid.symm]
    exact .inl ⟨rfl, rfl⟩
  | some h =>
    rw [hh, Option.map_some] at hid
    obtain ⟨inside, hget, htrace⟩ := Option.map_eq_some_iff.1 hid.symm
    rw [hget]
    exact .inr ⟨h, rfl, htrace.symm⟩

theorem eventsAt_eq {node : Node Operator} (hnode : g.node? id = some node) :
    g.eventsAt inner id =
      [⟨.enter, node, g⟩] ++ ((inner.get? id).getD [] ++ [⟨.exit, node, g⟩]) := by
  rw [eventsAt, hnode]
  rfl

theorem exists_orderIn (h : ∃ order, g.order = .ok order) (direction : Direction) :
    ∃ order, g.orderIn direction = .ok order := by
  obtain ⟨order, horder⟩ := h
  cases direction with
  | forward => exact ⟨order, horder⟩
  | backward => exact ⟨order.reverse, by rw [orderIn, horder]; rfl⟩

theorem exists_trace_of_orders (hg : g.Numbered)
    (h : g.Everywhere fun k => ∃ order, k.order = .ok order) (direction : Direction) :
    ∃ events, g.trace direction = .ok events := by
  induction h with
  | @intro g horder _ ih =>
    obtain ⟨order, horder⟩ := exists_orderIn horder direction
    have hinside : ∀ entry ∈ g.inner.map fun e => (e.1, e.2.trace direction), ∃ value,
        (do return (entry.1, ← entry.2) : Outcome (Nat × List Event)) = .ok value := by
      intro entry hentry
      obtain ⟨⟨id, k⟩, hmem, rfl⟩ := List.mem_map.1 hentry
      have hid := inner?_of_mem_inner hg.here hmem
      obtain ⟨events, hevents⟩ := ih id k hid (hg.inside hid)
      exact ⟨(id, events), by rw [hevents]; rfl⟩
    obtain ⟨inner, hinner⟩ := exists_mapM hinside
    exact ⟨order.flatMap (g.eventsAt inner), by rw [trace_eq, horder, ok_bind, hinner]; rfl⟩

theorem exists_trace {bound : Option (List TupleType)} {types : GraphTypes} (hg : g.Numbered)
    (htypes : g.typesWithin bound = .ok types) : ∃ events, g.trace .forward = .ok events := by
  refine exists_trace_of_orders hg ?_ .forward
  induction g using levelInduction generalizing bound types with
  | step g ih =>
    have horder := htypes
    rw [typesWithin_eq, bind_eq_ok_iff] at horder
    obtain ⟨order, horder, -⟩ := horder
    refine ⟨⟨order, horder⟩, fun id h hid => ?_⟩
    obtain ⟨inner, -, hinner⟩ := inner_of_typesWithin htypes hid
    exact ih id h hid (hg.inside hid) hinner

/-- **A traversal enters the operators of all levels**, so what holds of all operators that are
entered holds of all operators. -/
theorem forall_entered_iff {P : Node Operator → Prop} (hg : g.Numbered)
    (h : g.trace .forward = .ok events) :
    (∀ event ∈ events, event.phase = .enter → P event.node) ↔
      g.Everywhere fun h => ∀ id node, h.node? id = some node → P node := by
  induction g using levelInduction generalizing events with
  | step g ih =>
    obtain ⟨order, inner, horder, rfl, hinner⟩ := trace_eq_ok hg.here h
    constructor
    · intro hall
      have hat : ∀ id node, g.node? id = some node →
          ∀ event ∈ g.eventsAt inner id, event.phase = .enter → P event.node := by
        intro id node hnode event hevent
        exact hall event (mem_flatMap.2
          ⟨id, (mem_order_iff horder).2 (mem_ids_of_node? hnode), hevent⟩)
      refine ⟨fun id node hnode => ?_, fun id inside hinside => ?_⟩
      · exact hat id node hnode ⟨.enter, node, g⟩ (by rw [eventsAt_eq hnode]; simp) rfl
      · obtain ⟨node, n, hnode, -⟩ := inner?_eq_some_iff.1 hinside
        rcases getD_of_traces hinner id with ⟨hnone, -⟩ | ⟨_, hsome, htrace⟩
        · rw [hinside] at hnone
          cases hnone
        · obtain rfl := Option.mem_unique hinside hsome
          refine (ih id inside hinside (hg.inside hinside) htrace).1 fun event hevent => ?_
          refine hat id node hnode event ?_
          rw [eventsAt_eq hnode]
          exact mem_append_right _ (mem_append_left _ hevent)
    · intro hall event hevent henter
      obtain ⟨id, hid, hevent⟩ := mem_flatMap.1 hevent
      obtain ⟨node, hnode⟩ := node?_of_mem_ids ((mem_order_iff horder).1 hid)
      rw [eventsAt_eq hnode, mem_append, mem_append, mem_singleton, mem_singleton] at hevent
      rcases hevent with rfl | hevent | rfl
      · exact hall.here id node hnode
      · rcases getD_of_traces hinner id with ⟨-, hnil⟩ | ⟨inside, hinside, htrace⟩
        · rw [hnil] at hevent
          cases hevent
        · exact (ih id inside hinside (hg.inside hinside) htrace).2
            (hall.inside hinside) event hevent henter
      · cases henter

end Graph

end Dataflow
