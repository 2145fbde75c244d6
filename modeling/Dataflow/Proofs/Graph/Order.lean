/-
**What a topological order is good for.**

Scheduling places every operator behind its producers, so the producers of an operator can be found
before it in the order, and the place of an operator in the order is a rank that grows along every
edge.

Main results:

* `Graph.idxOf_lt_of_schedule` — scheduling places the source of an edge before its target;
* `Graph.mem_order_iff` — the order has the operators of the graph;
* `Graph.source_mem_of_order` — producers come before their consumers in it;
* `Graph.foldlM_order_induction` — what every step along the order preserves, the whole walk
  preserves;
* `Graph.exists_foldlM_order` — a walk along the order succeeds if every step does;
* `Graph.ranks_of_order` — **a graph that has an order has a rank**.
-/

import Dataflow.Graph.Order
import Dataflow.Proofs.Outcome
import Mathlib.Data.List.Nodup

namespace Dataflow.Graph

open List

/-! ### Scheduling -/

theorem perm_schedule (edges : List Edge) (ids : List Nat) :
    ((schedule edges ids).1 ++ (schedule edges ids).2).Perm ids := by
  induction edges, ids using schedule.induct with
  | case1 edges ids hnone => rw [schedule, hnone]; exact .refl _
  | case2 edges ids id hid placed stuck _ ih =>
    rw [schedule, hid]
    exact (ih.cons id).trans (perm_cons_erase (mem_of_find?_eq_some hid)).symm

variable {id : Nat} {e : Edge} {order ids : List Nat} {edges : List Edge}

/-- The sources of the edges that enter a node are placed before it. -/
theorem source_mem_of_schedule {before after : List Nat}
    (h : (schedule edges ids).1 = before ++ id :: after) (he : e ∈ edges)
    (htarget : e.target = id) : e.source ∈ before := by
  induction edges, ids using schedule.induct generalizing before with
  | case1 edges ids hnone => rw [schedule, hnone] at h; simp at h
  | case2 edges ids first hfirst placed stuck _ ih =>
    rw [schedule, hfirst] at h
    cases before with
    | nil =>
      -- Nothing enters the node that is placed first.
      obtain rfl : first = id := (cons.inj h).1
      have hready := find?_some hfirst
      simp only [Bool.not_eq_true', List.any_eq_false, beq_iff_eq] at hready
      exact absurd htarget (hready e he)
    | cons b before =>
      obtain ⟨rfl, hrest⟩ := cons.inj h
      by_cases hsource : e.source = first
      · exact hsource ▸ mem_cons_self
      · refine mem_cons_of_mem _ (ih hrest ?_)
        exact mem_filter.2 ⟨he, by simpa using hsource⟩

theorem idxOf_lt_of_schedule (he : e ∈ edges) (htarget : e.target ∈ (schedule edges ids).1) :
    (schedule edges ids).1.idxOf e.source < (schedule edges ids).1.idxOf e.target := by
  obtain ⟨before, after, hsplit, hnew⟩ := eq_append_cons_of_mem htarget
  have hsource := source_mem_of_schedule hsplit he rfl
  rw [hsplit, idxOf_append_of_mem hsource, idxOf_append_of_notMem hnew]
  exact Nat.lt_of_lt_of_le (idxOf_lt_length_of_mem hsource) (Nat.le_add_right _ _)

variable {κ : Type} {g : Graph κ}

/-! ### Orders -/

theorem mem_innerEdges : e ∈ g.innerEdges ↔ e ∈ g.edges ∧ e.source ∈ g.ids ∧ e.target ∈ g.ids := by
  rw [innerEdges, mem_filter, Bool.and_eq_true, contains_iff_mem_ids, contains_iff_mem_ids]

theorem mem_producers {id q : Nat} :
    q ∈ g.producers id ↔ ∃ e ∈ g.edges, e.target = id ∧ e.source = q := by
  simp only [producers, inFlows, List.map_map, List.mem_map, mem_mergeSort, mem_filter,
    Function.comp_apply, beq_iff_eq, and_assoc]

theorem order_eq_ok_iff : g.order = .ok order ↔ schedule g.innerEdges g.ids = (order, []) := by
  unfold Graph.order
  split
  · next placed h => simp [h]
  · next placed stuck hstuck h =>
    simp only [h, Prod.mk.injEq, reduceCtorEq, false_iff, not_and]
    rintro _ rfl
    exact hstuck rfl

theorem perm_order (h : g.order = .ok order) : order.Perm g.ids := by
  have hperm := perm_schedule g.innerEdges g.ids
  rwa [order_eq_ok_iff.1 h, append_nil] at hperm

theorem mem_order_iff (h : g.order = .ok order) : id ∈ order ↔ id ∈ g.ids := (perm_order h).mem_iff

/-- Producers come before their consumers in the order of a graph. -/
theorem source_mem_of_order {order before after : List Nat} (h : g.order = .ok order)
    (hsplit : order = before ++ id :: after) {q : Nat} (hq : q ∈ g.producers id)
    (hmem : q ∈ g.ids) : q ∈ before := by
  obtain ⟨e, he, htarget, rfl⟩ := mem_producers.1 hq
  have hid : id ∈ g.ids := (mem_order_iff h).1 (by simp [hsplit])
  have hplaced : (schedule g.innerEdges g.ids).1 = before ++ id :: after := by
    rw [order_eq_ok_iff.1 h, hsplit]
  exact source_mem_of_schedule hplaced (mem_innerEdges.2 ⟨he, hmem, htarget ▸ hid⟩) htarget

section

variable {ε β : Type} {f : β → Nat → Except ε β} {b : β} (horder : g.order = .ok order)
include horder

/-- **What every step along the order preserves, the whole walk preserves.**  A step may use that
its operator was not visited before, but all of its producers were. -/
theorem foldlM_order_induction (hnodup : g.ids.Nodup) {P : List Nat → β → Prop} {c : β}
    (step : ∀ done id b c, id ∈ g.ids → id ∉ done → (∀ q ∈ g.producers id, q ∈ g.ids → q ∈ done) →
      P done b → f b id = .ok c → P (done ++ [id]) c)
    (hb : P [] b) (h : order.foldlM f b = .ok c) : P order c := by
  refine (Outcome.foldlM_induction (E := fun _ => True)
    (fun done id rest b hsplit hdone => ⟨fun c hc => ?_, fun _ _ => trivial⟩) hb).1 c h
  have hfresh : id ∉ done := by
    have hnodup' := hsplit ▸ (perm_order horder).nodup_iff.2 hnodup
    rw [nodup_append'] at hnodup'
    exact fun hmem => hnodup'.2.2 hmem mem_cons_self
  exact step done id b c ((mem_order_iff horder).1 (by simp [hsplit])) hfresh
    (fun q hq hmem => source_mem_of_order horder hsplit hq hmem) hdone hc

/-- **What every step along the order preserves, the walk preserves, and it fails as a step does.**
A step may use that all producers of its operator were visited before. -/
theorem foldlM_order (P : List Nat → β → Prop) (E : ε → Prop)
    (step : ∀ done id b, id ∈ g.ids → (∀ q ∈ g.producers id, q ∈ g.ids → q ∈ done) → P done b →
      (∀ c, f b id = .ok c → P (done ++ [id]) c) ∧ ∀ e, f b id = .error e → E e) (hb : P [] b) :
    (∀ c, order.foldlM f b = .ok c → P order c) ∧ ∀ e, order.foldlM f b = .error e → E e :=
  Outcome.foldlM_induction
    (fun done id _ b hsplit hdone => step done id b ((mem_order_iff horder).1 (by simp [hsplit]))
    (fun _ hq hmem => source_mem_of_order horder hsplit hq hmem) hdone) hb

/-- **A walk along the order succeeds if every step does.** -/
theorem exists_foldlM_order (P : List Nat → β → Prop)
    (step : ∀ done id b, id ∈ g.ids → (∀ q ∈ g.producers id, q ∈ g.ids → q ∈ done) → P done b →
      ∃ c, f b id = .ok c ∧ P (done ++ [id]) c)
    (hb : P [] b) : ∃ c, order.foldlM f b = .ok c ∧ P order c := by
  obtain ⟨hok, hfails⟩ :=
    foldlM_order horder P (fun _ => False) (f := f) (fun done id b hid hproducers hdone => by
    obtain ⟨c, hc, hnext⟩ := step done id b hid hproducers hdone
    rw [hc]
    exact ⟨fun d hd => Except.ok.inj hd ▸ hnext, nofun⟩) hb
  cases hrun : order.foldlM f b with
  | error e => exact (hfails e hrun).elim
  | ok c => exact ⟨c, rfl, hok c hrun⟩

end

/-- A rank of the operators that grows along the edges between them. -/
def Ranks (g : Graph κ) (rank : Nat → Nat) : Prop :=
  ∀ id ∈ g.ids, ∀ q ∈ g.producers id, q ∈ g.ids → rank q < rank id

/-- **A graph that has an order has a rank**: the place in the order. -/
theorem ranks_of_order (h : g.order = .ok order) : g.Ranks order.idxOf := by
  intro id hid q hq hmem
  obtain ⟨e, he, rfl, rfl⟩ := mem_producers.1 hq
  have hplaced : (schedule g.innerEdges g.ids).1 = order := by rw [order_eq_ok_iff.1 h]
  rw [← hplaced]
  exact idxOf_lt_of_schedule (mem_innerEdges.2 ⟨he, hmem, hid⟩) (hplaced ▸ (mem_order_iff h).2 hid)

end Dataflow.Graph
