/-
**A graph that has a model by types has types.**

Typing goes along the order of a graph, and a wired graph has one.  If the graph has a model by
types, then each operator finds the types of its producers in the table and follows from them, so
that typing does not fail, and the table that it fills has the types of the model.

Main results:

* `Graph.Wired.exists_order` — a wired graph has an order;
* `Graph.typeNode_of_models` — an operator whose producers have the types of a model gets its type
  there;
* `Graph.typesWithin_of_models` — **a wired graph that has a model by types has these types**.
-/

import Dataflow.Proofs.Graph.Reach
import Dataflow.Proofs.Meaning.Typing

namespace Dataflow.Graph

open GraphTypes Outcome

variable {g : Dag} {bound : Option (List TupleType)} {types : GraphTypes}
  {id : Nat} {demands : Demands} {τ : Nat → TupleType}

theorem Wired.exists_rank (hg : g.Wired) :
    ∃ rank : Nat → Nat, ∀ e ∈ g.edges, rank e.source < rank e.target := by
  obtain ⟨rank, hrank⟩ := hg.acyclic
  exact ⟨rank, fun e he =>
    hrank e.target e.targetSlot e.source ((producer?_eq_some_iff hg.once).2 ⟨e, he, rfl, rfl⟩)⟩

theorem Wired.exists_order (hg : g.Wired) : ∃ order, g.order = .ok order := by
  obtain ⟨rank, hrank⟩ := hg.exists_rank
  exact Graph.exists_order hrank

theorem typeNode_of_models (hτ : (typing demands).Models g bound τ) (hid : id ∈ g.ids)
    (hproducers : ∀ q ∈ g.producers id, types.outputs.get? q = some (τ q))
    (hinner : ∀ h, g.inner? id = some h → ∀ bound σ, (typing demands).Models h bound σ →
      ∃ inner, h.typesWithin bound = .ok inner ∧ ∀ m ∈ h.ids, inner.outputs.get? m = some (σ m)) :
    ∃ more, g.typeNode (g.inner.map fun e => (e.1, e.2.typesWithin)) bound types id = .ok more ∧
      more.outputs = types.outputs.put id (τ id) := by
  obtain ⟨node, hnode⟩ := node?_of_mem_ids hid
  have hget : g.get id = .ok node := ofOption_eq_ok_iff.2 hnode
  have hinputs : g.inputTypes types id = .ok ((g.producers id).map τ) :=
    mapM_ok fun q hq => output_eq_ok_iff.2 (hproducers q hq)
  have hmake := Interpretation.models_iff.1 hτ id node hnode
  cases hkind : node.kind with
  | primitive p =>
    rw [hkind] at hmake
    refine ⟨{ types with outputs := types.outputs.put id (τ id) }, ?_, rfl⟩
    simp only [typeNode, hget, hinputs, ok_bind, hkind, hmake.1]
    rfl
  | pipeline n h =>
    rw [hkind] at hmake
    obtain ⟨hlength, σ, hσ, sink, hsink, hmem, hvalue⟩ := hmake
    have hid' := inner?_eq_some_iff.2 ⟨node, n, hnode, hkind⟩
    obtain ⟨inner, htypes, hall⟩ := hinner h hid' _ σ hσ
    have harity : (Operator.pipeline n h).checkArity ((g.producers id).map τ) =
      .ok () := if_pos hlength
    have houtput : inner.output sink = .ok (τ id) := by
      rw [output_eq_ok_iff, hall sink hmem, hvalue]
    have hget? : Table.get? (g.inner.map fun e => (e.1, e.2.typesWithin)) id =
        some h.typesWithin := by
      rw [Table.get?_map, get?_inner hid', Option.map_some]
    refine ⟨⟨types.outputs.put id (τ id), Table.put id inner types.inner⟩, ?_, rfl⟩
    simp only [typeNode, hget, hinputs, ok_bind, hkind, harity, hget?, hsink, ofOption_some]
    rw [show h.typesWithin (some ((g.producers id).map τ)) = .ok inner from htypes]
    simp only [ok_bind, houtput]
    rfl

/-- **A wired graph that has a model by types has these types.** -/
theorem typesWithin_of_models (hg : g.Everywhere Wired) (hτ : (typing demands).Models g bound τ) :
    ∃ types, g.typesWithin bound = .ok types ∧
      ∀ id ∈ g.ids, types.outputs.get? id = some (τ id) := by
  induction hg generalizing bound τ with
  | @intro g hwired _ ih =>
    obtain ⟨order, horder⟩ := hwired.exists_order
    obtain ⟨rank, hrank⟩ := hwired.founded
    -- The operators that were visited have the types of the model.
    obtain ⟨types, htypes, hall⟩ := exists_foldlM_order horder
      (f := g.typeNode (g.inner.map fun e => (e.1, e.2.typesWithin)) bound) (b := {})
      (fun done types => ∀ q ∈ done, types.outputs.get? q = some (τ q))
      (fun done id types hid hproducers hdone => by
        obtain ⟨more, hmore, houtputs⟩ := typeNode_of_models hτ hid
          (fun q hq => hdone q (hproducers q hq (hrank id hid q hq).1)) (fun h hh _ _ => ih id h hh)
        refine ⟨more, hmore, fun q hq => ?_⟩
        rw [houtputs, Table.get?_put]
        split
        · next heq => rw [heq]
        · next hne => exact hdone q (by simpa [Ne.symm hne] using hq))
      (by simp)
    refine ⟨types, ?_, fun id hid => hall id ((mem_order_iff horder).2 hid)⟩
    rw [typesWithin_eq, horder, ok_bind]
    exact htypes

end Dataflow.Graph
