/-
**Results depend on the graph alone.**

The operators of a graph may get other numbers and its edges another order: what each operator reads
stays the same, so every model of the graph is one of the renamed graph.  The rows that are found
along the order of the operators are those that the sink yields when it is worked out from its
producers, and these from theirs; the order in which operators are carried out leaves no trace.

Main results:

* `Graph.Renamed.models_iff` — **a renamed graph has the same models**, under the new numbers;
* `Graph.yields_iff_of_models` — an operator yields its value in a model, and nothing else;
* `Graph.evaluate_renamed` — **renaming keeps the results**, which are what the sink yields.
-/

import Dataflow.Proofs.Meaning.Evaluation
import Dataflow.Proofs.Meaning.Inference
import Mathlib

namespace Dataflow

open List Option

/-- An edge between the operators under other numbers. -/
def Edge.rename (f : Nat → Nat) (e : Edge) : Edge :=
  { e with source := f e.source, target := f e.target }

namespace Graph

/-- A graph in which the operator under each number `id` stands under `f id`, with edges in any
order.  No two operators get one number.  The graphs inside pipelines stay as they are. -/
structure Renamed (f : Nat → Nat) (g g' : Dag) : Prop where
  injective : ∀ a ∈ g.ids, ∀ b ∈ g.ids, f a = f b → a = b
  ascending : g'.ids.Pairwise (· < ·)
  nodes : (g'.nodes.map fun n => (n.id, n.kind)).Perm (g.nodes.map fun n => (f n.id, n.kind))
  edges : g'.edges.Perm (g.edges.map (Edge.rename f))
  sink : g'.sink = g.sink.map f

/-! ### The renamed graph -/

namespace Renamed

variable {f : Nat → Nat} {g g' : Dag} {id slot : Nat} (h : Renamed f g g')
include h

/-- Every operator is found under its new number. -/
theorem node? {node : Node Operator} (hnode : g.node? id = some node) :
    ∃ node', g'.node? (f id) = some node' ∧ node'.kind = node.kind := by
  have hmem : (f id, node.kind) ∈ g'.nodes.map fun n => (n.id, n.kind) := by
    rw [h.nodes.mem_iff, List.mem_map]
    exact ⟨node, mem_of_node? hnode, by rw [id_eq_of_node? hnode]⟩
  obtain ⟨node', hnode', heq⟩ := List.mem_map.1 hmem
  obtain ⟨hid, hkind⟩ := Prod.mk.inj heq
  exact ⟨node', hid ▸ node?_of_mem h.ascending hnode', hkind⟩

/-- There are no other operators. -/
theorem exists_node? (hg : g.ids.Pairwise (· < ·)) {m : Nat} {node' : Node Operator}
    (hnode' : g'.node? m = some node') : ∃ id node, f id = m ∧ g.node? id = some node ∧
      node'.kind = node.kind := by
  have hmem : (m, node'.kind) ∈ g.nodes.map fun n => (f n.id, n.kind) := by
    rw [← h.nodes.mem_iff, List.mem_map]
    exact ⟨node', mem_of_node? hnode', by rw [id_eq_of_node? hnode']⟩
  obtain ⟨node, hnode, heq⟩ := List.mem_map.1 hmem
  obtain ⟨hid, hkind⟩ := Prod.mk.inj heq
  exact ⟨node.id, node, hid, node?_of_mem hg hnode, hkind.symm⟩

theorem mem_ids (hid : id ∈ g.ids) : f id ∈ g'.ids := by
  obtain ⟨node, hnode⟩ := node?_of_mem_ids hid
  obtain ⟨node', hnode', -⟩ := h.node? hnode
  exact mem_ids_of_node? hnode'

theorem exists_values {α : Type} (v : Nat → α) : ∃ w : Nat → α, ∀ id ∈ g.ids, w (f id) = v id := by
  have hinj : Set.InjOn f { id | id ∈ g.ids } := fun a ha b hb heq => h.injective a ha b hb heq
  exact ⟨v ∘ Function.invFunOn f { id | id ∈ g.ids }, fun id hid =>
    congrArg v (hinj.leftInvOn_invFunOn hid)⟩

theorem mem_edges {e' : Edge} : e' ∈ g'.edges ↔ ∃ e ∈ g.edges, e.rename f = e' := by
  rw [h.edges.mem_iff, List.mem_map]

theorem once (hg : g.Wired) : (g'.edges.map Edge.port).Nodup := by
  have hports : (g.edges.map (Edge.rename f)).map Edge.port =
      (g.edges.map Edge.port).map fun port => (f port.1, port.2) := by
    rw [List.map_map, List.map_map]
    rfl
  rw [(h.edges.map Edge.port).nodup_iff, hports]
  refine hg.once.map_on fun a ha b hb heq => ?_
  obtain ⟨e, he, rfl⟩ := List.mem_map.1 ha
  obtain ⟨e', he', rfl⟩ := List.mem_map.1 hb
  obtain ⟨htarget, hslot⟩ := Prod.mk.inj heq
  exact Prod.ext (h.injective _ (hg.ends he).2 _ (hg.ends he').2 htarget) hslot

theorem producer? (hg : g.Wired) (hid : id ∈ g.ids) :
    g'.producer? (f id) slot = (g.producer? id slot).map f := by
  apply Option.ext
  intro q
  rw [producer?_eq_some_iff (h.once hg), map_eq_some_iff]
  simp only [producer?_eq_some_iff hg.once, h.mem_edges, Edge.port, Prod.mk.injEq]
  constructor
  · rintro ⟨_, ⟨e, he, rfl⟩, ⟨htarget, hslot⟩, rfl⟩
    exact ⟨e.source, ⟨e, he, ⟨h.injective _ (hg.ends he).2 _ hid htarget, hslot⟩, rfl⟩, rfl⟩
  · rintro ⟨_, ⟨e, he, ⟨rfl, hslot⟩, rfl⟩, rfl⟩
    exact ⟨e.rename f, ⟨e, he, rfl⟩, ⟨rfl, hslot⟩, rfl⟩

/-- Only operators of the graph are fed, and only by operators of the graph. -/
theorem exists_producer? (hg : g.Wired) {m q : Nat} (hq : g'.producer? m slot = some q) :
    ∃ id p, id ∈ g.ids ∧ f id = m ∧ f p = q ∧ g.producer? id slot = some p := by
  obtain ⟨e', he', hport, rfl⟩ := (producer?_eq_some_iff (h.once hg)).1 hq
  obtain ⟨e, he, rfl⟩ := h.mem_edges.1 he'
  obtain ⟨rfl, rfl⟩ := Prod.mk.inj hport
  exact ⟨e.target, e.source, (hg.ends he).2, rfl, rfl,
    (producer?_eq_some_iff hg.once).2 ⟨e, he, rfl, rfl⟩⟩

theorem wired (hg : g.Wired) : g'.Wired where
  ascending := h.ascending
  once := h.once hg
  fed := by
    intro m node' hnode' slot
    obtain ⟨id, node, rfl, hnode, hkind⟩ := h.exists_node? hg.ascending hnode'
    rw [h.producer? hg (mem_ids_of_node? hnode), isSome_map, hg.fed id node hnode, hkind]
  feeds := by
    intro m slot q hq
    obtain ⟨id, p, hid, rfl, rfl, hp⟩ := h.exists_producer? hg hq
    exact ⟨h.mem_ids hid, h.mem_ids (hg.feeds id slot p hp).2⟩
  acyclic := by
    obtain ⟨rank, hrank⟩ := hg.acyclic
    obtain ⟨rank', hrank'⟩ := h.exists_values rank
    refine ⟨rank', fun m slot q hq => ?_⟩
    obtain ⟨id, p, hid, rfl, rfl, hp⟩ := h.exists_producer? hg hq
    rw [hrank' id hid, hrank' p (hg.feeds id slot p hp).2]
    exact hrank id slot p hp
  sink := by
    intro m hm
    rw [h.sink, map_eq_some_iff] at hm
    obtain ⟨sink, hsink, rfl⟩ := hm
    exact h.mem_ids (hg.sink sink hsink)

theorem everywhere_wired (hg : g.Everywhere Wired) : g'.Everywhere Wired := by
  refine ⟨h.wired hg.here, fun m k hk => ?_⟩
  obtain ⟨node', n, hnode', hkind'⟩ := inner?_eq_some_iff.1 hk
  obtain ⟨id, node, -, hnode, hkind⟩ := h.exists_node? hg.here.ascending hnode'
  exact hg.inside (inner?_eq_some_iff.2 ⟨node, n, hnode, hkind ▸ hkind'⟩)

theorem producers (hg : g.Wired) (hid : id ∈ g.ids) :
    g'.producers (f id) = (g.producers id).map f := by
  apply ext_getElem?
  intro slot
  rw [(h.wired hg).getElem?_producers (h.mem_ids hid), h.producer? hg hid, getElem?_map,
    hg.getElem?_producers hid]

/-- **A renamed graph has the same models**, under the new numbers. -/
theorem models_iff {α C : Type} {I : Interpretation α C} {c : C} {v w : Nat → α} (hg : g.Wired)
    (hw : ∀ id ∈ g.ids, w (f id) = v id) : I.Models g' c w ↔ I.Models g c v := by
  have hoperands : ∀ id ∈ g.ids, (g'.producers (f id)).map w = (g.producers id).map v := by
    intro id hid
    rw [h.producers hg hid, List.map_map]
    exact map_congr_left fun q hq => hw q (hg.mem_of_mem_producers hq)
  rw [Interpretation.models_iff, Interpretation.models_iff]
  constructor
  · intro hmodel id node hnode
    have hid := mem_ids_of_node? hnode
    obtain ⟨node', hnode', hkind⟩ := h.node? hnode
    rw [← hkind, ← hoperands id hid, ← hw id hid]
    exact hmodel (f id) node' hnode'
  · intro hmodel m node' hnode'
    obtain ⟨id, node, rfl, hnode, hkind⟩ := h.exists_node? hg.ascending hnode'
    have hid := mem_ids_of_node? hnode
    rw [hkind, hoperands id hid, hw id hid]
    exact hmodel id node hnode

end Renamed

/-! ### Working out an operator -/

/-- What an operator yields, worked out from what its producers yield; `v` has the streams of the
producers.  A pipeline yields what the sink of the graph inside it does. -/
inductive Yields : Dag → EvaluationContext → Nat → Stream → Prop
  | primitive {g : Dag} {c : EvaluationContext} {id : Nat} {node : Node Operator}
      {p : Primitive} {out : Stream} (v : Nat → Stream) (hnode : g.node? id = some node)
      (hkind : node.kind = .primitive p) (hproducers : ∀ q ∈ g.producers id, Yields g c q (v q))
      (hout : evaluation.primitive c p ((g.producers id).map v) out) : Yields g c id out
  | pipeline {g h : Dag} {c : EvaluationContext} {id n sink : Nat}
      {node : Node Operator} {out : Stream} (v : Nat → Stream) (hnode : g.node? id = some node)
      (hkind : node.kind = .pipeline n h) (hproducers : ∀ q ∈ g.producers id, Yields g c q (v q))
      (hsink : h.sink = some sink)
      (hout : Yields h (evaluation.enter ((g.producers id).map v)) sink out) : Yields g c id out

variable {g g' : Dag} {c : EvaluationContext} {id : Nat}

/-- An operator yields one stream at most. -/
theorem Yields.unique {out out' : Stream} (h : Yields g c id out) (h' : Yields g c id out') :
    out = out' := by
  induction h generalizing out' with
  | @primitive g c id node p out v hnode hkind _ hout ih =>
    cases h' with
    | @primitive _ _ _ node' p' _ v' hnode' hkind' hproducers' hout' =>
      obtain rfl : node = node' := mem_unique hnode hnode'
      obtain rfl : p = p' := by simpa using hkind.symm.trans hkind'
      rw [map_congr_left fun q hq => ih q hq (hproducers' q hq)] at hout
      obtain ⟨htype, raw, hraw, hrows⟩ := hout
      obtain ⟨htype', raw', hraw', hrows'⟩ := hout'
      obtain rfl : raw = raw' := Except.ok.inj (hraw.symm.trans hraw')
      have htypes : out.type = out'.type := Except.ok.inj (htype.symm.trans htype')
      cases out
      cases out'
      simp_all
    | pipeline v' hnode' hkind' =>
      rw [mem_unique hnode' hnode, hkind] at hkind'
      cases hkind'
  | @pipeline g h c id n sink node out v hnode hkind _ hsink _ ihproducers ih =>
    cases h' with
    | primitive v' hnode' hkind' =>
      rw [mem_unique hnode' hnode, hkind] at hkind'
      cases hkind'
    | @pipeline _ h' _ _ n' sink' node' _ v' hnode' hkind' hproducers' hsink' hout' =>
      obtain rfl : node = node' := mem_unique hnode hnode'
      obtain ⟨rfl, rfl⟩ : n = n' ∧ h = h' := by simpa using hkind.symm.trans hkind'
      obtain rfl : sink = sink' := mem_unique hsink hsink'
      rw [← map_congr_left fun q hq => ihproducers q hq (hproducers' q hq)] at hout'
      exact ih hout'

/-- An operator yields its value in a model, and nothing else. -/
theorem yields_iff_of_models (hg : g.Everywhere Founded) {v : Nat → Stream}
    (hv : evaluation.Models g c v) (hid : id ∈ g.ids) (out : Stream) :
    Yields g c id out ↔ out = v id := by
  have hyields : Yields g c id (v id) := by
    induction hg generalizing c v id with
    | @intro g hfounded _ ih =>
      refine hfounded.induction (P := fun id => Yields g c id (v id))
        (fun id hid hproducers => ?_) id hid
      obtain ⟨node, hnode⟩ := node?_of_mem_ids hid
      have hmake := Interpretation.models_iff.1 hv id node hnode
      cases hkind : node.kind with
      | primitive p =>
        rw [hkind] at hmake
        exact .primitive v hnode hkind hproducers hmake
      | pipeline n h =>
        rw [hkind] at hmake
        obtain ⟨-, w, hw, sink, hsink, hmem, hvalue⟩ := hmake
        rw [hvalue]
        exact .pipeline v hnode hkind hproducers hsink
          (ih id h (inner?_eq_some_iff.2 ⟨node, n, hnode, hkind⟩) hw hmem)
  refine ⟨fun hout => hout.unique hyields, ?_⟩
  rintro rfl
  exact hyields

/-! ### Results -/

/-- **Renaming keeps the results.**  A valid graph that has types, and a graph that differs from it
in the numbers of the operators and the order of the edges, have the same results, if any; and these
are the rows that the sink yields. -/
theorem evaluate_renamed {f : Nat → Nat} {types : GraphTypes} (hg : g.Numbered)
    (hvalid : g.validate = .ok ()) (htypes : g.types = .ok types) (hrenamed : Renamed f g g')
    (parameters : List Rows) (rows : Rows) :
    (g'.evaluate parameters = .ok rows ↔ g.evaluate parameters = .ok rows) ∧
      (g.evaluate parameters = .ok rows → ∃ sink, g.sink = some sink ∧
        ∀ out, Yields g ⟨none, parameters⟩ sink out ↔ out = ⟨types.type sink, rows⟩) := by
  have hwired := wired_of_checkOpenWithin hg (checkOpenWithin_of_validateWithin hg hvalid)
  -- The types of the graph are types of the renamed graph.
  have hmodel : (typing fun _ _ _ _ => True).Models g none types.type := typed_of_typesWithin htypes
  obtain ⟨τ, hτ⟩ := hrenamed.exists_values types.type
  obtain ⟨types', htypes', houtputs⟩ := typesWithin_of_models (hrenamed.everywhere_wired hwired)
    ((hrenamed.models_iff hwired.here hτ).2 hmodel)
  have htype : ∀ id ∈ g.ids, types'.type (f id) = types.type id := by
    intro id hid
    rw [GraphTypes.type, houtputs (f id) (hrenamed.mem_ids hid), getD_some, hτ id hid]
  refine ⟨?_, fun hrows => ?_⟩
  · rw [evaluate_eq_ok_iff htypes, evaluate_eq_ok_iff htypes']
    constructor
    · rintro ⟨w, _, hw, hsink', -, hvalue⟩
      rw [hrenamed.sink, map_eq_some_iff] at hsink'
      obtain ⟨sink, hsink, rfl⟩ := hsink'
      have hmem := hwired.here.sink sink hsink
      refine ⟨w ∘ f, sink, (hrenamed.models_iff hwired.here fun _ _ => rfl).1 hw, hsink, hmem, ?_⟩
      rw [Function.comp_apply, hvalue, htype sink hmem]
    · rintro ⟨v, sink, hv, hsink, hmem, hvalue⟩
      obtain ⟨w, hw⟩ := hrenamed.exists_values v
      refine ⟨w, f sink, (hrenamed.models_iff hwired.here hw).2 hv, ?_, hrenamed.mem_ids hmem, ?_⟩
      · rw [hrenamed.sink, hsink, map_some]
      · rw [hw sink hmem, hvalue, htype sink hmem]
  · obtain ⟨v, sink, hv, hsink, hmem, hvalue⟩ := (evaluate_eq_ok_iff htypes).1 hrows
    exact ⟨sink, hsink, fun out => hvalue ▸
      yields_iff_of_models (founded_of_typesWithin htypes) hv hmem out⟩

/-- The pairs of a number below three and an even number above it, inside a pipeline. -/
def pairsInside : Dag where
  nodes := [⟨0, .primitive (.range ⟨0, 3, 1⟩), {}⟩,
    ⟨1, .primitive (.range ⟨0, 4, 2⟩), {}⟩, ⟨2, .pipeline 2 {
      nodes := [⟨0, .primitive (.parameterLookup 0 none), {}⟩,
        ⟨1, .primitive (.parameterLookup 1 none), {}⟩, ⟨2, .primitive .cartesian, {}⟩,
        ⟨3, .primitive (.filter (.binary .lt (.field 0 0) (.field 0 1))), {}⟩]
      edges := [⟨0, 0, 2, 0⟩, ⟨1, 0, 2, 1⟩, ⟨2, 0, 3, 0⟩]
      sink := some 3 }, {}⟩]
  edges := [⟨0, 0, 2, 0⟩, ⟨1, 0, 2, 1⟩]
  sink := some 2

/-- The same with the numbers in reverse, so that consumers stand before their producers. -/
def pairsReversed : Dag := { pairsInside with
    nodes := (pairsInside.nodes.map fun n => { n with id := 7 - n.id }).reverse
    edges := (pairsInside.edges.map (Edge.rename (7 - ·))).reverse
    sink := some 5 }

theorem pairsReversed_evaluate : Renamed (7 - ·) pairsInside pairsReversed ∧
    pairsReversed.evaluate [] = .ok [[.int 0, .int 2], [.int 1, .int 2]] := by
  have hrenamed : Renamed (7 - ·) pairsInside pairsReversed := by
    refine ⟨by decide, by decide, ?_, reverse_perm _, rfl⟩
    rw [pairsReversed, map_reverse, List.map_map]
    exact reverse_perm _
  have hrows : pairsInside.evaluate [] = .ok [[.int 0, .int 2], [.int 1, .int 2]] := by cbv
  obtain ⟨types, htypes, -⟩ := Outcome.bind_eq_ok_iff.1 hrows
  exact ⟨hrenamed, (evaluate_renamed (isNumbered_iff.1 (by cbv)) (by cbv)
    htypes hrenamed [] _).1.2 hrows⟩

end Graph

end Dataflow
