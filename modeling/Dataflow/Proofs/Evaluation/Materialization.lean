/-
**Results as row vectors.**

The plan of a graph gives the rows of the sink, or the items of the array if the sink is a row
vector.  So it makes no difference if a row vector of the rows is the sink instead: the graph is
valid and has its types and inputs, the operators that it had are carried out in the order that they
had, with the same rows or the same failure, and the new one cannot fail.  It stores the rows a
second time, which changes nothing.

Main results:

* `Graph.schedule_leaf` — scheduling places the other nodes as if there were no leaf;
* `Graph.evaluateWith_withVector` — **the rows of the new sink are the row vector of those of the
  old one**;
* `Graph.plan_materialized` — **the plan of a graph whose sink is materialized is the plan of the
  graph**.
-/

import Dataflow.Plan
import Dataflow.Proofs.Evaluation.Agreement
import Dataflow.Proofs.Graph.Checks
import Dataflow.Proofs.Graph.Cycles
import Dataflow.Proofs.Meaning.Evaluation
import Mathlib

namespace Dataflow.Graph

open List GraphTypes Outcome Table

/-! ### Scheduling around a leaf -/

theorem any_target_filter {edges : List Edge} {m id : Nat} (hne : id ≠ m) :
    (edges.filter (·.target != m)).any (·.target == id) = edges.any (·.target == id) := by
  rw [List.any_filter]
  refine any_congr rfl fun e => ?_
  by_cases h : e.target = id <;> simp [h, hne]

/-- **Scheduling places the other nodes as if there were no leaf.** -/
theorem schedule_leaf {edges : List Edge} {m : Nat}
    (hleaf : ∀ e ∈ edges, e.source ≠ m) (ids : List Nat) :
    schedule (edges.filter (·.target != m)) (ids.filter (· != m)) =
      ((schedule edges ids).1.filter (· != m), (schedule edges ids).2.filter (· != m)) := by
  induction edges, ids using schedule.induct with
  | case1 edges ids hnone =>
    have hnone' : ready? (edges.filter (·.target != m)) (ids.filter (· != m)) = none := by
      rw [ready?, find?_eq_none] at hnone ⊢
      intro id hid
      rw [mem_filter, bne_iff_ne] at hid
      rw [any_target_filter hid.2]
      exact hnone id hid.1
    rw [schedule, hnone', schedule, hnone]
    rfl
  | case2 edges ids first hfirst placed stuck hrest ih =>
    have ih := ih fun e he => hleaf e (mem_of_mem_filter he)
    have hdrop : (dropSource edges first).filter (·.target != m) =
        dropSource (edges.filter (·.target != m)) first := filter_comm ..
    rw [hrest, hdrop, ← erase_filter] at ih
    rw [schedule.eq_def edges, hfirst]
    simp only [hrest]
    by_cases hm : first = m
    · -- The leaf is placed, and the others wait for what they waited for.
      subst hm
      have hself : dropSource (edges.filter (·.target != first)) first =
        edges.filter (·.target != first) :=
        filter_eq_self.2 fun e he => by simpa using hleaf e (mem_of_mem_filter he)
      rw [hself, erase_of_not_mem (by simp)] at ih
      simpa using ih
    · have hready : ready? (edges.filter (·.target != m)) (ids.filter (· != m)) = some first := by
        rw [ready?, find?_eq_some_iff_append] at hfirst ⊢
        obtain ⟨hfree, before, after, rfl, hbefore⟩ := hfirst
        refine ⟨by rwa [any_target_filter hm], before.filter (· != m),
          after.filter (· != m), by simp [hm], ?_⟩
        intro id hid
        rw [mem_filter, bne_iff_ne] at hid
        rw [any_target_filter hid.2]
        exact hbefore id hid.1
      rw [schedule, hready]
      simp [ih, hm]

/-! ### A row vector as the sink -/

/-- A graph with a row vector of the rows of an operator as its sink, under a given number. -/
def withVector (g : Dag) (m sink : Nat) : Dag :=
  { (g.insert m (.primitive .materializeRowVector)).connectUnchecked ⟨sink, 0, m, 0⟩ with
    sink := some m }

/-- Adds an operator that makes a row vector of the rows of the sink, and makes it the sink. -/
def materialized (g : Dag) (m : Nat) : Outcome Dag := do
  let sink ← ofOption (.invalidParameter .noSink) g.sink
  let g ← g.addAt m (.primitive .materializeRowVector)
  let g ← g.connect ⟨sink, 0, m, 0⟩
  g.setSink m

variable {g : Dag} {m sink id : Nat}

theorem exists_nodes_withVector (g : Dag) (m sink : Nat) :
    ∃ before after, g.nodes = before ++ after ∧
      (g.withVector m sink).nodes = before ++ ⟨m, .primitive .materializeRowVector, {}⟩ :: after :=
  exists_insertNode _ _

theorem inner_withVector (g : Dag) (m sink : Nat) : (g.withVector m sink).inner = g.inner := by
  obtain ⟨before, after, hnodes, hsplit⟩ := exists_nodes_withVector g m sink
  rw [Graph.inner, Graph.inner, hsplit, hnodes, filterMap_append, filterMap_append, filterMap_cons]
  rfl

theorem inputTypesOf_withVector (g : Dag) (m sink : Nat) :
    (g.withVector m sink).inputTypesOf = g.inputTypesOf := by
  obtain ⟨before, after, hnodes, hsplit⟩ := exists_nodes_withVector g m sink
  rw [inputTypesOf, inputTypesOf, hsplit, hnodes, foldlM_append, foldlM_append]
  rfl

theorem mem_ids_withVector : id ∈ (g.withVector m sink).ids ↔ id = m ∨ id ∈ g.ids := by
  have hperm : (g.withVector m sink).ids.Perm (m :: g.ids) := (perm_insertNode _ _).map Node.id
  rw [hperm.mem_iff, mem_cons]

theorem producers_withVector (hne : id ≠ m) :
    (g.withVector m sink).producers id = g.producers id := by
  have hfilter : (g.withVector m sink).edges.filter (·.target == id) =
      g.edges.filter (·.target == id) := by
    simp [withVector, connectUnchecked, Graph.insert, hne.symm]
  rw [producers, producers, inFlows, inFlows, hfilter]

variable (hm : m ∉ g.ids)
include hm

theorem ne_of_mem_ids (hid : id ∈ g.ids) : id ≠ m := fun heq => hm (heq ▸ hid)

theorem ids_withVector : (g.withVector m sink).ids.filter (· != m) = g.ids := by
  obtain ⟨before, after, hnodes, hsplit⟩ := exists_nodes_withVector g m sink
  have hids : g.ids.filter (· != m) = g.ids := filter_eq_self.2 fun id hid => by
    simpa using ne_of_mem_ids hm hid
  rw [ids, hnodes] at hids
  rw [ids, ids, hsplit, hnodes]
  simpa using hids

variable (hg : g.Wired)
include hg

theorem node?_withVector (id : Nat) : (g.withVector m sink).node? id =
    if id = m then some ⟨m, .primitive .materializeRowVector, {}⟩ else g.node? id := by
  obtain ⟨before, after, hnodes, hsplit⟩ := exists_nodes_withVector g m sink
  split
  · next heq =>
    subst heq
    have hascending : (g.withVector id sink).ids.Pairwise (· < ·) :=
      pairwise_insertNode hg.ascending hm
    have hmem : ⟨id, .primitive .materializeRowVector, {}⟩ ∈ (g.withVector id sink).nodes := by
      simp [hsplit]
    exact node?_of_mem hascending hmem
  · next hne =>
    have hne' : (m == id) = false := by simpa using Ne.symm hne
    rw [node?, node?, hsplit, hnodes, find?_append, find?_append, find?_cons, hne']

theorem inner?_withVector (id : Nat) : (g.withVector m sink).inner? id = g.inner? id := by
  rw [inner?, inner?, node?_withVector hm hg]
  split
  · next heq =>
    cases hnode : g.node? id with
    | none => rfl
    | some node => exact absurd (heq ▸ mem_ids_of_node? hnode) hm
  · rfl

theorem producer?_withVector (id slot : Nat) : (g.withVector m sink).producer? id slot =
    if (id, slot) = (m, 0) then some sink else g.producer? id slot := by
  refine producer?_connectUnchecked (g := g.insert m _) (e := ⟨sink, 0, m, 0⟩) ?_
  cases h : g.producer? m 0 with
  | none => exact h
  | some q => exact absurd (hg.feeds m 0 q h).1 hm

variable (hsink : sink ∈ g.ids)
include hsink

theorem wired_withVector : (g.withVector m sink).Wired := by
  obtain ⟨rank, hrank⟩ := hg.exists_rank
  have hvector : (g.withVector m sink).node? m = _ := (node?_withVector hm hg m).trans (if_pos rfl)
  refine .of_edges (pairwise_insertNode hg.ascending hm)
    (once_connectUnchecked (g := g.insert m _) hg.once ?_)
    (fun id => if id = m then rank sink + 1 else rank id) (fun e he => ?_)
    (fun id node hnode slot hslot => ?_) ?_
  · refine producer?_eq_none_iff.2 fun e he hport => ?_
    have htarget : e.target = m := (Prod.mk.inj hport).1
    exact hm (htarget ▸ (hg.ends he).2)
  · rcases mem_append.1 he with he | he
    · obtain ⟨hsource, htarget⟩ := hg.ends he
      obtain ⟨node, hnode⟩ := node?_of_mem_ids htarget
      rw [if_neg (ne_of_mem_ids hm hsource), if_neg (ne_of_mem_ids hm htarget),
        node?_withVector hm hg, if_neg (ne_of_mem_ids hm htarget)]
      refine ⟨mem_ids_withVector.2 (.inr hsource), hrank e he, node, hnode,
        (hg.fed _ node hnode _).1 ?_⟩
      rw [(producer?_eq_some_iff hg.once).2 ⟨e, he, rfl, rfl⟩]
      rfl
    · rw [mem_singleton.1 he, if_neg (ne_of_mem_ids hm hsink), if_pos rfl]
      exact ⟨mem_ids_withVector.2 (.inr hsink), Nat.lt_succ_self _, _, hvector, Nat.one_pos⟩
  · rw [producer?_withVector hm hg]
    rw [node?_withVector hm hg] at hnode
    split at hnode
    · next heq =>
      cases hnode
      rw [if_pos (by rw [heq, Nat.lt_one_iff.1 hslot])]
      rfl
    · next hne =>
      rw [if_neg (by simp [hne])]
      exact (hg.fed id node hnode slot).2 hslot
  · rintro _ ⟨⟩
    exact mem_ids_withVector.2 (.inl rfl)

theorem producers_vector : (g.withVector m sink).producers m = [sink] :=
  (wired_withVector hm hg hsink).producers_eq_singleton (by rw [node?_withVector hm hg, if_pos rfl])
    rfl (by rw [producer?_withVector hm hg, if_pos rfl])

/-- The operators that there were are carried out in the order that they had. -/
theorem order_withVector :
    ∃ order, (g.withVector m sink).order = .ok order ∧ g.order = .ok (order.filter (· != m)) := by
  have hd := wired_withVector hm hg hsink
  obtain ⟨order, horder⟩ := hd.exists_order
  refine ⟨order, horder, order_eq_ok_iff.2 ?_⟩
  have hedges : (g.withVector m sink).edges.filter (·.target != m) = g.edges := by
    have hself : g.edges.filter (·.target != m) = g.edges :=
      filter_eq_self.2 fun e he => by simpa using ne_of_mem_ids hm (hg.ends he).2
    simpa [withVector, connectUnchecked, Graph.insert] using hself
  have hleaf : ∀ e ∈ (g.withVector m sink).edges, e.source ≠ m := by
    intro e he
    rcases mem_append.1 he with he | he
    · exact ne_of_mem_ids hm (hg.ends he).1
    · rw [mem_singleton.1 he]
      exact ne_of_mem_ids hm hsink
  rw [order_eq_ok_iff, innerEdges_eq fun e he => hd.ends he] at horder
  have hschedule := schedule_leaf hleaf (g.withVector m sink).ids
  rw [hedges, ids_withVector hm, horder] at hschedule
  rwa [innerEdges_eq fun e he => hg.ends he]

omit hsink in
theorem materialized_eq (hsink : g.sink = some sink) :
    g.materialized m = .ok (g.withVector m sink) := by
  have hmem := hg.sink sink hsink
  obtain ⟨rank, hrank⟩ := (wired_withVector hm hg hmem).exists_rank
  have hnode (id : Nat) : (g.withVector m sink).node? id = _ := node?_withVector hm hg id
  obtain ⟨node, hsource⟩ := node?_of_mem_ids hmem
  have hslots : (g.insert m (.primitive .materializeRowVector)).checkSlots
    ⟨sink, 0, m, 0⟩ = .ok () :=
    checkSlots_eq_ok_iff.2
      ⟨node, _, (hnode sink).trans ((if_neg (ne_of_mem_ids hm hmem)).trans hsource),
      (hnode m).trans (if_pos rfl), Nat.one_pos, Nat.one_pos⟩
  have hfree : (m, 0) ∉ g.edges.map Edge.port := by
    intro hport
    obtain ⟨e, he, hport⟩ := List.mem_map.1 hport
    have htarget : e.target = m := (Prod.mk.inj hport).1
    exact hm (htarget ▸ (hg.ends he).2)
  rw [materialized, hsink, ofOption_some, ok_bind, addAt,
    if_neg (by rwa [contains_iff_mem_ids]), ok_bind,
    connect_of_rank hslots hfree (fun f hf => hrank f (mem_append_left _ hf))
      (hrank _ (mem_append_right _ (mem_singleton_self _))), ok_bind, setSink, get]
  exact congrArg (fun found => ofOption _ found >>= _) ((hnode m).trans (if_pos rfl))

/-! ### Types -/

omit hm hg hsink

/-- Types of a graph with a row vector as its sink that are those of the graph. -/
structure VectorTypes (g : Dag) (m sink : Nat) (types types' : GraphTypes) : Prop where
  same : ∀ id ∈ g.ids, types'.outputs.get? id = types.outputs.get? id
  vector : types'.outputs.get? m = some (types.type sink).vectorOf
  inner : ∀ id h, g.inner? id = some h → get? types'.inner id = get? types.inner id

variable {types types' : GraphTypes}

theorem inner_of_same (hm : m ∉ g.ids) (hg : g.Wired) (htypes : g.types = .ok types)
    (htypes' : (g.withVector m sink).types = .ok types')
    (hsame : ∀ id ∈ g.ids, types'.outputs.get? id = types.outputs.get? id) {h : Dag}
    (hid : g.inner? id = some h) :
    get? types'.inner id = get? types.inner id := by
  obtain ⟨node, n, hnode, hkind⟩ := inner?_eq_some_iff.1 hid
  have hmem := mem_ids_of_node? hnode
  have hnode' : (g.withVector m sink).node? id = some node := by
    rw [node?_withVector hm hg, if_neg (ne_of_mem_ids hm hmem), hnode]
  obtain ⟨hclosed, hall⟩ := closed_of_typesWithin htypes
  obtain ⟨t, ht⟩ := hall id hmem
  obtain ⟨_, inputs, hn, hinputs, hfollows⟩ := hclosed.follows id t ht
  obtain ⟨_, inputs', hn', hinputs', hfollows'⟩ :=
    (closed_of_typesWithin htypes').1.follows id t ((hsame id hmem).trans ht)
  cases hn.symm.trans hnode
  cases hn'.symm.trans hnode'
  obtain rfl : inputs' = inputs := by
    rw [inputTypes_eq hinputs, inputTypes_eq hinputs', producers_withVector (ne_of_mem_ids hm hmem)]
    refine map_congr_left fun q hq => ?_
    rw [type, type, hsame q (hg.mem_of_mem_producers hq)]
  rw [hkind] at hfollows hfollows'
  obtain ⟨-, inner, _, hinner, hget, -⟩ := hfollows
  obtain ⟨-, inner', _, hinner', hget', -⟩ := hfollows'
  rw [hget, hget', Except.ok.inj (hinner'.symm.trans hinner)]

/-- The graph has the types that it had, and the row vector has its own. -/
theorem exists_types_withVector (hm : m ∉ g.ids) (hg : g.Everywhere Wired) (hsink : sink ∈ g.ids)
    (htypes : g.types = .ok types) :
    ∃ types', (g.withVector m sink).types = .ok types' ∧ VectorTypes g m sink types types' := by
  have heverywhere : (g.withVector m sink).Everywhere Wired :=
    ⟨wired_withVector hm hg.here hsink,
      fun id h hid => hg.inside (inner?_withVector hm hg.here id ▸ hid)⟩
  let τ (id : Nat) := if id = m then (types.type sink).vectorOf else types.type id
  have hτ : ∀ id ∈ g.ids, τ id = types.type id := fun id hid => if_neg (ne_of_mem_ids hm hid)
  have hmodel : (typing fun _ _ _ _ => True).Models (g.withVector m sink) none τ := by
    rw [Interpretation.models_iff]
    intro id node hnode
    rw [node?_withVector hm hg.here] at hnode
    split at hnode
    · next heq =>
      cases hnode
      rw [heq, producers_vector hm hg.here hsink, map_singleton, hτ sink hsink,
        show τ m = _ from if_pos rfl]
      exact ⟨rfl, trivial⟩
    · next hne =>
      have hproducers : (g.producers id).map τ = (g.producers id).map types.type :=
        map_congr_left fun q hq => hτ q (hg.here.mem_of_mem_producers hq)
      rw [producers_withVector hne, hproducers, hτ id (mem_ids_of_node? hnode)]
      exact Interpretation.models_iff.1 (typed_of_typesWithin htypes) id node hnode
  obtain ⟨types', htypes', houtputs⟩ := typesWithin_of_models heverywhere hmodel
  have hsame : ∀ id ∈ g.ids, types'.outputs.get? id = types.outputs.get? id := by
    intro id hid
    obtain ⟨t, ht⟩ := (closed_of_typesWithin htypes).2 id hid
    rw [houtputs id (mem_ids_withVector.2 (.inr hid)), hτ id hid, type, ht, Option.getD_some]
  refine ⟨types', htypes', hsame, ?_,
    fun id h hid => inner_of_same hm hg.here htypes htypes' hsame hid⟩
  rw [houtputs m (mem_ids_withVector.2 (.inl rfl)), show τ m = _ from if_pos rfl]

/-! ### Rows -/

/-- Rows of both graphs after some operators were carried out: those of the graph, and the row
vector. -/
structure TracksVector (g : Dag) (m sink : Nat) (types : GraphTypes)
    (parameters : List Rows) (done : List Nat) (results results' : Table Rows) : Prop where
  same : ∀ k ∈ g.ids, results'.get? k = results.get? k
  closed : ResultsClosed g types parameters results
  known : sink ∈ done → ∃ rows, results.get? sink = some rows
  vector : m ∈ done → ∃ rows, results.get? sink = some rows ∧
    results'.get? m = some [[.array (rows.map .tuple)]]

variable {parameters : List Rows} {results results' more : Table Rows}
  {done : List Nat} (hm : m ∉ g.ids) (hg : g.Wired) (hv : VectorTypes g m sink types types')
include hm hg hv

/-- An operator that there was produces what it produced of the same rows, or fails as it did. -/
theorem evaluateStep_withVector (hresults : ∀ k ∈ g.ids, results'.get? k = results.get? k)
    (hid : id ∈ g.ids) :
    (g.withVector m sink).evaluateStep types' parameters results' id =
      (g.evaluateStep types parameters results id).map fun more =>
      results'.put id ((more.get? id).getD []) := by
  obtain ⟨node, hnode⟩ := node?_of_mem_ids hid
  obtain rfl := id_eq_of_node? hnode
  have hne := ne_of_mem_ids hm hid
  have hoperands : (g.withVector m sink).operands types' results' node =
      g.operands types results node := by
    rw [operands, operands, producers_withVector hne]
    refine mapM_congr (forall₂_same.2 fun q hq => ?_)
    have hq := hg.mem_of_mem_producers hq
    rw [hresults q hq, GraphTypes.output, hv.same q hq, GraphTypes.output]
  have hput : ∀ (produced : Outcome Rows) (output : Outcome TupleType),
      (do return results'.put node.id ((← produced).map (← output).store)) =
        (do return results.put node.id ((← produced).map (← output).store) : Outcome
        (Table Rows)).map fun more =>
          results'.put node.id ((more.get? node.id).getD []) := by
    intro produced output
    cases produced with
    | error failure => rfl
    | ok rows => cases output with
      | error failure => rfl
      | ok output =>
        refine congrArg Except.ok ?_
        dsimp only
        rw [get?_put_self, Option.getD_some]
  rw [evaluateStep, evaluateStep, inner_withVector, evaluateNode, evaluateNode, get, get,
    node?_withVector hm hg, if_neg hne, hnode, ofOption_some, ok_bind, ok_bind, hoperands,
    GraphTypes.output, hv.same node.id hid, ← GraphTypes.output]
  cases g.operands types results node with
  | error failure => rfl
  | ok operands =>
    cases hkind : node.kind with
    | primitive p => exact hput _ _
    | pipeline n h =>
      rw [hv.inner node.id h (inner?_eq_some_iff.2 ⟨node, n, hnode, hkind⟩)]
      exact hput _ _

/-- **One operator that there was** keeps the rows of both graphs together. -/
theorem tracks_step (h : TracksVector g m sink types parameters done results results')
    (hid : id ∈ g.ids) (hmore : g.evaluateStep types parameters results id = .ok more) :
    ∃ more', (g.withVector m sink).evaluateStep types' parameters results' id = .ok more' ∧
      TracksVector g m sink types parameters (done ++ [id]) more more' := by
  obtain ⟨hclosed, hextends, rows, hrows⟩ := evaluateNode_closed h.closed hmore
  refine ⟨results'.put id rows, ?_, fun k hk => ?_, hclosed, fun hmem => ?_, fun hmem => ?_⟩
  · rw [evaluateStep_withVector hm hg hv h.same hid, hmore]
    exact congrArg (fun found => Except.ok (results'.put id (Option.getD found []))) hrows
  · obtain ⟨_, _, raw, output, -, -, -, -, rfl⟩ := evaluateNode_eq_ok_iff.1 hmore
    rw [get?_put_self, Option.some.injEq] at hrows
    rw [get?_put, get?_put, h.same k hk, hrows]
  · rcases mem_append.1 hmem with hmem | hmem
    · obtain ⟨rows, hrows⟩ := h.known hmem
      exact ⟨rows, hextends sink rows hrows⟩
    · exact ⟨rows, mem_singleton.1 hmem ▸ hrows⟩
  · rcases mem_append.1 hmem with hmem | hmem
    · obtain ⟨rows, hrows, hvector⟩ := h.vector hmem
      exact ⟨rows, hextends sink rows
        hrows, by rw [get?_put, if_neg (ne_of_mem_ids hm hid), hvector]⟩
    · exact absurd (mem_singleton.1 hmem).symm (ne_of_mem_ids hm hid)

/-- **The row vector** is made of the rows of the sink, which are stored already. -/
theorem tracks_vector (hsink : sink ∈ g.ids)
    (h : TracksVector g m sink types parameters done results results')
    (hdone : sink ∈ done) :
    ∃ more', (g.withVector m sink).evaluateStep types' parameters results' m = .ok more' ∧
      TracksVector g m sink types parameters (done ++ [m]) results more' := by
  obtain ⟨rows, hrows⟩ := h.known hdone
  obtain ⟨_, _, raw, output, -, -, -, houtput, hraw⟩ := h.closed sink rows hrows
  have htype : types.type sink = output := by rw [type, houtput, Option.getD_some]
  have hstored : rows.map output.store = rows := by
    rw [hraw, List.map_map]
    exact map_congr_left fun row _ => output.store_store row
  refine ⟨results'.put m [[.array (rows.map .tuple)]], evaluateNode_eq_ok_iff.2
    ⟨⟨m, .primitive .materializeRowVector, {}⟩, [⟨output, rows⟩], [[.array (rows.map .tuple)]],
      output.vectorOf, ?_, operands_eq_ok_iff.2 ?_, rfl, htype ▸ hv.vector, ?_⟩,
    fun k hk => ?_, h.closed, fun _ => ⟨rows, hrows⟩, fun _ =>
      ⟨rows, hrows, get?_put_self ..⟩⟩
  · rw [node?_withVector hm hg, if_pos rfl]
  · rw [producers_vector hm hg hsink]
    exact .cons ⟨(hv.same sink hsink).trans houtput, (h.same sink hsink).trans hrows⟩ .nil
  · rw [map_singleton, TupleType.store_vectorOf hstored]
  · rw [get?_put, if_neg (ne_of_mem_ids hm hk).symm, h.same k hk]

/-- **The rows of the new sink are the row vector of those of the old one**, and the failures are
the same. -/
theorem evaluateWith_withVector (hsink : g.sink = some sink) :
    (g.withVector m sink).evaluateWith types' parameters =
      (g.evaluateWith types parameters).map fun rows => [[.array (rows.map .tuple)]] := by
  have hmem := hg.sink sink hsink
  obtain ⟨order, horder', horder⟩ := order_withVector hm hg hmem
  -- Both runs go along the order of the new graph, and the old one passes over the row vector.
  obtain ⟨hok, herror⟩ := foldlM_together (l := order) (R := TracksVector g m sink types parameters)
    (f := fun results id => if (id != m) =
    true then g.evaluateStep types parameters results id else pure results)
    (k := (g.withVector m sink).evaluateStep types' parameters) (by
      intro done id rest results results' hsplit h
      have hid : id = m ∨ id ∈ g.ids :=
        mem_ids_withVector.1 ((mem_order_iff horder').1 (by simp [hsplit]))
      rcases hid with rfl | hid
      · have hdone := source_mem_of_order horder' hsplit (by simp [producers_vector hm hg hmem])
          (mem_ids_withVector.2 (.inr hmem))
        simpa using tracks_vector hm hg hv hmem h hdone
      · simp only [bne_iff_ne.2 (ne_of_mem_ids hm hid), if_true]
        refine ⟨fun more => tracks_step hm hg hv h hid, fun failure hfailure => ?_⟩
        rw [evaluateStep_withVector hm hg hv h.same hid, hfailure]
        rfl)
    (b := []) (c := []) ⟨by simp, by simp [ResultsClosed], nofun, nofun⟩
  rw [evaluateWith_eq, evaluateWith_eq, horder, horder', hsink, ok_bind, ok_bind, foldlM_filter]
  generalize (order.foldlM _ [] : Outcome (Table Rows)) = old at hok herror ⊢
  cases old with
  | error failure =>
    rw [herror failure rfl]
    rfl
  | ok results =>
    obtain ⟨results', hresults', h⟩ := hok results rfl
    obtain ⟨rows, hrows, hvector⟩ :=
      h.vector ((mem_order_iff horder').2 (mem_ids_withVector.2 (.inl rfl)))
    rw [hresults', ok_bind, ok_bind, ofOption_some, ok_bind, hrows]
    exact congrArg (ofOption _) hvector

/-! ### Plans -/

omit hm hg hv

/-- The type of the rows of the sink. -/
def sinkType (g : Dag) : Outcome TupleType := do
  let types ← g.types
  let sink ← ofOption (.invalidParameter .noSink) g.sink
  types.output sink

theorem validate_withVector (hm : m ∉ g.ids) (hg : g.Numbered) (hsink : sink ∈ g.ids)
    (h : g.validate = .ok ()) :
    (g.withVector m sink).validate = .ok () := by
  have hchecked := (validateWithin_eq_ok_iff hg).1 h
  have hwired := wired_withVector hm hchecked.wired hsink
  have hnumbered : (g.withVector m sink).Numbered :=
    ⟨hwired.ascending,
      fun id inside hid => hg.inside (inner?_withVector hm hchecked.wired id ▸ hid)⟩
  refine (validateWithin_eq_ok_iff hnumbered).2 (hchecked.of_kinds hwired (fun e he => ?_)
    rfl fun id node hnode => ?_)
  · refine (mem_append.1 he).imp_right fun he => ?_
    rw [mem_singleton.1 he]
  · rw [node?_withVector hm hchecked.wired] at hnode
    split at hnode
    · cases hnode
      exact .inl ⟨.materializeRowVector, rfl, rfl, nofun⟩
    · exact .inr ⟨node, hnode, rfl⟩

theorem vectorItems_array (rows : Rows) :
    vectorItems [[.array (rows.map .tuple)]] = .ok (rows.map .tuple) := by
  refine congrArg Except.ok ?_
  rw [List.map_map]
  rfl

/-- **The plan of a graph whose sink is materialized is the plan of the graph**, if the sink is no
row vector itself: it has the same inputs, and gives the same tuples or fails alike. -/
theorem plan_materialized {g : Dag} {m : Nat} {t : TupleType} {plan : Plan}
    (hg : g.Numbered) (hm : m ∉ g.ids) (hplan : g.plan = .ok plan) (ht : g.sinkType = .ok t)
    (hvector : t.rowVector? = none) :
    ∃ d, g.materialized m = .ok d ∧ d.plan = .ok plan := by
  simp only [Graph.plan, sinkType, bind_eq_ok_iff,
    ofOption_eq_ok_iff, pure_eq_ok, Except.ok.injEq] at hplan ht
  obtain ⟨types, htypes, sink, hsink, ht⟩ := ht
  obtain ⟨_, hvalid, _, htypes₁, _, hsink₁, _, ht₁, inputTypes, hinputs, rfl⟩ := hplan
  cases htypes.symm.trans htypes₁
  cases hsink.symm.trans hsink₁
  cases ht.symm.trans ht₁
  have hwired := wired_of_checkOpenWithin hg (checkOpenWithin_of_validateWithin hg hvalid)
  have hmem := hwired.here.sink sink hsink
  obtain ⟨types', htypes', hv⟩ := exists_types_withVector hm hwired hmem htypes
  have htype : types.type sink = t := by rw [type, output_eq_ok_iff.1 ht, Option.getD_some]
  refine ⟨_, materialized_eq hm hwired.here hsink, ?_⟩
  simp only [Graph.plan, bind_eq_ok_iff, ofOption_eq_ok_iff,
    pure_eq_ok, Except.ok.injEq]
  refine ⟨(), validate_withVector hm hg hmem hvalid, types', htypes', m, rfl, t.vectorOf,
    output_eq_ok_iff.2 (htype ▸ hv.vector), inputTypes, by
    rw [inputTypesOf_withVector, hinputs], ?_⟩
  refine congrArg (Plan.mk inputTypes) (funext fun inputs => ?_)
  rw [hvector, evaluateWith_withVector hm hwired.here hv hsink]
  split
  · rfl
  · refine congrArg (checkInputs 0 inputs inputTypes >>= ·) (funext fun _ => ?_)
    cases g.evaluateWith types (inputs.map fun input => [input.values]) with
    | error failure => rfl
    | ok rows => exact vectorItems_array rows

/-- Quotients of the numbers that are the result.  The row vector of these gets a smaller number
than they have, and is made before the quotients, which may fail. -/
def quotientsAside : Dag where
  nodes := [{ id := 1, kind := .primitive (.parameterLookup 0 (some [⟨"n", .atomic .int64⟩])) },
    { id := 2, kind := .primitive (.map (.tuple [.field 0 0, .unary .neg (.field 0 0)])) },
    { id := 3, kind := .primitive (.map (.binary .div (.literal (.int 9)) (.field 0 1))) }]
  edges := [⟨1, 0, 2, 0⟩, ⟨2, 0, 3, 0⟩]
  sink := some 2
  nextId := 4

theorem quotientsAside_plan_materialized : quotientsAside.Numbered ∧ 0 ∉ quotientsAside.ids ∧
    ∃ plan, quotientsAside.plan = .ok plan ∧ ∃ t, quotientsAside.sinkType = .ok t ∧
      t.rowVector? = none ∧ ∃ d, quotientsAside.materialized 0 = .ok d ∧ d.plan = .ok plan := by
  have hnumbered : quotientsAside.Numbered := isNumbered_iff.1 (by cbv)
  have hnew : 0 ∉ quotientsAside.ids := by decide
  obtain ⟨plan, hplan⟩ : ∃ plan, quotientsAside.plan = .ok plan := ⟨_, by cbv⟩
  have ht : quotientsAside.sinkType = .ok (.positional [.atomic .int64, .atomic .int64]) := by cbv
  exact ⟨hnumbered, hnew, plan, hplan, _, ht, rfl, plan_materialized hnumbered hnew hplan ht rfl⟩

end Dataflow.Graph
