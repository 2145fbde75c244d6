/-
**The rows of a graph are a model of it.**

Carrying out a graph fills a table of rows as typing fills a table of types.  A graph that can be
carried out therefore has a model by rows and their types, and conversely the rows of a model are
those that are found when the graph is carried out, so its success can be read off a model.

Main results:

* `Graph.type_of_models` — the types of a model by streams are those that typing finds;
* `Graph.models_of_evaluateWith` — **the rows of a graph are a model of it**;
* `Graph.evaluateWith_of_models` — **a graph that has a model can be carried out**, with the rows of
  the model;
* `Graph.evaluate_eq_ok_iff` — the result of a graph is the rows of its sink in a model.
-/

import Dataflow.Evaluation.Graph
import Dataflow.Proofs.Meaning.Typing

namespace Dataflow

open List Option Interpretation Outcome Table

/-- What is known when a graph is carried out: the types of the inputs of the pipeline around it, if
there is one, and the rows of the parameters. -/
structure EvaluationContext where
  bound : Option (List TupleType)
  parameters : List Rows

/-- Operators interpreted by the streams that they produce. -/
def evaluation : Interpretation Stream EvaluationContext where
  primitive c p operands out := p.outputType (operands.map (·.type)) c.bound = .ok out.type ∧
    ∃ raw, p.run operands c.parameters = .ok raw ∧ out.rows = raw.map out.type.store
  enter operands := ⟨some (operands.map (·.type)), operands.map (·.rows)⟩

namespace Graph

open GraphTypes

variable {g : Dag} {bound : Option (List TupleType)} {types : GraphTypes} {parameters : List Rows}
  {results more : Table Rows} {id : Nat}

/-! ### Types -/

variable {v : Nat → Stream} {rows : Rows} {operands : List Stream}

theorem type_of_models (h : g.typesWithin bound = .ok types)
    (hv : evaluation.Models g ⟨bound, parameters⟩ v) :
    ∀ id ∈ g.ids, (v id).type = types.type id := by
  have hmodel : (typing fun _ _ _ _ => True).Models g bound types.type := typed_of_typesWithin h
  refine Interpretation.Models.related (R := fun t s => Stream.type s = t)
    (Q := fun bound c => EvaluationContext.bound c = bound)
    ?_ ?_ (founded_of_typesWithin h) rfl hmodel hv
  · rintro bound c p inputs operands t s rfl hinputs ⟨ht, -⟩ ⟨hs, -⟩
    have heq : operands.map (·.type) = inputs := by
      clear ht hs
      induction hinputs with
      | nil => rfl
      | cons hq _ ih => rw [map_cons, hq, ih]
    rw [heq] at hs
    exact Except.ok.inj (hs.symm.trans ht)
  · intro inputs operands hinputs
    refine congrArg some ?_
    induction hinputs with
    | nil => rfl
    | cons hq _ ih => rw [map_cons, hq, ih]

theorem output_of_models (h : g.typesWithin bound = .ok types)
    (hv : evaluation.Models g ⟨bound, parameters⟩ v) (id : Nat) (hid : id ∈ g.ids) :
    types.outputs.get? id = some (v id).type := by
  obtain ⟨t, ht⟩ := (closed_of_typesWithin h).2 id hid
  rw [type_of_models h hv id hid, type, ht, getD_some]

/-! ### Tables of rows -/

/-- What an operator produces of its operands, inside a graph of known types. -/
def Produces (types : GraphTypes) (parameters : List Rows) (id : Nat) (op : Operator)
    (operands : List Stream) (raw : Rows) : Prop :=
  match op with
  | .primitive p => p.run operands parameters = .ok raw
  | .pipeline _ h => ∃ innerTypes, get? types.inner id = some innerTypes ∧
      h.evaluateWith innerTypes (operands.map (·.rows)) = .ok raw

theorem Produces.unique {op : Operator} {raw raw' : Rows}
    (h : Produces types parameters id op operands raw)
    (h' : Produces types parameters id op operands raw') : raw = raw' := by
  cases op with
  | primitive p => exact Except.ok.inj (Eq.trans (Eq.symm h) h')
  | pipeline n inside =>
    obtain ⟨inner, hinner, h⟩ := h
    obtain ⟨inner', hinner', h'⟩ := h'
    obtain rfl : inner = inner' := mem_unique hinner hinner'
    exact Except.ok.inj (h.symm.trans h')

/-- Carrying out one operator, and the graphs inside as a whole. -/
abbrev evaluateStep (g : Dag) : GraphTypes → List Rows → Table Rows → Nat → Outcome (Table Rows) :=
  g.evaluateNode (g.inner.map fun e => (e.1, e.2.evaluateWith))

theorem evaluateWith_eq (g : Dag) (types : GraphTypes) (parameters : List Rows) :
    g.evaluateWith types parameters = (do
      let order ← g.order
      let results ← order.foldlM (g.evaluateStep types parameters) []
      let sink ← Outcome.ofOption (.invalidParameter .noSink) g.sink
      Outcome.ofOption (.internal (.sinkNotEvaluated sink)) (results.get? sink)) := by
  rw [evaluateWith, fold_eq]
  rfl

/-- Carrying out one operator: what it produces of its operands is stored at its type. -/
theorem evaluateNode_eq_ok_iff : g.evaluateStep types parameters results id = .ok more ↔
      ∃ node operands raw output, g.node? id = some node ∧
      g.operands types results node = .ok operands ∧
        Produces types parameters id node.kind operands raw ∧
        types.outputs.get? id = some output ∧ more = results.put id (raw.map output.store) := by
  simp only [evaluateNode, bind_eq_ok_iff, Graph.get, ofOption_eq_ok_iff,
    mapError_eq_ok_iff, output_eq_ok_iff, pure_eq_ok, Except.ok.injEq]
  refine exists_congr fun node => ?_
  constructor
  · rintro ⟨hnode, operands, hoperands, raw, hraw, output, houtput, rfl⟩
    refine ⟨operands, raw, output, hnode, hoperands, ?_, houtput, rfl⟩
    cases hkind : node.kind with
    | primitive p =>
      rw [hkind] at hraw
      exact hraw
    | pipeline n inside =>
      simp only [hkind, bind_eq_ok_iff, ofOption_eq_ok_iff, get?_map,
        get?_inner (inner?_eq_some_iff.2 ⟨node, n, hnode, hkind⟩), map_some] at hraw
      obtain ⟨inner, hinner, run, hrun, hraw⟩ := hraw
      obtain rfl := some.inj hrun
      exact ⟨inner, hinner, hraw⟩
  · rintro ⟨operands, raw, output, hnode, hoperands, hraw, houtput, rfl⟩
    refine ⟨hnode, operands, hoperands, raw, ?_, output, houtput, rfl⟩
    cases hkind : node.kind with
    | primitive p =>
      rw [hkind] at hraw
      exact hraw
    | pipeline n inside =>
      rw [hkind] at hraw
      obtain ⟨inner, hinner, hraw⟩ := hraw
      simp only [bind_eq_ok_iff, ofOption_eq_ok_iff, get?_map,
        get?_inner (inner?_eq_some_iff.2 ⟨node, n, hnode, hkind⟩), map_some]
      exact ⟨inner, hinner, _, rfl, hraw⟩

theorem operands_eq_ok_iff {node : Node Operator} :
    g.operands types results node = .ok operands ↔
      Forall₂ (fun q s => types.outputs.get? q = some (Stream.type s) ∧
        results.get? q = some (Stream.rows s)) (g.producers node.id) operands := by
  rw [Graph.operands, mapM_eq_ok_iff]
  simp only [bind_eq_ok_iff, ofOption_eq_ok_iff, output_eq_ok_iff, pure_eq_ok, Except.ok.injEq]
  constructor
  · refine fun h => h.imp ?_
    rintro q s ⟨rows, hrows, type, htype, rfl⟩
    exact ⟨htype, hrows⟩
  · refine fun h => h.imp ?_
    rintro q s ⟨htype, hrows⟩
    exact ⟨s.rows, hrows, s.type, htype, rfl⟩

/-- A table of rows in which those of every operator follow from those of its producers. -/
def ResultsClosed (g : Dag) (types : GraphTypes) (parameters : List Rows)
    (results : Table Rows) : Prop :=
  ∀ id rows, results.get? id = some rows → ∃ node operands raw output, g.node? id = some node ∧
    g.operands types results node = .ok operands ∧
    Produces types parameters id node.kind operands raw ∧ types.outputs.get? id = some output ∧
    rows = raw.map output.store

/-- **Carrying out one operator** keeps the table closed and what is in it, and gives the operator
its rows. -/
theorem evaluateNode_closed (hclosed : ResultsClosed g types parameters results)
    (h : g.evaluateStep types parameters results id = .ok more) :
    ResultsClosed g types parameters more ∧
      (∀ k rows, results.get? k = some rows → more.get? k = some rows) ∧
      ∃ rows, more.get? id = some rows := by
  obtain ⟨node, operands, raw, output, hnode, hoperands, hraw, houtput, rfl⟩ :=
    evaluateNode_eq_ok_iff.1 h
  have hextends : ∀ k rows, results.get? k = some rows →
      (results.put id (raw.map output.store)).get? k = some rows := by
    intro k rows hk
    rw [get?_put]
    split
    · next heq =>
      subst heq
      obtain ⟨node', operands', raw', output', hnode', hoperands', hraw', houtput', rfl⟩ :=
        hclosed id rows hk
      obtain rfl : node = node' := mem_unique hnode hnode'
      obtain rfl : operands = operands' := Except.ok.inj (hoperands.symm.trans hoperands')
      obtain rfl : raw = raw' := hraw.unique hraw'
      obtain rfl : output = output' := mem_unique houtput houtput'
      rfl
    · exact hk
  have hmono : ∀ (node : Node Operator) operands, g.operands types results node = .ok operands →
      g.operands types (results.put id (raw.map output.store)) node = .ok operands := by
    intro node operands h
    rw [operands_eq_ok_iff] at h ⊢
    exact h.imp fun q s hs => ⟨hs.1, hextends q _ hs.2⟩
  refine ⟨fun k rows hk => ?_, hextends, _, get?_put_self _ _ _⟩
  by_cases hne : id = k
  · subst hne
    rw [get?_put_self, some.injEq] at hk
    exact ⟨node, operands, raw, output, hnode, hmono node operands hoperands,
      hraw, houtput, hk.symm⟩
  · rw [get?_put, if_neg hne] at hk
    obtain ⟨node', operands', raw', output', hnode', hoperands', hrest⟩ := hclosed k rows hk
    exact ⟨node', operands', raw', output', hnode', hmono node' operands' hoperands', hrest⟩

theorem closed_of_foldlM {ids : List Nat}
    (h : ids.foldlM (g.evaluateStep types parameters) [] = .ok results) :
    ResultsClosed g types parameters results ∧ ∀ id ∈ ids, ∃ rows, results.get? id = some rows := by
  refine (foldlM_induction (E := fun _ => True)
    (P := fun done results => ResultsClosed g types parameters results ∧
      ∀ id ∈ done, ∃ rows, get? results id = some rows)
    (fun done id _ results _ hdone => ⟨fun more hmore => ?_, fun _ _ => trivial⟩)
    ⟨by simp [ResultsClosed], nofun⟩).1 results h
  obtain ⟨hclosed, hextends, rows, hrows⟩ := evaluateNode_closed hdone.1 hmore
  refine ⟨hclosed, fun k hk => ?_⟩
  rcases mem_append.1 hk with hk | hk
  · obtain ⟨rows, hrows⟩ := hdone.2 k hk
    exact ⟨rows, hextends k rows hrows⟩
  · exact mem_singleton.1 hk ▸ ⟨rows, hrows⟩

/-- The finished table is closed and has rows for every operator, and the result is those of the
sink. -/
theorem closed_of_evaluateWith (h : g.evaluateWith types parameters = .ok rows) :
    ∃ results sink, ResultsClosed g types parameters results ∧
      (∀ id ∈ g.ids, ∃ rows, results.get? id = some rows) ∧ g.sink = some sink ∧
      results.get? sink = some rows := by
  simp only [evaluateWith_eq, bind_eq_ok_iff, ofOption_eq_ok_iff] at h
  obtain ⟨order, horder, results, hresults, sink, hsink, hrows⟩ := h
  obtain ⟨hclosed, hall⟩ := closed_of_foldlM hresults
  exact ⟨results, sink, hclosed, fun id hid => hall id ((mem_order_iff horder).2 hid), hsink, hrows⟩

/-! ### Models -/

/-- The rows of a model are as storing leaves them. -/
theorem stored_of_models {c : EvaluationContext} (hv : evaluation.Models g c v)
    (hid : id ∈ g.ids) : (v id).rows.map (v id).type.store = (v id).rows := by
  induction g using levelInduction generalizing c v id with
  | step g ih =>
    obtain ⟨node, hnode⟩ := node?_of_mem_ids hid
    have hmake := models_iff.1 hv id node hnode
    cases hkind : node.kind with
    | primitive p =>
      rw [hkind] at hmake
      obtain ⟨-, raw, -, hrows⟩ := hmake
      rw [hrows, List.map_map]
      exact map_congr_left fun row _ => TupleType.store_store _ row
    | pipeline n inside =>
      rw [hkind] at hmake
      obtain ⟨-, w, hw, sink, -, hmem, hvalue⟩ := hmake
      rw [hvalue]
      exact ih id inside (inner?_eq_some_iff.2 ⟨node, n, hnode, hkind⟩) hw hmem

section

variable {sink : Nat} (htypes : g.typesWithin bound = .ok types)
include htypes

/-- **The rows of a graph are a model of it**, and its result is the rows of the sink. -/
theorem models_of_evaluateWith (h : g.evaluateWith types parameters = .ok rows) :
    ∃ v sink, evaluation.Models g ⟨bound, parameters⟩ v ∧ g.sink = some sink ∧ sink ∈ g.ids ∧
      v sink = ⟨types.type sink, rows⟩ := by
  induction g using levelInduction generalizing bound types parameters rows with
  | step g ih =>
    obtain ⟨results, sink, hclosed, hall, hsink, hrows⟩ := closed_of_evaluateWith h
    obtain ⟨htclosed, -⟩ := closed_of_typesWithin htypes
    let v : Nat → Stream := fun id => ⟨types.type id, (results.get? id).getD []⟩
    have hvalue : ∀ id output rows, types.outputs.get? id = some output →
        results.get? id = some rows → v id = ⟨output, rows⟩ := by
      intro id output rows houtput hrows
      simp only [v, type, houtput, hrows, getD_some]
    have hoperands : ∀ (node : Node Operator) operands,
      g.operands types results node = .ok operands →
        operands = (g.producers node.id).map v := by
      intro node operands h
      rw [operands_eq_ok_iff] at h
      generalize g.producers node.id = producers at h
      induction h with
      | nil => rfl
      | cons hs _ ih => rw [map_cons, ← ih, hvalue _ _ _ hs.1 hs.2]
    have hsinkmem : sink ∈ g.ids := by
      obtain ⟨node, -, -, -, hnode, -⟩ := hclosed sink rows hrows
      exact mem_ids_of_node? hnode
    refine ⟨v, sink, ?_, hsink, hsinkmem, by simp [v, hrows]⟩
    rw [models_iff]
    intro id node hnode
    obtain ⟨rows, hrows⟩ := hall id (mem_ids_of_node? hnode)
    obtain ⟨node', operands, raw, output, hnode', hops, hraw, houtput, rfl⟩ := hclosed id rows hrows
    obtain rfl : node = node' := mem_unique hnode hnode'
    obtain rfl := hoperands node operands hops
    rw [id_eq_of_node? hnode] at hraw
    obtain ⟨node', inputs, hnode', hinputs, hfollows⟩ := htclosed.follows id output houtput
    obtain rfl : node = node' := mem_unique hnode hnode'
    have hinputs' : inputs = ((g.producers id).map v).map (·.type) := by
      rw [inputTypes_eq hinputs, List.map_map]
      rfl
    rw [hinputs'] at hfollows
    rw [hvalue id output _ houtput hrows]
    cases hkind : node.kind with
    | primitive p =>
      rw [hkind] at hfollows hraw
      exact ⟨hfollows, raw, hraw, rfl⟩
    | pipeline n inside =>
      rw [hkind] at hfollows hraw
      obtain ⟨hlength, inner, inSink, hinner, hget, hinSink, htsink⟩ := hfollows
      obtain ⟨inner', hget', hraw⟩ := hraw
      obtain rfl : inner = inner' := mem_unique hget hget'
      obtain ⟨w, inSink', hw, hinSink', hmem, hwsink⟩ :=
        ih id inside (inner?_eq_some_iff.2 ⟨node, n, hnode, hkind⟩) hinner hraw
      obtain rfl : inSink = inSink' := mem_unique hinSink hinSink'
      have htype : inner.type inSink = output := by rw [type, htsink, getD_some]
      refine ⟨by simpa using hlength, w, hw, inSink, hinSink, hmem, ?_⟩
      -- The rows of the inner sink were stored inside already.
      have hstored := stored_of_models hw hmem
      rw [hwsink, htype] at hstored ⊢
      rw [hstored]

/-- An operator whose producers have the rows of a model gets its rows in the model. -/
theorem evaluateNode_of_models (hv : evaluation.Models g ⟨bound, parameters⟩ v) (hid : id ∈ g.ids)
    (hresults : ∀ q ∈ g.producers id, results.get? q = some (v q).rows)
    (hinner : ∀ h, g.inner? id = some h → ∀ bound types parameters w sink,
      h.typesWithin bound = .ok types → evaluation.Models h ⟨bound, parameters⟩ w →
      h.sink = some sink → sink ∈ h.ids → h.evaluateWith types parameters = .ok (w sink).rows) :
    g.evaluateStep types parameters results id = .ok (results.put id (v id).rows) := by
  obtain ⟨htclosed, -⟩ := closed_of_typesWithin htypes
  obtain ⟨rank, hrank⟩ := (founded_of_typesWithin htypes).here
  have htype := type_of_models htypes hv
  have houtput := output_of_models htypes hv
  obtain ⟨node, inputs, hnode, hinputs, hfollows⟩ := htclosed.follows id _ (houtput id hid)
  have hoperands : g.operands types results node = .ok ((g.producers id).map v) := by
    rw [operands_eq_ok_iff, id_eq_of_node? hnode, forall₂_map_right_iff, forall₂_same]
    exact fun q hq => ⟨houtput q (hrank id hid q hq).1, hresults q hq⟩
  have hmake := models_iff.1 hv id node hnode
  refine evaluateNode_eq_ok_iff.2 ?_
  cases hkind : node.kind with
  | primitive p =>
    rw [hkind] at hmake
    obtain ⟨-, raw, hraw, hrows⟩ := hmake
    exact ⟨node, _, raw, _, hnode, hoperands, by rw [hkind]; exact hraw,
      houtput id hid, by rw [hrows]⟩
  | pipeline n inside =>
    rw [hkind] at hmake hfollows
    obtain ⟨-, w, hw, inSink, hinSink, hinmem, hvalue⟩ := hmake
    obtain ⟨-, inner, _, htinner, hget, -, -⟩ := hfollows
    have hinputs' : inputs = ((g.producers id).map v).map (·.type) := by
      rw [inputTypes_eq hinputs, List.map_map]
      exact map_congr_left fun q hq => (htype q (hrank id hid q hq).1).symm
    rw [hinputs'] at htinner
    have hraw := hinner inside (inner?_eq_some_iff.2 ⟨node, n, hnode, hkind⟩)
      _ _ _ _ _ htinner hw hinSink hinmem
    refine ⟨node, _, (w inSink).rows, _, hnode, hoperands, ?_, houtput id hid, ?_⟩
    · rw [hkind]
      exact ⟨inner, hget, hraw⟩
    · -- The rows of the inner sink were stored inside already.
      rw [← hvalue, stored_of_models hv hid]

/-- **A graph that has a model can be carried out**, with the rows of the model. -/
theorem evaluateWith_of_models (hv : evaluation.Models g ⟨bound, parameters⟩ v)
    (hsink : g.sink = some sink) (hmem : sink ∈ g.ids) :
    g.evaluateWith types parameters = .ok (v sink).rows := by
  induction g using levelInduction generalizing bound types parameters v sink with
  | step g ih =>
    obtain ⟨rank, hrank⟩ := (founded_of_typesWithin htypes).here
    have horder := htypes
    rw [typesWithin_eq, bind_eq_ok_iff] at horder
    obtain ⟨order, horder, -⟩ := horder
    -- The operators that were visited have the rows of the model.
    have hrun : ∃ final, order.foldlM (g.evaluateStep types parameters) [] = .ok final ∧
        ∀ q ∈ order, get? final q = some (v q).rows := by
      refine exists_foldlM_order horder (fun done results => ∀ q ∈ done,
        get? results q = some (v q).rows)
        (fun done id results hid hproducers hdone => ?_) (by simp)
      refine ⟨_, evaluateNode_of_models htypes hv hid
        (fun q hq => hdone q (hproducers q hq (hrank id hid q hq).1))
        (fun h hh _ _ _ _ _ => ih id h hh), fun q hq => ?_⟩
      rw [get?_put]
      split
      · next heq => rw [heq]
      · next hne => exact hdone q (by simpa [Ne.symm hne] using hq)
    obtain ⟨final, hfinal, hall⟩ := hrun
    simp only [evaluateWith_eq, horder, ok_bind, hfinal, hsink, ofOption_some,
      hall sink ((mem_order_iff horder).2 hmem)]

/-- The rows of an operator in a model are the result of the graph with the operator as its sink. -/
theorem evaluateWith_sink_iff :
    ({ g with sink := some id } : Dag).evaluateWith types parameters = .ok rows ↔
      id ∈ g.ids ∧ ∃ v, evaluation.Models g ⟨bound, parameters⟩ v ∧ (v id).rows = rows := by
  have htypes' : ({ g with sink := some id } : Dag).typesWithin bound = .ok types := by
    rw [← htypes, typesWithin_eq, typesWithin_eq]
    rfl
  have hmodels : ∀ v, evaluation.Models { g with sink := some id } ⟨bound, parameters⟩ v ↔
      evaluation.Models g ⟨bound, parameters⟩ v := fun v => by
    rw [models_iff, models_iff]
    rfl
  constructor
  · intro h
    obtain ⟨v, _, hv, ⟨⟩, hmem, hvalue⟩ := models_of_evaluateWith htypes' h
    exact ⟨hmem, v, (hmodels v).1 hv, by rw [hvalue]⟩
  · rintro ⟨hmem, v, hv, rfl⟩
    exact evaluateWith_of_models htypes' ((hmodels v).2 hv) rfl hmem

end

/-- The result of a graph is the rows of its sink in a model. -/
theorem evaluate_eq_ok_iff (htypes : g.types = .ok types) :
    g.evaluate parameters = .ok rows ↔ ∃ v sink, evaluation.Models g ⟨none, parameters⟩ v ∧
      g.sink = some sink ∧ sink ∈ g.ids ∧ v sink = ⟨types.type sink, rows⟩ := by
  rw [evaluate, htypes, ok_bind]
  refine ⟨models_of_evaluateWith htypes, ?_⟩
  rintro ⟨v, sink, hv, hsink, hmem, hvalue⟩
  rw [evaluateWith_of_models htypes hv hsink hmem, hvalue]

end Graph

end Dataflow
