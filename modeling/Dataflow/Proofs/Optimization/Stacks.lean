/-
**Projections that are fused.**

Fusing projections is sound on all inputs, also on rows that are not of their types: a projection
makes rows with as many fields as its type has, so these are stored, and storing them at the same
types again changes nothing. Whatever a pipeline is given, the graph inside it has its rows after a
fusion still; so has the graph around it. A fusion can be made wherever the wires allow it, and in a
graph with types nothing else is in the way: the fields that the upper projection selects are fields
of the lower one.  So no projection is left that stands on another one and could have been fused
with it.

Main results:

* `Graph.not_stacked_of_idle` — a graph with types in which nothing can be fused has no stacked
  projections;
* `Graph.conveys_of_loop` — **fusing projections keeps types and rows**, and goes on until nothing
  can be fused;
* `Graph.stops_fusion` — **what the rule does**: it succeeds, leaves no stacked projections, and
  keeps the results.
-/

import Dataflow.Proofs.Graph.Traces
import Dataflow.Proofs.Optimization.Loops

namespace Dataflow

open Interpretation

theorem exists_composePositions {inner outer : List Nat} {t u w : TupleType}
    (hinner : t.select inner = .ok u) (houter : u.select outer = .ok w) :
    ∃ positions, composePositions inner outer = some positions := by
  obtain ⟨types, htypes, rfl⟩ := select_eq_ok_iff.1 hinner
  obtain ⟨types', htypes', -⟩ := select_eq_ok_iff.1 houter
  clear houter
  induction htypes' with
  | nil => exact ⟨[], rfl⟩
  | @cons i type outer types' hi _ ih =>
    obtain ⟨positions, hpositions⟩ := ih
    rw [type?_eq_getElem?, TupleType.types_positional] at hi
    have hlt : i < inner.length := by
      rw [htypes.length_eq]
      exact (List.getElem?_eq_some_iff.1 hi).1
    refine ⟨inner[i] :: positions, ?_⟩
    rw [composePositions] at hpositions ⊢
    rw [List.mapM_cons, List.getElem?_eq_getElem hlt, hpositions]
    rfl

namespace Graph

variable {g g' g'' h h' : Dag} {id outer inner : Nat} {bound : Option (List TupleType)}
  {τ : Nat → TupleType} {demands : Demands}

/-! ### Projections on projections -/

/-- A projection that reads a projection, which no other operator reads and which is not the
sink. -/
structure Stacked (g : Dag) (outer inner : Nat) : Prop where
  isOuter : ∃ node selected, g.node? outer = some node ∧
    node.kind = .primitive (.projection selected)
  isInner : ∃ node fields, g.node? inner = some node ∧ node.kind = .primitive (.projection fields)
  reads : g.producer? outer 0 = some inner
  alone : ∀ id slot, g.producer? id slot = some inner → id = outer
  notSink : g.sink ≠ some inner

theorem Stacked.fusible (hs : g.Stacked outer inner) (hg : g.Wired)
    (hτ : (typing demands).Models g bound τ) : g.Fusible outer := by
  obtain ⟨onode, selected, honode, hokind⟩ := hs.isOuter
  obtain ⟨inode, fields, hinode, hikind⟩ := hs.isInner
  obtain ⟨source, hsource, -⟩ := hg.producers_of_inputs_one hinode (by rw [hikind]; rfl)
  have houter := models_iff.1 hτ outer onode honode
  have hinner := models_iff.1 hτ inner inode hinode
  rw [hokind, hg.producers_eq_singleton honode (by rw [hokind]; rfl) hs.reads] at houter
  rw [hikind, hsource] at hinner
  obtain ⟨positions, hpositions⟩ := exists_composePositions hinner.1 houter.1
  have hlength : (g.outFlows inner).length = 1 := by
    refine (length_outFlows_iff hg.once hs.reads).2 fun id slot hid => ?_
    obtain rfl := hs.alone id slot hid
    -- A projection has one slot, so it reads the other one once.
    have hslot : slot < onode.kind.inputs := (hg.fed id onode honode slot).1 (by rw [hid]; rfl)
    rw [hokind] at hslot
    exact ⟨rfl, Nat.lt_one_iff.1 hslot⟩
  exact ⟨onode, selected, inner, inode, fields, positions, honode, hokind, hs.reads,
    hinode, hikind, hlength, hs.notSink, hpositions⟩

/-- **A graph with types in which nothing can be fused has no stacked projections**, at any
level. -/
theorem not_stacked_of_idle (hg : g.Everywhere Wired) (hτ : (typing demands).Models g bound τ)
    (hidle : g.Idle fuseHere) {path : List Nat} (hpath : g.at? path = some h) :
    ¬h.Stacked outer inner := by
  induction path generalizing g bound τ with
  | nil =>
    cases hpath
    intro hs
    exact (fuseHere_eq_none_iff hg.here.ascending).1 hidle.here outer (hs.fusible hg.here hτ)
  | cons id path ih =>
    obtain ⟨k, hid, hpath⟩ := Option.bind_eq_some_iff.1 hpath
    obtain ⟨σ, hσ⟩ := hτ.inside hid
    exact ih (hg.inside hid) hσ (hidle.inside hid) hpath

/-! ### Changes that keep types and rows -/

/-- A change after which the graph is wired, and its sink has the type and the rows that it had,
whatever the graph is given. -/
structure Conveys (g g' : Dag) : Prop where
  wired : g'.Everywhere Wired
  types : ∀ bound, (typing fun _ _ _ _ => True).Carries bound g g'
  rows : ∀ c, evaluation.Carries c g g'

namespace Conveys

theorem refl (hg : g.Everywhere Wired) : Conveys g g :=
  ⟨hg, fun _ => .refl _ _ _, fun _ => .refl _ _ _⟩

theorem trans (h : Conveys g g') (h' : Conveys g' g'') : Conveys g g'' :=
  ⟨h'.wired, fun bound => (h.types bound).trans (h'.types bound),
    fun c => (h.rows c).trans (h'.rows c)⟩

theorem inside (hg : g.Everywhere Wired) (hid : g.inner? id = some h) (hh : Conveys h h') :
    Conveys g (g.replaceInner id h') := by
  have hkeep : ∀ k, g.inner? id = some k → k = h := fun k hk => Option.mem_unique hk hid
  refine ⟨everywhere_replaceInner hg hh.wired, fun bound τ hτ => ⟨τ, ?_, rfl⟩,
    fun c v hv => ⟨v, ?_, rfl⟩⟩
  · exact models_replaceInner hτ (fun k hk => hkeep k hk ▸ hh.types _) hh.wired.here.sink
  · exact models_replaceInner hv (fun k hk => hkeep k hk ▸ hh.rows _) hh.wired.here.sink

theorem of_fused {source : Nat} {selected fields positions : List Nat} (hg : g.Everywhere Wired)
    (hf : Fused g g' outer inner source selected fields positions) : Conveys g g' where
  wired := hf.wired hg
  types := fun _ τ hτ => ⟨τ, hf.typed hg.here hτ trivial, by rw [hf.sink]⟩
  rows := hf.carries_forth hg.here

theorem evaluate {types : GraphTypes} (hgg' : Conveys g g') (htypes : g.types = .ok types)
    {parameters : List Rows} {rows : Rows} (hrows : g.evaluate parameters = .ok rows) :
    g'.evaluate parameters = .ok rows := by
  obtain ⟨τ, hτ, -⟩ := hgg'.types none types.type (typed_of_typesWithin htypes)
  obtain ⟨types', htypes', -⟩ := typesWithin_of_models hgg'.wired hτ
  obtain ⟨v, sink, hv, hsink, -, hvalue⟩ := (evaluate_eq_ok_iff htypes).1 hrows
  obtain ⟨w, hw, hsinks⟩ := hgg'.rows ⟨none, parameters⟩ v hv
  rw [hsink, Option.map_some, hvalue, Option.map_eq_some_iff] at hsinks
  obtain ⟨sink', hsink', hw'⟩ := hsinks
  rw [Optimizer.evaluate_eq_ok htypes' hgg'.wired.here hw hsink', hw']

end Conveys

/-! ### The loop -/

/-- A step of the loop: the fusion that is found, at whatever level, can be made. -/
theorem exists_firstFuse (hg : g.Everywhere Wired) :
    ∃ r, g.firstChange fuseHere = .ok r ∧ ∀ g', r = some g' → Conveys g g' ∧
      g'.total projectionCount < g.total projectionCount := by
  refine exists_firstChange_of_wired shallow_projectionCount (fun g hg => ?_)
    (fun _ _ _ _ hg hid hinner => .inside hg hid hinner) hg
  obtain ⟨r, hr, hfusion⟩ := exists_fusion hg.here
  refine ⟨r, hr, fun g' hg' => ?_⟩
  obtain ⟨_, _, _, _, _, _, hf, -⟩ := hfusion g' hg'
  exact ⟨.of_fused hg hf, hf.projectionCount_lt hg.here⟩

/-- A turn of the loop keeps a graph wired and removes a projection. -/
theorem exists_fusionTurn {g₁ : Dag} (hg : g.Everywhere Wired)
    (hg₁ : (pure g : Outcome Dag) = .ok g₁) :
    ∃ r, g₁.firstChange fuseHere = .ok r ∧ ∀ g₂, r = some g₂ →
      g₂.Everywhere Wired ∧ g₂.total projectionCount < g.total projectionCount := by
  cases hg₁
  obtain ⟨r, hr, hnext⟩ := exists_firstFuse hg
  exact ⟨r, hr, fun g₂ hg₂ => ⟨(hnext g₂ hg₂).1.wired, (hnext g₂ hg₂).2⟩⟩

/-- **Fusing projections keeps types and rows**, and goes on until nothing can be fused. -/
theorem conveys_of_loop {n : Nat} {outcome : Outcome Dag} (hg : g.Everywhere Wired)
    (hloop : Loop pure (firstChange fuseHere) g n outcome) :
    ∃ g', outcome = .ok g' ∧ Conveys g g' ∧ g'.Idle fuseHere ∧ (n = 0 → g' = g) := by
  induction hloop with
  | refused h => cases h
  | failed h hstep =>
    cases h
    obtain ⟨r, hr, -⟩ := exists_firstFuse hg
    rw [hr] at hstep
    cases hstep
  | done h hstep =>
    cases h
    exact ⟨_, rfl, .refl hg, (firstChange_eq_none_iff (hg.imp fun _ => Wired.ascending)).1
      hstep, fun _ => rfl⟩
  | more h hstep _ ih =>
    cases h
    obtain ⟨r, hr, hnext⟩ := exists_firstFuse hg
    have hconveys := (hnext _ (Except.ok.inj (hr.symm.trans hstep))).1
    obtain ⟨g', houtcome, hconveys', hidle, -⟩ := ih hconveys.wired
    exact ⟨g', houtcome, hconveys.trans hconveys', hidle, nofun⟩

/-- **Fusing projections succeeds, is complete and keeps the results.**  In a graph that is valid
and has types, the loop that fuses projections ends with a graph, after at most as many fusions as
there are projections at all levels, and the rule makes this graph of it, none if nothing was fused.
No projection of it, at any level, stands on one that it alone reads and that is not the sink.
Whatever the graph evaluates to, on whatever rows, this graph evaluates to. -/
theorem stops_fusion {types : GraphTypes} (hg : g.Numbered) (hvalid : g.validate = .ok ())
    (htypes : g.types = .ok types) :
    ∃ fusions g', Loop pure (firstChange fuseHere) g fusions (.ok g') ∧
      fusions ≤ g.total projectionCount ∧
      Rule.fusion.apply g = .ok (if fusions = 0 then none else some g') ∧ (fusions = 0 → g' = g) ∧
      (∀ path h, g'.at? path = some h → ∀ outer inner, ¬h.Stacked outer inner) ∧
      ∀ parameters rows, g.evaluate parameters = .ok rows → g'.evaluate parameters = .ok rows := by
  have hwired := wired_of_checkOpenWithin hg (checkOpenWithin_of_validateWithin hg hvalid)
  obtain ⟨fusions, outcome, hloop, hle, hlimited⟩ :=
    exists_loop (fun _ _ => exists_fusionTurn) hwired (Nat.le_refl (g.total projectionCount))
  obtain ⟨g', rfl, hconveys, hidle, hzero⟩ := conveys_of_loop hwired hloop
  obtain ⟨τ, hτ, -⟩ := hconveys.types none types.type (typed_of_typesWithin htypes)
  rw [← fuseAll_eq_limited] at hlimited
  refine ⟨fusions, g', hloop, hle, ?_, hzero, fun path h hpath outer inner => ?_,
    fun parameters rows hrows => hconveys.evaluate htypes hrows⟩
  · rw [Rule.fusion]
    simp only [hlimited]
    cases fusions <;> rfl
  · exact not_stacked_of_idle hconveys.wired hτ hidle hpath

/-- Three projections one on the other inside a pipeline, each the only one to read the one
below. -/
def stackInside : Dag where
  nodes := [⟨0, .primitive (.parameterLookup 0 (some Optimizer.entryType)), {}⟩, ⟨1, .pipeline 1 {
      nodes := [⟨0, .primitive (.parameterLookup 0 none), {}⟩,
        ⟨1, .primitive (.projection [1, 0]), {}⟩, ⟨2, .primitive (.projection [1, 0, 1]), {}⟩,
        ⟨3, .primitive (.projection [2, 1]), {}⟩]
      edges := [⟨0, 0, 1, 0⟩, ⟨1, 0, 2, 0⟩, ⟨2, 0, 3, 0⟩]
      sink := some 3 }, {}⟩]
  edges := [⟨0, 0, 1, 0⟩]
  sink := some 1

/-- The stack is fused; also a row that is longer than its type keeps its fields. -/
theorem stackInside_stops : stackInside.validate = .ok () ∧
    stackInside.evaluate [[[.int 1, .int 5], [.int 2, .int 6, .bool true]]] =
      .ok [[.int 1, .int 5], [.int 2, .int 6]] ∧
    ∃ fusions g', fusions ≠ 0 ∧ fusions ≤ 3 ∧ Loop pure (firstChange fuseHere)
      stackInside fusions (.ok g') ∧ Rule.fusion.apply stackInside = .ok (some g') ∧
      (∀ path h, g'.at? path = some h → ∀ outer inner, ¬h.Stacked outer inner) ∧
      g'.evaluate [[[.int 1, .int 5], [.int 2, .int 6, .bool true]]] =
        .ok [[.int 1, .int 5], [.int 2, .int 6]] := by
  have hvalid : stackInside.validate = .ok () := by cbv
  have hrows : stackInside.evaluate [[[.int 1, .int 5], [.int 2, .int 6, .bool true]]] =
      .ok [[.int 1, .int 5], [.int 2, .int 6]] := by cbv
  have hcount : stackInside.total projectionCount = 3 := by cbv
  have hchanges : (Rule.fusion.apply stackInside).toOption.any Option.isSome = true := by cbv
  obtain ⟨types, htypes, -⟩ := Outcome.bind_eq_ok_iff.1 hrows
  obtain ⟨fusions, g', hloop, hle, happly, -, hstacked, hevaluate⟩ :=
    stops_fusion (isNumbered_iff.1 (by cbv)) hvalid htypes
  have hne : fusions ≠ 0 := by
    rintro rfl
    rw [happly] at hchanges
    cases hchanges
  rw [if_neg hne] at happly
  exact ⟨hvalid, hrows, fusions, g', hne, hcount ▸ hle, hloop, happly, hstacked,
    hevaluate _ _ hrows⟩

end Graph

end Dataflow
