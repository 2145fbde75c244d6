/-
**Fusing projections is sound.**

A projection that alone reads another one takes over its source, and the other one is removed.  The
graph stays wired.  Selecting fields of selected fields is selecting fields once, so the remaining
operators keep their types and their rows; the projection that was removed had the rows that it
makes of the source.

Main results:

* `Graph.fused_of_applyFusion` — what a fusion does to the graph;
* `Graph.Fused.wired` — the graph stays wired, at every level;
* `Graph.Fused.carries_back`, `Graph.Fused.carries_forth` — **the rows of a graph are the same
  before and after a fusion**.
-/

import Dataflow.Optimization.Fusion
import Dataflow.Proofs.Optimization.Rows

namespace Dataflow

open List Option Interpretation Outcome TupleType

/-! ### Selecting twice -/

section Composition

variable {inner outer positions : List Nat} {t u w : TupleType}
  (h : composePositions inner outer = some positions)
include h

theorem forall₂_compose : Forall₂ (fun i p => inner[i]? = some p) outer positions := by
  rw [composePositions] at h
  induction outer generalizing positions with
  | nil =>
    cases h
    exact .nil
  | cons i outer ih =>
    simp only [mapM_cons, bind_eq_bind, bind_eq_some_iff] at h
    obtain ⟨p, hp, rest, hrest, h⟩ := h
    cases h
    exact .cons hp (ih hrest)

section

variable (hinner : t.select inner = .ok u)
include hinner

theorem select_compose (houter : u.select outer = .ok w) : t.select positions = .ok w := by
  obtain ⟨types, htypes, rfl⟩ := select_eq_ok_iff.1 hinner
  obtain ⟨types', htypes', rfl⟩ := select_eq_ok_iff.1 houter
  refine select_eq_ok_iff.2 ⟨types', ?_, rfl⟩
  have hcompose := forall₂_compose h
  clear h houter
  induction hcompose generalizing types' with
  | nil =>
    cases htypes'
    exact .nil
  | @cons i p outer positions hp _ ih =>
    cases htypes' with
    | cons hi hrest =>
      refine .cons ?_ (ih _ hrest)
      rw [type?_eq_getElem?, types_positional] at hi
      exact forall₂_getElem? htypes hp hi

theorem Row.select_select {row : Row} (hrow : t.Holds row) :
    (row.select inner).select outer = row.select positions := by
  have hcompose := forall₂_compose h
  clear h
  induction hcompose with
  | nil => rfl
  | @cons i p outer positions hp _ ih =>
    obtain ⟨_, v, -, -, hv, hv'⟩ := getElem?_select hinner hrow hp
    have hcons : ∀ {row : Row} {i : Nat} {v : Value} (rest : List Nat), row[i]? = some v →
        row.select (i :: rest) = v :: row.select rest := by
      intro row i v rest hv
      rw [Row.select, filterMap_cons, hv, Row.select]
    rw [hcons outer hv', hcons positions hv, ih]

/-- **Fields that are selected, stored and selected again are those that are selected once and
stored**, whatever row they are taken from: the fields in between are as many as their types, so
they are stored. -/
theorem projectRow_projectRow (houter : u.select outer = .ok w) {row middle out : Row}
    (hmiddle : projectRow inner row = .ok middle)
    (hout : projectRow outer (u.store middle) = .ok out) :
    ∃ raw, projectRow positions row = .ok raw ∧ w.store raw = out := by
  obtain ⟨types, htypes, rfl⟩ := select_eq_ok_iff.1 hinner
  obtain ⟨types', htypes', rfl⟩ := select_eq_ok_iff.1 houter
  rw [projectRow_eq_ok_iff] at hmiddle hout
  rw [store_eq
    (by rw [types_positional, ← hmiddle.length_eq, htypes.length_eq]),
    types_positional] at hout
  have hcompose := forall₂_compose h
  obtain ⟨raw, hraw, hstored⟩ : ∃ raw, Forall₂ (fun p v => row[p]? = some v) positions raw ∧
      zipWith FieldType.store types' raw = out := by
    clear h houter
    induction hcompose generalizing types' out with
    | nil =>
      cases hout
      exact ⟨[], .nil, zipWith_nil_right⟩
    | @cons i p outer positions hp _ ih =>
      cases htypes' with
      | cons hi htypes' =>
        cases hout with
        | cons ho hout =>
          obtain ⟨raw, hraw, rfl⟩ := ih hout _ htypes'
          obtain ⟨type, v, htype, hv, rfl⟩ := getElem?_zipWith_eq_some.1 ho
          rw [type?_eq_getElem?, types_positional, htype] at hi
          cases hi
          exact ⟨v :: raw, .cons (forall₂_getElem? hmiddle hp hv) hraw, rfl⟩
  refine ⟨raw, projectRow_eq_ok_iff.2 hraw, ?_⟩
  rw [store_eq, types_positional, hstored]
  rw [types_positional, ← hraw.length_eq, ← hcompose.length_eq, htypes'.length_eq]

/-- What two projections make of some rows, one projection makes of them. -/
theorem mapM_projectRow_compose (houter : u.select outer = .ok w)
    {rows middle out : Rows} (hmiddle : rows.mapM (projectRow inner) = .ok middle)
    (hout : (middle.map u.store).mapM (projectRow outer) = .ok out) :
    ∃ raw, rows.mapM (projectRow positions) = .ok raw ∧ out.map w.store = raw.map w.store := by
  rw [mapM_eq_ok_iff] at hmiddle
  rw [mapM_eq_ok_iff, forall₂_map_left_iff] at hout
  simp only [mapM_eq_ok_iff]
  induction hmiddle generalizing out with
  | nil =>
    cases hout
    exact ⟨[], .nil, rfl⟩
  | cons hrow _ ih =>
    cases hout with
    | cons hrow' hout =>
      obtain ⟨raw, hraw, hstored⟩ := ih hout
      obtain ⟨r, hr, rfl⟩ := projectRow_projectRow h hinner houter hrow hrow'
      refine ⟨r :: raw, .cons hr hraw, ?_⟩
      rw [map_cons, map_cons, store_store, hstored]

end

end Composition

namespace Graph

/-! ### The graph after a fusion -/

/-- A graph before and after the projection `outer` took the place of itself and its producer
`inner`, which `source` feeds. -/
structure Fused (g g' : Dag) (outer inner source : Nat) (selected fields positions : List Nat) :
    Prop where
  isOuter : ∃ node, g.node? outer = some node ∧ node.kind = .primitive (.projection selected)
  isInner : ∃ node, g.node? inner = some node ∧ node.kind = .primitive (.projection fields)
  composes : composePositions fields selected = some positions
  reads : g.producer? outer 0 = some inner
  alone : ∀ id s, g.producer? id s = some inner → id = outer ∧ s = 0
  feeds : g.producer? inner 0 = some source
  notSink : g.sink ≠ some inner
  node? : ∀ id, g'.node? id = if id = inner then none else (g.node? id).map fun n =>
    if id = outer then { n with kind := .primitive (.projection positions) } else n
  ids : g'.ids = g.ids.filter (· != inner)
  once : (g'.edges.map Edge.port).Nodup
  producer? : ∀ id s, g'.producer? id s =
    if id = outer ∧ s = 0 then some source else if id = inner ∧
    s = 0 then none else g.producer? id s
  sink : g'.sink = g.sink

theorem projection?_eq_some_iff {op : Operator} {positions : List Nat} :
    op.projection? = some positions ↔ op = .primitive (.projection positions) := by
  cases op with
  | pipeline n h => simp [Operator.projection?]
  | primitive p => cases p <;> simp [Operator.projection?]

variable {g g' : Dag} {fusion : Fusion} {node : Node Operator}

/-- The choice of a fusion: a projection and the projection that it alone reads. -/
theorem fusion?_eq_some (h : g.fusion? node = some fusion) :
    ∃ selected fields below, node.kind = .primitive (.projection selected) ∧
      fusion.outer = node.id ∧ g.producer? fusion.outer 0 = some fusion.inner ∧
      g.node? fusion.inner = some below ∧ below.kind = .primitive (.projection fields) ∧
      (g.outFlows fusion.inner).length = 1 ∧ g.sink ≠ some fusion.inner ∧
      composePositions fields selected = some fusion.positions := by
  simp only [fusion?, bind_eq_bind, bind_eq_some_iff, projection?_eq_some_iff] at h
  obtain ⟨selected, hselected, inner, hinner, below, hbelow, fields, hfields, h⟩ := h
  split at h
  · cases h
  · next hguard =>
    obtain ⟨positions, hpositions, h⟩ := bind_eq_some_iff.1 h
    cases h
    rw [not_or, not_not] at hguard
    exact ⟨selected, fields, below, hselected, rfl, hinner, hbelow, hfields, hguard.1,
      hguard.2, hpositions⟩

/-- **What a fusion does to the graph.** -/
theorem fused_of_applyFusion (hg : g.Wired) (hnode : g.node? node.id = some node)
    (hfusion : g.fusion? node = some fusion) (h : g.applyFusion fusion = .ok g') :
    ∃ source selected fields,
      Fused g g' fusion.outer fusion.inner source selected fields fusion.positions := by
  obtain ⟨selected, fields, below, hkind, houter, hreads, hbelow, hbelowkind,
    hlength, hsink, hcompose⟩ :=
    fusion?_eq_some hfusion
  rw [← houter] at hnode
  simp only [applyFusion, remove, bind_eq_ok_iff, guard_eq_ok_iff, ofOption_eq_ok_iff] at h
  obtain ⟨source, hsource, ⟨_, g₁⟩, ⟨-, _, -, hg₁⟩, g₂, hg₂, h⟩ := h
  cases hg₁
  cases h
  have hopen := ((Rewired.refl hg.once).disconnect fusion.outer 0).disconnect fusion.inner 0
  have hrewired := Rewired.connect
    (g := ((g.disconnect fusion.outer 0).disconnect fusion.inner 0).erase fusion.inner)
    (Rewired.refl hopen.once) hg₂
  refine ⟨source, selected, fields, ⟨node, hnode, hkind⟩, ⟨below, hbelow, hbelowkind⟩, hcompose,
    hreads, ?_, hsource, hsink, ?_, ?_, ?_, ?_, ?_⟩
  · intro id s hid
    exact eq_of_length_outFlows hg.once hlength hid hreads
  · intro id
    have hfind : g₂.node? id = if id = fusion.inner then none else g.node? id := by
      rw [node?, hrewired.nodes]
      exact node?_erase _ fusion.inner id
    rw [setKind, node?_modify, hfind]
    split
    · rfl
    · cases hid : g.node? id with
      | none => rfl
      | some n => rw [map_some, map_some, id_eq_of_node? hid]
  · rw [setKind, ids_modify, ids, hrewired.nodes]
    exact ids_erase _ fusion.inner
  · rw [setKind, edges_modify]
    exact hrewired.once
  · intro id s
    have hproducer := hrewired.producer? id s
    rw [producer?, setKind, edges_modify]
    refine hproducer.trans ?_
    by_cases h₁ : id = fusion.outer ∧ s = 0
    · rw [if_pos h₁, if_pos h₁]
    · rw [if_neg h₁, if_neg h₁]
      refine (hopen.producer? id s).trans ?_
      rw [if_neg h₁]
  · exact hrewired.sink.trans (if_neg hsink)

namespace Fused

variable {outer inner source : Nat} {selected fields positions : List Nat}
variable (hf : Fused g g' outer inner source selected fields positions) {id : Nat}

include hf

theorem ne (hg : g.Wired) : inner ≠ outer ∧ source ≠ inner := by
  obtain ⟨rank, hrank⟩ := hg.acyclic
  have hinner := hrank outer 0 inner hf.reads
  have hsource := hrank inner 0 source hf.feeds
  constructor
  · rintro rfl
    omega
  · rintro rfl
    omega

theorem slot_of_inner (hg : g.Wired) {s q : Nat} (hq : g.producer? inner s = some q) : s = 0 := by
  obtain ⟨node, hnode, hkind⟩ := hf.isInner
  have hlt : s < node.kind.inputs := (hg.fed inner node hnode s).1 (by rw [hq]; rfl)
  rw [hkind] at hlt
  exact Nat.lt_one_iff.1 hlt

theorem wired_here (hg : g.Wired) : g'.Wired where
  ascending := hf.ids ▸ hg.ascending.filter _
  once := hf.once
  fed := by
    intro id node' hnode' s
    rw [hf.node?] at hnode'
    split at hnode'
    · cases hnode'
    · next hid =>
      obtain ⟨node, hnode, rfl⟩ := map_eq_some_iff.1 hnode'
      rw [hf.producer?, if_neg (c := id = inner ∧ s = 0) fun h => hid h.1]
      by_cases hout : id = outer
      · subst hout
        rw [if_pos rfl]
        have hfed := hg.fed id node hnode s
        obtain ⟨node₀, hnode₀, hkind⟩ := hf.isOuter
        rw [mem_unique hnode hnode₀, hkind] at hfed
        cases s with
        | zero => simp [Operator.inputs, Primitive.inputs]
        | succ s => simpa [Operator.inputs, Primitive.inputs] using hfed
      · rw [if_neg fun h => hout h.1, if_neg hout]
        exact hg.fed id node hnode s
  feeds := by
    intro id s q hq
    simp only [hf.ids, mem_filter, bne_iff_ne]
    have houter := hg.feeds outer 0 inner hf.reads
    have hinner := hg.feeds inner 0 source hf.feeds
    rw [hf.producer?] at hq
    split at hq
    · next h =>
      obtain rfl := some.inj hq
      obtain rfl := h.1
      exact ⟨⟨houter.1, (hf.ne hg).1.symm⟩, hinner.2, (hf.ne hg).2⟩
    · next hnot =>
      split at hq
      · cases hq
      · next hnot' =>
        obtain ⟨hid, hmem⟩ := hg.feeds id s q hq
        refine ⟨⟨hid, ?_⟩, hmem, ?_⟩
        · rintro rfl
          exact hnot' ⟨rfl, hf.slot_of_inner hg hq⟩
        · rintro rfl
          exact hnot (hf.alone id s hq)
  acyclic := by
    obtain ⟨rank, hrank⟩ := hg.acyclic
    refine ⟨rank, fun id s q hq => ?_⟩
    rw [hf.producer?] at hq
    split at hq
    · next h =>
      obtain rfl := some.inj hq
      obtain rfl := h.1
      exact (hrank inner 0 source hf.feeds).trans (hrank id 0 inner hf.reads)
    · split at hq
      · cases hq
      · exact hrank id s q hq
  sink := by
    intro sink hsink
    rw [hf.sink] at hsink
    rw [hf.ids, mem_filter, bne_iff_ne]
    exact ⟨hg.sink sink hsink, fun heq => hf.notSink (heq ▸ hsink)⟩

theorem inner?_of_fused {h : Dag} (hid : g'.inner? id = some h) : g.inner? id = some h := by
  obtain ⟨node', n, hnode', hkind'⟩ := inner?_eq_some_iff.1 hid
  rw [hf.node?] at hnode'
  split at hnode'
  · cases hnode'
  · obtain ⟨node, hnode, rfl⟩ := map_eq_some_iff.1 hnode'
    split at hkind'
    · cases hkind'
    · exact inner?_eq_some_iff.2 ⟨node, n, hnode, hkind'⟩

/-- **The graph stays wired**, at every level. -/
theorem wired (hg : g.Everywhere Wired) : g'.Everywhere Wired :=
  ⟨hf.wired_here hg.here, fun _ _ hid => hg.inside (hf.inner?_of_fused hid)⟩

/-! ### Models before and after a fusion -/

theorem producers_outer (hg : g.Wired) :
    g.producers outer = [inner] ∧ g'.producers outer = [source] := by
  obtain ⟨node, hnode, hkind⟩ := hf.isOuter
  have hnode' : g'.node? outer = some { node with kind := .primitive (.projection positions) } := by
    rw [hf.node?, if_neg (hf.ne hg).1.symm, hnode, map_some, if_pos rfl]
  refine ⟨hg.producers_eq_singleton hnode (by rw [hkind]; rfl) hf.reads, ?_⟩
  refine (hf.wired_here hg).producers_eq_singleton hnode' rfl ?_
  rw [hf.producer?, if_pos ⟨rfl, rfl⟩]

theorem producers_inner (hg : g.Wired) : g.producers inner = [source] := by
  obtain ⟨node, hnode, hkind⟩ := hf.isInner
  exact hg.producers_eq_singleton hnode (by rw [hkind]; rfl) hf.feeds

theorem producers_other (hg : g.Wired) (hid : id ∈ g.ids) (hinner : id ≠ inner)
    (houter : id ≠ outer) : g'.producers id = g.producers id := by
  have hid' : id ∈ g'.ids := by
    rw [hf.ids, mem_filter, bne_iff_ne]
    exact ⟨hid, hinner⟩
  refine ext_getElem? fun s => ?_
  rw [(hf.wired_here hg).getElem?_producers hid', hg.getElem?_producers hid, hf.producer?,
    if_neg fun h => houter h.1, if_neg fun h => hinner h.1]

variable {α C : Type} {I : Interpretation α C} {c : C} {v : Nat → α}

/-- A model of the graph before the fusion is one of the graph after it, if the fused projection
makes the value of the outer one. -/
theorem models_forth (hg : g.Wired) (hv : I.Models g c v)
    (houter : I.primitive c (.projection positions) [v source] (v outer)) : I.Models g' c v := by
  rw [models_iff] at hv ⊢
  intro id node' hnode'
  rw [hf.node?] at hnode'
  split at hnode'
  · cases hnode'
  · next hid =>
    obtain ⟨node, hnode, rfl⟩ := map_eq_some_iff.1 hnode'
    split
    · next heq =>
      rw [heq, (hf.producers_outer hg).2]
      exact houter
    · next hne =>
      rw [hf.producers_other hg (mem_ids_of_node? hnode) hid hne]
      exact hv id node hnode

/-- A model of the graph after the fusion makes one of the graph before it, if the two projections
make the value of the fused one. -/
theorem models_back (hg : g.Wired) (hv : I.Models g' c v) {a : α}
    (hinner : I.primitive c (.projection fields) [v source] a)
    (houter : I.primitive c (.projection selected) [a] (v outer)) :
    I.Models g c fun id => if id = inner then a else v id := by
  obtain ⟨hne, hne'⟩ := hf.ne hg
  rw [models_iff] at hv ⊢
  intro id node hnode
  by_cases hid : id = inner
  · subst hid
    obtain ⟨node₀, hnode₀, hkind⟩ := hf.isInner
    rw [mem_unique hnode hnode₀, hkind, hf.producers_inner hg, if_pos rfl]
    simpa [hne', Interpretation.Makes] using hinner
  · by_cases hout : id = outer
    · subst hout
      obtain ⟨node₀, hnode₀, hkind⟩ := hf.isOuter
      rw [mem_unique hnode hnode₀, hkind, (hf.producers_outer hg).1, if_neg hid]
      simpa [Interpretation.Makes] using houter
    · have hmake := hv id node (by rw [hf.node?, if_neg hid, hnode, map_some, if_neg hout])
      rw [hf.producers_other hg (mem_ids_of_node? hnode) hid hout] at hmake
      have hmap : (g.producers id).map (fun q => if q = inner then a else v q) =
          (g.producers id).map v := by
        refine map_congr_left fun q hq => ?_
        obtain ⟨s, hs⟩ := hg.mem_producers_iff.1 hq
        rw [if_neg]
        rintro rfl
        exact hout (hf.alone id s hs).1
      rw [hmap, if_neg hid]
      exact hmake

variable {bound : Option (List TupleType)} {τ : Nat → TupleType}
  {parameters : List Rows} {demands : Demands}

theorem selects (hg : g.Wired) (hτ : (typing demands).Models g bound τ) :
    (τ source).select fields = .ok (τ inner) ∧ (τ inner).select selected = .ok (τ outer) := by
  obtain ⟨onode, honode, hokind⟩ := hf.isOuter
  obtain ⟨inode, hinode, hikind⟩ := hf.isInner
  have houter := models_iff.1 hτ outer onode honode
  have hinner := models_iff.1 hτ inner inode hinode
  rw [hokind, (hf.producers_outer hg).1] at houter
  rw [hikind, hf.producers_inner hg] at hinner
  exact ⟨hinner.1, houter.1⟩

/-- **A fusion keeps the types**, if the fused projection meets what is asked of operators. -/
theorem typed (hg : g.Wired) (hτ : (typing demands).Models g bound τ)
    (hdemands : demands bound (.projection positions) [τ source] (τ outer)) :
    (typing demands).Models g' bound τ := by
  obtain ⟨hinner, houter⟩ := hf.selects hg hτ
  exact hf.models_forth hg hτ ⟨select_compose hf.composes hinner houter, hdemands⟩

theorem held (hg : g.Everywhere Wired) (hτ : (typing (soundly parameters)).Models g bound τ)
    {c : EvaluationContext} {v : Nat → Stream} (hc : Supplies parameters bound c)
    (hv : evaluation.Models g c v ∨ evaluation.Models g' c v) :
    (v source).type = τ source ∧ (v source).Held ∧ (v outer).type = τ outer := by
  have hsource : source ∈ g.ids := (hg.here.feeds inner 0 source hf.feeds).2
  have houter : outer ∈ g.ids := (hg.here.feeds outer 0 inner hf.reads).1
  obtain ⟨hne, hne'⟩ := hf.ne hg.here
  have hall : ∀ id ∈ g.ids, id ≠ inner → (τ id).HoldsAll (v id) := by
    intro id hid hinner
    rcases hv with hv | hv
    · exact holds_of_models (hg.imp fun _ => Wired.founded) hc hτ hv id hid
    · refine holds_of_models ((hf.wired hg).imp fun _ => Wired.founded)
        hc (hf.typed hg.here hτ ⟨rfl, nofun⟩) hv id ?_
      rw [hf.ids, mem_filter, bne_iff_ne]
      exact ⟨hid, hinner⟩
  have hholds := hall source hsource hne'
  exact ⟨hholds.1, fun row hrow => hholds.1 ▸ hholds.2 row hrow, (hall outer houter hne.symm).1⟩

/-- **The rows after a fusion are those before it.** -/
theorem carries_back (hg : g.Everywhere Wired) (hτ : (typing (soundly parameters)).Models g bound τ)
    {c : EvaluationContext} (hc : Supplies parameters bound c) : evaluation.Carries c g' g := by
  intro v hv
  obtain ⟨hsource, hheld, houtertype⟩ := hf.held hg hτ hc (.inr hv)
  obtain ⟨hinner, houter⟩ := hf.selects hg.here hτ
  rw [← hsource] at hinner
  obtain ⟨node, hnode, -⟩ := hf.isOuter
  have hmake := models_iff.1 hv outer { node with kind := .primitive (.projection positions) }
    (by rw [hf.node?, if_neg (hf.ne hg.here).1.symm, hnode, map_some, if_pos rfl])
  rw [(hf.producers_outer hg.here).2] at hmake
  obtain ⟨-, hrows⟩ := (evaluation_projection_iff hheld).1 hmake
  refine ⟨_, hf.models_back hg.here hv (a := ⟨τ inner, (v source).rows.map (Row.select fields)⟩)
    ((evaluation_projection_iff hheld).2 ⟨hinner, rfl⟩) ?_, ?_⟩
  · refine (evaluation_projection_iff (hheld.select hinner)).2 ⟨houtertype ▸ houter, ?_⟩
    rw [hrows, List.map_map]
    exact map_congr_left fun row hrow =>
      (Row.select_select hf.composes hinner (hheld row hrow)).symm
  · rw [hf.sink]
    cases hs : g.sink with
    | none => rfl
    | some s =>
      have hne : s ≠ inner := fun heq => hf.notSink (heq ▸ hs)
      rw [map_some, map_some, if_neg hne]

/-- **The rows before a fusion are those after it**, in every context. -/
theorem carries_forth (hg : g.Wired) (c : EvaluationContext) : evaluation.Carries c g g' := by
  intro v hv
  obtain ⟨onode, honode, hokind⟩ := hf.isOuter
  obtain ⟨inode, hinode, hikind⟩ := hf.isInner
  have houter := models_iff.1 hv outer onode honode
  have hinner := models_iff.1 hv inner inode hinode
  rw [hokind, (hf.producers_outer hg).1] at houter
  rw [hikind, hf.producers_inner hg] at hinner
  obtain ⟨hitype, middle, hmiddle, hirows⟩ := hinner
  obtain ⟨hotype, out, hout, horows⟩ := houter
  have hout' : ((v inner).rows).mapM (projectRow selected) = .ok out := hout
  rw [hirows] at hout'
  obtain ⟨raw, hraw, hstored⟩ := mapM_projectRow_compose hf.composes hitype hotype hmiddle hout'
  refine ⟨v, hf.models_forth hg hv ⟨select_compose hf.composes hitype hotype, raw, hraw,
    ?_⟩, by rw [hf.sink]⟩
  rw [horows, hstored]

end Fused

end Graph

end Dataflow
