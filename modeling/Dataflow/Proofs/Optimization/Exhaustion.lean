/-
**Where nothing is left to do.**

A step is idle on a graph if it finds nothing to change, at any level.  Which filters can move and
which projections can be fused is told by the edges, the operators and the columns, so a step that
is idle stays idle when an annotated graph is annotated again.  A fusion does not let a filter move
either: the filter and its producer are as they were, except that the producer may be the fused
projection, which has as many fields.  The notes of an annotated graph are still right after a
fusion, because the columns that are selected twice are the columns that are selected once.

Main results:

* `Graph.firstChange_eq_none_iff` — there is no first change exactly where a step is idle;
* `Graph.idle_pushHere_of_steady`, `Graph.idle_fuseHere_of_alike` — **annotating again leaves idle
  steps idle**;
* `Graph.Fused.annotated` — **a fusion keeps notes right**;
* `Graph.Fused.pushable_before` — **a fusion lets no filter move**.
-/

import Dataflow.Proofs.Optimization.Applicability
import Dataflow.Proofs.Optimization.Renewal

namespace Dataflow.Graph

open List Option Operator

variable {g g' h h' : Dag} {id : Nat} {bound : Option (List TupleType)}
  {step : Dag → Outcome (Option Dag)}

/-! ### Idle steps -/

/-- A step finds nothing to change in a graph, at any level. -/
def Idle (step : Dag → Outcome (Option Dag)) (g : Dag) : Prop :=
  g.Everywhere fun h => step h = .ok none

/-- There is no first change exactly where a step is idle. -/
theorem firstChange_eq_none_iff (hg : g.Numbered) :
    g.firstChange step = .ok none ↔ g.Idle step := by
  induction hg with
  | @intro g hascending _ ih =>
    rw [firstChange_none_iff]
    constructor
    · rintro ⟨hhere, hinside⟩
      exact ⟨hhere, fun id k hk => (ih id k hk).1 (hinside (id, k) (mem_inner_of_inner? hk))⟩
    · intro h
      refine ⟨h.here, fun e he => ?_⟩
      have hid := inner?_of_mem_inner hascending he
      exact (ih e.1 e.2 hid).2 (h.inside hid)

theorem length_outFlows_iff (honce : (g.edges.map Edge.port).Nodup) {q slot : Nat}
    (hreads : g.producer? id slot = some q) : (g.outFlows q).length = 1 ↔
      ∀ id' slot', g.producer? id' slot' = some q → id' = id ∧ slot' = slot := by
  constructor
  · intro hlength id' slot' h
    exact eq_of_length_outFlows honce hlength h hreads
  · intro h
    have hmem : Flow.mk id slot ∈ g.outFlows q := (mem_outFlows honce).2 hreads
    have hall : ∀ f ∈ g.outFlows q, f = Flow.mk id slot := by
      rintro ⟨id', slot'⟩ hf
      obtain ⟨rfl, rfl⟩ := h id' slot' ((mem_outFlows honce).1 hf)
      rfl
    have hnodup : (g.outFlows q).Nodup := (nodup_outFlows honce q).of_map
    rw [eq_replicate_of_mem hall, nodup_replicate] at hnodup
    have hpos := length_pos_of_mem hmem
    omega

/-! ### Filters that can move -/

/-- A filter that can move: its producer feeds nothing else, and its predicate can be told on what
the producer reads. -/
def Pushable (g : Dag) (id : Nat) : Prop :=
  ∃ node e below producer, g.node? id = some node ∧ node.kind = .primitive (.filter e) ∧
    g.producer? id 0 = some below ∧ (g.outFlows below).length = 1 ∧ g.node? below = some producer ∧
    ((∃ positions, producer.kind = .primitive (.projection positions) ∧
        (e.remap fun arg index => return (arg, ← positions[index]?)).isSome = true) ∨
      ∃ p keys, producer.kind = .primitive p ∧ p.pairKeys? = some keys ∧
        (g.sidePredicate? below e).isSome = true)

theorem findPush?_eq_none_iff (hascending : g.ids.Pairwise (· < ·)) :
    g.findPush? = none ↔ ∀ id, ¬g.Pushable id := by
  rw [findPush?, findSome?_eq_none_iff]
  constructor
  · rintro h id ⟨node, e, below, producer, hnode, hkind, hreads, hlength, hproducer, hcase⟩
    have hnone := h node (mem_of_node? hnode)
    rw [← id_eq_of_node? hnode] at hreads
    simp only [push?, hkind, filter?, hreads, hlength, hproducer,
      bind_eq_bind, bind_some, ne_eq, not_true_eq_false, if_false] at hnone
    simp only [bind_eq_bind] at hcase
    rcases hcase with ⟨positions, hpositions, hremap⟩ | ⟨p, keys, hp, hkeys, hside⟩
    · obtain ⟨e', he'⟩ := isSome_iff_exists.1 hremap
      simp only [hpositions, he'] at hnone
      cases hnone
    · obtain ⟨⟨slot, e'⟩, he'⟩ := isSome_iff_exists.1 hside
      cases p with
      | join | cartesian =>
        simp only [hp, he'] at hnone
        cases hnone
      | _ => cases hkeys
  · intro h node hmem
    cases hpush : g.push? node with
    | none => rfl
    | some push =>
      obtain ⟨e, below, hkind, hfilter, hreads, hlength, hbelow, hcase⟩ := push?_eq_some hpush
      refine absurd ⟨node, e, push.below, below, node?_of_mem hascending hmem, hkind,
        hfilter ▸ hreads, hlength, hbelow, ?_⟩ (h node.id)
      rcases hcase with ⟨positions, hpositions, -, hremap⟩ | ⟨p, keys, hp, hkeys, hside⟩
      · exact .inl ⟨positions, hpositions, isSome_iff_exists.2 ⟨_, hremap⟩⟩
      · exact .inr ⟨p, keys, hp, hkeys, isSome_iff_exists.2 ⟨_, hside⟩⟩

theorem pushHere_eq_none_iff (hascending : g.ids.Pairwise (· < ·)) :
    g.pushHere = .ok none ↔ ∀ id, ¬g.Pushable id := by
  rw [← findPush?_eq_none_iff hascending]
  refine ⟨pushHere_eq_none, fun h => ?_⟩
  rw [pushHere, h]
  rfl

/-- A predicate on pairs is told on a side by the columns of the pairs and of the sides. -/
theorem sidePredicate?_congr {product : Nat} (hcolumns : g'.columnsOf product = g.columnsOf product)
    (hsides : ∀ slot, (g'.producer? product slot).bind g'.columnsOf =
      (g.producer? product slot).bind g.columnsOf)
    (e : Expr) : g'.sidePredicate? product e = g.sidePredicate? product e := by
  simp only [sidePredicate?, hcolumns, bind_eq_bind, ← bind_assoc, hsides]

theorem columnsOf_of_shells (hshells : g'.shells = g.shells)
    (hcolumns : (g'.fieldsAt id).map (·.column) = (g.fieldsAt id).map (·.column)) :
    g'.columnsOf id = g.columnsOf id := by
  have hids := ids_eq_of_shells hshells
  by_cases hid : id ∈ g.ids
  · rw [columnsOf_eq hid, columnsOf_eq (hids ▸ hid), hcolumns]
  · have hnone : ∀ k : Dag, k.ids = g.ids → k.columnsOf id = none := by
      intro k hk
      rw [← hk, ← contains_iff_mem_ids, contains, not_isSome_iff_eq_none] at hid
      rw [columnsOf, hid, map_none]
    rw [hnone g rfl, hnone g' hids]

/-- Which filters can move is told by the edges, the operators and the columns. -/
theorem Pushable.congr (hpushable : g'.Pushable id) (hedges : g'.edges = g.edges)
    (hshells : g'.shells = g.shells) (hcolumns : ∀ q, (g'.fieldsAt q).map (·.column) =
      (g.fieldsAt q).map (·.column)) : g.Pushable id := by
  obtain ⟨node', e, below, producer', hnode', hkind', hreads, hlength, hproducer', hcase⟩ :=
    hpushable
  have hfeeds : ∀ q s, g'.producer? q s = g.producer? q s := by
    intro q s
    rw [producer?, producer?, hedges]
  obtain ⟨node, hnode, hshell⟩ := node?_of_shells hshells hnode'
  obtain ⟨producer, hproducer, hshell'⟩ := node?_of_shells hshells hproducer'
  rw [hkind', shell, shell_eq_inl_iff] at hshell
  rw [hfeeds] at hreads
  rw [outFlows, hedges] at hlength
  refine ⟨node, e, below, producer, hnode, hshell, hreads, hlength, hproducer, ?_⟩
  rcases hcase with ⟨positions, hkind, hremap⟩ | ⟨p, keys, hkind, hkeys, hside⟩
  · rw [hkind, shell, shell_eq_inl_iff] at hshell'
    exact .inl ⟨positions, hshell', hremap⟩
  · rw [hkind, shell, shell_eq_inl_iff] at hshell'
    rw [sidePredicate?_congr (columnsOf_of_shells hshells (hcolumns below)) fun s => ?_] at hside
    · exact .inr ⟨p, keys, hshell', hkeys, hside⟩
    · rw [hfeeds]
      exact Option.bind_congr fun q _ => columnsOf_of_shells hshells (hcolumns q)

/-- **Annotating again leaves moving filters idle.** -/
theorem idle_pushHere_of_steady (hg : g.Numbered) (halike : Alike g g') (hsteady : Steady g g')
    (hidle : g.Idle pushHere) : g'.Idle pushHere := by
  induction hsteady with
  | @intro g g' columns inside ih =>
    have hascending : g'.ids.Pairwise (· < ·) := halike.ids ▸ hg.here
    refine ⟨(pushHere_eq_none_iff hascending).2 fun id hpushable => ?_, fun id b hb => ?_⟩
    · exact (pushHere_eq_none_iff hg.here).1 hidle.here id
        (hpushable.congr halike.edges.symm halike.shells.symm columns)
    · obtain ⟨a, ha⟩ := inner?_of_shells halike.shells.symm hb
      exact ih id a b ha hb (hg.inside ha) (halike.inside ha hb) (hidle.inside ha)

/-! ### Projections that can be fused -/

/-- A projection that can be fused with its producer: that is a projection that feeds nothing else
and is not the sink. -/
def Fusible (g : Dag) (id : Nat) : Prop :=
  ∃ node selected below producer fields positions, g.node? id = some node ∧
    node.kind = .primitive (.projection selected) ∧ g.producer? id 0 = some below ∧
    g.node? below = some producer ∧ producer.kind = .primitive (.projection fields) ∧
    (g.outFlows below).length = 1 ∧ g.sink ≠ some below ∧
      composePositions fields selected = some positions

theorem findFusion?_eq_none_iff (hascending : g.ids.Pairwise (· < ·)) :
    g.findFusion? = none ↔ ∀ id, ¬g.Fusible id := by
  rw [findFusion?, findSome?_eq_none_iff]
  constructor
  · rintro h id ⟨node, selected, below, producer, fields, positions, hnode, hkind, hreads,
      hproducer, hfields, hlength, hsink, hcompose⟩
    have hnone := h node (mem_of_node? hnode)
    rw [← id_eq_of_node? hnode] at hreads
    simp [fusion?, hkind, projection?, hreads, hproducer, hfields, hlength,
      hsink, hcompose] at hnone
  · intro h node hmem
    cases hfusion : g.fusion? node with
    | none => rfl
    | some fusion =>
      obtain ⟨selected, fields, below, hkind, houter, hreads, hbelow, hfields,
        hlength, hsink, hcompose⟩ :=
        fusion?_eq_some hfusion
      exact absurd ⟨node, selected, fusion.inner, below, fields, fusion.positions,
        node?_of_mem hascending hmem, hkind, houter ▸ hreads, hbelow, hfields, hlength, hsink,
        hcompose⟩ (h node.id)

theorem fuseHere_eq_none_iff (hascending : g.ids.Pairwise (· < ·)) :
    g.fuseHere = .ok none ↔ ∀ id, ¬g.Fusible id := by
  rw [← findFusion?_eq_none_iff hascending, fuseHere]
  constructor
  · intro h
    split at h
    · obtain ⟨_, -, heq⟩ := Outcome.map_eq_ok_iff.1 h
      cases heq
    · assumption
  · intro h
    rw [h]
    rfl

/-- **Annotations do not let projections be fused.** -/
theorem idle_fuseHere_of_alike (hg : g.Numbered) (halike : Alike g g') (hidle : g.Idle fuseHere) :
    g'.Idle fuseHere := by
  induction halike with
  | @intro g g' edges sink shells inside ih =>
    have halike : Alike g g' := ⟨edges, sink, shells, inside⟩
    refine ⟨(fuseHere_eq_none_iff (halike.ids ▸ hg.here)).2 ?_, fun id b hb => ?_⟩
    · rintro id ⟨node', selected, below, producer', fields, positions, hnode', hkind', hreads,
        hproducer', hfields', hlength, hsink, hcompose⟩
      obtain ⟨node, hnode, hshell⟩ := node?_of_shells shells.symm hnode'
      obtain ⟨producer, hproducer, hshell'⟩ := node?_of_shells shells.symm hproducer'
      rw [hkind', shell, shell_eq_inl_iff] at hshell
      rw [hfields', shell, shell_eq_inl_iff] at hshell'
      rw [halike.producer?] at hreads
      rw [outFlows, ← edges] at hlength
      exact (fuseHere_eq_none_iff hg.here).1 hidle.here id ⟨node, selected, below, producer,
        fields, positions, hnode, hshell, hreads, hproducer, hshell', hlength,
        sink ▸ hsink, hcompose⟩
    · obtain ⟨a, ha⟩ := inner?_of_shells shells.symm hb
      exact ih id a b ha hb (hg.inside ha) (hidle.inside ha)

/-! ### Changes inside a pipeline -/

theorem idle_pushHere_replaceInner (hg : g.Numbered) (hidle : g.Idle pushHere)
    (hh' : h'.Idle pushHere) :
    (g.replaceInner id h').Idle pushHere := by
  refine Everywhere.replaceInner hidle hh' ((pushHere_eq_none_iff ?_).2 fun m hpushable => ?_)
  · exact ids_replaceInner g id h' ▸ hg.here
  · refine (pushHere_eq_none_iff hg.here).1 hidle.here m
      (hpushable.congr rfl (shells_replaceInner g id h') fun q => ?_)
    rw [fieldsAt_replaceInner]

/-- Notes stay right around a change inside a pipeline that keeps the types. -/
theorem Annotated.replaceInner (hannotated : Annotated bound g) (hid : g.inner? id = some h)
    (hinner : ∀ τ, (typing fun _ _ _ _ => True).Models g bound τ →
      Renews (some ((g.producers id).map τ)) h h' ∧ Annotated (some ((g.producers id).map τ)) h') :
    Annotated bound (g.replaceInner id h') := by
  obtain ⟨τ, hτ, hnoted, hinside⟩ := hannotated
  obtain ⟨hrenews, hannotated'⟩ := hinner τ hτ
  refine ⟨τ, ?_, fun m hm => ?_, fun m k hk => ?_⟩
  · refine Interpretation.models_replaceInner hτ (fun k hk => ?_) hrenews.ready.wired.here.sink
    obtain rfl := mem_unique hid hk
    exact hrenews.types
  · refine (hnoted m (ids_replaceInner g id h' ▸ hm)).congr rfl
      (shells_replaceInner g id h') ?_ fun q _ => ?_
    · exact fieldsAt_replaceInner g id h' m
    · exact fieldsAt_replaceInner g id h' q
  · rw [inner?_replaceInner] at hk
    split at hk
    · next heq =>
      obtain ⟨-, -, rfl⟩ := map_eq_some_iff.1 hk
      exact heq ▸ hannotated'
    · exact hinside m k hk

/-! ### Fusions -/

namespace Fused

variable {outer inner source : Nat} {selected fields positions : List Nat}
variable (hf : Fused g g' outer inner source selected fields positions) {τ : Nat → TupleType}

include hf

/-- An operator after a fusion was there before, and is not the inner projection. -/
theorem node?_before {n' : Node Operator} (hn' : g'.node? id = some n') :
    id ≠ inner ∧ ∃ n, g.node? id = some n ∧
      n' = if id = outer then { n with kind := .primitive (.projection positions) } else n := by
  rw [hf.node?] at hn'
  split at hn'
  · cases hn'
  · next hid =>
    obtain ⟨n, hn, rfl⟩ := map_eq_some_iff.1 hn'
    exact ⟨hid, n, hn, rfl⟩

theorem columnsOf (hid : id ≠ inner) : g'.columnsOf id = g.columnsOf id := by
  rw [Graph.columnsOf, Graph.columnsOf, hf.node?, if_neg hid]
  cases g.node? id with
  | none => rfl
  | some n => by_cases hout : id = outer <;> simp [hout]

/-- What feeds only one operator after a fusion did so before: the source of the projections has one
consumer before and after. -/
theorem length_outFlows_before (hg : g.Wired) {below : Nat} (hid : id ≠ outer)
    (hbelow : below ≠ inner) (hreads : g.producer? id 0 = some below)
    (hreads' : g'.producer? id 0 = some below) (hlength : (g'.outFlows below).length = 1) :
    (g.outFlows below).length = 1 := by
  have halone := (length_outFlows_iff (hf.wired_here hg).once hreads').1 hlength
  refine (length_outFlows_iff hg.once hreads).2 fun m s hm => ?_
  by_cases hm' : m = outer ∧ s = 0
  · rw [hm'.1, hm'.2, hf.reads, some.injEq] at hm
    exact absurd hm.symm hbelow
  · by_cases hm'' : m = inner ∧ s = 0
    · rw [hm''.1, hm''.2, hf.feeds, some.injEq] at hm
      have hfeeds : g'.producer? outer 0 = some below := by rw [hf.producer?, if_pos ⟨rfl, rfl⟩, hm]
      exact absurd (halone outer 0 hfeeds).1.symm hid
    · refine halone m s ?_
      rw [hf.producer?, if_neg hm', if_neg hm'', hm]

/-- **A fusion lets no filter move** that could not move before. -/
theorem pushable_before (hg : g.Wired) (hpushable : g'.Pushable id) : g.Pushable id := by
  obtain ⟨node', e, below, producer', hnode', hkind', hreads, hlength, hproducer', hcase⟩ :=
    hpushable
  obtain ⟨hidinner, node, hnode, rfl⟩ := hf.node?_before hnode'
  obtain ⟨hbelowinner, producer, hproducer, rfl⟩ := hf.node?_before hproducer'
  have houter : id ≠ outer := by
    intro heq
    rw [if_pos heq] at hkind'
    cases hkind'
  rw [if_neg houter] at hkind'
  have hreads' : g.producer? id 0 = some below := by
    rwa [hf.producer?, if_neg fun h => houter h.1, if_neg fun h => hidinner h.1] at hreads
  refine ⟨node, e, below, producer, hnode, hkind', hreads',
    hf.length_outFlows_before hg houter hbelowinner hreads' hreads hlength, hproducer, ?_⟩
  by_cases hbelow : below = outer
  · -- The outer projection selects as many fields as the fused one.
    obtain ⟨onode, honode, hokind⟩ := hf.isOuter
    rw [hbelow, honode, some.injEq] at hproducer
    subst hproducer
    simp only [if_pos hbelow] at hcase
    rcases hcase with ⟨_, heq, hremap⟩ | ⟨p, keys, heq, hkeys, -⟩
    · cases heq
      refine .inl ⟨selected, hokind, Expr.isSome_remap hremap fun arg index h => ?_⟩
      have hlengths := (forall₂_compose hf.composes).length_eq
      obtain ⟨_, h⟩ := isSome_iff_exists.1 h
      obtain ⟨p, hp, -⟩ := bind_eq_some_iff.1 h
      have hlt := (List.getElem?_eq_some_iff.1 hp).1
      rw [getElem?_eq_getElem (by omega)]
      rfl
    · cases heq
      cases hkeys
  · simp only [if_neg hbelow] at hcase
    refine hcase.imp_right ?_
    rintro ⟨p, keys, hp, hkeys, hside⟩
    refine ⟨p, keys, hp, hkeys, ?_⟩
    rwa [sidePredicate?_congr (hf.columnsOf hbelowinner) fun s => ?_] at hside
    rw [hf.producer?, if_neg fun h => hbelow h.1, if_neg fun h => hbelowinner h.1]
    cases hs : g.producer? below s with
    | none => rfl
    | some q => exact hf.columnsOf fun heq => hbelow (hf.alone below s (heq ▸ hs)).1

theorem idle_pushHere (hg : g.Wired) (hidle : g.Idle pushHere) : g'.Idle pushHere := by
  refine ⟨(pushHere_eq_none_iff (hf.wired_here hg).ascending).2 fun id
    hpushable => ?_, fun id k hk => ?_⟩
  · exact (pushHere_eq_none_iff hg.ascending).1 hidle.here id (hf.pushable_before hg hpushable)
  · exact hidle.inside (hf.inner?_of_fused hk)

/-- The fields of the outer projection carry the columns that the fused projection selects. -/
theorem assigned_outer (hg : g.Wired) (hselect : (τ source).select fields = .ok (τ inner))
    (hinner : g.NotedAt inner (τ inner)) (houter : g.NotedAt outer (τ outer)) :
    Forall₂ (Assigned (.primitive (.projection positions)) [g.fieldsAt source])
    (Field.ofTuple (τ outer))
      (g.fieldsAt outer) := by
  obtain ⟨onode, honode, hokind⟩ := hf.isOuter
  obtain ⟨inode, hinode, hikind⟩ := hf.isInner
  have hoassigned := houter.assigned onode honode
  have hiassigned := hinner.assigned inode hinode
  rw [hokind, (hf.producers_outer hg).1] at hoassigned
  rw [hikind, hf.producers_inner hg] at hiassigned
  have hcompose := forall₂_compose hf.composes
  have hsource : ∀ {ps : List Nat} {inputs : List Field} {k : Nat} {s : Field},
      (primitive (.projection ps)).source? [inputs] k = some s ↔
        ∃ p, ps[k]? = some p ∧ inputs[p]? = some s ∧ s.column.isSome = true := by
    intro ps inputs k s
    cases hk : ps[k]? <;> simp [source?, origin?, hk, filter_eq_some_iff]
  refine forall₂_iff_get.2 ⟨hoassigned.length_eq, fun k hk hk' => ?_⟩
  have hassigned := hoassigned.get hk hk'
  have hposition : ∀ (t : TupleType) (k : Nat) (hk : k < (Field.ofTuple t).length),
      ((Field.ofTuple t).get ⟨k, hk⟩).position = k := by
    intro t k hk
    simp [Field.ofTuple]
  refine ⟨hassigned.named, hassigned.column, fun s hs => ?_⟩
  rw [hposition] at hs
  obtain ⟨p, hp, hfield, hcolumn⟩ := hsource.1 hs
  -- The field passes a field of the inner projection on, and that passes the field of the source
  -- on.
  have hk'' : k < selected.length := by
    rw [hcompose.length_eq]
    exact (List.getElem?_eq_some_iff.1 hp).1
  have hj := getElem?_eq_getElem hk''
  have hjp := forall₂_getElem? hcompose hj hp
  have hj' : selected[k] < (g.fieldsAt inner).length := by
    obtain ⟨types, htypes, heq⟩ := select_eq_ok_iff.1 hselect
    rw [hinner.length_eq, heq, ← TupleType.length_types,
      TupleType.types_positional, ← htypes.length_eq]
    exact (List.getElem?_eq_some_iff.1 hjp).1
  have hpassed := hassigned.source _ (by
    rw [hposition]
    exact hsource.2 ⟨_, hj, getElem?_eq_getElem hj', hinner.columns _ (getElem_mem hj')⟩)
  have hj'' : selected[k] < (Field.ofTuple (τ inner)).length := hiassigned.length_eq ▸ hj'
  have hpassed' := (hiassigned.get hj'' hj').source s (by
    rw [hposition]
    exact hsource.2 ⟨p, hjp, hfield, hcolumn⟩)
  exact hpassed.trans hpassed'

/-- The operators apart from the two projections keep their notes, and these stay right. -/
theorem notedAt_of_ne (hg : g.Wired) (hnoted : g.NotedAt id (τ id)) (hid : id ∈ g.ids)
    (hidinner : id ≠ inner) (hidouter : id ≠ outer) : g'.NotedAt id (τ id) := by
  refine hnoted.of_node (fun node' hnode' => ?_) (hf.producers_other hg hid hidinner hidouter)
    (hf.fieldsAt_of_ne hidinner) fun q hq => hf.fieldsAt_of_ne ?_
  · obtain ⟨-, node, hnode, rfl⟩ := hf.node?_before hnode'
    exact ⟨node, hnode, by rw [if_neg hidouter]⟩
  · obtain ⟨s, hs⟩ := hg.mem_producers_iff.1 hq
    rintro rfl
    exact hidouter (hf.alone id s hs).1

/-- The note of the outer projection is right for the fused one. -/
theorem notedAt_outer (hg : g.Wired) (hτ : (typing fun _ _ _ _ => True).Models g bound τ)
    (hnoted : ∀ id ∈ g.ids, g.NotedAt id (τ id)) : g'.NotedAt outer (τ outer) := by
  obtain ⟨hinner, houter⟩ := hf.selects hg hτ
  obtain ⟨onode, honode, -⟩ := hf.isOuter
  obtain ⟨inode, hinode, -⟩ := hf.isInner
  have hne := hf.ne hg
  have hassigned := hf.assigned_outer hg hinner (hnoted inner (mem_ids_of_node? hinode))
    (hnoted outer (mem_ids_of_node? honode))
  have hsource : source ∈ g.ids := (hg.feeds _ _ _ hf.feeds).2
  have hsourceouter : source ≠ outer := by
    obtain ⟨rank, hrank⟩ := hg.acyclic
    have hlt := hrank _ _ _ hf.reads
    have hlt' := hrank _ _ _ hf.feeds
    rintro rfl
    omega
  have hnode' : g'.node? outer =
      some { onode with kind := .primitive (.projection positions) } := by
    rw [hf.node?, if_neg hne.1.symm, honode, map_some, if_pos rfl]
  have hproducers : ∀ q ∈ g'.producers outer, g'.NotedAt q (τ q) := by
    intro q hq
    rw [(hf.producers_outer hg).2, mem_singleton] at hq
    exact hq ▸ hf.notedAt_of_ne hg (hnoted source hsource) hsource hne.2 hsourceouter
  have htype : ∀ p, primitive (.projection positions) = .primitive p →
      p.outputType ((g'.producers outer).map τ) bound = .ok (τ outer) := by
    rintro _ ⟨rfl⟩
    rw [(hf.producers_outer hg).2]
    exact select_compose hf.composes hinner houter
  refine notedAt_of_assigned hnode' rfl ?_ hproducers htype
  rw [(hf.producers_outer hg).2, map_singleton, hf.fieldsAt_of_ne hne.2]
  rwa [fieldsAt_eq honode] at hassigned

/-- **A fusion keeps notes right.** -/
theorem annotated (hg : g.Wired) (hannotated : Annotated bound g) : Annotated bound g' := by
  obtain ⟨τ, hτ, hnoted, hinside⟩ := hannotated
  obtain ⟨hinner, houter⟩ := hf.selects hg hτ
  refine ⟨τ, hf.typed hg hτ trivial, fun id hid => ?_, fun id k hk => ?_⟩
  · rw [hf.ids, mem_filter, bne_iff_ne] at hid
    by_cases hidouter : id = outer
    · exact hidouter ▸ hf.notedAt_outer hg hτ hnoted
    · exact hf.notedAt_of_ne hg (hnoted id hid.1) hid.1 hid.2 hidouter
  · obtain ⟨node', n, hnode', hkind⟩ := inner?_eq_some_iff.1 hk
    obtain ⟨hidinner, node, hnode, rfl⟩ := hf.node?_before hnode'
    have hidouter : id ≠ outer := by
      intro heq
      rw [if_pos heq] at hkind
      cases hkind
    rw [hf.producers_other hg (mem_ids_of_node? hnode) hidinner hidouter]
    exact hinside id k (hf.inner?_of_fused hk)

end Fused

end Dataflow.Graph
