/-
**Changes that never break a graph.**

A change renews a graph if the graph is still valid and typed after it, with the type of the sink
and the look-ups of parameters that it had, and with constants that are equal to themselves if they
were.  Such changes compose, and a change inside a pipeline is one of the graph around it.
Annotating, moving a filter and fusing projections are such changes.  For a move to the right side
of a join this needs that columns tell types: a field that carries the column of a key there starts
with the type of that key, and as a predicate reads atomic fields only, it has this type.

Main results:

* `Graph.infer_of_push?` — **a predicate has its type wherever it is moved**;
* `Graph.Renews.inside` — **a change inside a pipeline renews the graph around it**;
* `Graph.Ready.exists_annotated` — a graph that can be optimized can be annotated;
* `Graph.Renews.of_moved`, `Graph.Renews.of_fused` — the changes that rules make.
-/

import Dataflow.Proofs.Columns
import Dataflow.Proofs.Graph.Equality
import Dataflow.Proofs.Optimization.Preservation
import Dataflow.Proofs.Reannotation

namespace Dataflow.Graph

open List Option Interpretation

variable {g g' g'' h h' : Dag} {id source : Nat} {bound : Option (List TupleType)}
  {τ : Nat → TupleType} {node' node : Node Operator} {inputs : Option Nat}

/-! ### Look-ups of parameters -/

/-- The look-ups of parameters of a graph: the number of the operator, the parameter that it reads,
and the type that it declares. -/
def lookups (g : Dag) : List (Nat × Nat × Option TupleType) := g.nodes.filterMap fun n =>
    match n.kind with
    | .primitive (.parameterLookup parameter type) => some (n.id, parameter, type)
    | _ => none

theorem lookups_eq_filterMap (g : Dag) : g.lookups = g.shells.filterMap fun s =>
    match s.2 with
    | .inl (.parameterLookup parameter type) => some (s.1, parameter, type)
    | _ => none := by
  rw [lookups, shells, filterMap_map]
  refine filterMap_congr fun n _ => ?_
  simp only [Function.comp_apply]
  cases n.kind with
  | primitive p => cases p <;> rfl
  | pipeline n h => rfl

theorem lookups_of_shells (h : g'.shells = g.shells) : g'.lookups = g.lookups := by
  rw [lookups_eq_filterMap, lookups_eq_filterMap, h]

theorem lookups_eq (hascending : g.ids.Pairwise (· < ·)) : g.lookups = g.ids.filterMap fun id =>
    (g.node? id).bind fun n =>
      match n.kind with
      | .primitive (.parameterLookup parameter type) => some (id, parameter, type)
      | _ => none := by
  rw [lookups, ids, filterMap_map]
  refine filterMap_congr fun n hn => ?_
  rw [Function.comp_apply, node?_of_mem hascending hn, bind_some]

/-! ### Predicates where they are moved -/

/-- A field of pairs that carries the column of a field on the right side has its type, if it is
atomic. -/
theorem type?_of_rightSide {p : Primitive} {keys l r product index q : Nat} {kind : Kind}
    (hp : p.pairKeys? = some keys) (hcoherent : g.Coherent) (hnoted : g.NotedAt product (τ product))
    (hl : g.NotedAt l (τ l)) (hr : g.NotedAt r (τ r)) (htype : p.outputType [τ l, τ r] bound =
      .ok (τ product)) (hpairs : (g.fieldsAt product).map (·.column) =
      (g.fieldsAt l).map (·.column) ++ ((g.fieldsAt r).map (·.column)).drop keys)
    (hatomic : (τ product).type? index = some (.atomic kind))
    (hq : sidePosition? ((g.fieldsAt product).map (·.column))
      ((g.fieldsAt r).map (·.column)) index = some q) :
    (τ product).type? index = (τ r).type? q := by
  by_cases hkeys : keys ≤ q
  · -- Behind the keys the column leads back to where the field comes from.
    rw [hpairs] at hq
    have hindex := position_of_right hq hkeys
    rw [List.length_map, hl.length_eq] at hindex
    obtain ⟨input, hinput, hsource⟩ := Primitive.type?_of_pairKeys (i := 1) (j := q) hp htype
      (by rw [if_neg (by omega)]; congr 1; omega) hatomic
    cases hinput
    rw [hatomic, hsource]
  · obtain ⟨column, -, hindex, hside⟩ := sidePosition?_eq_some hq
    rw [getElem?_map, map_eq_some_iff] at hindex hside
    obtain ⟨field, hfield, hcolumn⟩ := hindex
    obtain ⟨key, hkey, hcolumn'⟩ := hside
    -- Both fields start with the same type, and both are atomic: the one by the predicate, the
    -- other as a key.
    obtain ⟨kinds, hkinds⟩ := hcoherent
    have hleading : field.type.leading? = key.type.leading? :=
      ((hkinds _ field (mem_of_getElem? hfield) column hcolumn).2).trans
        ((hkinds _ key (mem_of_getElem? hkey) column hcolumn').2).symm
    have hkeytype := hr.type?_eq hkey
    have hfieldtype := hnoted.type?_eq hfield
    have hkeyatomic : key.type.isAtomic = true := by
      obtain ⟨hsame, hall⟩ := keyTypes_of_pairKeys hp htype
      refine hall key.type (hsame ▸ mem_of_getElem? (i := q) ?_)
      rw [getElem?_take_of_lt (by omega), ← type?_eq_getElem?, hkeytype]
    rw [hfieldtype, some.injEq] at hatomic
    rw [hfieldtype, hkeytype, hatomic]
    rw [hatomic, FieldType.leading?] at hleading
    cases hkeykind : key.type with
    | atomic kind' =>
      rw [hkeykind, FieldType.leading?, some.injEq] at hleading
      rw [hleading]
    | tuple | array => simp [hkeykind, FieldType.isAtomic, FieldType.kind?] at hkeyatomic

/-- **A predicate has its type wherever it is moved.** -/
theorem infer_of_push? {demands : Demands} {push : Push} (hg : g.Wired)
    (hcoherent : g.Coherent) (hnoted : ∀ id ∈ g.ids, g.NotedAt id (τ id))
    (hτ : (typing demands).Models g bound τ) (hnode : g.node? node.id = some node)
    (hpush : g.push? node = some push) (hsource : g.producer? push.below push.slot = some source) :
    push.predicate.infer [τ source] = .ok (.atomic .bool) := by
  obtain ⟨e, below, hkind, hfilter, hreads, -, hbelow, hcase⟩ := push?_eq_some hpush
  rw [← hfilter] at hnode
  rw [models_iff] at hτ
  have hinfer : e.infer [τ push.below] = .ok (.atomic .bool) := by
    have hmake := hτ push.filter node hnode
    rw [hkind, hg.producers_eq_singleton hnode (by rw [hkind]; rfl) hreads] at hmake
    exact (outputType_filter_iff.1 hmake.1).1
  have hatomic : ∀ index ∈ e.positions, ∃ kind, (τ push.below).type? index =
      some (.atomic kind) := by
    intro index hindex
    obtain ⟨r, hr, rfl⟩ := List.mem_map.1 hindex
    obtain ⟨kind, htype⟩ := Expr.atomic_of_infer hinfer r hr
    exact ⟨kind, by simpa [Expr.typeAt, (type?_of_infer hinfer hr).1] using htype⟩
  have hmake := hτ push.below below hbelow
  rcases hcase with ⟨positions, hbelowkind, hslot, hremap⟩ | ⟨p, keys, hbelowkind, hp, hside⟩
  · rw [hbelowkind, hg.producers_eq_singleton hbelow (by rw [hbelowkind]; rfl)
      (hslot ▸ hsource)] at hmake
    exact (infer_relocate hremap hinfer fun index _ p hp => type?_of_select hmake.1 hp).trans hinfer
  · obtain ⟨l, r, hpair, hl, hr⟩ :=
      hg.producers_of_inputs_two hbelow (by rw [hbelowkind]; exact inputs_of_pairKeys hp)
    obtain ⟨hslot, columns, source', side, hcolumns, hfeeds, hsides, hremap⟩ :=
      sidePredicate?_eq_some hside
    obtain rfl : source' = source := mem_unique hfeeds hsource
    have hmem := fun s q hq => (hg.feeds push.below s q hq).2
    rw [columnsOf_eq (mem_ids_of_node? hbelow), some.injEq] at hcolumns
    rw [columnsOf_eq (hmem _ _ hfeeds), some.injEq] at hsides
    subst hcolumns hsides
    have hnotedbelow := hnoted push.below (mem_ids_of_node? hbelow)
    have hpairs := hnotedbelow.pairs below p keys l r hbelow hbelowkind hp hpair
    rw [hbelowkind, hpair] at hmake
    refine (infer_relocate hremap hinfer fun index hindex q hq => ?_).trans hinfer
    obtain ⟨kind, htype⟩ := hatomic index hindex
    rcases hslot with hslot | hslot
    · obtain rfl : l = source' := mem_unique hl (hslot ▸ hfeeds)
      rw [hpairs] at hq
      obtain ⟨rfl, hlt⟩ := position_of_left hq
      rw [List.length_map, (hnoted l (hmem 0 l hl)).length_eq] at hlt
      obtain ⟨input, hinput, htype'⟩ := Primitive.type?_of_pairKeys hp hmake.1 (if_pos hlt) htype
      cases hinput
      rw [htype, htype']
    · obtain rfl : r = source' := mem_unique hr (hslot ▸ hfeeds)
      exact type?_of_rightSide hp hcoherent hnotedbelow (hnoted l (hmem 0 l hl))
        (hnoted r (hmem 1 r hr)) hmake.1 hpairs htype hq

/-! ### Graphs that can be optimized -/

/-- A graph that can be optimized: its operators stand in order, it is valid and typed, and its
columns tell what fields start with.  If it is the graph of a pipeline, `bound` has the types of its
inputs. -/
structure Ready (bound : Option (List TupleType)) (g : Dag) : Prop where
  numbered : g.Numbered
  valid : g.validateWithin (bound.map List.length) = .ok ()
  typed : ∃ τ, (typing fun _ _ _ _ => True).Models g bound τ
  coherent : g.Everywhere Coherent

namespace Ready

theorem wired (hg : Ready bound g) : g.Everywhere Wired :=
  wired_of_checkOpenWithin hg.numbered (checkOpenWithin_of_validateWithin hg.numbered hg.valid)

theorem checked (hg : Ready bound g) : Checked (bound.map List.length) g :=
  (validateWithin_eq_ok_iff hg.numbered).1 hg.valid

theorem inside (hg : Ready bound g) (hτ : (typing fun _ _ _ _ => True).Models g bound τ)
    (hid : g.inner? id = some h) : Ready (some ((g.producers id).map τ)) h := by
  obtain ⟨node, n, hnode, hkind⟩ := inner?_eq_some_iff.1 hid
  have hmake := models_iff.1 hτ id node hnode
  rw [hkind] at hmake
  obtain ⟨hlength, σ, hσ, -⟩ := hmake
  refine ⟨hg.numbered.inside hid, ?_, ⟨σ, hσ⟩, hg.coherent.inside hid⟩
  rw [map_some, hlength]
  exact hg.checked.inside id node n h hnode hkind

end Ready

/-- A change of a graph after which it can be optimized still: the sink has the type that it had,
the look-ups of parameters are the same, and operators that were equal to themselves are so. -/
structure Renews (bound : Option (List TupleType)) (g g' : Dag) : Prop where
  ready : Ready bound g'
  types : (typing fun _ _ _ _ => True).Carries bound g g'
  lookups : g'.lookups = g.lookups
  regular : g.Regular → g'.Regular

namespace Renews

theorem refl (hg : Ready bound g) : Renews bound g g := ⟨hg, .refl _ _ _, rfl, fun h => h⟩

theorem trans (h : Renews bound g g') (h' : Renews bound g' g'') : Renews bound g g'' :=
  ⟨h'.ready, h.types.trans h'.types, h'.lookups.trans h.lookups,
    fun hg => h'.regular (h.regular hg)⟩

/-- A graph whose annotations change is renewed, if it stays coherent. -/
theorem of_alike (hg : Ready bound g) (halike : Alike g g') (hcoherent : g'.Everywhere Coherent) :
    Renews bound g g' := by
  obtain ⟨τ, hτ⟩ := hg.typed
  exact ⟨⟨halike.numbered hg.numbered, halike.validateWithin hg.numbered hg.valid,
    ⟨τ, halike.models hτ⟩, hcoherent⟩, halike.carries _ _,
    lookups_of_shells halike.shells.symm, halike.regular⟩

/-- **A change inside a pipeline renews the graph around it.** -/
theorem inside (hg : Ready bound g) (hid : g.inner? id = some h)
    (hinner : ∀ τ, (typing fun _ _ _ _ => True).Models g bound τ →
      Renews (some ((g.producers id).map τ)) h h') :
    Renews bound g (g.replaceInner id h') := by
  obtain ⟨τ, hτ⟩ := hg.typed
  have hh' := (hinner τ hτ).ready
  have hmodels : ∀ τ, (typing fun _ _ _ _ => True).Models g bound τ →
      (typing fun _ _ _ _ => True).Models (g.replaceInner id h') bound τ := by
    intro τ hτ
    refine models_replaceInner hτ (fun k hk => ?_) hh'.wired.here.sink
    obtain rfl := mem_unique hid hk
    exact (hinner τ hτ).types
  refine ⟨⟨numbered_replaceInner hg.numbered hh'.numbered, ?_, ⟨τ, hmodels τ hτ⟩, ?_⟩,
    fun τ hτ => ⟨τ, hmodels τ hτ, rfl⟩,
    lookups_of_shells (shells_replaceInner g id h'), fun h => ?_⟩
  · refine validateWithin_replaceInner hg.numbered hg.valid hh'.numbered fun node n k hnode hkind =>
      ?_
    have hmake := models_iff.1 hτ id node hnode
    rw [hkind] at hmake
    rw [← hmake.1]
    exact hh'.valid
  · refine hg.coherent.replaceInner hh'.coherent (hg.coherent.here.of_fields (fun m f hf => ?_) rfl)
    rwa [fieldsAt_replaceInner] at hf
  · exact regular_replaceInner h ((hinner τ hτ).regular (h.inside hid))

end Renews

/-- A graph that can be optimized can be annotated, and nothing but annotations changes.  If it was
annotated, all columns stay. -/
theorem Ready.exists_annotated (hg : Ready none g) :
    ∃ g', g.annotated = .ok g' ∧ Annotated none g' ∧ Renews none g g' ∧ Alike g g' ∧
      (Annotated none g → Steady g g') := by
  obtain ⟨τ, hτ⟩ := hg.typed
  obtain ⟨types, htypes, -⟩ := typesWithin_of_models hg.wired hτ
  obtain ⟨g', hg'⟩ := exists_annotateWith hg.numbered hg.wired htypes
  obtain ⟨halike, hannotated⟩ := annotated_of_annotateWith hg.numbered htypes hg'
  refine ⟨g', ?_, hannotated, .of_alike hg halike
    (coherent_of_annotateWith hg.numbered hg.coherent htypes hg'), halike, fun h => ?_⟩
  · rw [annotated, Outcome.mapError_eq_ok_iff, annotate, Graph.types, htypes]
    exact hg'
  · exact steady_of_annotateWith hg.numbered h htypes hg'

/-! ### Moves -/

namespace Moved

variable {filter below slot source : Nat} {e e' : Expr}
variable (hm : Moved g g' filter below slot source e e')

include hm

/-- **A move keeps the types**: the filter gets the type of the source, and the sink has the type
that it had, also if that was the operator that the filter moved before. -/
theorem typed (hg : g.Wired) (hτ : (typing fun _ _ _ _ => True).Models g bound τ)
    (hinfer : e'.infer [τ source] = .ok (.atomic .bool)) :
    ∃ τ', (typing fun _ _ _ _ => True).Models g' bound τ' ∧ g'.sink.map τ' = g.sink.map τ := by
  obtain ⟨node, hnode, hkind⟩ := hm.isFilter
  obtain ⟨bnode, hbnode⟩ := node?_of_mem_ids (hg.feeds _ _ _ hm.feeds).1
  have htype : τ filter = τ below := by
    have hmake := models_iff.1 hτ filter node hnode
    rw [hkind, (hm.producers_filter hg).1] at hmake
    exact (outputType_filter_iff.1 hmake.1).2
  refine ⟨_, hm.models_forth hg hτ hbnode ⟨outputType_filter_iff.2 ⟨hinfer, rfl⟩, trivial⟩ ?_, ?_⟩
  · rw [hg.set_producer hm.feeds, htype]
    exact models_iff.1 hτ below bnode hbnode
  · rw [hm.sink, Option.map_map]
    cases g.sink with
    | none => rfl
    | some s =>
      by_cases hs : s = filter
      · simp [hs, hm.below_ne_filter hg]
      · by_cases hs' : s = below <;> simp [hs, hs', htype, hm.below_ne_filter hg]

theorem fieldsAt (id : Nat) : g'.fieldsAt id = g.fieldsAt id := by
  rw [Graph.fieldsAt, Graph.fieldsAt, hm.node?]
  cases g.node? id with
  | none => rfl
  | some n => by_cases hid : id = filter <;> simp [hid]

theorem numbered (hg : g.Numbered) : g'.Numbered :=
  ⟨hm.ids ▸ hg.here, fun id _ hid => hg.inside (hm.inner? id ▸ hid)⟩

/-- An operator after a move is the filter with another predicate, or as it was. -/
theorem kind_cases (hnode' : g'.node? id = some node') :
    node'.kind = .primitive (.filter e') ∨ ∃ node, g.node? id = some node ∧
      node'.kind = node.kind := by
  rw [hm.node?, map_eq_some_iff] at hnode'
  obtain ⟨node, hnode, rfl⟩ := hnode'
  by_cases hid : id = filter
  · exact .inl (by rw [if_pos hid])
  · exact .inr ⟨node, hnode, by rw [if_neg hid]⟩

theorem checked (hg : Checked inputs g)
    (hslots : ∀ e ∈ g'.edges, e ∈ g.edges ∨ e.sourceSlot = 0) : Checked inputs g' := by
  refine hg.of_kinds (hm.wired_here hg.wired) hslots ?_ fun id node' hnode' => ?_
  · rw [hm.sink, isSome_map]
    exact hg.sink
  · exact (hm.kind_cases hnode').imp_left fun hkind => ⟨_, hkind, rfl, by simp⟩

theorem lookups (hg : g.Wired) : g'.lookups = g.lookups := by
  rw [lookups_eq (hm.ids ▸ hg.ascending), lookups_eq hg.ascending, hm.ids]
  refine filterMap_congr fun id _ => ?_
  rw [hm.node?]
  by_cases hid : id = filter
  · obtain ⟨node, hnode, hkind⟩ := hm.isFilter
    rw [hid, hnode]
    simp [hkind]
  · simp [hid]

end Moved

theorem Moved.regular {filter below slot : Nat} {e e' : Expr}
    (hm : Moved g g' filter below slot source e e') (hsame : e.same e = true → e'.same e' = true)
    (hg : g.Regular) : g'.Regular := by
  refine ⟨fun id node' hnode' => ?_, fun id _ hid => hg.inside (hm.inner? id ▸ hid)⟩
  rcases hm.kind_cases hnode' with hkind | ⟨node, hnode, hkind⟩
  · obtain ⟨node, hnode, hfilter⟩ := hm.isFilter
    have hregular := hg.here filter node hnode
    rw [hfilter] at hregular
    rw [hkind]
    exact hsame hregular
  · rw [hkind]
    exact hg.here id node hnode

/-- **A move renews a graph**, if the predicate has its type where it is moved. -/
theorem Renews.of_moved {filter below slot : Nat} {e e' : Expr} (hg : Ready bound g)
    (hm : Moved g g' filter below slot source e e') (hallocated : g'.allocated = g.allocated)
    (hslots : ∀ e ∈ g'.edges, e ∈ g.edges ∨ e.sourceSlot = 0)
    (hinfer : ∀ τ, (typing fun _ _ _ _ => True).Models g bound τ →
      e'.infer [τ source] = .ok (.atomic .bool))
    (hsame : e.same e = true → e'.same e' = true) : Renews bound g g' := by
  have hcarries : (typing fun _ _ _ _ => True).Carries bound g g' :=
    fun τ hτ => hm.typed hg.wired.here hτ (hinfer τ hτ)
  obtain ⟨τ, hτ⟩ := hg.typed
  obtain ⟨τ', hτ', -⟩ := hcarries τ hτ
  have hnumbered := hm.numbered hg.numbered
  refine ⟨⟨hnumbered, (validateWithin_eq_ok_iff hnumbered).2 (hm.checked hg.checked hslots),
    ⟨τ', hτ'⟩, ?_⟩, hcarries, hm.lookups hg.wired.here, hm.regular hsame⟩
  exact ⟨hg.coherent.here.of_fields (fun id f hf => hm.fieldsAt id ▸ hf) hallocated,
    fun id _ hid => hg.coherent.inside (hm.inner? id ▸ hid)⟩

/-! ### Fusions -/

namespace Fused

variable {outer inner source : Nat} {selected fields positions : List Nat}
variable (hf : Fused g g' outer inner source selected fields positions)

include hf

theorem numbered (hg : g.Numbered) : g'.Numbered :=
  ⟨hf.ids ▸ hg.here.filter _, fun _ _ hid => hg.inside (hf.inner?_of_fused hid)⟩

/-- An operator after a fusion is the projection that was fused, or as it was. -/
theorem kind_cases (hnode' : g'.node? id = some node') :
    node'.kind = .primitive (.projection positions) ∨ ∃ node, g.node? id = some node ∧
      node'.kind = node.kind := by
  rw [hf.node?] at hnode'
  split at hnode'
  · cases hnode'
  · obtain ⟨node, hnode, rfl⟩ := map_eq_some_iff.1 hnode'
    by_cases hid : id = outer
    · exact .inl (by rw [if_pos hid])
    · exact .inr ⟨node, hnode, by rw [if_neg hid]⟩

theorem fieldsAt_of_ne (hid : id ≠ inner) : g'.fieldsAt id = g.fieldsAt id := by
  rw [Graph.fieldsAt, Graph.fieldsAt, hf.node?, if_neg hid]
  cases g.node? id with
  | none => rfl
  | some n => by_cases hid : id = outer <;> simp [hid]

theorem checked (hg : Checked inputs g) (hslots : ∀ e ∈ g'.edges, e ∈ g.edges ∨ e.sourceSlot = 0) :
    Checked inputs g' :=
  hg.of_kinds (hf.wired_here hg.wired) hslots (hf.sink ▸ hg.sink) fun _ _ hnode' =>
    (hf.kind_cases hnode').imp_left fun hkind => ⟨_, hkind, rfl, by simp⟩

theorem lookups (hg : g.Wired) : g'.lookups = g.lookups := by
  rw [lookups_eq (hf.wired_here hg).ascending, lookups_eq hg.ascending, hf.ids, filterMap_filter]
  refine filterMap_congr fun id _ => ?_
  rw [hf.node?]
  by_cases hid : id = inner
  · obtain ⟨node, hnode, hkind⟩ := hf.isInner
    rw [hid, hnode]
    simp [hkind]
  · by_cases hid' : id = outer
    · obtain ⟨node, hnode, hkind⟩ := hf.isOuter
      rw [hid', hnode]
      simp [hkind]
    · simp [hid, hid']

end Fused

theorem Fused.regular {outer inner : Nat} {selected fields positions : List Nat}
    (hf : Fused g g' outer inner source selected fields positions)
    (hg : g.Regular) : g'.Regular := by
  refine ⟨fun id node' hnode' => ?_, fun _ _ hid => hg.inside (hf.inner?_of_fused hid)⟩
  rcases hf.kind_cases hnode' with hkind | ⟨node, hnode, hkind⟩
  · rw [hkind]
    exact BEq.rfl
  · rw [hkind]
    exact hg.here id node hnode

/-- **A fusion renews a graph.** -/
theorem Renews.of_fused {outer inner : Nat} {selected fields positions : List Nat}
    (hg : Ready bound g) (hf : Fused g g' outer inner source selected fields positions)
    (hallocated : g'.allocated = g.allocated)
    (hslots : ∀ e ∈ g'.edges, e ∈ g.edges ∨ e.sourceSlot = 0) : Renews bound g g' := by
  have hmodels : ∀ τ, (typing fun _ _ _ _ => True).Models g bound τ →
      (typing fun _ _ _ _ => True).Models g' bound τ :=
      fun τ hτ => hf.typed hg.wired.here hτ trivial
  obtain ⟨τ, hτ⟩ := hg.typed
  have hnumbered := hf.numbered hg.numbered
  refine ⟨⟨hnumbered, (validateWithin_eq_ok_iff hnumbered).2 (hf.checked hg.checked hslots),
    ⟨τ, hmodels τ hτ⟩, ?_, fun _ _ hid => hg.coherent.inside (hf.inner?_of_fused hid)⟩,
    fun τ hτ => ⟨τ, hmodels τ hτ, by rw [hf.sink]⟩, hf.lookups hg.wired.here, hf.regular⟩
  refine hg.coherent.here.of_fields (fun id f hfield => ?_) hallocated
  by_cases hid : id = inner
  · rw [Graph.fieldsAt, hf.node?, if_pos hid] at hfield
    cases hfield
  · exact hf.fieldsAt_of_ne hid ▸ hfield

end Dataflow.Graph
