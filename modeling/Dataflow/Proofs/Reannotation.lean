/-
**Annotating again.**

A graph that has types can be annotated.  When it is annotated a second time, nothing moves: a field
that passes an input field on still carries the column of that field, and a field that is computed
keeps the column that it had, since its type is the same.

Main results:

* `Graph.exists_annotateWith_of_ends` — **a graph that has types can be annotated**;
* `columns_of_written` — fields that are written down again keep their columns;
* `Graph.steady_of_annotateWith` — **annotating an annotated graph keeps all columns**.
-/

import Dataflow.Proofs.Annotation
import Dataflow.Proofs.Meaning.Inference

namespace Dataflow

open List Option

/-! ### Fields -/

/-- Which column a field passes on is told by the columns of the inputs. -/
theorem map_column_source? (op : Operator) (inputs : List (List Field)) (k : Nat) :
    (op.source? inputs k).map (·.column) =
      (op.origin? ((inputs.map (List.map (·.column))).head?.getD []).length k).bind fun o =>
        ((inputs.map (List.map (·.column)))[o.1]?.bind (·[o.2]?)).filter (·.isSome) := by
  have hhead : ((inputs.map (List.map (·.column))).head?.getD []).length =
      (inputs.head?.getD []).length := by
    cases inputs <;> simp
  rw [hhead, Operator.source?]
  cases op.origin? (inputs.head?.getD []).length k with
  | none => rfl
  | some o =>
    obtain ⟨i, j⟩ := o
    cases hi : inputs[i]? with
    | none => simp [hi]
    | some fields =>
      cases hj : fields[j]? with
      | none => simp [hi, hj]
      | some field => cases hcolumn : field.column <;> simp [hi, hj, hcolumn, Option.filter]

/-- **Fields that are written down again keep their columns**, if the inputs kept theirs. -/
theorem columns_of_written {op : Operator} {inputs inputs' : List (List Field)} {t : TupleType}
    {previous noted : List Field}
    (hinputs : inputs'.map (List.map (·.column)) = inputs.map (List.map (·.column)))
    (hprevious : Forall₂ (Assigned op inputs) (Field.ofTuple t) previous)
    (hnoted : Forall₂ (Written op inputs' previous) (Field.ofTuple t) noted) :
    noted.map (·.column) = previous.map (·.column) := by
  refine ext_getElem? fun k => ?_
  rw [getElem?_map, getElem?_map]
  by_cases hk : k < t.length
  · obtain ⟨old, hold⟩ : ∃ old, previous[k]? = some old :=
      ⟨_, getElem?_eq_getElem (by rwa [← hprevious.length_eq, Field.length_ofTuple])⟩
    obtain ⟨new, hnew⟩ : ∃ new, noted[k]? = some new :=
      ⟨_, getElem?_eq_getElem (by rwa [← hnoted.length_eq, Field.length_ofTuple])⟩
    have hfield : (Field.ofTuple t)[k]? =
        some { position := k, name := t[k].name, type := t[k].type } := by
      rw [getElem?_ofTuple, getElem?_eq_getElem hk, map_some]
    have hassigned := forall₂_getElem? hprevious hfield hold
    have hwritten := forall₂_getElem? hnoted hfield hnew
    have hsource : (op.source? inputs' k).map (·.column) =
        (op.source? inputs k).map (·.column) := by
      rw [map_column_source?, map_column_source?, hinputs]
    rw [hold, hnew, map_some, map_some, some.injEq]
    cases hs : op.source? inputs k with
    | some s =>
      rw [hs, map_some, map_eq_some_iff] at hsource
      obtain ⟨s', hs', hcolumn⟩ := hsource
      rw [hwritten.source s' hs', hassigned.source s hs, hcolumn]
    | none =>
      rw [hs, map_none, map_eq_none_iff] at hsource
      obtain ⟨c, hc⟩ := isSome_iff_exists.1 hassigned.column
      rw [hc]
      exact hwritten.kept hsource old c hold (congrArg Named.type hassigned.named) hc
  · rw [getElem?_eq_none (by rw [← hnoted.length_eq, Field.length_ofTuple]; omega),
      getElem?_eq_none (by rw [← hprevious.length_eq, Field.length_ofTuple]; omega)]

namespace Graph

open GraphTypes

variable {g g' reached : Dag} {id : Nat} {bound : Option (List TupleType)} {types : GraphTypes}

/-! ### Annotation succeeds -/

theorem exists_annotateNode (hascending : g.ids.Pairwise (· < ·))
    (htypes : g.typesWithin bound = .ok types)
    (hshells : reached.shells = g.shells) (hid : id ∈ g.ids)
    (hinner : ∀ a, g.inner? id = some a → ∀ bound inner, a.typesWithin bound = .ok inner →
      ∃ b, a.annotateWith inner = .ok b) :
    ∃ g', annotateNode types (g.inner.map fun e => (e.1, e.2.annotateWith))
      reached id = .ok g' := by
  obtain ⟨node, hnode⟩ := node?_of_mem_ids (ids_eq_of_shells hshells ▸ hid : id ∈ reached.ids)
  obtain ⟨output, houtput⟩ := (closed_of_typesWithin htypes).2 id hid
  simp only [annotateNode, hnode, houtput]
  split
  · next annotate inner hannotate hget =>
    rw [Table.get?_map, map_eq_some_iff] at hannotate
    obtain ⟨a, ha, rfl⟩ := hannotate
    have hid' := inner?_of_mem_inner hascending (Table.mem_of_get? ha)
    obtain ⟨inner', hget', htyped⟩ := inner_of_typesWithin htypes hid'
    obtain rfl := mem_unique hget hget'
    obtain ⟨b, hb⟩ := hinner a hid' _ inner htyped
    rw [hb]
    exact ⟨_, rfl⟩
  · exact ⟨_, rfl⟩

theorem exists_markNodes {ids : List Nat} {l : Liveness}
    (hends : ∀ e ∈ l.graph.edges, e.target ∈ l.graph.ids) :
    ∃ l', ids.foldlM markNode l = .ok l' := by
  induction ids generalizing l with
  | nil => exact ⟨l, rfl⟩
  | cons id ids ih =>
    have hfind : (l.graph.consumers id).find? (fun c => !l.graph.contains c) = none := by
      rw [find?_eq_none]
      intro c hc
      simp only [consumers, NatSet.mem_ofList, List.mem_map, mem_filter] at hc
      obtain ⟨e, ⟨he, -⟩, rfl⟩ := hc
      simp [(contains_iff_mem_ids _ _).2 (hends e he)]
    obtain ⟨l', hl'⟩ : ∃ l', markNode l id = .ok l' := by
      simp only [markNode, hfind]
      exact ⟨_, rfl⟩
    obtain ⟨hedges, -, -, houtline⟩ := markNode_eq_ok hl'
    have hends' : ∀ e ∈ l'.graph.edges, e.target ∈ l'.graph.ids := by
      rw [hedges, ids_eq_of_shells (shells_of_outline houtline)]
      exact hends
    obtain ⟨last, hlast⟩ := ih hends'
    exact ⟨last, by rw [foldlM_cons, hl']; exact hlast⟩

/-- **A graph that has types can be annotated**, if its edges lead to operators that there are. -/
theorem exists_annotateWith_of_ends (hg : g.Numbered)
    (hends : g.Everywhere fun h => ∀ e ∈ h.edges, e.target ∈ h.ids)
    (htypes : g.typesWithin bound = .ok types) : ∃ g', g.annotateWith types = .ok g' := by
  induction hg generalizing bound types with
  | @intro g hascending _ ih =>
    obtain ⟨order, horder, -⟩ := Outcome.bind_eq_ok_iff.1 (typesWithin_eq g bound ▸ htypes)
    obtain ⟨noted, hnoted, hshells, hedges⟩ := exists_foldlM_order horder
      (f := annotateNode types (g.inner.map fun e => (e.1, e.2.annotateWith))) (b := g)
      (fun _ reached => reached.shells = g.shells ∧ reached.edges = g.edges)
      (fun _ id reached hid _ hreached => by
        obtain ⟨next, hnext⟩ := exists_annotateNode hascending htypes hreached.1 hid
          fun a ha bound inner => ih id a ha (hends.inside ha)
        obtain ⟨_, _, _, ha⟩ := annotates_of_annotateNode hnext
        exact ⟨next, hnext, ha.shells.trans hreached.1, ha.edges.trans hreached.2⟩)
      ⟨rfl, rfl⟩
    have hnotedEnds : ∀ e ∈ noted.edges, e.target ∈ noted.ids := by
      rw [hedges, ids_eq_of_shells hshells]
      exact hends.here
    obtain ⟨marked, hmarked⟩ : ∃ marked, order.reverse.foldlM markNode ⟨noted, []⟩ = .ok marked :=
      exists_markNodes hnotedEnds
    refine ⟨marked.graph, ?_⟩
    simp only [annotateWith_eq, horder, hnoted, bind, Except.bind, hmarked]
    rfl

theorem exists_annotateWith (hg : g.Numbered) (hwired : g.Everywhere Wired)
    (htypes : g.typesWithin bound = .ok types) : ∃ g', g.annotateWith types = .ok g' :=
  exists_annotateWith_of_ends hg (hwired.imp fun _ hh _ he => (hh.ends he).2) htypes

/-! ### Columns stay -/

/-- The fields of two graphs carry the same columns, at every level. -/
inductive Steady : Dag → Dag → Prop
  | intro {g g' : Dag}
      (columns : ∀ id, (g'.fieldsAt id).map (·.column) = (g.fieldsAt id).map (·.column))
      (inside : ∀ id a b, g.inner? id = some a → g'.inner? id = some b → Steady a b) : Steady g g'

theorem Steady.symm (h : Steady g g') : Steady g' g := by
  induction h with
  | intro columns _ ih => exact ⟨fun id => (columns id).symm, fun id a b ha hb => ih id b a hb ha⟩

/-- Annotating an operator again keeps its columns, if its producers kept theirs. -/
theorem columns_of_annotateNode {inner : Table (GraphTypes → Except Interruption Dag)} {m : Nat}
    (hnode : reached.node? id = g.node? id) (hedges : reached.edges = g.edges)
    (hcolumns : ∀ q, (reached.fieldsAt q).map (·.column) = (g.fieldsAt q).map (·.column))
    (hnoted : g.NotedAt id (types.type id)) (h : annotateNode types inner reached id = .ok g') :
    (g'.fieldsAt m).map (·.column) = (g.fieldsAt m).map (·.column) := by
  obtain ⟨node, node', output, ha⟩ := annotates_of_annotateNode h
  by_cases hm : m = id
  · subst hm
    have hg : g.node? m = some node := hnode ▸ ha.found
    have hinputs : (reached.inputFields m).map (List.map (·.column)) =
        ((g.producers m).map g.fieldsAt).map (List.map (·.column)) := by
      rw [inputFields, producers_of_edges hedges, List.map_map, List.map_map]
      exact map_congr_left fun q _ => hcolumns q
    have hassigned := hnoted.assigned node hg
    rw [show types.type m = output by rw [type, ha.typed, getD_some], fieldsAt_eq hg] at hassigned
    rw [fieldsAt_eq ha.placed, ha.fields, fieldsAt_eq hg]
    exact columns_of_written hinputs hassigned (forall₂_assignedAt reached m node output)
  · rw [ha.fieldsAt_of_ne hm]
    exact hcolumns m

/-- **Annotating an annotated graph keeps all columns.** -/
theorem steady_of_annotateWith (hg : g.Numbered) (hannotated : Annotated bound g)
    (htypes : g.typesWithin bound = .ok types) (h : g.annotateWith types = .ok g') :
    Steady g g' := by
  induction hg generalizing bound types g' with
  | @intro g hascending _ ih =>
    have hnodup : g.ids.Nodup := hascending.imp fun h => Nat.ne_of_lt h
    have hprogress := progress_of_annotateWith hnodup htypes h
    obtain ⟨τ, typed, noted, inside⟩ := hannotated
    -- The types that the graph is noted by are the types that it has.
    have htype : ∀ id ∈ g.ids, τ id = types.type id :=
      eq_of_models (founded_of_typesWithin htypes) typed (typed_of_typesWithin htypes)
    obtain ⟨rank, hrank⟩ := (founded_of_typesWithin htypes).here
    obtain ⟨order, walked, marked, -, -, hcolumns, hmarked, rfl⟩ :=
      annotateWith_induction hnodup htypes (P := fun _ reached => ∀ id,
        (reached.fieldsAt id).map (·.column) = (g.fieldsAt id).map (·.column))
      (fun _ id _ _ hid hfresh _ hprogress hcolumns hnext m =>
        columns_of_annotateNode (hprogress.untouched id hfresh) hprogress.edges hcolumns
          (htype id hid ▸ noted id hid) hnext) (fun _ => rfl) h
    refine ⟨fun id => ?_, fun id a b ha hb => ?_⟩
    · rw [fieldsAt_of_outline (markNodes_eq_ok hmarked).2.2.2, hcolumns]
    · obtain ⟨a', inner, ha', -, hinner, hagain⟩ := hprogress.exists_inside htypes hb
      obtain rfl := mem_unique ha ha'
      obtain ⟨node, -, hnode, -⟩ := inner?_eq_some_iff.1 ha
      have hbound : (g.producers id).map τ = (g.producers id).map types.type :=
        map_congr_left fun q hq => htype q (hrank id (mem_ids_of_node? hnode) q hq).1
      exact ih id a ha (hbound ▸ inside id a ha) hinner hagain

end Graph

end Dataflow
