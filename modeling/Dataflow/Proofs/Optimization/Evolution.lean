/-
**Optimizing never breaks a graph, and leaves nothing to do.**

Where annotations come from annotating only, a graph starts without them, a change of its operators
and edges lets operators keep theirs, and annotating and optimizing write new ones.  Whatever
happened to a graph in this way, its columns tell what fields start with.  So if it is valid and
typed, optimizing it succeeds, and gives a graph that is valid and typed with the type that the sink
had.  Optimizing that again changes nothing.

Annotations are data, however, and annotating keeps the columns that it finds.  With annotations
made by hand, in which an integer and a Boolean share a column, optimizing a valid and typed graph
fails.

Main results:

* `Graph.Evolved.numbered_coherent` — **columns tell what fields start with**, whatever happened to
  a graph;
* `Graph.Evolved.edit` — edits are changes under which operators keep their annotations;
* `Optimizer.exists_valid_run` — **optimizing never breaks a graph**;
* `Optimizer.run_sharedColumn` — annotations made by hand break it;
* `Optimizer.run_run` — **optimizing twice is optimizing once**.
-/

import Dataflow.Proofs.Graph.Edits
import Dataflow.Proofs.Optimization.Convergence
import Dataflow.Proofs.Optimization.Results

namespace Dataflow

open Outcome

namespace Graph

variable {g g' h : Dag} {id : Nat} {types : GraphTypes}

/-! ### Where annotations come from -/

/-- A graph without annotations, at any level. -/
def Unnoted (g : Dag) : Prop := g.Everywhere fun h => ∀ n ∈ h.nodes, n.note = {}

/-- The graphs whose annotations come from annotating: graphs without any; graphs made from such a
one by a change under which every operator has the annotation that it had or none, and no column is
taken back; the graphs inside pipelines; and what annotating and optimizing make of them. -/
inductive Evolved : Dag → Prop
  | unnoted {g : Dag} (hg : g.Numbered) (hnotes : g.Unnoted) : Evolved g
  | change {g g' : Dag} (hg : Evolved g) (hascending : g'.ids.Pairwise (· < ·))
      (hnotes : ∀ n ∈ g'.nodes, n.note = {} ∨ ∃ m ∈ g.nodes, m.id = n.id ∧ m.note = n.note)
      (hallocated : g.allocated ≤ g'.allocated)
      (hinside : ∀ id h, g'.inner? id = some h → Evolved h) : Evolved g'
  | inside {g h : Dag} {id : Nat} (hg : Evolved g) (hid : g.inner? id = some h) : Evolved h
  | annotate {g g' : Dag} (hg : Evolved g) (h : g.annotate = .ok g') : Evolved g'
  | optimize {g : Dag} {o : Optimizer} {result : Optimized} (hg : Evolved g) (ho : o.Standard)
      (h : o.run g = .ok result) : Evolved result.graph

theorem Unnoted.coherent (hg : g.Unnoted) : g.Everywhere Coherent := by
  refine hg.imp fun h hnotes => ⟨fun _ => none, fun id f hf => ?_⟩
  cases hnode : h.node? id with
  | none => simp [fieldsAt, hnode] at hf
  | some node =>
    rw [fieldsAt_eq hnode, hnotes node (mem_of_node? hnode)] at hf
    cases hf

/-- A change under which operators keep their annotations keeps the columns. -/
theorem Coherent.of_notes (hg : g.Coherent) (hascending : g.ids.Pairwise (· < ·))
    (hnotes : ∀ n ∈ g'.nodes, n.note = {} ∨ ∃ m ∈ g.nodes, m.id = n.id ∧ m.note = n.note)
    (hallocated : g.allocated ≤ g'.allocated) : g'.Coherent := by
  obtain ⟨kinds, hkinds⟩ := hg
  refine ⟨kinds, fun id f hf => ?_⟩
  cases hnode : g'.node? id with
  | none => simp [fieldsAt, hnode] at hf
  | some node =>
    rw [fieldsAt_eq hnode] at hf
    rcases hnotes node (mem_of_node? hnode) with hnote | ⟨m, hm, hid, hnote⟩
    · rw [hnote] at hf
      cases hf
    · have hfound := node?_of_mem hascending hm
      rw [hid, id_eq_of_node? hnode] at hfound
      rw [← hnote, ← fieldsAt_eq hfound] at hf
      exact (hkinds id f hf).mono hallocated fun _ _ => rfl

theorem exists_types_of_annotate (h : g.annotate = .ok g') :
    ∃ types, g.types = .ok types ∧ g.annotateWith types = .ok g' := by
  rw [annotate] at h
  cases htypes : g.types with
  | error failure =>
    rw [htypes] at h
    cases h
  | ok types =>
    rw [htypes] at h
    exact ⟨types, rfl, h⟩

theorem Ready.of_types (hnumbered : g.Numbered) (hcoherent : g.Everywhere Coherent)
    (hvalid : g.validate = .ok ()) (htypes : g.types = .ok types) : Ready none g :=
  ⟨hnumbered, hvalid, ⟨_, typed_of_typesWithin htypes⟩, hcoherent⟩

namespace Evolved

/-- **Whatever happened to a graph**, its operators stand in order and its columns tell what fields
start with, at every level. -/
theorem numbered_coherent (hg : g.Evolved) : g.Numbered ∧ g.Everywhere Coherent := by
  induction hg with
  | unnoted hg hnotes => exact ⟨hg, hnotes.coherent⟩
  | change _ hascending hnotes hallocated _ ih ihinside =>
    exact ⟨⟨hascending, fun id h hid => (ihinside id h hid).1⟩,
      ih.2.here.of_notes ih.1.here hnotes hallocated, fun id h hid => (ihinside id h hid).2⟩
  | inside _ hid ih => exact ⟨ih.1.inside hid, ih.2.inside hid⟩
  | annotate _ h ih =>
    obtain ⟨types, htypes, hannotate⟩ := exists_types_of_annotate h
    exact ⟨(annotated_of_annotateWith ih.1 htypes hannotate).1.numbered ih.1,
      coherent_of_annotateWith ih.1 ih.2 htypes hannotate⟩
  | @optimize g o result _ ho h ih =>
    -- A run starts with validating and annotating, so the graph was valid and typed.
    have hrun := h
    simp only [Optimizer.run, bind_eq_ok_iff, annotated, mapError_eq_ok_iff] at hrun
    obtain ⟨_, hvalid, _, hannotate, -⟩ := hrun
    obtain ⟨types, htypes, -⟩ := exists_types_of_annotate hannotate
    obtain ⟨result', hrun', hrenews, -⟩ := ho.exists_run (.of_types ih.1 ih.2 hvalid htypes)
    obtain rfl := Except.ok.inj (hrun'.symm.trans h)
    exact ⟨hrenews.ready.numbered, hrenews.ready.coherent⟩

theorem ready (hg : g.Evolved) (hvalid : g.validate = .ok ()) (htypes : g.types = .ok types) :
    Ready none g :=
  .of_types hg.numbered_coherent.1 hg.numbered_coherent.2 hvalid htypes

end Evolved

/-! ### Edits -/

/-- The operator that an edit adds. -/
def Edit.operator? : Edit → Option Operator
  | .add op => some op
  | .addAt _ op => some op
  | _ => none

/-- What an edit does to the operators: one without an annotation is added, or none.  No column is
given out. -/
theorem nodes_edit (g : Dag) (edit : Edit) : (edit.apply g).allocated = g.allocated ∧
    ∀ n ∈ (edit.apply g).nodes, n ∈ g.nodes ∨ n.note = {} ∧ edit.operator? = some n.kind := by
  have hinsert : ∀ id op, ∀ n ∈ (g.insert id op).nodes, n ∈ g.nodes ∨ n.note = {} ∧
      some op = some n.kind := by
    intro id op n hn
    rcases List.mem_cons.1 ((perm_insertNode ⟨id, op, {}⟩ g.nodes).mem_iff.1 hn) with rfl | hn
    · exact .inr ⟨rfl, rfl⟩
    · exact .inl hn
  have hconnect : ∀ {g g' : Dag} {e : Edge}, g.connect e = .ok g' → g'.allocated = g.allocated ∧
      g'.nodes = g.nodes := by
    intro g g' e h
    obtain ⟨-, -, -, rfl⟩ := connect_eq_ok_iff.1 h
    exact ⟨rfl, rfl⟩
  cases edit with
  | add op => exact ⟨rfl, hinsert _ op⟩
  | addAt id op =>
    rw [Edit.apply, addAt]
    split
    · exact ⟨rfl, fun n hn => .inl hn⟩
    · exact ⟨rfl, hinsert id op⟩
  | connect e =>
    rw [Edit.apply]
    cases h : g.connect e with
    | ok g' => exact ⟨(hconnect h).1, fun n hn => .inl ((hconnect h).2 ▸ hn)⟩
    | error _ => exact ⟨rfl, fun n hn => .inl hn⟩
  | disconnect target slot => exact ⟨rfl, fun n hn => .inl hn⟩
  | remove id =>
    rw [Edit.apply]
    cases h : g.remove id with
    | ok removed =>
      simp only [remove, bind_eq_ok_iff, guard_eq_ok_iff, pure_eq_ok, Except.ok.injEq] at h
      obtain ⟨-, _, -, rfl⟩ := h
      exact ⟨rfl, fun n hn => .inl (List.mem_filter.1 hn).1⟩
    | error _ => exact ⟨rfl, fun n hn => .inl hn⟩
  | rewire e =>
    simp only [Edit.apply, rewire]
    cases h : (g.disconnect e.target e.targetSlot).connect e with
    | ok g' => exact ⟨(hconnect h).1, fun n hn => .inl ((hconnect h).2 ▸ hn)⟩
    | error _ => cases g.edgeAt? e.target e.targetSlot <;> exact ⟨rfl, fun n hn => .inl hn⟩
  | setSink id =>
    rw [Edit.apply, setSink]
    cases g.get id <;> exact ⟨rfl, fun n hn => .inl hn⟩

/-- **An edit is a change under which operators keep their annotations**, whether it succeeds or
fails. -/
theorem Evolved.edit (hg : g.Evolved) (hintact : g.Intact) {edit : Edit}
    (hinner : ∀ n h, edit.operator? = some (.pipeline n h) → h.Evolved) :
    (edit.apply g).Evolved := by
  obtain ⟨hallocated, hnodes⟩ := nodes_edit g edit
  refine hg.change (hintact.edit edit).ascending (fun n hn => ?_) hallocated.ge fun id h hid => ?_
  · rcases hnodes n hn with hn | ⟨hnote, -⟩
    · exact .inr ⟨n, hn, rfl, rfl⟩
    · exact .inl hnote
  · obtain ⟨node, n, hnode, hkind⟩ := inner?_eq_some_iff.1 hid
    rcases hnodes node (mem_of_node? hnode) with hmem | ⟨-, hop⟩
    · have hfound := node?_of_mem hintact.ascending hmem
      exact hg.inside (inner?_eq_some_iff.2 ⟨node, n, hfound, hkind⟩)
    · exact hinner n h (hkind ▸ hop)

end Graph

namespace Optimizer

open Dataflow.Graph

variable {o : Optimizer} {level : Nat} {g : Dag} {types : GraphTypes}

/-! ### Valid results -/

theorem standard_of_forLevel (hrules : o.rules = Rule.forLevel level) : o.Standard :=
  fun _ hrule => Rule.eq_of_mem_forLevel (hrules ▸ hrule)

theorem exists_sinkType {τ : Nat → TupleType} (hg : Ready none g)
    (hτ : (typing fun _ _ _ _ => True).Models g none τ) : ∃ types sink, g.types = .ok types ∧
      g.sink = some sink ∧ types.outputs.get? sink = some (τ sink) := by
  obtain ⟨types, htypes, houtputs⟩ := typesWithin_of_models hg.wired hτ
  obtain ⟨sink, hsink⟩ := Option.isSome_iff_exists.1 hg.checked.sink
  exact ⟨types, sink, htypes, hsink, houtputs sink (hg.wired.here.sink sink hsink)⟩

/-- **Optimizing never breaks a graph**: it succeeds, and the optimized graph is valid and typed.
The sink has the type that it had, and the look-ups of parameters are those of the graph. -/
theorem exists_valid_run (hrules : o.rules = Rule.forLevel level) (hg : g.Evolved)
    (hvalid : g.validate = .ok ()) (htypes : g.types = .ok types) :
    ∃ result types', o.run g = .ok result ∧ result.graph.validate = .ok () ∧
      result.graph.types = .ok types' ∧
      (∃ sink sink' t, g.sink = some sink ∧ result.graph.sink = some sink' ∧
        types.outputs.get? sink = some t ∧ types'.outputs.get? sink' = some t) ∧
      result.graph.lookups = g.lookups := by
  have hready := hg.ready hvalid htypes
  have hτ := typed_of_typesWithin htypes
  obtain ⟨result, hrun, hrenews, -⟩ := (standard_of_forLevel hrules).exists_run hready
  obtain ⟨τ', hτ', hsinks⟩ := hrenews.types _ hτ
  obtain ⟨types₀, sink, htypes₀, hsink, ht⟩ := exists_sinkType hready hτ
  obtain rfl : types = types₀ := Except.ok.inj (htypes.symm.trans htypes₀)
  obtain ⟨types', sink', htypes', hsink', ht'⟩ := exists_sinkType hrenews.ready hτ'
  have heq : τ' sink' = types.type sink := by simpa [hsink, hsink'] using hsinks
  exact ⟨result, types', hrun, hrenews.ready.valid, htypes',
    ⟨sink, sink', _, hsink, hsink', ht, heq ▸ ht'⟩, hrenews.lookups⟩

theorem evolved_largeKeysInside : largeKeysInside.Evolved := by
  refine .unnoted numbered_largeKeysInside (everywhere_of_inner (by simp [largeKeysInside]) ?_)
  exact List.forall_mem_singleton.2 (everywhere_of_inner (by simp [largeKeys]) nofun)

theorem largeKeysInside_exists_valid_run :
    ∃ types result types', largeKeysInside.validate = .ok () ∧ largeKeysInside.types = .ok types ∧
      (forLevel 2).run largeKeysInside = .ok result ∧
    result.graph.validate = .ok () ∧ result.graph.types = .ok types' ∧
    (∃ sink sink' t, largeKeysInside.sink = some sink ∧ result.graph.sink = some sink' ∧
      types.outputs.get? sink = some t ∧ types'.outputs.get? sink' = some t) ∧
    result.graph.lookups = [(0, 0, some entryType), (1, 1, some entryType)] := by
  obtain ⟨types, htypes, -⟩ := types_largeKeysInside
  have hvalid : largeKeysInside.validate = .ok () := by cbv
  obtain ⟨result, types', hrun⟩ :=
    exists_valid_run (o := forLevel 2) rfl evolved_largeKeysInside hvalid htypes
  exact ⟨types, result, types', hvalid, htypes, hrun⟩

/-- A constant of an integer and a Boolean that were given one column, joined with a range and
filtered by the Boolean. -/
def sharedColumn : Dag where
  nodes := [⟨0, .primitive (.range ⟨0, 2, 1⟩), {}⟩,
    ⟨1, .primitive (.constantTuple [.int 1, .bool true]),
      { fields := [⟨0, "v0", .atomic .int64, some 0, {}⟩, ⟨1, "v1", .atomic .bool, some 0, {}⟩] }⟩,
    ⟨2, .primitive (.join 1), {}⟩, ⟨3, .primitive (.filter (.field 0 1)), {}⟩]
  edges := [⟨0, 0, 2, 0⟩, ⟨1, 0, 2, 1⟩, ⟨2, 0, 3, 0⟩]
  sink := some 3
  nextId := 4
  allocated := 1

/-- A rule moves the filter before the join, and finds the Boolean there by its column: it finds the
integer, which stands first. -/
theorem run_sharedColumn :
    sharedColumn.validate = .ok () ∧ (∃ types, sharedColumn.types = .ok types) ∧ ∀ level ∈ [1, 2],
      (forLevel level).run sharedColumn =
      .error (.schema (.inOperator "filter_3" (.predicateNotBool (.atomic .int64)))) := by
  refine ⟨by cbv, ⟨_, by cbv⟩, ?_⟩
  simp only [List.forall_mem_cons]
  exact ⟨by cbv, by cbv, List.forall_mem_nil _⟩

/-- A valid and typed graph that is optimized at the lowest level only. -/
theorem sharedColumn_not_valid_run : sharedColumn.Numbered ∧ sharedColumn.validate = .ok () ∧
    (∃ types, sharedColumn.types = .ok types) ∧
    (∃ result, (forLevel 0).run sharedColumn = .ok result) ∧
    ∀ level ∈ [1, 2], (forLevel level).run sharedColumn =
      .error (.schema (.inOperator "filter_3" (.predicateNotBool (.atomic .int64)))) :=
  ⟨isNumbered_iff.1 (by cbv), run_sharedColumn.1, run_sharedColumn.2.1, ⟨_, by cbv⟩,
    run_sharedColumn.2.2⟩

/-! ### Results that stay -/

/-- **Optimizing twice is optimizing once**: at most two rounds are made, and optimizing the
optimized graph applies no rule and changes annotations only.  The two graphs are equal, if the
graph is equal to itself, that is, if no constant of its operators is unequal to itself. -/
theorem run_run (hrules : o.rules = Rule.forLevel level) (hg : g.Evolved)
    (hvalid : g.validate = .ok ()) (htypes : g.types = .ok types) :
    ∃ result again, o.run g = .ok result ∧ result.rounds ≤ 2 ∧ o.run result.graph = .ok again ∧
      again.changes = 0 ∧ Alike result.graph again.graph ∧
      (g.same g = true → again.graph.same result.graph = true) := by
  have hready := hg.ready hvalid htypes
  obtain ⟨result, hrun, hrenews, hannotated⟩ := (standard_of_forLevel hrules).exists_run hready
  obtain ⟨hrounds, hfinished⟩ := finished_of_run hrules hready hrun
  obtain ⟨again, hagain, hchanges, halike⟩ :=
    run_of_finished hrules ⟨hrenews.ready, hannotated⟩ hfinished
  refine ⟨result, again, hrun, hrounds, hagain, hchanges, halike, fun hsame => ?_⟩
  have hnumbered := hrenews.ready.numbered
  have hregular := (same_self_iff hg.numbered_coherent.1).1 hsame
  rw [halike.same_left hnumbered]
  exact (same_self_iff hnumbered).2 (hrenews.regular hregular)

theorem largeKeysInside_run_run : ∃ result again, largeKeysInside.validate = .ok () ∧
    (forLevel 2).run largeKeysInside = .ok result ∧ result.rounds ≤ 2 ∧
    (forLevel 2).run result.graph = .ok again ∧ again.changes = 0 ∧ Alike result.graph again.graph ∧
    again.graph.same result.graph = true := by
  obtain ⟨types, htypes, -⟩ := types_largeKeysInside
  have hvalid : largeKeysInside.validate = .ok () := by cbv
  obtain ⟨result, again, hrun, hrounds, hagain, hchanges, halike, hsame⟩ :=
    run_run (o := forLevel 2) rfl evolved_largeKeysInside hvalid htypes
  exact ⟨result, again, hvalid, hrun, hrounds, hagain, hchanges, halike, hsame (by cbv)⟩

/-- A graph of one constant. -/
def constantDouble (x : Float) : Dag where
  nodes := [⟨0, .primitive (.constantTuple [.float x]), {}⟩]
  sink := some 0
  nextId := 1

theorem evolved_constantDouble (x : Float) : (constantDouble x).Evolved :=
  .unnoted (isNumbered_iff.1 (by cbv))
    (everywhere_of_inner (by simp [constantDouble]) nofun)

/-- Optimizing a constant twice gives equal graphs exactly if the constant is equal to itself. -/
theorem same_of_run_constantDouble (x : Float) : ∃ result again,
    (forLevel 2).run (constantDouble x) = .ok result ∧ (forLevel 2).run result.graph = .ok again ∧
      again.graph.same result.graph = (x == x) := by
  refine ⟨_, _, by cbv, by cbv, ?_⟩
  simp [same_eq, sameNodes, sameNode, sameOperator, Primitive.same, Literal.same, sameEdges]

/-- A constant that is not a number is not equal to itself, and so the graph is not after optimizing
it.  With columns made by hand, optimizing once already fails. -/
theorem notANumber_sharedColumn_run_run :
    (∃ types result again, (constantDouble (0 / 0)).Evolved ∧
      (constantDouble (0 / 0)).validate = .ok () ∧ (constantDouble (0 / 0)).types = .ok types ∧
      (forLevel 2).run (constantDouble (0 / 0)) = .ok result ∧
      (forLevel 2).run result.graph = .ok again ∧ again.graph.same result.graph = false) ∧
    sharedColumn.validate = .ok () ∧ (∃ types, sharedColumn.types = .ok types) ∧
    ∀ result, (forLevel 2).run sharedColumn ≠ .ok result := by
  have hvalid : ∀ x, (constantDouble x).validate = .ok () := fun x => by cbv
  have htypes : ∀ x, ∃ types, (constantDouble x).types = .ok types := fun x => ⟨_, by cbv⟩
  obtain ⟨types, htypes⟩ := htypes (0 / 0)
  obtain ⟨result, again, hrun, hagain, hsame⟩ := same_of_run_constantDouble (0 / 0)
  obtain ⟨hshared, hshared', hfails⟩ := run_sharedColumn
  refine ⟨⟨types, result, again, evolved_constantDouble _, hvalid _, htypes, hrun, hagain,
    hsame.trans (by rfl)⟩, hshared, hshared', fun result hrun => ?_⟩
  rw [hfails 2 (by simp)] at hrun
  cases hrun

end Optimizer

end Dataflow
