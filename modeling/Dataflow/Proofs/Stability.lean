/-
**Annotation is stable.**

What a run of annotation writes down depends on the notes that it finds: a field that is computed
keeps its column if its type is the same, and what is left of dead columns is overwritten.  A run
over its own result finds every field with the column and the type that it would get, and the
columns that are needed are told by the fields and by what is read.  So whatever notes a graph had
before, stale ones or none, a second run changes nothing: it gives out no column, at any level.

Main results:

* `Assignment.foldl_extend_again` — fields that are written down over themselves stay as they are;
* `Graph.annotateNode_of_stable` — annotating an operator again changes nothing;
* `Graph.markNodes_again` — neither does marking dead columns again;
* `Graph.annotateWith_again`, `Graph.annotate_again` — **annotating an annotated graph changes
  nothing**.
-/

import Dataflow.Proofs.Graph.Traversal
import Dataflow.Proofs.Ownership

namespace Dataflow

open List Option

/-! ### Fields -/

theorem Operator.reads_of_shell {op op' : Operator} (h : op.shell = op'.shell) :
    op.reads = op'.reads := by
  cases op with
  | primitive p => rw [shell_eq_inl_iff.1 h.symm]
  | pipeline n a =>
    obtain ⟨b, rfl⟩ := shell_eq_inr_iff.1 h.symm
    rfl

namespace Assignment

variable {op op' : Operator} {inputs : List (List Field)}
  {previous final fields : List Field} {a : Assignment}

theorem extend_of_shell (h : op.shell = op'.shell) : extend op = extend op' := by
  cases op with
  | primitive p => rw [Operator.shell_eq_inl_iff.1 h.symm]
  | pipeline n a =>
    obtain ⟨b, rfl⟩ := Operator.shell_eq_inr_iff.1 h.symm
    rfl

/-- A field that was written down is written down once more in the same way, and needs no new
column. -/
theorem extend_again {field noted : Field}
    (hnoted : (extend op inputs previous a field).fields = a.fields ++ [noted])
    (hfinal : final[field.position]? = some noted) (n : Nat) :
    extend op inputs final ⟨a.fields, a.writes, n⟩ field =
      ⟨a.fields ++ [noted], (extend op inputs previous a field).writes, n⟩ := by
  cases hsource : op.source? inputs field.position with
  | some source =>
    simp only [extend, hsource] at hnoted ⊢
    rw [hnoted]
  | none =>
    simp only [extend, hsource, append_cancel_left_eq, cons.injEq, and_true] at hnoted ⊢
    subst hnoted
    simp [hfinal, Option.filter]

/-- **Fields that are written down over themselves stay as they are.** -/
theorem foldl_extend_again
    (hpositions : fields.map (·.position) = range' a.fields.length fields.length) (n : Nat) :
    fields.foldl (extend op inputs (fields.foldl (extend op inputs previous) a).fields)
      ⟨a.fields, a.writes, n⟩ = ⟨(fields.foldl (extend op inputs previous) a).fields,
      (fields.foldl (extend op inputs previous) a).writes,
        n⟩ := by
  induction fields generalizing a with
  | nil => rfl
  | cons field fields ih =>
    rw [map_cons, length_cons, range'_succ, cons.injEq] at hpositions
    obtain ⟨noted, hnoted, -⟩ := fields_extend op inputs previous a field
    obtain ⟨rest, hrest, -⟩ :=
      forall₂_written op inputs previous fields (extend op inputs previous a field)
    have hfinal : (fields.foldl (extend op inputs previous)
      (extend op inputs previous a field)).fields[
        field.position]? = some noted := by
      rw [hrest, hnoted, hpositions.1]
      simp
    have hlater : fields.map (·.position) =
        range' (extend op inputs previous a field).fields.length fields.length := by
      rw [hnoted, List.length_append]
      exact hpositions.2
    rw [foldl_cons, foldl_cons, extend_again hnoted hfinal n, ← hnoted]
    exact ih hlater

end Assignment

namespace Graph

open GraphTypes

variable {g g' : Dag} {id : Nat} {t : TupleType} {bound : Option (List TupleType)}
  {types : GraphTypes} {inner : Table (GraphTypes → Except Interruption Dag)}

/-! ### Annotating one operator again -/

/-- An operator whose note is what annotating it would write down, however many columns were given
out. -/
structure StableAt (g : Dag) (id : Nat) (t : TupleType) : Prop where
  assigned : ∀ node, g.node? id = some node → ∀ n, (Field.ofTuple t).foldl
    (Assignment.extend node.kind ((g.producers id).map g.fieldsAt) node.note.fields) ⟨[], [], n⟩ =
      ⟨node.note.fields, node.note.writes, n⟩
  reads : ∀ node, g.node? id = some node →
    node.note.reads = node.kind.reads ((g.producers id).map g.fieldsAt)

theorem StableAt.congr (h : g.StableAt id t) (hedges : g'.edges = g.edges)
    (hnode : ∀ node', g'.node? id = some node' → ∃ node, g.node? id = some node ∧
      node'.kind = node.kind ∧ node'.note.fields = node.note.fields ∧
      node'.note.writes = node.note.writes ∧ node'.note.reads = node.note.reads)
    (hproducers : ∀ q ∈ g.producers id, g'.fieldsAt q = g.fieldsAt q) : g'.StableAt id t where
  assigned := by
    intro node' hnode' n
    obtain ⟨node, hfound, hkind, hfields, hwrites, -⟩ := hnode node' hnode'
    rw [hkind, hfields, hwrites, producers_of_edges hedges, map_congr_left hproducers]
    exact h.assigned node hfound n
  reads := by
    intro node' hnode'
    obtain ⟨node, hfound, hkind, -, -, hreads⟩ := hnode node' hnode'
    rw [hkind, hreads, producers_of_edges hedges, map_congr_left hproducers]
    exact h.reads node hfound

theorem modify_eq_self {f : Node Operator → Node Operator} (hascending : g.ids.Pairwise (· < ·))
    (h : ∀ node, g.node? id = some node → { f node with id := node.id } = node) :
    g.modify id f = g := by
  have hnodes : (g.nodes.map fun n => if n.id = id then { f n with id := n.id } else n) =
      g.nodes := by
    refine (map_congr_left fun n hn => ?_).trans (List.map_id _)
    split
    · next hid => exact h n (hid ▸ node?_of_mem hascending hn)
    · rfl
  rw [modify, hnodes]

/-- **Annotating an operator again changes nothing**, if it is stable and annotating the graph
inside it again changes nothing there. -/
theorem annotateNode_of_stable {node : Node Operator}
    (hascending : g.ids.Pairwise (· < ·)) (hnode : g.node? id = some node)
    (houtput : types.outputs.get? id = some t) (hstable : g.StableAt id t)
    (hinside : ∀ annotate innerTypes, inner.get? id = some annotate →
      Table.get? types.inner id = some innerTypes → ∃ b, annotate innerTypes = .ok b ∧
      g.inner? id = some b) :
    annotateNode types inner g id = .ok g := by
  have hinputs : g.inputFields id = (g.producers id).map g.fieldsAt := rfl
  have hnoted : g.modify id (fun n => { n with note := { n.note with
      fields := node.note.fields, reads := node.note.reads, writes := node.note.writes } }) =
        g := by
    refine modify_eq_self hascending fun node' hnode' => ?_
    obtain rfl := mem_unique hnode hnode'
    rfl
  simp only [annotateNode, hnode, houtput, hinputs,
    hstable.assigned node hnode, ← hstable.reads node hnode, hnoted]
  split
  · next annotate innerTypes hannotate hinner =>
    obtain ⟨b, hb, hid⟩ := hinside annotate innerTypes hannotate hinner
    obtain ⟨node', n, hnode', hkind⟩ := inner?_eq_some_iff.1 hid
    obtain rfl := mem_unique hnode hnode'
    have hplaced : g.modify id (fun n => { n with kind := n.kind.withInner b }) = g := by
      refine modify_eq_self hascending fun node' hnode' => ?_
      obtain rfl := mem_unique hnode hnode'
      obtain ⟨nid, kind, note⟩ := node
      obtain rfl : kind = .pipeline n b := hkind
      rfl
    rw [hb]
    exact congrArg Except.ok hplaced
  · rfl

/-- Annotating an operator after its producers makes it stable, and the stable ones before it stay
so. -/
theorem Progress.stableAt {done : List Nat} {reached : Dag}
    (hprogress : g.Progress types done reached) (hfresh : id ∉ done)
    (hproducers : ∀ q ∈ g.producers id, q ∈ done) (hstable : ∀ m ∈ done,
      reached.StableAt m (types.type m)) (h : annotateNode types inner reached id = .ok g') :
    ∀ m ∈ done ++ [id], g'.StableAt m (types.type m) := by
  obtain ⟨node, node', output, ha⟩ := annotates_of_annotateNode h
  have hfields : ∀ q ∈ done, g'.fieldsAt q = reached.fieldsAt q :=
    fun q hq => ha.fieldsAt_of_ne fun heq => hfresh (heq ▸ hq)
  have hproducer : ∀ m, reached.producers m = g.producers m := producers_of_edges hprogress.edges
  intro m hm
  rw [mem_append, mem_singleton] at hm
  rcases hm with hm | rfl
  · refine (hstable m hm).congr ha.edges (fun node₁ hnode₁ => ?_) fun q hq => ?_
    · rw [ha.others m fun heq => hfresh (heq ▸ hm)] at hnode₁
      exact ⟨node₁, hnode₁, rfl, rfl, rfl, rfl⟩
    · exact hfields q (hprogress.closed m hm q (hproducer m ▸ hq))
  · -- The operator is written down from the fields that its producers still have.
    have hinputs : (g'.producers m).map g'.fieldsAt = reached.inputFields m := by
      rw [producers_of_edges ha.edges]
      exact map_congr_left fun q hq => hfields q (hproducers q (hproducer m ▸ hq))
    refine ⟨fun node₁ hnode₁ n => ?_, fun node₁ hnode₁ => ?_⟩
    · obtain rfl := mem_unique ha.placed hnode₁
      have hpositions :
          (Field.ofTuple output).map (·.position) = range' 0 (Field.ofTuple output).length := by
        rw [positions_ofTuple, Field.length_ofTuple, range_eq_range']
      rw [type, ha.typed, getD_some, hinputs, ha.fields, ha.writes,
        Assignment.extend_of_shell ha.shell]
      exact Assignment.foldl_extend_again (a := ⟨[], [], reached.allocated⟩) hpositions n
    · obtain rfl := mem_unique ha.placed hnode₁
      rw [ha.reads, hinputs, Operator.reads_of_shell ha.shell]

/-! ### Marking again -/

/-- A graph whose dead columns are forgotten. -/
def withoutDead (g : Dag) : Dag :=
  { g with nodes := g.nodes.map fun n => { n with note := { n.note with dead := [] } } }

theorem node?_withoutDead (g : Dag) (id : Nat) : g.withoutDead.node? id =
    (g.node? id).map fun n => { n with note := { n.note with dead := [] } } := by
  rw [node?, withoutDead, find?_map]
  rfl

theorem withoutDead_modify (g : Dag) (id : Nat) (dead : Columns) :
    (g.modify id fun n => { n with note := { n.note with dead } }).withoutDead = g.withoutDead := by
  simp only [withoutDead, modify, List.map_map]
  congr 1
  refine map_congr_left fun n _ => ?_
  simp only [Function.comp_apply]
  split <;> rfl

/-- Two graphs that differ in dead columns only have the same nodes but for those. -/
theorem node?_of_withoutDead (h : g'.withoutDead = g.withoutDead) {node' : Node Operator}
    (hnode' : g'.node? id = some node') : ∃ node, g.node? id = some node ∧ node'.kind = node.kind ∧
      node'.note.fields = node.note.fields ∧ node'.note.writes = node.note.writes ∧
      node'.note.reads = node.note.reads := by
  have hnode : g.withoutDead.node? id =
      some { node' with note := { node'.note with dead := [] } } := by
    rw [← h, node?_withoutDead, hnode', map_some]
  rw [node?_withoutDead, map_eq_some_iff] at hnode
  obtain ⟨node, hnode, heq⟩ := hnode
  exact ⟨node, hnode, (congrArg (·.kind) heq).symm, (congrArg (·.note.fields) heq).symm,
    (congrArg (·.note.writes) heq).symm, (congrArg (·.note.reads) heq).symm⟩

theorem fieldsAt_withoutDead (g : Dag) (id : Nat) : g.withoutDead.fieldsAt id = g.fieldsAt id := by
  rw [fieldsAt, node?_withoutDead, Option.map_map]
  rfl

theorem readsAt_withoutDead (g : Dag) (id : Nat) : g.withoutDead.readsAt id = g.readsAt id := by
  rw [readsAt, node?_withoutDead, Option.map_map]
  rfl

theorem ids_withoutDead (g : Dag) : g.withoutDead.ids = g.ids := by
  rw [ids, withoutDead, List.map_map]
  rfl

/-- What does not look at dead columns is the same for two graphs that differ in those only. -/
theorem eq_of_withoutDead {α : Type} {f : Dag → α} (hf : ∀ g, f g.withoutDead = f g)
    (h : g'.withoutDead = g.withoutDead) : f g' = f g := by
  rw [← hf, h, hf]

variable {l l' : Liveness} {ids : List Nat} {k : Dag}

theorem markNode_again (hk : k.withoutDead = l.graph.withoutDead) (h : markNode l id = .ok l') :
    ∃ dead live,
      l' = ⟨l.graph.modify id fun n => { n with note := { n.note with dead } },
      l.after.put id live⟩ ∧ markNode ⟨k, l.after⟩ id =
        .ok ⟨k.modify id fun n => { n with note := { n.note with dead } },
      l.after.put id live⟩ := by
  have hsink : k.sink = l.graph.sink := eq_of_withoutDead (fun _ => rfl) hk
  have hconsumers : k.consumers id = l.graph.consumers id :=
    eq_of_withoutDead (f := fun g => g.consumers id) (fun _ => rfl) hk
  have hcontains : ∀ m, k.contains m = l.graph.contains m := fun m => by
    rw [Bool.eq_iff_iff, contains_iff_mem_ids, contains_iff_mem_ids,
      eq_of_withoutDead ids_withoutDead hk]
  have hfields : ∀ m, k.fieldsAt m = l.graph.fieldsAt m := fun m =>
    eq_of_withoutDead (f := fun g => g.fieldsAt m) (fieldsAt_withoutDead · m) hk
  have hreads : ∀ m, k.readsAt m = l.graph.readsAt m := fun m =>
    eq_of_withoutDead (f := fun g => g.readsAt m) (readsAt_withoutDead · m) hk
  simp only [fieldsAt, readsAt] at hfields hreads
  simp only [markNode] at h
  split at h
  · cases h
  · next hnone =>
    cases h
    refine ⟨_, _, rfl, ?_⟩
    simp only [markNode, hconsumers, hcontains, hfields, hreads, hsink, hnone]

theorem node?_of_markNodes (hid : id ∉ ids)
    (h : ids.foldlM markNode l = .ok l') : l'.graph.node? id = l.graph.node? id := by
  refine Outcome.foldlM_ok_induction
    (P := fun l' : Liveness => l'.graph.node? id = l.graph.node? id)
    (fun l₁ m l₂ hm hl hstep => ?_) rfl h
  obtain ⟨_, _, -, -, -, rfl⟩ := markNode_cases hstep
  have hne : id ≠ m := fun heq => hid (heq ▸ hm)
  exact (node?_modify_of_ne hne).trans hl

/-- **Marking dead columns again changes nothing**: what is needed is told by what marking does not
change. -/
theorem markNodes_again (hascending : k.ids.Pairwise (· < ·)) (hnodup : ids.Nodup)
    (hk : k.withoutDead = l.graph.withoutDead) (hmem : ∀ id ∈ ids, id ∈ l.graph.ids)
    (hdead : ∀ id ∈ ids, k.deadAt id = l'.graph.deadAt id) (h : ids.foldlM markNode l = .ok l') :
    ids.foldlM markNode ⟨k, l.after⟩ = .ok ⟨k, l'.after⟩ := by
  induction ids generalizing l with
  | nil =>
    cases h
    rfl
  | cons id ids ih =>
    rw [nodup_cons] at hnodup
    rw [forall_mem_cons] at hdead hmem
    rw [foldlM_cons] at h ⊢
    cases hstep : markNode l id with
    | error stop =>
      rw [hstep] at h
      cases h
    | ok l₁ =>
      rw [hstep] at h
      obtain ⟨dead, live, rfl, hagain⟩ := markNode_again hk hstep
      -- The operator is not visited later, so what is noted as dead now is what is noted in the
      -- end.
      have hfinal : k.deadAt id = dead := by
        obtain ⟨node, hnode⟩ := node?_of_mem_ids hmem.1
        rw [hdead.1, deadAt, node?_of_markNodes hnodup.1 h, node?_modify_self hnode]
        rfl
      have hself : k.modify id (fun n => { n with note := { n.note with dead } }) = k := by
        refine modify_eq_self hascending fun node hnode => ?_
        rw [deadAt, hnode, map_some, getD_some] at hfinal
        rw [← hfinal]
      rw [hagain, hself]
      refine ih hnodup.2 ?_ ?_ hdead.2 h
      · rw [hk, withoutDead_modify]
      · intro m hm
        rw [ids_modify]
        exact hmem.2 m hm

theorem withoutDead_of_markNodes (h : ids.foldlM markNode l = .ok l') :
    l'.graph.withoutDead = l.graph.withoutDead := by
  refine Outcome.foldlM_ok_induction (P := fun l' : Liveness => l'.graph.withoutDead =
    l.graph.withoutDead) (fun l₁ m l₂ _ hl hstep => ?_) rfl h
  obtain ⟨_, _, -, -, -, rfl⟩ := markNode_cases hstep
  rw [withoutDead_modify]
  exact hl

/-! ### Annotating a graph again -/

theorem foldlM_fixed {α β ε : Type} {f : β → α → Except ε β} {xs : List α} {b : β}
    (h : ∀ x ∈ xs, f b x = .ok b) : xs.foldlM f b = .ok b := by
  induction xs with
  | nil => rfl
  | cons x xs ih =>
    rw [forall_mem_cons] at h
    rw [foldlM_cons, h.1]
    exact ih h.2

/-- Annotating an annotated graph of known types changes nothing, at any level. -/
theorem annotateWith_again (hg : g.Numbered) (htypes : g.typesWithin bound = .ok types)
    (h : g.annotateWith types = .ok g') : g'.annotateWith types = .ok g' := by
  induction hg generalizing bound types g' with
  | @intro g hascending hinner ih =>
    have hnodup : g.ids.Nodup := hascending.imp fun h => Nat.ne_of_lt h
    have halike := (annotated_of_annotateWith ⟨hascending, hinner⟩ htypes h).1
    obtain ⟨order, noted, marked, horder, -, hstable, hmarked, rfl⟩ :=
      annotateWith_induction hnodup htypes (P := fun done reached => ∀ id ∈ done,
        reached.StableAt id (types.type id))
      (fun _ _ _ _ _ hfresh hproducers hprogress hreached hnext =>
        hprogress.stableAt hfresh hproducers hreached hnext) nofun h
    have hprogress := progress_of_annotateWith hnodup htypes h
    have hascending' : marked.graph.ids.Pairwise (· < ·) := halike.ids ▸ hascending
    have hforget : marked.graph.withoutDead = noted.withoutDead := withoutDead_of_markNodes hmarked
    -- What marking changes does not matter for what annotating an operator writes down.
    have hstable' : ∀ id ∈ order, marked.graph.StableAt id (types.type id) := fun id hid =>
      (hstable id hid).congr (eq_of_withoutDead (fun _ => rfl) hforget)
        (fun node' hnode' => node?_of_withoutDead hforget hnode')
        fun q _ => eq_of_withoutDead (f := fun g => g.fieldsAt q) (fieldsAt_withoutDead · q) hforget
    have hwalk : order.foldlM
      (annotateNode types (marked.graph.inner.map fun e => (e.1, e.2.annotateWith)))
        marked.graph = .ok marked.graph := by
      refine foldlM_fixed fun id hid => ?_
      have hmem := (mem_order_iff horder).1 hid
      obtain ⟨node, hnode⟩ := node?_of_mem_ids (halike.ids ▸ hmem : id ∈ marked.graph.ids)
      obtain ⟨output, houtput⟩ := (closed_of_typesWithin htypes).2 id hmem
      have htype : types.type id = output := by rw [type, houtput, getD_some]
      refine annotateNode_of_stable hascending' hnode houtput (htype ▸ hstable' id hid) ?_
      intro annotate innerTypes hannotate hget
      rw [Table.get?_map, map_eq_some_iff] at hannotate
      obtain ⟨b, hb, rfl⟩ := hannotate
      have hb := inner?_of_mem_inner hascending' (Table.mem_of_get? hb)
      obtain ⟨a, innerTypes', ha, hget', htyped, hannotated⟩ := hprogress.exists_inside htypes hb
      obtain rfl := mem_unique hget hget'
      exact ⟨b, ih id a ha htyped hannotated, hb⟩
    have hremark : order.reverse.foldlM markNode ⟨marked.graph, []⟩ =
        .ok ⟨marked.graph, marked.after⟩ := by
      refine markNodes_again hascending' ?_ hforget (fun id hid => ?_) (fun _ _ => rfl) hmarked
      · exact nodup_reverse.2 ((perm_order horder).nodup_iff.2 hnodup)
      · rw [← eq_of_withoutDead ids_withoutDead hforget, ← halike.ids]
        exact (mem_order_iff horder).1 (mem_reverse.1 hid)
    simp only [annotateWith_eq, halike.order, horder, hwalk, bind, Except.bind, hremark]
    rfl

/-- **Annotation is stable.**  Whatever notes a graph and the graphs inside it had, once annotating
it has succeeded, annotating the result succeeds and gives the very same graph: no column is given
out at any level, and the fields and the read, written and dead columns of every operator stay. -/
theorem annotate_again (hg : g.Numbered) (h : g.annotate = .ok g') : g'.annotate = .ok g' := by
  unfold annotate at h
  split at h
  · cases h
  · next types htypes =>
    have halike := (annotated_of_annotateWith hg htypes h).1
    have htypes' : g'.types = .ok types := (halike.typesWithin_eq none).trans htypes
    rw [annotate, htypes']
    exact annotateWith_again hg htypes h

/-- A pipeline that was changed after it was annotated: it doubled its input and negates it now. -/
def negated : Dag where
  nodes := [{ id := 0, kind := .primitive (.parameterLookup 0 none) },
    { id := 1, kind := .primitive (.map (.tuple [.field 0 0, .unary .neg (.field 0 0)]))
      note := ⟨[⟨0, "v0", .atomic .int64, some 4, {}⟩, ⟨1, "v1", .atomic .int64, some 5, {}⟩],
        [1], [4, 5], [5]⟩ }]
  edges := [⟨0, 0, 1, 0⟩]
  sink := some 1
  nextId := 2
  allocated := 6

/-- A range before the pipeline, noted as if it had been truth values, and a map behind it that has
no note. -/
def negatedRange : Dag where
  nodes := [{ id := 0, kind := .primitive (.range ⟨0, 9, 2⟩)
              note := ⟨[⟨0, "value", .atomic .bool, some 7, {}⟩], [3], [7], [7]⟩ },
    { id := 1, kind := .pipeline 1 negated },
    { id := 4, kind := .primitive (.map (.field 0 1)) }]
  edges := [⟨1, 0, 4, 0⟩, ⟨0, 0, 1, 0⟩]
  sink := some 4
  nextId := 5
  allocated := 8

theorem negatedRange_annotate_again : negatedRange.Numbered ∧ ∃ g, negatedRange.annotate = .ok g ∧
    g.allocated = 11 ∧ (g.inner.map fun e => e.2.allocated) = [7] ∧
    g.nodes.map (fun n => (n.note.fields.map (·.column), n.note.dead)) =
      [([some 8], []), ([some 9, some 10], [9]), ([some 10], [])] ∧
    g.annotate = .ok g := by
  have hnumbered : negatedRange.Numbered := isNumbered_iff.1 (by cbv)
  obtain ⟨g, hg, hallocated, hinner, hnotes⟩ :
    ∃ g, negatedRange.annotate = .ok g ∧ g.allocated = 11 ∧
      (g.inner.map fun e => e.2.allocated) = [7] ∧
      g.nodes.map (fun n => (n.note.fields.map (·.column), n.note.dead)) =
        [([some 8], []), ([some 9, some 10], [9]), ([some 10], [])] :=
    ⟨_, by cbv, by cbv, by cbv, by cbv⟩
  exact ⟨hnumbered, g, hg, hallocated, hinner, hnotes, annotate_again hnumbered hg⟩

end Graph

end Dataflow
