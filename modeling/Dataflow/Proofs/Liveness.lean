/-
**Dead columns.**

Annotation goes back along the order of a graph and collects at every operator the columns that are
read after it.  What it collects does not depend on the order: a column is needed after an operator
if a consumer reads it, if it is needed after a consumer, or if it is a column of the sink.  The
dead columns of an operator are those of its own columns that are not needed.

Main results:

* `Graph.foldlM_reverse_induction` — what every step back along the order preserves, the walk
  preserves;
* `Graph.Marked.step` — marking one operator after its consumers finds what is needed after it;
* `Graph.marked_of_annotateWith` — **the dead columns of an operator are its columns that are not
  needed**.
-/

import Dataflow.Proofs.Annotation

namespace Dataflow.Graph

open List Option

variable {g g' h : Dag} {id m : Nat} {c : Column} {done order : List Nat}

/-! ### Notes -/

/-- The column of the field at a position of an operator's output. -/
def columnAt (g : Dag) (id position : Nat) : Option Column :=
  (g.fieldsAt id)[position]?.bind (·.column)

/-- The columns that an operator is noted to read. -/
def readsAt (g : Dag) (id : Nat) : Columns := ((g.node? id).map (·.note.reads)).getD []

/-- The columns that are noted as dead at an operator. -/
def deadAt (g : Dag) (id : Nat) : Columns := ((g.node? id).map (·.note.dead)).getD []

/-- The columns that are needed after an operator: those of the sink, those that a consumer reads,
and those that are needed after a consumer. -/
inductive Needed (g : Dag) : Nat → Column → Prop
  | sink {id : Nat} {c : Column} {k : Nat} (sink : g.sink = some id)
      (own : g.columnAt id k = some c) : Needed g id c
  | read {id m : Nat} {c : Column} (consumer : m ∈ g.consumers id) (read : c ∈ g.readsAt m) :
      Needed g id c
  | after {id m : Nat} {c : Column} (consumer : m ∈ g.consumers id) (needed : Needed g m c) :
      Needed g id c

theorem mem_consumers : m ∈ g.consumers id ↔ id ∈ g.producers m := by
  rw [consumers, NatSet.mem_ofList, mem_producers]
  simp only [List.mem_map, mem_filter, beq_iff_eq]
  exact ⟨fun ⟨e, ⟨he, hs⟩, ht⟩ => ⟨e, he, ht, hs⟩, fun ⟨e, he, ht, hs⟩ => ⟨e, ⟨he, hs⟩, ht⟩⟩

theorem mem_filterMap_column : c ∈ (g.fieldsAt id).filterMap (·.column) ↔
      ∃ k, g.columnAt id k = some c := by
  simp only [mem_filterMap, columnAt, bind_eq_some_iff]
  constructor
  · rintro ⟨f, hf, hc⟩
    obtain ⟨k, hk⟩ := mem_iff_getElem?.1 hf
    exact ⟨k, f, hk, hc⟩
  · rintro ⟨k, f, hk, hc⟩
    exact ⟨f, mem_of_getElem? hk, hc⟩

theorem Needed.congr (hedges : g'.edges = g.edges) (hsink : g'.sink = g.sink)
    (hfields : ∀ id, g'.fieldsAt id = g.fieldsAt id) (hreads : ∀ id, g'.readsAt id = g.readsAt id)
    (h : Needed g id c) : Needed g' id c := by
  have hconsumers : ∀ id, g'.consumers id = g.consumers id :=
    fun id => by rw [consumers, consumers, hedges]
  induction h with
  | @sink id c k hs own =>
    exact .sink (k := k) (hsink.trans hs) (by rw [columnAt, hfields]; exact own)
  | @read id m c consumer read => exact .read (hconsumers id ▸ consumer) (hreads m ▸ read)
  | @after id m c consumer _ ih => exact .after (hconsumers id ▸ consumer) ih

/-! ### Steps back along the order -/

theorem target_mem_of_order {before after : List Nat} (horder : g.order = .ok order)
    (hnodup : g.ids.Nodup) (hsplit : order = before ++ id :: after) (hm : m ∈ g.ids)
    (hproducer : id ∈ g.producers m) : m ∈ after := by
  have hid : id ∈ g.ids := (mem_order_iff horder).1 (by simp [hsplit])
  have honce : id ∉ before ∧ id ∉ after := by
    have hnodup' := hsplit ▸ (perm_order horder).nodup_iff.2 hnodup
    simpa using (nodup_middle.1 hnodup').notMem
  have hmem : m ∈ before ++ id :: after := hsplit ▸ (mem_order_iff horder).2 hm
  rw [mem_append, mem_cons] at hmem
  rcases hmem with hbefore | rfl | hafter
  · -- The producer would stand before its consumer as well.
    obtain ⟨first, rest, rfl⟩ := append_of_mem hbefore
    have hfirst := source_mem_of_order horder (by rw [hsplit, List.append_assoc]; rfl) hproducer hid
    exact absurd (mem_append_left _ hfirst) honce.1
  · exact absurd (source_mem_of_order horder hsplit hproducer hid) honce.1
  · exact hafter

/-- **What every step back along the order preserves, the walk preserves.**  A step may use that its
operator was not visited before, but all of its consumers were. -/
theorem foldlM_reverse_induction {ε β : Type} (horder : g.order = .ok order) (hnodup : g.ids.Nodup)
    {f : β → Nat → Except ε β} {P : List Nat → β → Prop} {b c : β}
    (step : ∀ done id b c, id ∈ g.ids → id ∉ done → (∀ m ∈ g.ids, id ∈ g.producers m → m ∈ done) →
      P done b → f b id = .ok c → P (id :: done) c)
    (hb : P [] b) (h : order.reverse.foldlM f b = .ok c) : P order c := by
  refine reverse_reverse order ▸ (Outcome.foldlM_induction (P := fun done => P done.reverse)
    (E := fun _ => True)
    (fun done id rest b hsplit hdone => ⟨fun c hc => ?_, fun _ _ => trivial⟩) hb).1 c h
  -- What was visited on the way back is the end of the order.
  have hsplit' : order = rest.reverse ++ id :: done.reverse := by
    rw [← reverse_reverse order, hsplit]
    simp
  have hfresh : id ∉ done.reverse := by
    have hnodup' := hsplit' ▸ (perm_order horder).nodup_iff.2 hnodup
    exact fun hmem => (nodup_middle.1 hnodup').notMem (mem_append_right _ hmem)
  rw [reverse_append]
  exact step done.reverse id b c ((mem_order_iff horder).1 (by simp [hsplit'])) hfresh
    (fun m hm hproducer => target_mem_of_order horder hnodup hsplit' hm hproducer) hdone hc

/-! ### Marking -/

theorem readsAt_modify_dead (g : Dag) (id : Nat) (dead : Columns) (m : Nat) :
    (g.modify id fun n => { n with note := { n.note with dead } }).readsAt m = g.readsAt m := by
  rw [readsAt, readsAt, node?_modify]
  cases g.node? m with
  | none => rfl
  | some n =>
    simp only [map_some, getD_some]
    split <;> rfl

/-- What marking one operator does: it finds what is needed after the operator from what was found
for its consumers, and notes the rest of its columns as dead. -/
theorem markNode_cases {l l' : Liveness} (h : markNode l id = .ok l') :
    ∃ live dead, (∀ m ∈ l.graph.consumers id, m ∈ l.graph.ids) ∧
      (∀ c, c ∈ live ↔
      (∃ m ∈ l.graph.consumers id, c ∈ l.graph.readsAt m ∨ c ∈ (l.after.get? m).getD []) ∨
        l.graph.sink = some id ∧ ∃ k, l.graph.columnAt id k = some c) ∧
      (∀ c, c ∈ dead ↔ (∃ k, l.graph.columnAt id k = some c) ∧ c ∉ live) ∧
      l' = ⟨l.graph.modify id (fun n => { n with note := { n.note with dead } }),
        l.after.put id live⟩ := by
  simp only [markNode] at h
  split at h
  · cases h
  · next hnone =>
    cases h
    refine ⟨_, _, ?_, ?_, ?_, rfl⟩
    · intro m hm
      have hcontains := find?_eq_none.1 hnone m hm
      exact (contains_iff_mem_ids _ m).1 (by simpa using hcontains)
    · intro c
      rw [NatSet.mem_ofList, mem_append, mem_flatMap]
      refine or_congr (exists_congr fun m => and_congr_right fun _ => mem_append) ?_
      split
      · next hsink => exact ⟨fun hc => ⟨hsink, mem_filterMap_column.1 hc⟩,
          fun hc => mem_filterMap_column.2 hc.2⟩
      · next hsink => exact ⟨fun hc => absurd hc not_mem_nil, fun hc => absurd hc.1 hsink⟩
    · intro c
      rw [NatSet.mem_ofList, mem_filter]
      refine and_congr mem_filterMap_column ?_
      rw [Bool.not_eq_true', ← Bool.not_eq_true, contains_iff_mem]

/-- What is left of a graph when the operators `done` are marked: what is needed after them is
known, the rest of their columns is noted as dead, and nothing else changed. -/
structure Marked (g : Dag) (done : List Nat) (l : Liveness) : Prop where
  edges : l.graph.edges = g.edges
  sink : l.graph.sink = g.sink
  ids : l.graph.ids = g.ids
  fields : ∀ id, l.graph.fieldsAt id = g.fieldsAt id
  reads : ∀ id, l.graph.readsAt id = g.readsAt id
  after : ∀ id ∈ done, ∀ c, c ∈ (l.after.get? id).getD [] ↔ Needed g id c
  dead : ∀ id ∈ done, ∀ c, c ∈ l.graph.deadAt id ↔ (∃ k, g.columnAt id k = some c) ∧ ¬Needed g id c

/-- **Marking one operator** after all of its consumers. -/
theorem Marked.step {l l' : Liveness} (hl : Marked g done l) (hid : id ∈ g.ids) (hfresh : id ∉ done)
    (hconsumers : ∀ m ∈ g.ids, id ∈ g.producers m → m ∈ done)
    (h : markNode l id = .ok l') : Marked g (id :: done) l' := by
  obtain ⟨hedges, hsink, -, houtline⟩ := markNode_eq_ok h
  obtain ⟨live, dead, hmem, hlive, hdead, rfl⟩ := markNode_cases h
  have hcolumn : ∀ k, l.graph.columnAt id k = g.columnAt id k :=
    fun k => by rw [columnAt, columnAt, hl.fields]
  have hconsumer : ∀ m, m ∈ l.graph.consumers id ↔ m ∈ g.consumers id := by
    intro m
    rw [consumers, consumers, hl.edges]
  have hneeded : ∀ c, c ∈ live ↔ Needed g id c := by
    intro c
    rw [hlive, hl.sink]
    constructor
    · rintro (⟨m, hm, hc⟩ | ⟨hs, k, hk⟩)
      · have hdone : m ∈ done :=
          hconsumers m (hl.ids ▸ hmem m hm) (mem_consumers.1 ((hconsumer m).1 hm))
        rw [hl.reads, hl.after m hdone] at hc
        rcases hc with hc | hc
        · exact .read ((hconsumer m).1 hm) hc
        · exact .after ((hconsumer m).1 hm) hc
      · exact .sink hs (hcolumn k ▸ hk)
    · intro hc
      cases hc with
      | @sink _ _ k hs own => exact .inr ⟨hs, k, (hcolumn k).trans own⟩
      | @read _ m _ consumer read =>
        exact .inl ⟨m, (hconsumer m).2 consumer, .inl (hl.reads m ▸ read)⟩
      | @after _ m _ consumer needed =>
        have hm := (hconsumer m).2 consumer
        have hdone : m ∈ done := hconsumers m (hl.ids ▸ hmem m hm) (mem_consumers.1 consumer)
        exact .inl ⟨m, hm, .inr ((hl.after m hdone c).2 needed)⟩
  refine ⟨hedges.trans hl.edges, hsink.trans hl.sink, (ids_modify _ _ _).trans hl.ids,
    fun m => (fieldsAt_of_outline houtline m).trans (hl.fields m),
    fun m => (readsAt_modify_dead _ id dead m).trans (hl.reads m), ?_, ?_⟩
  · intro m hm c
    rw [Table.get?_put]
    split
    · next heq =>
      subst heq
      exact hneeded c
    · next hne => exact hl.after m ((mem_cons.1 hm).resolve_left (Ne.symm hne)) c
  · intro m hm c
    by_cases heq : m = id
    · subst heq
      obtain ⟨node, hnode⟩ := node?_of_mem_ids (hl.ids.symm ▸ hid : m ∈ l.graph.ids)
      rw [deadAt, node?_modify_self hnode]
      simp only [map_some, getD_some, hdead, hcolumn, hneeded]
    · rw [deadAt, node?_modify_of_ne heq]
      exact hl.dead m ((mem_cons.1 hm).resolve_left heq) c

/-! ### Annotated graphs -/

variable {bound : Option (List TupleType)} {types : GraphTypes}

/-- Annotating an operator after its producers notes the columns that it reads, and keeps those of
the operators before it. -/
theorem Progress.readsAt {inner : Table (GraphTypes → Except Interruption Dag)} {reached : Dag}
    (hprogress : g.Progress types done reached) (hfresh : id ∉ done)
    (hproducers : ∀ q ∈ g.producers id, q ∈ done)
    (hreads : ∀ m ∈ done, ∀ node, g.node? m = some node →
      reached.readsAt m = node.kind.reads ((g.producers m).map reached.fieldsAt))
    (h : annotateNode types inner reached id = .ok g') :
      ∀ m ∈ done ++ [id], ∀ node, g.node? m = some node →
      g'.readsAt m = node.kind.reads ((g.producers m).map g'.fieldsAt) := by
  obtain ⟨node', _, _, ha⟩ := annotates_of_annotateNode h
  have hfields : ∀ q ∈ done, g'.fieldsAt q = reached.fieldsAt q :=
    fun q hq => ha.fieldsAt_of_ne fun heq => hfresh (heq ▸ hq)
  intro m hm node hnode
  rw [mem_append, mem_singleton] at hm
  rcases hm with hm | rfl
  · rw [Graph.readsAt, ha.others m fun heq => hfresh (heq ▸ hm),
      map_congr_left fun q hq => hfields q (hprogress.closed m hm q hq)]
    exact hreads m hm node hnode
  · obtain rfl := mem_unique hnode (hprogress.untouched m hfresh ▸ ha.found)
    rw [Graph.readsAt, ha.placed, map_congr_left fun q hq => hfields q (hproducers q hq)]
    exact ha.reads.trans (by rw [inputFields, producers_of_edges hprogress.edges]; rfl)

/-- **In an annotated graph, every operator is noted with the columns that it reads, and its dead
columns are those of its columns that are not needed.** -/
theorem marked_of_annotateWith (hnodup : g.ids.Nodup) (htypes : g.typesWithin bound = .ok types)
    (h : g.annotateWith types = .ok g') :
    (∀ id node, g.node? id = some node →
      g'.readsAt id = node.kind.reads ((g.producers id).map g'.fieldsAt)) ∧
      ∀ id ∈ g.ids, ∀ c, c ∈ g'.deadAt id ↔ (∃ k, g'.columnAt id k = some c) ∧ ¬Needed g' id c := by
  obtain ⟨order, noted, marked, horder, hprogress, hreads, hmarked, rfl⟩ :=
    annotateWith_induction hnodup htypes (P := fun done reached => ∀ id ∈ done, ∀ node,
      g.node? id = some node →
      reached.readsAt id = node.kind.reads ((g.producers id).map reached.fieldsAt))
    (fun _ _ _ _ _ hfresh hproducers hprogress hreads => hprogress.readsAt hfresh hproducers hreads)
      nofun h
  have hids : noted.ids = g.ids := ids_eq_of_shells hprogress.shells
  have hwalk : Marked noted order marked := by
    refine foldlM_reverse_induction horder hnodup (P := Marked noted)
      (fun done id l l' hid hfresh hconsumers hl hl' => ?_)
      ⟨rfl, rfl, rfl, fun _ => rfl, fun _ => rfl, nofun, nofun⟩ hmarked
    refine hl.step (hids.symm ▸ hid) hfresh (fun m hm hproducer => ?_) hl'
    exact hconsumers m (hids ▸ hm) (producers_of_edges hprogress.edges m ▸ hproducer)
  have hfields : marked.graph.fieldsAt = noted.fieldsAt := funext hwalk.fields
  refine ⟨fun id node hnode => ?_, fun id hid c => ?_⟩
  · rw [hwalk.reads, hfields]
    exact hreads id ((mem_order_iff horder).2 (mem_ids_of_node? hnode)) node hnode
  · rw [hwalk.dead id ((mem_order_iff horder).2 hid)]
    simp only [columnAt, hfields]
    refine and_congr_right fun _ => not_congr ⟨fun hc => ?_, fun hc => ?_⟩
    · exact hc.congr hwalk.edges hwalk.sink hwalk.fields hwalk.reads
    · exact hc.congr hwalk.edges.symm hwalk.sink.symm (fun id => (hwalk.fields id).symm) fun id =>
        (hwalk.reads id).symm

end Dataflow.Graph
