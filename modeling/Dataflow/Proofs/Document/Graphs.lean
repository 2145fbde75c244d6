/-
**Graphs are read as they were written.**

The document of a graph has a record for each operator, in topological order.  Reading it adds the
operators by their records and then connects them, record by record; at the end it chooses the sink.
What is read is a copy of the graph, and a copy has the same document.

Main results:

* `Graph.toJson_eq_ok` — the document of a graph;
* `Graph.copied_of_document` — one level of a graph is read as it was written;
* `Graph.ofJson_toJson` — **a graph is read as it was written**, and written as it was read.
-/

import Dataflow.Graph.Document
import Dataflow.Proofs.Document.Copy
import Dataflow.Proofs.Graph.Building

namespace Dataflow

open List Option Outcome Table

theorem Table.get?_map_fst {α β : Type} {t : Table α} {f : Nat → β} {n : Nat}
    (h : ∃ e ∈ t, e.1 = n) :
    get? (t.map fun e => (e.1, f e.1)) n = some (f n) := by
  induction t with
  | nil => simp at h
  | cons e t ih =>
    rw [map_cons, get?_cons]
    split
    · next hn => rw [hn]
    · next hn =>
      obtain ⟨d, hd, hdn⟩ := h
      obtain rfl | hd := mem_cons.1 hd
      · exact absurd hdn hn
      · exact ih ⟨d, hd, hdn⟩

theorem Catalog.tag?_standard (tag : Tag) : Catalog.tag? .standard tag.name = some tag := by
  cases tag <;> decide

namespace Graph

variable {g : Dag} {docs : Nat → Json} {inside : Nat → Dag}
  {node : Node Operator} {order : List Nat}

/-! ### Writing -/

/-- The entries of the record of an operator, given the documents of the graphs of pipelines. -/
def recordEntries (g : Dag) (docs : Nat → Json) (node : Node Operator) : List (String × Json) :=
  [("id", .ofNat node.id), ("op", .string node.kind.tag.name),
    ("predecessors", .array ((g.producers node.id).map Json.ofNat))] ++
  match node.kind with
  | .primitive p => p.members
  | .pipeline inputs _ => [("num_inputs", .ofNat inputs), ("inner_dag", docs node.id)]

/-- The document of a graph, given its order and the documents of the graphs of pipelines. -/
def document (g : Dag) (docs : Nat → Json) (order : List Nat) : Json :=
  .object [("dag", .array
    ((order.filterMap g.node?).map fun n => .ofEntries (g.recordEntries docs n))),
    ("sink", .ofOption .ofNat g.sink)]

theorem record_eq_ofEntries {inner : Table Json}
    (hinner : ∀ n h, node.kind = .pipeline n h → inner.get? node.id = some (docs node.id)) :
    g.record inner node = .ofEntries (g.recordEntries docs node) := by
  rw [record, recordEntries]
  cases hkind : node.kind with
  | primitive p => rfl
  | pipeline n h => rw [hinner n h hkind, getD_some]

theorem toJson_eq (g : Dag) : g.toJson = (do
    let order ← g.order
    let inner ← ((order.filterMap g.node?).filterMap fun n =>
      (get? (g.inner.map fun e => (e.1, e.2.toJson)) n.id).map (n.id, ·)).mapM
        fun (id, json) =>
        return (id, ← json)
    return .object [("dag", .array ((order.filterMap g.node?).map (g.record inner))),
      ("sink", .ofOption .ofNat g.sink)]) :=
  fold_eq _ g

/-- **The document of a graph** comes from its order and the documents of the graphs inside. -/
theorem toJson_eq_ok (hascending : g.ids.Pairwise (· < ·)) (horder : g.order = .ok order)
    (hdocs : ∀ id h, g.inner? id = some h → h.toJson = .ok (docs id)) :
    g.toJson = .ok (g.document docs order) := by
  -- The documents of the graphs inside are collected in a table, from which the records take them.
  have hinner : ∃ inner, ((order.filterMap g.node?).filterMap fun n =>
      (get? (g.inner.map fun e => (e.1, e.2.toJson)) n.id).map (n.id, ·)).mapM
        (fun (id, json) => return (id, ← json)) = (.ok inner : Outcome (Table Json)) ∧
      ∀ n ∈ order.filterMap g.node?, ∀ m h, n.kind = .pipeline m h →
        get? inner n.id = some (docs n.id) := by
    refine ⟨_, mapM_ok (g := fun e => (e.1, docs e.1)) fun e he => ?_, fun n hn m h hkind => ?_⟩
    · obtain ⟨n, -, he⟩ := mem_filterMap.1 he
      obtain ⟨_, hget, rfl⟩ := map_eq_some_iff.1 he
      rw [get?_map, map_eq_some_iff] at hget
      obtain ⟨h, hget, rfl⟩ := hget
      have hid : g.inner? n.id = some h := inner?_of_mem_inner hascending (mem_of_get? hget)
      simp only [hdocs n.id h hid]
      rfl
    · obtain ⟨id, -, hnode⟩ := mem_filterMap.1 hn
      obtain rfl := id_eq_of_node? hnode
      refine get?_map_fst ⟨(n.id, h.toJson), mem_filterMap.2 ⟨n, hn, ?_⟩, rfl⟩
      rw [get?_map, get?_inner (inner?_eq_some_iff.2 ⟨n, m, hnode, hkind⟩)]
      rfl
  obtain ⟨inner, hcollected, hdocument⟩ := hinner
  rw [toJson_eq, horder, ok_bind, hcollected, ok_bind, pure_eq_ok, document,
    map_congr_left fun n hn => record_eq_ofEntries (hdocument n hn)]

/-! ### Records -/

theorem nodup_recordEntries (g : Dag) (docs : Nat → Json) (node : Node Operator) :
    ((g.recordEntries docs node).map (·.1)).Nodup := by
  rw [recordEntries, map_append]
  cases node.kind with
  | primitive p => exact p.nodup_keys
  | pipeline n h => simp

theorem get?_record {key : String} {value : Json} :
    (Json.ofEntries (g.recordEntries docs node)).get? key = some value ↔
      (key, value) ∈ g.recordEntries docs node :=
  Json.get?_ofEntries (nodup_recordEntries g docs node)

theorem innerOf_eq (catalog : Catalog) (record : Json) :
    innerOf catalog record = (record.get? "inner_dag").map (ofJson catalog) := by
  cases record with
  | object members =>
    rw [innerOf, Json.get?]
    induction members with
    | nil => rfl
    | cons m members ih =>
      obtain ⟨key, value⟩ := m
      rw [innerAmong, Json.find?_cons_key, ih]
      split <;> rfl
  | _ => rfl

theorem withInnerOf_eq_map (catalog : Catalog) (records : List Json) :
    withInnerOf catalog records = records.map fun record => (record, innerOf catalog record) := by
  induction records with
  | nil => rfl
  | cons record records ih => rw [withInnerOf, ih, map_cons]

variable {catalog : Catalog} {nodes : List (Node Operator)} {inner : Option (Outcome Dag)}
  {records before entries : List Entry} {inputs sink chosen : Option Nat}
  {added : Dag} {taken : List Nat}

theorem build_primitive {p : Primitive} {record : Json}
    (htag : catalog.tag? p.tag.name = some p.tag) (hread : Primitive.ofJson? p.tag record = some p)
    (hcheck : p.check = .ok ()) : build catalog p.tag.name record inner = .ok (.primitive p) := by
  rw [build, htag]
  cases p <;>
    simp only [Primitive.tag] at hread ⊢ <;>
    simp [hread, hcheck, Operator.check, Outcome.ofOption, Except.mapError]

theorem build_record (hfinite : node.kind.isFinite = true) (hcheck : node.kind.check = .ok ())
    (hinside : ∀ n h, node.kind = .pipeline n h →
      ofJson .standard (docs node.id) = .ok (inside node.id)) :
    build .standard node.kind.tag.name (.ofEntries (g.recordEntries docs node))
      (innerOf .standard (.ofEntries (g.recordEntries docs node))) =
      .ok (node.copy inside).kind := by
  obtain ⟨id, kind, note⟩ := node
  cases kind with
  | primitive p =>
    refine build_primitive (Catalog.tag?_standard p.tag)
      (Primitive.ofJson?_members hfinite ?_ ?_) hcheck
    · intro key value hmem
      exact get?_record.2 (mem_append_right _ hmem)
    · intro hnone
      rw [eq_none_iff_forall_ne_some]
      intro value hvalue
      obtain hmem | hmem := mem_append.1 (get?_record.1 hvalue)
      · simp at hmem
      · exact hnone value hmem
  | pipeline n h =>
    have hinputs : (Json.ofEntries (g.recordEntries docs ⟨id, .pipeline n h, note⟩)).get?
      "num_inputs" =
        some (.ofNat n) := get?_record.2 (by simp [recordEntries])
    have hinner : (Json.ofEntries (g.recordEntries docs ⟨id, .pipeline n h, note⟩)).get?
      "inner_dag" =
        some (docs id) := get?_record.2 (by simp [recordEntries])
    have htag : Catalog.tag? .standard (Operator.pipeline n h).tag.name = some .pipeline :=
      Catalog.tag?_standard .pipeline
    rw [build, htag, innerOf_eq, hinner, map_some, hinside n h rfl, Json.member?, hinputs]
    rfl

theorem readRecord_eq_ok {index : Nat} {members : List (String × Json)}
    {entry : Entry} {tag : String} (hid : (Json.object members).get? "id" = some (.ofNat entry.id))
    (hfresh : entry.id ∉ taken) (htag : (Json.object members).get? "op" = some (.string tag))
    (hproducers : (Json.object members).get? "predecessors" =
      some (.array (entry.producers.map .ofNat)))
    (hbuild : build catalog tag (.object members) inner = .ok entry.operator) :
    readRecord catalog taken index (.object members) inner = .ok entry := by
  have hlist : (entry.producers.map Json.ofNat).mapM (idOfJson "predecessor") =
      .ok entry.producers := by
    rw [mapM_eq_ok_iff, forall₂_map_left_iff, forall₂_same]
    exact fun _ _ => rfl
  simp only [readRecord, hid, htag, hproducers, hlist, hbuild, idOfJson,
    Json.nat?_ofNat, Outcome.ofOption, bind_some, Json.string?, pure_eq_ok, ok_bind, if_neg hfresh]

/-- Records that are read one by one are read one after the other, if their numbers are
different. -/
theorem readRecords_eq_ok {α : Type} {record : α → Json × Option (Outcome Dag)}
    {entry : α → Entry} {items : List α} (hread : ∀ a ∈ items, ∀ taken index, (entry a).id ∉ taken →
      readRecord catalog taken index (record a).1 (record a).2 = .ok (entry a))
    (hids : ((before ++ items.map entry).map (·.id)).Nodup) :
    readRecords catalog before (items.map record) = .ok (before ++ items.map entry) := by
  induction items generalizing before with
  | nil => rw [map_nil, map_nil, append_nil, readRecords, pure_eq_ok]
  | cons a items ih =>
    have hfresh : (entry a).id ∉ before.map (·.id) := by
      rw [map_append, map_cons, map_cons, nodup_append'] at hids
      exact fun hmem => hids.2.2 hmem mem_cons_self
    have hmiddle : before ++ (a :: items).map entry =
      before ++ [entry a] ++ items.map entry := by simp
    rw [map_cons, readRecords, hread a mem_cons_self _ _ hfresh, ok_bind]
    rw [hmiddle] at hids ⊢
    exact ih (fun b hb => hread b (mem_cons_of_mem _ hb)) hids

/-! ### Edges -/

/-- The edges that a record stands for, from slot 0 on. -/
def Entry.edges (entry : Entry) : List Edge :=
  entry.producers.mapIdx fun slot source => ⟨source, 0, entry.id, slot⟩

theorem Entry.mem_edges {entry : Entry} {e : Edge} : e ∈ entry.edges ↔
    e.sourceSlot = 0 ∧ e.target = entry.id ∧ entry.producers[e.targetSlot]? = some e.source := by
  obtain ⟨source, sourceSlot, target, targetSlot⟩ := e
  simp only [edges, mem_mapIdx, Edge.mk.injEq, List.getElem?_eq_some_iff]
  constructor
  · rintro ⟨slot, hslot, rfl, rfl, rfl, rfl⟩
    exact ⟨rfl, rfl, hslot, rfl⟩
  · rintro ⟨rfl, rfl, hslot, rfl⟩
    exact ⟨targetSlot, hslot, rfl, rfl, rfl, rfl⟩

theorem Entry.ports (entry : Entry) :
    entry.edges.map Edge.port = (List.range entry.producers.length).map (Prod.mk entry.id) := by
  refine ext_getElem (by simp [edges]) fun slot _ _ => ?_
  simp [edges, Edge.port]

/-- The edges of records with different numbers enter different slots. -/
theorem nodup_ports (h : (records.map (·.id)).Nodup) :
    ((records.flatMap Entry.edges).map Edge.port).Nodup := by
  rw [map_flatMap, nodup_flatMap]
  constructor
  · intro entry _
    rw [entry.ports]
    exact nodup_range.map (Prod.mk_right_injective entry.id)
  · rw [Nodup, pairwise_map] at h
    refine h.imp fun {a b} hne => ?_
    simp only [Function.onFun, Entry.ports]
    intro port ha hb
    obtain ⟨_, -, rfl⟩ := List.mem_map.1 ha
    obtain ⟨_, -, heq⟩ := List.mem_map.1 hb
    exact hne (Prod.mk.inj heq).1.symm

/-- **Records can be wired** if they have as many producers as their operators have inputs, all of
them operators of the graph, and their edges go upwards along a rank. -/
theorem foldlM_wire (rank : Nat → Nat)
    (hproducers : ∀ entry ∈ records, ∀ q ∈ entry.producers, g.contains q = true)
    (hinputs : ∀ entry ∈ records, ∃ node, g.node? entry.id = some node ∧
      entry.producers.length = node.kind.inputs)
    (honce : ((g.edges ++ records.flatMap Entry.edges).map Edge.port).Nodup)
    (hrank : ∀ e ∈ g.edges ++ records.flatMap Entry.edges, rank e.source < rank e.target) :
    records.foldlM wire g = .ok { g with edges := g.edges ++ records.flatMap Entry.edges } := by
  induction records generalizing g with
  | nil =>
    rw [flatMap_nil, append_nil]
    rfl
  | cons entry records ih =>
    rw [flatMap_cons, ← List.append_assoc] at honce hrank ⊢
    obtain ⟨node, hnode, hlength⟩ := hinputs entry mem_cons_self
    have hslots : ∀ e ∈ entry.edges, g.checkSlots e = .ok () := by
      intro e he
      obtain ⟨hout, htarget, hsource⟩ := Entry.mem_edges.1 he
      obtain ⟨source, hnode'⟩ := isSome_iff_exists.1
        (hproducers entry mem_cons_self e.source (mem_of_getElem? hsource))
      refine checkSlots_eq_ok_iff.2 ⟨source, node, hnode', htarget ▸ hnode, ?_, ?_⟩
      · rw [hout]
        exact Nat.one_pos
      · rw [← hlength]
        exact (List.getElem?_eq_some_iff.1 hsource).1
    have hwire : g.wire entry = .ok { g with edges := g.edges ++ entry.edges } := by
      have hnone : entry.producers.find? (fun p => !g.contains p) = none := by
        rw [find?_eq_none]
        intro q hq
        simp [hproducers entry mem_cons_self q hq]
      rw [wire, hnone]
      simp only [ok_bind, get, hnode, Outcome.ofOption, hlength, ne_eq, not_true_eq_false, if_false]
      refine foldlM_connect rank hslots ?_ fun e he => hrank e (mem_append_left _ he)
      rw [map_append] at honce
      exact (nodup_append'.1 honce).1
    rw [foldlM_cons, hwire, ok_bind]
    exact ih (fun e he => hproducers e (mem_cons_of_mem _ he))
      (fun e he => hinputs e (mem_cons_of_mem _ he)) honce hrank

/-! ### One level -/

/-- One level of a graph that was checked: it is wired and has an order, its edges leave slot 0, and
its operators have sound configurations. -/
structure Orderly (g : Dag) : Prop where
  wired : g.Wired
  ordered : ∃ order, g.order = .ok order
  slots : ∀ e ∈ g.edges, e.sourceSlot = 0
  checked : ∀ n ∈ g.nodes, n.kind.check = .ok ()

/-- What reading asks of one level of a graph: it is wired and has an order, its edges leave slot 0,
and its operators have sound configurations with finite constants. -/
structure Writable (g : Dag) : Prop where
  wired : g.Wired
  ordered : ∃ order, g.order = .ok order
  slots : ∀ e ∈ g.edges, e.sourceSlot = 0
  checked : ∀ n ∈ g.nodes, n.kind.check = .ok ()
  finite : ∀ n ∈ g.nodes, n.kind.isFinite = true

/-- What the record of a node says. -/
def entry (g : Dag) (inside : Nat → Dag) (n : Node Operator) : Entry :=
  ⟨n.id, (n.copy inside).kind, g.producers n.id⟩

theorem perm_written (hascending : g.ids.Pairwise (· < ·)) (horder : g.order = .ok order) :
    (order.filterMap g.node?).Perm g.nodes := by
  have hids : g.ids.filterMap g.node? = g.nodes := by
    rw [ids, filterMap_map]
    exact (filterMap_congr fun n hn => node?_of_mem hascending hn).trans filterMap_some
  rw [← hids]
  exact (perm_order horder).filterMap g.node?

theorem producer?_of_mem_edges (hg : g.Wired) {e : Edge} (he : e ∈ g.edges) :
    g.producer? e.target e.targetSlot = some e.source :=
  (producer?_eq_some_iff hg.once).2 ⟨e, he, rfl, rfl⟩

theorem perm_edges (hg : g.Wired) (hslots : ∀ e ∈ g.edges, e.sourceSlot = 0)
    (hnodes : nodes.Perm g.nodes) :
    ((nodes.map (g.entry inside)).flatMap Entry.edges).Perm g.edges := by
  have hids : ((nodes.map (g.entry inside)).map (·.id)).Nodup := by
    rw [List.map_map]
    exact (hnodes.map _).nodup_iff.2 (hg.ascending.imp Nat.ne_of_lt)
  -- Neither list has an edge twice, so it is enough that they have the same ones.
  rw [perm_ext_iff_of_nodup (nodup_ports hids).of_map hg.once.of_map]
  intro e
  simp only [mem_flatMap, List.mem_map, hnodes.mem_iff]
  constructor
  · rintro ⟨_, ⟨n, hn, rfl⟩, he⟩
    obtain ⟨hout, htarget, hsource⟩ := Entry.mem_edges.1 he
    have hid : n.id ∈ g.ids := List.mem_map.2 ⟨n, hn, rfl⟩
    rw [entry, hg.getElem?_producers hid, producer?_eq_some_iff hg.once] at hsource
    obtain ⟨f, hf, hport, hsource⟩ := hsource
    obtain rfl : f = e := by
      obtain ⟨htarget', hslot⟩ := Prod.mk.inj hport
      have hout' := hslots f hf
      cases f
      cases e
      simp_all [entry]
    exact hf
  · intro he
    have hproducer := producer?_of_mem_edges hg he
    have hid := (hg.feeds _ _ _ hproducer).1
    obtain ⟨n, hn, hnid⟩ := List.mem_map.1 hid
    refine ⟨_, ⟨n, hn, rfl⟩, Entry.mem_edges.2 ⟨hslots e he, hnid.symm, ?_⟩⟩
    rw [entry, hnid, hg.getElem?_producers hid]
    exact hproducer

theorem readSink_eq_ok (h : ∀ id, sink = some id → g.contains id = true) :
    g.readSink (some (.ofOption .ofNat sink)) = .ok sink := by
  cases sink with
  | none => rfl
  | some id =>
    show (if g.contains id = true then Except.ok (some id) else _) = _
    rw [if_pos (h id rfl)]

/-- The records of a graph say what its operators are. -/
theorem readRecords_document (hg : g.Writable) (hnodes : nodes.Perm g.nodes)
    (hinside : ∀ id h, g.inner? id = some h → ofJson .standard (docs id) = .ok (inside id)) :
    readRecords .standard []
    (withInnerOf .standard (nodes.map fun n => .ofEntries (g.recordEntries docs n))) =
      .ok (nodes.map (g.entry inside)) := by
  rw [withInnerOf_eq_map, List.map_map]
  show _ = Except.ok ([] ++ nodes.map (g.entry inside))
  refine readRecords_eq_ok (fun n hn taken index hfresh => ?_) ?_
  · have hmem := hnodes.mem_iff.1 hn
    have hfound := node?_of_mem hg.wired.ascending hmem
    refine readRecord_eq_ok (get?_record.2 ?_) hfresh (get?_record.2 ?_) (get?_record.2 ?_)
      (build_record (hg.finite n hmem) (hg.checked n hmem) fun m h hkind => ?_)
    · simp [recordEntries, entry]
    · exact mem_append_left _ (by simp)
    · simp [recordEntries, entry]
    · exact hinside n.id h (inner?_eq_some_iff.2 ⟨n, m, hfound, hkind⟩)
  · rw [nil_append, List.map_map]
    exact (hnodes.map _).nodup_iff.2 (hg.wired.ascending.imp Nat.ne_of_lt)

/-- Nodes in ascending order of their numbers are determined by their set. -/
theorem eq_of_perm_of_ascending {nodes nodes' : List (Node Operator)} (h : nodes.Perm nodes')
    (hascending : (nodes.map (·.id)).Pairwise (· < ·))
    (hascending' : (nodes'.map (·.id)).Pairwise (· < ·)) :
    nodes = nodes' := by
  rw [pairwise_map] at hascending hascending'
  exact h.eq_of_pairwise (fun a b _ _ hab hba => absurd hab (Nat.lt_asymm hba))
    hascending hascending'

theorem foldlM_wire_entries (hg : g.Wired) (hnodes : nodes.Perm g.nodes) (hempty : added.edges = [])
    (hcopied : Copied inside g
      { added with edges := (nodes.map (g.entry inside)).flatMap Entry.edges, sink := g.sink }) :
    (nodes.map (g.entry inside)).foldlM wire added =
      .ok { added with edges := (nodes.map (g.entry inside)).flatMap Entry.edges } := by
  obtain ⟨rank, hrank⟩ := hg.acyclic
  have hedges : added.edges ++ (nodes.map (g.entry inside)).flatMap Entry.edges =
      (nodes.map (g.entry inside)).flatMap Entry.edges := by rw [hempty, nil_append]
  rw [← hedges] at hcopied ⊢
  refine foldlM_wire rank ?_ ?_ ?_ ?_
  · intro entry hentry q hq
    obtain ⟨n, -, rfl⟩ := List.mem_map.1 hentry
    exact (hcopied.contains q).trans ((contains_iff_mem_ids g q).2 (hg.mem_of_mem_producers hq))
  · intro entry hentry
    obtain ⟨n, hn, rfl⟩ := List.mem_map.1 hentry
    have hfound := node?_of_mem hg.ascending (hnodes.mem_iff.1 hn)
    refine ⟨n.copy inside, ?_, (hg.length_producers hfound).trans ?_⟩
    · exact (hcopied.node? n.id).trans (by rw [hfound, map_some])
    · rw [Node.copy]
      cases n.kind <;> rfl
  · exact (hcopied.edges.map Edge.port).nodup_iff.2 hg.once
  · intro e he
    exact hrank _ _ _ (producer?_of_mem_edges hg (hcopied.edges.mem_iff.1 he))

theorem assemble_eq_ok {records : List (Json × Option (Outcome Dag))} {sink : Option Json}
    {wired : Dag} (hentries : readRecords catalog [] records = .ok entries)
    (hadded : entries.foldlM (fun g entry => g.addAt entry.id entry.operator) empty = .ok added)
    (hwired : entries.foldlM wire added = .ok wired) (hsink : wired.readSink sink = .ok chosen) :
    assemble catalog (some records) sink = .ok { wired with sink := chosen } := by
  rw [assemble, Outcome.ofOption, ok_bind, hentries, ok_bind, hadded, ok_bind,
    hwired, ok_bind, hsink]
  rfl

/-- **One level of a graph is read as it was written**, if the graphs inside are. -/
theorem copied_of_document (hg : g.Writable) (horder : g.order = .ok order)
    (hinside : ∀ id h, g.inner? id = some h → ofJson .standard (docs id) = .ok (inside id)) :
    ∃ e, ofJson .standard (g.document docs order) = .ok e ∧ Copied inside g e := by
  have hwritten := perm_written hg.wired.ascending horder
  have hentries := readRecords_document hg hwritten hinside
  have hids : ((order.filterMap g.node?).map (g.entry inside) |>.map (·.id)).Nodup := by
    rw [List.map_map]
    exact (hwritten.map _).nodup_iff.2 (hg.wired.ascending.imp Nat.ne_of_lt)
  obtain ⟨added, hadded, hascending, hperm, hempty⟩ :=
    foldlM_addAt Entry.id Entry.operator _ (g := empty) Pairwise.nil hids
  -- The records are in topological order; adding puts the operators back in that of their numbers.
  have hcopy : added.nodes = g.nodes.map (Node.copy inside) := by
    refine eq_of_perm_of_ascending (hperm.trans ?_) hascending ?_
    · rw [List.map_map]
      exact hwritten.map _
    · rw [List.map_map]
      exact hg.wired.ascending
  have hcopied : Copied inside g { added with
      edges := ((order.filterMap g.node?).map (g.entry inside)).flatMap Entry.edges, sink :=
        g.sink } :=
    ⟨hcopy, perm_edges hg.wired hg.slots hwritten, rfl⟩
  refine ⟨_, ?_, hcopied⟩
  rw [document, ofJson, recordsOf, if_pos rfl, recordsIn]
  refine assemble_eq_ok hentries hadded (foldlM_wire_entries hg.wired hwritten hempty hcopied)
    (readSink_eq_ok fun id hid => ?_)
  exact (hcopied.contains id).trans ((contains_iff_mem_ids g id).2 (hg.wired.sink id hid))

/-! ### All levels -/

theorem document_of_copied {e : Dag} (hg : g.Wired) (h : Copied inside g e) :
    e.document docs order = g.document docs order := by
  have hentries : ∀ n ∈ order.filterMap g.node?, e.recordEntries docs (n.copy inside) =
      g.recordEntries docs n := by
    intro n hn
    obtain ⟨id, -, hnode⟩ := mem_filterMap.1 hn
    obtain rfl := id_eq_of_node? hnode
    have hproducers := h.producers hg (mem_ids_of_node? hnode)
    obtain ⟨id, kind, note⟩ := n
    cases kind <;> simp only [recordEntries, Node.copy, Operator.withInner,
      Operator.tag, hproducers]
  have hnodes : order.filterMap e.node? = (order.filterMap g.node?).map (Node.copy inside) := by
    rw [map_filterMap]
    exact filterMap_congr fun id _ => h.node? id
  rw [document, document, hnodes, List.map_map, h.sink]
  refine congrArg (fun records => Json.object [("dag", .array records), _]) (map_congr_left ?_)
  intro n hn
  rw [Function.comp_apply, hentries n hn]

/-- A graph that passes the checks that let its sinks be open is orderly at every level. -/
theorem orderly_of_checkOpenWithin (hg : g.Numbered)
    (h : g.checkOpenWithin inputs = .ok ()) : g.Everywhere Orderly := by
  have hwired := wired_of_checkOpenWithin hg h
  induction hg generalizing inputs with
  | @intro g hascending _ ih =>
    simp only [checkOpenWithin_eq, bind_eq_ok_iff] at h
    obtain ⟨_, hedges, _, hnodes, order, horder, -⟩ := h
    rw [forM_eq_ok_iff] at hnodes
    have hcheck : ∀ id n, g.node? id = some n → n.kind.check = .ok () ∧
        ∀ m h, n.kind = .pipeline m h → h.checkOpenWithin (some m) = .ok () := by
      intro id n hn
      obtain ⟨-, hcheck, -, hinner⟩ :=
        (checkNode_eq_ok_iff checkOpenWithin hn).1 (hnodes n (mem_of_node? hn))
      exact ⟨hcheck, hinner⟩
    refine ⟨⟨hwired.here, ⟨order, horder⟩, fun e he => ?_, fun n hn => ?_⟩, fun id h hid => ?_⟩
    · obtain ⟨source, -, -, -, hout, -⟩ :=
        checkSlots_eq_ok_iff.1 ((checkEdges_eq_ok_iff.1 hedges).1 e he)
      exact Nat.lt_one_iff.1 hout
    · exact (hcheck n.id n (node?_of_mem hascending hn)).1
    · obtain ⟨n, m, hn, hkind⟩ := inner?_eq_some_iff.1 hid
      exact ih id h hid ((hcheck id n hn).2 m h hkind) (hwired.inside hid)

/-- If its constants are finite too, it can be written at every level. -/
theorem writable_of_checkOpenWithin (hg : g.Numbered) (hfinite : g.Finite)
    (h : g.checkOpenWithin inputs = .ok ()) : g.Everywhere Writable := by
  have hlevels := orderly_of_checkOpenWithin hg h
  clear hg h
  induction hlevels with
  | intro hlevel _ ih =>
    exact ⟨⟨hlevel.wired, hlevel.ordered, hlevel.slots, hlevel.checked, hfinite.here⟩,
      fun id h hid => ih id h hid (hfinite.inside hid)⟩

/-- What can be written is read as a copy, and the copy is written as the same document. -/
theorem exists_copy (h : g.Everywhere Writable) :
    ∃ j e, g.toJson = .ok j ∧ ofJson .standard j = .ok e ∧ Copies g e ∧ e.toJson = .ok j := by
  induction h with
  | @intro g hg _ ih =>
    -- The documents of the graphs inside and the copies read from them, by the numbers of the
    -- pipelines.
    have hinner : ∀ id, ∃ j e, ∀ h, g.inner? id = some h →
        h.toJson = .ok j ∧ ofJson .standard j = .ok e ∧ Copies h e ∧ e.toJson = .ok j := by
      intro id
      cases hid : g.inner? id with
      | none => exact ⟨.null, empty, nofun⟩
      | some h =>
        obtain ⟨j, e, hall⟩ := ih id h hid
        exact ⟨j, e, fun h' hh' => some.inj hh' ▸ hall⟩
    choose docs inside hinner using hinner
    obtain ⟨order, horder⟩ := hg.ordered
    obtain ⟨e, he, hcopied⟩ := copied_of_document hg horder fun id h hid => (hinner id h hid).2.1
    refine ⟨g.document docs order, e, ?_, he,
      ⟨inside, hcopied, fun id h hid => (hinner id h hid).2.2.1⟩, ?_⟩
    · exact toJson_eq_ok hg.wired.ascending horder fun id h hid => (hinner id h hid).1
    · rw [← document_of_copied hg.wired hcopied]
      refine toJson_eq_ok (hcopied.ids ▸ hg.wired.ascending)
        (hcopied.order.trans horder) fun id h hid => ?_
      rw [hcopied.inner?, map_eq_some_iff] at hid
      obtain ⟨h', hid', rfl⟩ := hid
      exact (hinner id h' hid').2.2.2

/-- **A graph is read as it was written.**  If a graph passes all checks, except that sinks may be
open, and its constants are finite, then it has a document, reading the document gives a copy of the
graph, which is equal to it, and the copy has the same document. -/
theorem ofJson_toJson {inputs : Option Nat} (hg : g.Numbered) (hfinite : g.Finite)
    (hcheck : g.checkOpenWithin inputs = .ok ()) :
    ∃ j e, g.toJson = .ok j ∧ ofJson .standard j = .ok e ∧ Copies g e ∧ g.same e = true ∧
      e.toJson = .ok j := by
  obtain ⟨j, e, hwritten, hread, hcopies, hagain⟩ :=
    exists_copy (writable_of_checkOpenWithin hg hfinite hcheck)
  exact ⟨j, e, hwritten, hread, hcopies, same_of_copies hg hfinite hcopies, hagain⟩

/-- The rows of the input with a first field above a number; there is no sink. -/
def aboveNumber (x : Float) : Dag where
  nodes := [⟨0, .primitive (.parameterLookup 0 none), {}⟩,
    ⟨2, .primitive (.filter (.binary .gt (.field 0 0) (.literal (.float x)))), {}⟩]
  edges := [⟨0, 0, 2, 0⟩]

/-- All pairs of an integer and a row that the pipeline leaves.  Some producers have greater numbers
than their consumers, and the edges are in another order than the slots. -/
def pairsAbove (x y : Float) : Dag where
  nodes := [⟨1, .pipeline 1 (aboveNumber x), {}⟩,
    ⟨3, .primitive (.constantTuple [.float y, .int (-4)]), {}⟩,
    ⟨4, .primitive (.range ⟨0, 10, 2⟩), {}⟩, ⟨7, .primitive .cartesian, {}⟩]
  edges := [⟨1, 0, 7, 1⟩, ⟨4, 0, 7, 0⟩, ⟨3, 0, 1, 0⟩]
  sink := some 7

theorem everywhere_pairsAbove {P : Dag → Prop} {x y : Float} (hhere : P (pairsAbove x y))
    (hinside : P (aboveNumber x)) : (pairsAbove x y).Everywhere P :=
  everywhere_of_inner hhere (forall_mem_singleton.2 (everywhere_of_inner hinside nofun))

theorem checkOpenWithin_pairsAbove (x y : Float) :
    (pairsAbove x y).checkOpenWithin none = .ok () := by
  cbv

/-- The pairs are read as they were written, with the sink of the pipeline open. -/
theorem pairsAbove_ofJson_toJson : (pairsAbove 0.5 0.75).Numbered ∧ (pairsAbove 0.5 0.75).Finite ∧
    (pairsAbove 0.5 0.75).checkOpenWithin none = .ok () ∧
    ∃ j e, (pairsAbove 0.5 0.75).toJson = .ok j ∧ ofJson .standard j = .ok e ∧
      Copies (pairsAbove 0.5 0.75) e ∧ (pairsAbove 0.5 0.75).same e = true ∧ e.toJson = .ok j := by
  have hnumbered : (pairsAbove 0.5 0.75).Numbered :=
    everywhere_pairsAbove (by simp [ids, pairsAbove]) (by simp [ids, aboveNumber])
  have hfinite : (pairsAbove 0.5 0.75).Finite :=
    everywhere_pairsAbove (List.all_eq_true.1 (by decide +kernel))
      (List.all_eq_true.1 (by decide +kernel))
  have hcheck := checkOpenWithin_pairsAbove 0.5 0.75
  exact ⟨hnumbered, hfinite, hcheck, ofJson_toJson hnumbered hfinite hcheck⟩

end Graph

end Dataflow
