/-
**Documents that describe graphs.**

A document is read in four steps: its records, the operators that they stand for, the edges, one by
one, and the sink.  Every step can refuse the document.  What the steps ask for together does not
depend on how they are taken: the numbers are different, the producers are operators of the
document, as many as there are inputs, no path along the edges comes back to where it started, and a
sink can be told.

Main results:

* `Graph.foldlM_wire_eq_ok_iff` — **when operators are connected**, whatever the order of the edges;
* `Graph.readSink_eq_ok_iff` — when a sink is told;
* `Graph.ofJson_eq_ok_iff` — one level of a document;
* `Graph.describes_iff` — **a document is read exactly as what it describes**.
-/

import Dataflow.Proofs.Document.Records
import Dataflow.Proofs.Graph.Edits

namespace Dataflow.Graph

open List Outcome Relation

variable {catalog : Catalog} {document : Json} {g g' : Dag} {entries records : List Entry}

/-! ### Descriptions -/

/-- Records whose operators can be connected: their numbers are different, every producer is one of
them, there are as many producers as inputs, and no path along the edges comes back to where it
started. -/
structure Wirable (entries : List Entry) : Prop where
  distinct : (entries.map (·.id)).Nodup
  known : ∀ entry ∈ entries, ∀ q ∈ entry.producers, q ∈ entries.map (·.id)
  arity : ∀ entry ∈ entries, entry.producers.length = entry.operator.inputs
  acyclic : ∀ id, ¬TransGen (Joined (entries.flatMap Entry.edges)) id id

/-- The sink that a document tells: none if that is null, the operator that is named, and else the
only operator without consumers. -/
def NamesSink (entries : List Entry) (chosen : Option Nat) : Option Json → Prop
  | some .null => chosen = none
  | some value => ∃ id, value.nat? = some id ∧ id ∈ entries.map (·.id) ∧ chosen = some id
  | none =>
    ∃ id, chosen = some id ∧
      ∀ k, (k ∈ entries.map (·.id) ∧ ∀ entry ∈ entries, k ∉ entry.producers) ↔ k = id

/-- The node of a record. -/
def Entry.node (entry : Entry) : Node Operator := ⟨entry.id, entry.operator, {}⟩

/-- The graph of some records: their operators in ascending order, and an edge from each producer to
the slot of its place. -/
structure Builds (entries : List Entry) (g : Dag) : Prop where
  ascending : g.ids.Pairwise (· < ·)
  nodes : g.nodes.Perm (entries.map Entry.node)
  edges : g.edges = entries.flatMap Entry.edges
  nextId : g.nextId = (entries.map (·.id + 1)).foldl max 0
  allocated : g.allocated = 0

/-- The documents that describe a graph: each record says what an operator is, the documents inside
the records of pipelines describe the graphs inside, and the records can be wired and tell a
sink. -/
inductive Describes (catalog : Catalog) : Json → Dag → Prop
  | intro {document : Json} {records : List Json} {entries : List Entry} {g : Dag}
      (dag : document.get? "dag" = some (.array records))
      (each : Forall₂ (fun (r : Json × Nat) entry => Entry.Says catalog r.2 r.1 entry)
      records.zipIdx entries) (inside : ∀ r entry, (r, entry) ∈ records.zipIdx.zip entries →
      ∀ n h, entry.operator = .pipeline n h →
        ∀ inner, r.1.get? "inner_dag" = some inner → Describes catalog inner h)
      (wirable : Wirable entries) (sink : NamesSink entries g.sink (document.get? "sink"))
      (builds : Builds entries g) : Describes catalog document g

/-! ### Operators -/

/-- The operators of some records, without edges. -/
def placed (entries : List Entry) : Dag :=
  entries.foldl (fun g entry => g.insert entry.id entry.operator) empty

theorem foldlM_addAt_eq (hnew : (g.ids ++ entries.map (·.id)).Nodup) :
    entries.foldlM (fun g entry => g.addAt entry.id entry.operator) g =
      .ok (entries.foldl (fun g entry => g.insert entry.id entry.operator) g) := by
  induction entries generalizing g with
  | nil => rfl
  | cons entry entries ih =>
    have hfresh : entry.id ∉ g.ids := by
      rw [map_cons, nodup_append'] at hnew
      exact fun hmem => hnew.2.2 hmem mem_cons_self
    have hids : (g.insert entry.id entry.operator).ids.Perm (entry.id :: g.ids) :=
      (perm_insertNode ⟨entry.id, entry.operator, {}⟩ g.nodes).map Node.id
    rw [foldlM_cons, addAt, if_neg (by rwa [contains_iff_mem_ids]), ok_bind]
    refine ih (((hids.append_right _).trans ?_).nodup_iff.2 hnew)
    exact perm_middle.symm

theorem nextId_foldl_insert (g : Dag) (entries : List Entry) :
    (entries.foldl (fun g entry => g.insert entry.id entry.operator) g).nextId =
      (entries.map (·.id + 1)).foldl max g.nextId := by
  induction entries generalizing g with
  | nil => rfl
  | cons entry entries ih => exact ih _

theorem allocated_foldl_insert (g : Dag) (entries : List Entry) :
    (entries.foldl (fun g entry => g.insert entry.id entry.operator) g).allocated =
      g.allocated := by
  induction entries generalizing g with
  | nil => rfl
  | cons entry entries ih => exact ih _

theorem foldlM_addAt_placed (hdistinct : (entries.map (·.id)).Nodup) :
    entries.foldlM (fun g entry => g.addAt entry.id entry.operator) empty = .ok (placed entries) :=
  foldlM_addAt_eq hdistinct

theorem builds_placed (hdistinct : (entries.map (·.id)).Nodup) :
    Builds entries { placed entries with edges := entries.flatMap Entry.edges } ∧
      (placed entries).edges = [] := by
  obtain ⟨added, hadded, hascending, hnodes, hedges⟩ :=
    foldlM_addAt Entry.id Entry.operator entries (g := empty) .nil hdistinct
  obtain rfl : placed entries = added :=
    Except.ok.inj ((foldlM_addAt_placed hdistinct).symm.trans hadded)
  exact ⟨⟨hascending, hnodes, rfl, nextId_foldl_insert empty entries,
    allocated_foldl_insert empty entries⟩, hedges⟩

theorem intact_placed (hdistinct : (entries.map (·.id)).Nodup) : (placed entries).Intact :=
  foldlM_ok_induction (P := Intact) (fun _ _ _ _ hg h => hg.addAt h)
    intact_empty (foldlM_addAt_placed hdistinct)

namespace Builds

theorem mem_ids (h : Builds entries g) {id : Nat} : id ∈ g.ids ↔ id ∈ entries.map (·.id) := by
  rw [ids, (h.nodes.map Node.id).mem_iff, List.map_map]
  rfl

theorem node?_of_mem (h : Builds entries g) {entry : Entry} (hentry : entry ∈ entries) :
    g.node? entry.id = some entry.node :=
  Graph.node?_of_mem h.ascending (h.nodes.mem_iff.2 (List.mem_map_of_mem hentry))

theorem exists_entry (h : Builds entries g) {id : Nat} {node : Node Operator}
    (hnode : g.node? id = some node) : ∃ entry ∈ entries, entry.id = id ∧ node = entry.node := by
  obtain ⟨entry, hentry, rfl⟩ := List.mem_map.1 (h.nodes.mem_iff.1 (mem_of_node? hnode))
  exact ⟨entry, hentry, id_eq_of_node? hnode, rfl⟩

/-- Records determine their graph. -/
theorem eq (h : Builds entries g) (h' : Builds entries g') (hsink : g'.sink = g.sink) : g' = g := by
  have hnodes : g'.nodes = g.nodes :=
    eq_of_perm_of_ascending (h'.nodes.trans h.nodes.symm) h'.ascending h.ascending
  have hedges := h'.edges.trans h.edges.symm
  have hnext := h'.nextId.trans h.nextId.symm
  have hallocated := h'.allocated.trans h.allocated.symm
  cases g
  cases g'
  simp_all

end Builds

/-! ### Edges -/

/-- A record is wired if its producers are operators of the graph, as many as its operator has
inputs, and its edges can be added. -/
theorem wire_eq_ok_iff {entry : Entry} :
    g.wire entry = .ok g' ↔ (∀ q ∈ entry.producers, q ∈ g.ids) ∧
      (∃ node, g.node? entry.id = some node ∧ entry.producers.length = node.kind.inputs) ∧
      entry.edges.foldlM connect g = .ok g' := by
  have hfind : entry.producers.find? (fun p => !g.contains p) = none ↔
      ∀ q ∈ entry.producers, q ∈ g.ids := by
    simp [find?_eq_none, contains_iff_mem_ids]
  rw [← hfind, wire]
  cases entry.producers.find? (fun p => !g.contains p) with
  | some unknown => simp
  | none =>
    simp only [bind_eq_ok_iff, guard_eq_ok_iff, Graph.get, ofOption_eq_ok_iff, ne_eq,
      Decidable.not_not, true_and]
    constructor
    · rintro ⟨node, hnode, hlength, hconnect⟩
      exact ⟨⟨node, hnode, hlength⟩, hconnect⟩
    · rintro ⟨⟨node, hnode, hlength⟩, hconnect⟩
      exact ⟨node, hnode, hlength, hconnect⟩

/-- Edges that were added one by one stand behind those that there were. -/
theorem eq_of_foldlM_connect {edges : List Edge} (h : edges.foldlM connect g = .ok g') :
    g' = { g with edges := g.edges ++ edges } := by
  induction edges generalizing g with
  | nil =>
    cases h
    rw [append_nil]
  | cons e edges ih =>
    rw [foldlM_cons, bind_eq_ok_iff] at h
    obtain ⟨next, hnext, h⟩ := h
    obtain ⟨-, -, -, rfl⟩ := connect_eq_ok_iff.1 hnext
    rw [ih h]
    simp [connectUnchecked]

/-- What it takes to wire some records, and what becomes of the graph. -/
theorem wired_of_foldlM (h : records.foldlM wire g = .ok g') :
    (∀ entry ∈ records, (∀ q ∈ entry.producers, q ∈ g.ids) ∧
        ∃ node, g.node? entry.id = some node ∧ entry.producers.length = node.kind.inputs) ∧
      g' = { g with edges := g.edges ++ records.flatMap Entry.edges } := by
  induction records generalizing g with
  | nil =>
    cases h
    refine ⟨nofun, ?_⟩
    rw [flatMap_nil, append_nil]
  | cons entry records ih =>
    rw [foldlM_cons, bind_eq_ok_iff] at h
    obtain ⟨next, hnext, h⟩ := h
    obtain ⟨hknown, hinputs, hconnect⟩ := wire_eq_ok_iff.1 hnext
    obtain rfl := eq_of_foldlM_connect hconnect
    obtain ⟨hrest, rfl⟩ := ih h
    refine ⟨fun other hother => ?_, ?_⟩
    · rcases mem_cons.1 hother with rfl | hother
      · exact ⟨hknown, hinputs⟩
      · exact hrest other hother
    · rw [flatMap_cons, ← List.append_assoc]

/-- **When operators are connected**: whatever the order of the records, exactly if they can be
wired. -/
theorem foldlM_wire_eq_ok_iff (hdistinct : (entries.map (·.id)).Nodup) :
    entries.foldlM wire (placed entries) = .ok g ↔
      Wirable entries ∧ g = { placed entries with edges := entries.flatMap Entry.edges } := by
  obtain ⟨hbuilds, hempty⟩ := builds_placed hdistinct
  have hnode : ∀ entry ∈ entries, (placed entries).node? entry.id = some entry.node :=
    fun entry hentry => hbuilds.node?_of_mem hentry
  constructor
  · intro h
    have hintact : g.Intact := foldlM_ok_induction (P := Intact) (fun _ _ _ _ hg h => hg.wire h)
        (intact_placed hdistinct) h
    obtain ⟨hentries, rfl⟩ := wired_of_foldlM h
    rw [hempty, nil_append] at hintact ⊢
    obtain ⟨rank, hrank⟩ := hintact.acyclic
    refine ⟨⟨hdistinct, fun entry hentry q hq => ?_, fun entry hentry => ?_,
      not_cycle_of_rank hrank⟩, rfl⟩
    · exact hbuilds.mem_ids.1 ((hentries entry hentry).1 q hq)
    · obtain ⟨-, node, hfound, hlength⟩ := hentries entry hentry
      obtain rfl := Option.mem_unique (hnode entry hentry) hfound
      exact hlength
  · rintro ⟨hwirable, rfl⟩
    obtain ⟨rank, hrank⟩ := exists_rank_of_not_cycle hwirable.acyclic
    have hall : (placed entries).edges ++ entries.flatMap Entry.edges =
        entries.flatMap Entry.edges := by
      rw [hempty, nil_append]
    rw [foldlM_wire rank, hall]
    · intro entry hentry q hq
      exact (contains_iff_mem_ids _ q).2 (hbuilds.mem_ids.2 (hwirable.known entry hentry q hq))
    · exact fun entry hentry => ⟨entry.node, hnode entry hentry, hwirable.arity entry hentry⟩
    · rw [hall]
      exact nodup_ports hdistinct
    · rw [hall]
      exact hrank

/-! ### Sinks -/

/-- The source of an edge is a producer of a record. -/
theorem Builds.exists_source_iff (h : Builds entries g) {k : Nat} :
    (∃ e ∈ g.edges, e.source = k) ↔ ∃ entry ∈ entries, k ∈ entry.producers := by
  rw [h.edges]
  constructor
  · rintro ⟨e, he, rfl⟩
    obtain ⟨entry, hentry, he⟩ := mem_flatMap.1 he
    exact ⟨entry, hentry, mem_of_getElem? (Entry.mem_edges.1 he).2.2⟩
  · rintro ⟨entry, hentry, hk⟩
    obtain ⟨slot, hslot⟩ := mem_iff_getElem?.1 hk
    exact ⟨⟨k, 0, entry.id, slot⟩,
      mem_flatMap.2 ⟨entry, hentry, Entry.mem_edges.2 ⟨rfl, rfl, hslot⟩⟩, rfl⟩

/-- The operators without consumers are those that no record has among its producers. -/
theorem Builds.mem_lastOperators (h : Builds entries g) {k : Nat} : k ∈ g.lastOperators ↔
    k ∈ entries.map (·.id) ∧ ∀ entry ∈ entries, k ∉ entry.producers := by
  have hsource : (g.edges.any (·.source == k)) = true ↔ ∃ entry ∈ entries, k ∈ entry.producers := by
    rw [← h.exists_source_iff]
    simp
  rw [lastOperators, mem_filter, h.mem_ids, Bool.not_eq_true', ← Bool.not_eq_true, hsource]
  simp

/-- **When a sink is told.** -/
theorem readSink_eq_ok_iff (h : Builds entries g) {sink : Option Json} {chosen : Option Nat} :
    g.readSink sink = .ok chosen ↔ NamesSink entries chosen sink := by
  have hnamed : ∀ value : Json, (do
      let id ← idOfJson "sink" value
      if g.contains id then return some id else throw (.parse (.unknownSink id)) :
      Outcome (Option Nat)) =
        .ok chosen ↔ ∃ id, value.nat? = some id ∧ id ∈ entries.map (·.id) ∧ chosen = some id := by
    intro value
    simp only [bind_eq_ok_iff, idOfJson, ofOption_eq_ok_iff]
    refine exists_congr fun id => and_congr_right fun _ => ?_
    rw [← h.mem_ids, ← contains_iff_mem_ids]
    by_cases hid : g.contains id = true
    · simp [hid, eq_comm]
    · simp [hid]
  cases sink with
  | some value =>
    cases value with
    | null => exact ⟨fun hread => (Except.ok.inj hread).symm, fun hnone => hnone ▸ rfl⟩
    | _ => exact hnamed _
  | none =>
    have hnodup : g.lastOperators.Nodup := (h.ascending.imp Nat.ne_of_lt).filter _
    have honly : ∀ id, g.lastOperators = [id] ↔
        ∀ k, (k ∈ entries.map (·.id) ∧ ∀ entry ∈ entries, k ∉ entry.producers) ↔ k = id := by
      intro id
      rw [← perm_singleton, perm_ext_iff_of_nodup hnodup (nodup_singleton id)]
      simp only [h.mem_lastOperators, mem_singleton]
    rw [NamesSink, readSink]
    simp only [← honly]
    cases g.lastOperators with
    | nil => simp
    | cons id others =>
      cases others with
      | nil => simp [eq_comm]
      | cons other others => simp

/-! ### Documents -/

/-- The records of a document are looked for under its key. -/
theorem ofJson_eq (catalog : Catalog) (document : Json) : ofJson catalog document =
    assemble catalog ((document.get? "dag").bind (recordsIn catalog)) (document.get? "sink") := by
  cases document with
  | object members =>
    have hrecords : recordsOf catalog members =
        ((Json.object members).get? "dag").bind (recordsIn catalog) := by
      rw [Json.get?]
      induction members with
      | nil => rfl
      | cons m members ih =>
        obtain ⟨key, value⟩ := m
        rw [recordsOf, Json.find?_cons_key, ih]
        split <;> rfl
    rw [ofJson, hrecords]
    rfl
  | _ => rfl

/-- **When one level of a document is read**, and as what: each record says something, the records
can be wired and tell a sink, and the graph is theirs. -/
theorem ofJson_eq_ok_iff : ofJson catalog document = .ok g ↔
    ∃ records entries, document.get? "dag" = some (.array records) ∧
      Forall₂ (fun (r : Json × Nat) entry => Entry.Says catalog r.2 r.1 entry ∧
        entry.ReadsInside catalog r.1) records.zipIdx entries ∧
      Wirable entries ∧ NamesSink entries g.sink (document.get? "sink") ∧ Builds entries g := by
  have hlisted : ∀ listed, (document.get? "dag").bind (recordsIn catalog) = some listed ↔
      ∃ records, document.get? "dag" = some (.array records) ∧
      listed = withInnerOf catalog records := by
    intro listed
    rw [Option.bind_eq_some_iff]
    constructor
    · rintro ⟨value, hvalue, hrecords⟩
      cases value with
      | array records => exact ⟨records, hvalue, (Option.some.inj hrecords).symm⟩
      | _ => cases hrecords
    · rintro ⟨records, hvalue, rfl⟩
      exact ⟨.array records, hvalue, rfl⟩
  have hnone : (([] : List Entry).map (·.id)).Nodup := nodup_nil
  rw [ofJson_eq, assemble]
  simp only [bind_eq_ok_iff, ofOption_eq_ok_iff, hlisted, pure_eq_ok, Except.ok.injEq]
  constructor
  · rintro ⟨_, ⟨records, hdag, rfl⟩, entries, hentries, added, hadded, wired,
      hwired, chosen, hsink, rfl⟩
    obtain ⟨_, rfl, hdistinct, hread⟩ := (readRecords_eq_ok_iff hnone).1 hentries
    obtain rfl := Except.ok.inj ((foldlM_addAt_placed hdistinct).symm.trans hadded)
    obtain ⟨hwirable, rfl⟩ := (foldlM_wire_eq_ok_iff hdistinct).1 hwired
    obtain ⟨hbuilds, -⟩ := builds_placed hdistinct
    exact ⟨records, _, hdag, hread, hwirable,
      (readSink_eq_ok_iff hbuilds).1 hsink, { hbuilds with }⟩
  · rintro ⟨records, entries, hdag, hread, hwirable, hsink, hbuilds⟩
    obtain ⟨hplaced, -⟩ := builds_placed hwirable.distinct
    refine ⟨_, ⟨records, hdag, rfl⟩, entries, ?_, placed entries,
      foldlM_addAt_placed hwirable.distinct, _, (foldlM_wire_eq_ok_iff hwirable.distinct).2
      ⟨hwirable, rfl⟩, g.sink, (readSink_eq_ok_iff hplaced).2 hsink, ?_⟩
    · exact (readRecords_eq_ok_iff hnone).2 ⟨entries, rfl, hwirable.distinct, hread⟩
    · exact hbuilds.eq { hplaced with } rfl

/-- **A document is read exactly as what it describes.** -/
theorem describes_iff : ofJson catalog document = .ok g ↔ Describes catalog document g := by
  constructor
  · -- By induction on the size of the document, since documents inside it are smaller.
    intro h
    induction hsize : sizeOf document using Nat.strongRecOn generalizing document g with
    | ind n ih =>
      obtain ⟨records, entries, hdag, hread, hwirable, hsink, hbuilds⟩ := ofJson_eq_ok_iff.1 h
      refine .intro hdag (hread.imp fun _ _ h => h.1) ?_ hwirable hsink hbuilds
      intro r entry hmem m inside hkind inner hinner
      have hreads := (forall₂_iff_zip.1 hread).2 hmem
      refine ih (sizeOf inner) ?_ (hreads.2 m inside hkind inner hinner) rfl
      have hr : r.1 ∈ records := (mem_zipIdx' (of_mem_zip hmem).1).2 ▸ getElem_mem _
      have hlist := Json.sizeOf_lt_of_get? hdag
      have hrecord := Json.sizeOf_lt_of_array? (Json.array?_array records) hr
      have hmember := Json.sizeOf_lt_of_get? hinner
      omega
  · intro h
    induction h with
    | intro dag each inside wirable sink builds ih =>
      refine ofJson_eq_ok_iff.2 ⟨_, _, dag, ?_, wirable, sink, builds⟩
      obtain ⟨hlength, heach⟩ := forall₂_iff_zip.1 each
      exact forall₂_iff_zip.2 ⟨hlength, fun hmem => ⟨heach hmem, ih _ _ hmem⟩⟩

end Dataflow.Graph
