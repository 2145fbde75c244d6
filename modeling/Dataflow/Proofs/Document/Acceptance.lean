/-
**Which documents are accepted.**

Reading accepts a document exactly if it describes a graph, and the graph is that one.  So it does
not matter in which order records stand that name their own numbers, and of all that validity asks
for only two things are left open by reading: sinks, and look-ups of inputs that a pipeline does not
have.

Main results:

* `Graph.ofJson_of_reordered` — **the order of the records does not matter**;
* `Graph.assembled_of_describes` — every level of a graph that was read is wired and has sound
  operators;
* `Graph.validateWithin_iff_of_assembled` — when such a graph is valid;
* `Graph.ofJson_iff_describes` — **reading accepts exactly the documents that describe graphs**, as
  these graphs.
-/

import Dataflow.Proofs.Document.Descriptions
import Dataflow.Proofs.Graph.Checks
import Mathlib

namespace Dataflow.Graph

open List Relation

variable {catalog : Catalog} {document document' : Json} {g : Dag} {entries entries' : List Entry}
  {chosen inputs : Option Nat} {sink : Option Json}

/-! ### The order of records -/

/-- Documents with the same records in another order, all of which name their own numbers, and with
the same sink. -/
structure Reordered (document document' : Json) : Prop where
  records : ∃ records records', document.get? "dag" = some (.array records) ∧
    document'.get? "dag" = some (.array records') ∧ records'.Perm records ∧
    ∀ record ∈ records, (record.get? "id").isSome = true
  sink : document'.get? "sink" = document.get? "sink"

/-- What a record says does not depend on its place, if it names its own number. -/
theorem Entry.Says.of_isSome {record : Json} {entry : Entry} {i : Nat}
    (h : Entry.Says catalog i record entry) (hid : (record.get? "id").isSome = true) (j : Nat) :
    Entry.Says catalog j record entry := by
  refine { h with id := ?_ }
  rcases h.id with ⟨hnone, -⟩ | hnamed
  · rw [hnone] at hid
    cases hid
  · exact .inr hnamed

theorem Wirable.perm (h : Wirable entries) (hperm : entries'.Perm entries) : Wirable entries' where
  distinct := (hperm.map _).nodup_iff.2 h.distinct
  known := fun entry hentry q hq =>
    (hperm.map _).mem_iff.2 (h.known entry (hperm.mem_iff.1 hentry) q hq)
  arity := fun entry hentry => h.arity entry (hperm.mem_iff.1 hentry)
  acyclic := by
    intro id hcycle
    refine h.acyclic id (TransGen.mono ?_ _ _ hcycle)
    rintro a b ⟨e, he, hends⟩
    exact ⟨e, (hperm.flatMap_right _).mem_iff.1 he, hends⟩

theorem NamesSink.perm (h : NamesSink entries chosen sink)
    (hperm : entries'.Perm entries) : NamesSink entries' chosen sink := by
  have hids : ∀ k, k ∈ entries'.map (·.id) ↔ k ∈ entries.map (·.id) :=
    fun k => (hperm.map _).mem_iff
  cases sink with
  | some value =>
    cases value with
    | null => exact h
    | _ =>
      obtain ⟨id, hid, hmem, hchosen⟩ := h
      exact ⟨id, hid, (hids id).2 hmem, hchosen⟩
  | none =>
    obtain ⟨id, hchosen, honly⟩ := h
    refine ⟨id, hchosen, fun k => ?_⟩
    simp only [hids, hperm.mem_iff, honly k]

theorem Builds.perm (h : Builds entries g) (hperm : entries'.Perm entries) :
    Builds entries' { g with edges := entries'.flatMap Entry.edges } where
  ascending := h.ascending
  nodes := h.nodes.trans (hperm.map _).symm
  edges := rfl
  nextId := h.nextId.trans ((hperm.map _).foldl_eq 0).symm
  allocated := h.allocated

/-- **The order of the records does not matter**, if they name their own numbers: the operators and
the sink are the same, and so are the edges, up to their order. -/
theorem ofJson_of_reordered (hsame : Reordered document document')
    (h : ofJson catalog document = .ok g) :
    ∃ g', ofJson catalog document' = .ok g' ∧ g'.nodes = g.nodes ∧ g'.edges.Perm g.edges ∧
      g'.sink = g.sink ∧ g'.nextId = g.nextId := by
  obtain ⟨records, records', hdag, hdag', hperm, hnamed⟩ := hsame.records
  obtain ⟨found, entries, hfound, hread, hwirable, hsink, hbuilds⟩ := ofJson_eq_ok_iff.1 h
  obtain rfl : records = found := by
    rw [hdag] at hfound
    cases hfound
    rfl
  -- Without the places, what the records say can be put into the order of the other records.
  have hnamed' : ∀ r ∈ records.zipIdx, (r.1.get? "id").isSome = true := fun r hr =>
    hnamed r.1 (fst_mem_of_mem_zipIdx hr)
  have hplain : Forall₂ (fun record entry => (∀ j, Entry.Says catalog j record entry) ∧
      entry.ReadsInside catalog record) records entries := by
    rw [← zipIdx_map_fst 0 records, forall₂_map_left_iff]
    refine ((forall₂_and_left _ _).2 ⟨hnamed', hread⟩).imp ?_
    rintro r entry ⟨hid, hsaid, hinside⟩
    exact ⟨hsaid.of_isSome hid, hinside⟩
  obtain ⟨entries', hread', hentries⟩ := perm_comp_forall₂ hperm hplain
  refine ⟨{ g with edges := entries'.flatMap Entry.edges },
    ofJson_eq_ok_iff.2 ⟨records', entries', hdag', ?_, hwirable.perm hentries, ?_,
    hbuilds.perm hentries⟩, rfl, ?_, rfl, rfl⟩
  · rw [← zipIdx_map_fst 0 records', forall₂_map_left_iff] at hread'
    exact hread'.imp fun r entry hsaid => ⟨hsaid.1 r.2, hsaid.2⟩
  · rw [hsame.sink]
    exact hsink.perm hentries
  · rw [hbuilds.edges]
    exact hentries.flatMap_right _

/-! ### Validity -/

/-- What reading makes sure of at each level: it is wired, through the one output slot that
operators have, and configurations are sound. -/
structure Assembled (g : Dag) : Prop where
  wired : g.Wired
  slots : ∀ e ∈ g.edges, e.sourceSlot = 0
  sound : ∀ id node, g.node? id = some node → node.kind.check = .ok ()

/-- A graph whose look-ups read the first `n` inputs only. -/
def LooksBelow (n : Nat) (g : Dag) : Prop := ∀ id node parameter declared, g.node? id = some node →
    node.kind = .primitive (.parameterLookup parameter declared) → parameter < n

/-- The graph of records that can be wired, with a sink among them, is wired. -/
theorem Builds.wired (h : Builds entries g) (hwirable : Wirable entries)
    (hsink : ∀ id, g.sink = some id → id ∈ g.ids) : g.Wired := by
  have honce : (g.edges.map Edge.port).Nodup := h.edges ▸ nodup_ports hwirable.distinct
  obtain ⟨rank, hrank⟩ := exists_rank_of_not_cycle hwirable.acyclic
  refine .of_edges h.ascending honce rank (fun e he => ?_)
    (fun id node hnode slot hslot => ?_) hsink
  · rw [h.edges] at he
    obtain ⟨entry, hentry, hmem⟩ := mem_flatMap.1 he
    obtain ⟨-, htarget, hsource⟩ := Entry.mem_edges.1 hmem
    refine ⟨h.mem_ids.2 (hwirable.known entry hentry _ (mem_of_getElem? hsource)),
      hrank e he, entry.node, htarget ▸ h.node?_of_mem hentry, ?_⟩
    rw [show entry.node.kind.inputs =
      entry.producers.length from (hwirable.arity entry hentry).symm]
    exact (List.getElem?_eq_some_iff.1 hsource).1
  · obtain ⟨entry, hentry, rfl, rfl⟩ := h.exists_entry hnode
    rw [show entry.node.kind.inputs =
      entry.producers.length from (hwirable.arity entry hentry).symm] at hslot
    rw [isSome_producer?_iff]
    refine ⟨⟨entry.producers[slot], 0, entry.id, slot⟩, ?_, rfl⟩
    rw [h.edges]
    exact mem_flatMap.2 ⟨entry, hentry, Entry.mem_edges.2 ⟨rfl, rfl, getElem?_eq_getElem hslot⟩⟩

theorem NamesSink.mem (h : NamesSink entries chosen sink) {id : Nat}
    (hid : chosen = some id) : id ∈ entries.map (·.id) := by
  subst hid
  cases sink with
  | some value =>
    cases value with
    | null => cases h
    | _ =>
      obtain ⟨named, -, hmem, hchosen⟩ := h
      exact Option.some.inj hchosen ▸ hmem
  | none =>
    obtain ⟨only, hchosen, honly⟩ := h
    exact ((honly id).2 (Option.some.inj hchosen)).1

theorem Builds.exists_record {records : List Json} {id : Nat} {node : Node Operator}
    (h : Builds entries g)
    (heach : Forall₂ (fun (r : Json × Nat) entry => Entry.Says catalog r.2 r.1 entry)
      records.zipIdx entries)
    (hnode : g.node? id = some node) :
      ∃ r entry tag, (r, entry) ∈ records.zipIdx.zip entries ∧ node = entry.node ∧
      Configures catalog tag r.1 entry.operator := by
  obtain ⟨hlength, hread⟩ := forall₂_iff_zip.1 heach
  obtain ⟨entry, hentry, -, rfl⟩ := h.exists_entry hnode
  obtain ⟨i, hi, rfl⟩ := getElem_of_mem hentry
  have hi' : i < records.zipIdx.length := hlength ▸ hi
  have hmem : (records.zipIdx[i], entries[i]) ∈ records.zipIdx.zip entries :=
    mem_iff_getElem.2 ⟨i, by rw [length_zip]; omega, getElem_zip⟩
  obtain ⟨tag, -, hconf⟩ := (hread hmem).operator
  exact ⟨_, _, tag, hmem, rfl, hconf⟩

/-- **Every level of a graph that was read is assembled.** -/
theorem assembled_of_describes (h : Describes catalog document g) : g.Everywhere Assembled := by
  induction h with
  | @intro document records entries g _ each _ wirable sink builds ih =>
    refine ⟨⟨builds.wired wirable fun id hid => builds.mem_ids.2 (sink.mem hid), fun e he => ?_,
      fun id node hnode => ?_⟩, fun id h hid => ?_⟩
    · rw [builds.edges] at he
      obtain ⟨entry, -, he⟩ := mem_flatMap.1 he
      exact (Entry.mem_edges.1 he).1
    · obtain ⟨r, entry, tag, -, rfl, hconf⟩ := builds.exists_record each hnode
      rw [Entry.node]
      cases hop : entry.operator with
      | primitive p =>
        rw [hop] at hconf
        exact hconf.2.2
      | pipeline n h => rfl
    · obtain ⟨node, n, hnode, hkind⟩ := inner?_eq_some_iff.1 hid
      obtain ⟨r, entry, tag, hr, rfl, hconf⟩ := builds.exists_record each hnode
      have hop : entry.operator = .pipeline n h := hkind
      rw [hop] at hconf
      obtain ⟨-, -, inner, hinner⟩ := hconf
      exact ih r entry hr n h hop inner hinner

/-- **When an assembled graph is valid**: every level has a sink, and look-ups read inputs that the
pipeline around them has. -/
theorem validateWithin_iff_of_assembled (hg : g.Everywhere Assembled) :
    g.validateWithin inputs = .ok () ↔ (∀ k, inputs = some k → g.LooksBelow k) ∧
      (g.Everywhere fun h => h.sink.isSome = true) ∧ g.Everywhere fun h => ∀ id node n inside,
      h.node? id = some node →
        node.kind = .pipeline n inside → inside.LooksBelow n := by
  induction hg generalizing inputs with
  | @intro g here inside ih =>
    have hnumbered : g.Numbered :=
      Everywhere.imp (fun h hh => hh.wired.ascending) (.intro here inside)
    rw [validateWithin_eq_ok_iff hnumbered]
    constructor
    · intro hchecked
      have hinner : ∀ id h, g.inner? id = some h → ∃ node n, g.node? id = some node ∧
          node.kind = .pipeline n h ∧ h.validateWithin (some n) = .ok () := by
        intro id h hid
        obtain ⟨node, n, hnode, hkind⟩ := inner?_eq_some_iff.1 hid
        exact ⟨node, n, hnode, hkind, hchecked.inside id node n h hnode hkind⟩
      refine ⟨fun k hk id node parameter declared hnode hkind =>
        hchecked.lookups id node parameter declared k hnode hkind hk,
          ⟨hchecked.sink, fun id h hid => ?_⟩,
        ⟨fun id node n h hnode hkind => ?_, fun id h hid => ?_⟩⟩
      · obtain ⟨node, n, -, -, hvalid⟩ := hinner id h hid
        exact ((ih id h hid).1 hvalid).2.1
      · have hid := inner?_eq_some_iff.2 ⟨node, n, hnode, hkind⟩
        exact ((ih id h hid).1 (hchecked.inside id node n h hnode hkind)).1 n rfl
      · obtain ⟨node, n, -, -, hvalid⟩ := hinner id h hid
        exact ((ih id h hid).1 hvalid).2.2
    · rintro ⟨hlooks, hsinks, hbelow⟩
      refine ⟨here.wired, here.slots, hsinks.here, here.sound,
        fun id node n declared k hnode hkind hk => hlooks k hk id node n declared hnode hkind,
        fun id node n h hnode hkind => ?_⟩
      have hid := inner?_eq_some_iff.2 ⟨node, n, hnode, hkind⟩
      refine (ih id h hid).2 ⟨fun k hk => ?_, hsinks.inside hid, hbelow.inside hid⟩
      cases hk
      exact hbelow.here id node n h hnode hkind

/-! ### Acceptance -/

/-- The documents that are accepted: each record says what an operator is, the documents inside the
records of pipelines describe graphs, and the records can be wired and tell a sink. -/
def Accepted (catalog : Catalog) (document : Json) : Prop :=
  ∃ records entries chosen, document.get? "dag" = some (.array records) ∧
    Forall₂ (fun (r : Json × Nat) entry => Entry.Says catalog r.2 r.1 entry)
    records.zipIdx entries ∧
    (∀ r entry, (r, entry) ∈ records.zipIdx.zip entries → ∀ n h, entry.operator = .pipeline n h →
      ∀ inner, r.1.get? "inner_dag" = some inner → Describes catalog inner h) ∧
    Wirable entries ∧ NamesSink entries chosen (document.get? "sink")

/-- The records of an accepted document always make a graph. -/
theorem exists_describes_iff : (∃ g, Describes catalog document g) ↔ Accepted catalog document := by
  constructor
  · rintro ⟨g, h⟩
    cases h with
    | intro dag each inside wirable sink builds =>
      exact ⟨_, _, g.sink, dag, each, inside, wirable, sink⟩
  · rintro ⟨records, entries, chosen, dag, each, inside, wirable, sink⟩
    obtain ⟨hplaced, -⟩ := builds_placed wirable.distinct
    exact ⟨{ placed entries with edges := entries.flatMap Entry.edges, sink := chosen },
      .intro dag each inside wirable sink { hplaced with }⟩

/-- **Reading accepts exactly the documents that describe graphs**, as these graphs.  The order of
records that name their own numbers does not matter, and a graph that was read is valid exactly if
every level has a sink and look-ups inside pipelines read inputs that the pipelines have. -/
theorem ofJson_iff_describes (catalog : Catalog) (document : Json) :
    ((∃ g, ofJson catalog document = .ok g) ↔ Accepted catalog document) ∧
    (∀ g, ofJson catalog document = .ok g ↔ Describes catalog document g) ∧
    (∀ document' g, Reordered document document' → ofJson catalog document = .ok g →
      ∃ g', ofJson catalog document' = .ok g' ∧ g'.nodes = g.nodes ∧ g'.edges.Perm g.edges ∧
        g'.sink = g.sink ∧ g'.nextId = g.nextId) ∧
    ∀ g, ofJson catalog document = .ok g → (g.validate = .ok () ↔
      (g.Everywhere fun h => h.sink.isSome = true) ∧
      g.Everywhere fun h => ∀ id node n inside, h.node? id = some node →
        node.kind = .pipeline n inside → inside.LooksBelow n) := by
  refine ⟨?_, fun g => describes_iff,
    fun document' g hsame h => ofJson_of_reordered hsame h, fun g h => ?_⟩
  · rw [← exists_describes_iff]
    exact exists_congr fun g => describes_iff
  · have hassembled := assembled_of_describes (describes_iff.1 h)
    have hvalid : g.validateWithin none = .ok () ↔ _ := validateWithin_iff_of_assembled hassembled
    rw [validate, hvalid]
    exact ⟨And.right, fun hall => ⟨nofun, hall⟩⟩

/-- A pipeline with one input, whose graph looks up a second one. -/
def farLookup : Json :=
  .object [("id", .ofNat 4), ("op", .string "pipeline"), ("predecessors", .array [.ofNat 2]),
    ("num_inputs", .ofNat 1), ("inner_dag", .object [("dag", .array [
      .object [("op", .string "parameter_lookup"), ("parameter_num", .ofNat 1)]])])]

/-- Some numbers. -/
def someNumbers : Json :=
  .object [("id", .ofNat 2), ("op", .string "range_source"), ("from", .int 0), ("to", .int 10)]

/-- The pipeline may stand before its producer or behind it; it is read, but the graph is not
valid. -/
theorem farLookup_read : ∃ g,
    ofJson .standard (.object [("dag", .array [farLookup, someNumbers])]) = .ok g ∧
    Accepted .standard (.object [("dag", .array [farLookup, someNumbers])]) ∧
    Describes .standard (.object [("dag", .array [farLookup, someNumbers])]) g ∧
    (∃ g', ofJson .standard (.object [("dag", .array [someNumbers, farLookup])]) = .ok g' ∧
      g'.nodes = g.nodes ∧ g'.edges.Perm g.edges ∧ g'.sink = g.sink ∧ g'.nextId = g.nextId) ∧
    (g.validate = .ok () ↔ (g.Everywhere fun h => h.sink.isSome = true) ∧
      g.Everywhere fun h => ∀ id node n inside, h.node? id = some node →
        node.kind = .pipeline n inside → inside.LooksBelow n) ∧
    g.validate ≠ .ok () := by
  obtain ⟨haccepts, hdescribes, hreorders, hvalid⟩ :=
    ofJson_iff_describes .standard (.object [("dag", .array [farLookup, someNumbers])])
  have hread : ofJson .standard (.object [("dag", .array [farLookup, someNumbers])]) = .ok {
      nodes := [⟨2, .primitive (.range ⟨0, 10, 1⟩), {}⟩, ⟨4, .pipeline 1 {
        nodes := [⟨0, .primitive (.parameterLookup 1 none), {}⟩]
        sink := some 0
        nextId := 1 }, {}⟩]
      edges := [⟨2, 0, 4, 0⟩]
      sink := some 4
      nextId := 5 } := by cbv
  have hsame : Reordered (.object [("dag", .array [farLookup, someNumbers])])
      (.object [("dag", .array [someNumbers, farLookup])]) :=
    ⟨⟨_, _, rfl, rfl, .swap _ _ _, by decide⟩, rfl⟩
  refine ⟨_, hread, haccepts.1 ⟨_, hread⟩, (hdescribes _).1 hread, hreorders _ _ hsame hread,
    hvalid _ hread, ?_⟩
  cbv
  rintro ⟨⟩

end Dataflow.Graph
