/-
**Graphs with the same text.**

The text of a graph determines its document, because the doubles in a document are finite.  The
document determines the graph, level by level: the records give the numbers, the operators and the
producers, hence the edges, and the document of the graph of a pipeline stands in its record.  The
constants that are not finite are the exception: all of them are written as `null`.

Main results:

* `Graph.isFinite_toJson` — the doubles in a document are finite;
* `Graph.same_of_toJson` — **graphs with the same document are equal once they are settled**;
* `Graph.same_of_write` — and so are graphs with the same text; they are equal as they are if the
  constants of one of them are finite.
-/

import Dataflow.Proofs.Document.Graphs
import Dataflow.Proofs.Document.Settling
import Dataflow.Proofs.Json.Texts
import Dataflow.Typing.Graph

namespace Dataflow

open List Number

/-! ### The doubles in a document are finite -/

namespace Json

theorem mem_putMember {key : String} {value : Json}
    {members : List (String × Json)} {e : String × Json} (h : e ∈ putMember key value members) :
    e = (key, value) ∨ e ∈ members := by
  fun_induction putMember key value members with
  | case1 => simpa using h
  | case2 k v rest hlt => simpa using h
  | case3 v rest hlt =>
    obtain rfl | h := mem_cons.1 h
    · exact .inl rfl
    · exact .inr (mem_cons_of_mem _ h)
  | case4 k v rest hlt hne ih =>
    obtain rfl | h := mem_cons.1 h
    · exact .inr mem_cons_self
    · exact (ih h).imp_right (mem_cons_of_mem _)

theorem isFinite_ofEntries {entries : List (String × Json)}
    (h : ∀ e ∈ entries, e.2.isFinite = true) :
    (ofEntries entries).isFinite = true := by
  have hfold : ∀ (entries members : List (String × Json)), (∀ e ∈ entries, e.2.isFinite = true) →
      (∀ e ∈ members, e.2.isFinite = true) →
      ∀ e ∈ entries.foldl (fun members e => putMember e.1 e.2 members) members,
      e.2.isFinite = true := by
    intro entries
    induction entries with
    | nil => exact fun members _ hmembers => hmembers
    | cons e entries ih =>
      intro members hentries hmembers
      rw [forall_mem_cons] at hentries
      refine ih _ hentries.2 fun e' he' => ?_
      obtain rfl | he' := mem_putMember he'
      · exact hentries.1
      · exact hmembers e' he'
  rw [ofEntries, isFinite, haveFinite_iff]
  exact hfold entries [] h (by simp)

end Json

open Json (haveFinite areFinite_iff ofEntries ofNat)

theorem Literal.isFinite_toJson (value : Literal) : value.toJson.isFinite = true := by
  cases value with
  | float x => cases hx : x.isFinite <;> simp [toJson, Json.ofFloat, Json.isFinite, haveFinite, hx]
  | _ => rfl

theorem Expr.isFinite_toJson (e : Expr) : e.toJson.isFinite = true := by
  induction e using induction with
  | field arg index => rfl
  | literal value => simp [toJson, Json.isFinite, haveFinite, value.isFinite_toJson]
  | binary op left right ihl ihr => simp [toJson, Json.isFinite, haveFinite, ihl, ihr]
  | unary op operand ih => simp [toJson, Json.isFinite, haveFinite, ih]
  | tuple items ih =>
    simpa [toJson, Json.isFinite, haveFinite, listToJson_eq_map, areFinite_iff] using ih

theorem FieldType.isFinite_toJson (t : FieldType) : t.toJson.isFinite = true := by
  induction t using induction with
  | atomic k => rfl
  | tuple fields ih =>
    simpa [toJson, Json.isFinite, haveFinite, fieldsToJson_eq_map, areFinite_iff] using ih
  | array element ih => simp [toJson, Json.isFinite, haveFinite, ih]

theorem TupleType.isFinite_toJson (t : TupleType) : t.toJson.isFinite = true := by
  simp [toJson, Json.isFinite, haveFinite, FieldType.fieldsToJson_eq_map, areFinite_iff,
    FieldType.isFinite_toJson]

theorem Primitive.isFinite_members (p : Primitive) : ∀ e ∈ p.members, e.2.isFinite = true := by
  have hnats : ∀ ns : List Nat, (Json.array (ns.map ofNat)).isFinite = true := by
    simp [Json.isFinite, areFinite_iff, ofNat]
  cases p with
  | parameterLookup n type =>
    cases type <;> simp [members, Json.isFinite, ofNat, TupleType.isFinite_toJson]
  | constantTuple values => simp [members, Json.isFinite, areFinite_iff, Literal.isFinite_toJson]
  | groupBy keys aggregates =>
    have haggregate : ∀ a : Aggregate, a.toJson.isFinite = true := by
      rintro ⟨fn, _ | field⟩ <;> rfl
    simpa [members, Json.isFinite, areFinite_iff, ofNat] using fun a _ => haggregate a
  | filter predicate | map function | reduce function | reduceByKey function =>
    simp [members, Expr.isFinite_toJson]
  | projection positions => simpa [members] using hnats positions
  | _ => simp [members, Json.isFinite, ofNat]

namespace Graph

variable {g h : Dag} {docs docs' : Nat → Json} {order order' : List Nat}
  {n n' : Node Operator} {j : Json}

/-- An orderly graph has a document, made of those of the graphs inside. -/
theorem exists_document (hg : g.Everywhere Orderly) : ∃ docs order, g.order = .ok order ∧
    (∀ id h, g.inner? id = some h → h.toJson = .ok (docs id)) ∧
      g.toJson = .ok (g.document docs order) := by
  induction hg with
  | @intro g hlevel _ ih =>
    have hdocs : ∀ id, ∃ doc, ∀ h, g.inner? id = some h → h.toJson = .ok doc := by
      intro id
      cases hid : g.inner? id with
      | none => exact ⟨.null, nofun⟩
      | some h =>
        obtain ⟨docs, order, -, -, hdocument⟩ := ih id h hid
        refine ⟨h.document docs order, fun h' hh' => ?_⟩
        cases hh'
        exact hdocument
    choose docs hdocs using hdocs
    obtain ⟨order, horder⟩ := hlevel.ordered
    exact ⟨docs, order, horder, hdocs, toJson_eq_ok hlevel.wired.ascending horder hdocs⟩

/-- **The doubles in a document are finite.** -/
theorem isFinite_toJson (hg : g.Everywhere Orderly) (hj : g.toJson = .ok j) :
    j.isFinite = true := by
  induction hg generalizing j with
  | @intro g hlevel hinside ih =>
    obtain ⟨docs, order, -, hdocs, hdocument⟩ := exists_document ⟨hlevel, hinside⟩
    obtain rfl := Except.ok.inj (hdocument.symm.trans hj)
    have hrecord : ∀ n ∈ order.filterMap g.node?,
        (ofEntries (g.recordEntries docs n)).isFinite = true := by
      intro n hn
      obtain ⟨id, -, hnode⟩ := mem_filterMap.1 hn
      obtain rfl := id_eq_of_node? hnode
      refine Json.isFinite_ofEntries ?_
      rw [recordEntries, forall_mem_append]
      constructor
      · simp [Json.isFinite, ofNat, areFinite_iff]
      · cases hkind : n.kind with
        | primitive p => exact p.isFinite_members
        | pipeline m k =>
          have hid := inner?_eq_some_iff.2 ⟨n, m, hnode, hkind⟩
          simpa [Json.isFinite, ofNat] using ih n.id k hid (hdocs n.id k hid)
    have hsink : (Json.ofOption ofNat g.sink).isFinite = true := by cases g.sink <;> rfl
    rw [document, Json.isFinite, Json.haveFinite_iff, forall_mem_cons,
      forall_mem_singleton, Json.isFinite, areFinite_iff, List.forall_mem_map]
    exact ⟨hrecord, hsink⟩

/-! ### One level -/

section

variable (hrecord : ofEntries (g.recordEntries docs n) = ofEntries (h.recordEntries docs' n'))
include hrecord

theorem mem_recordEntries_iff (e : String × Json) :
    e ∈ g.recordEntries docs n ↔ e ∈ h.recordEntries docs' n' := by
  rw [← get?_record, ← get?_record, hrecord]

theorem value_eq_of_record {key : String} {value value' : Json}
    (hvalue : (key, value) ∈ g.recordEntries docs n)
    (hvalue' : (key, value') ∈ h.recordEntries docs' n') : value = value' := by
  have hget := get?_record.2 hvalue
  rw [hrecord, get?_record.2 hvalue'] at hget
  exact (Option.some.inj hget).symm

/-- The number, the sort and the producers of an operator can be told from its record. -/
theorem node_eq_of_record : n.id = n'.id ∧ n.kind.tag = n'.kind.tag ∧
      g.producers n.id = h.producers n'.id := by
  have hhead : ∀ (g : Dag) (docs : Nat → Json) (n : Node Operator),
      ("id", .ofNat n.id) ∈ g.recordEntries docs n ∧
        ("op", .string n.kind.tag.name) ∈ g.recordEntries docs n ∧
        ("predecessors", .array ((g.producers n.id).map ofNat)) ∈ g.recordEntries docs n := by
    simp [recordEntries]
  obtain ⟨hid, hop, hproducers⟩ := hhead g docs n
  obtain ⟨hid', hop', hproducers'⟩ := hhead h docs' n'
  refine ⟨?_, ?_, ?_⟩
  · exact Int.ofNat_inj.1 (Json.int.inj (value_eq_of_record hrecord hid hid'))
  · have hname := Json.string.inj (value_eq_of_record hrecord hop hop')
    have htag := Catalog.tag?_standard n.kind.tag
    rw [hname, Catalog.tag?_standard] at htag
    exact (Option.some.inj htag).symm
  · exact Primitive.eq_of_map_ofNat
      (Json.array.inj (value_eq_of_record hrecord hproducers hproducers'))

end

/-- The members of a primitive operator are the entries of its record that others do not have. -/
theorem mem_members_iff {p : Primitive} (hkind : n.kind = .primitive p) {e : String × Json} :
    e ∈ p.members ↔ e ∈ g.recordEntries docs n ∧ e.1 ∉ ["id", "op", "predecessors"] := by
  have hkeys := p.nodup_keys
  rw [nodup_append] at hkeys
  have hnew : ∀ e ∈ p.members, e.1 ∉ ["id", "op", "predecessors"] := fun e he hkey =>
    hkeys.2.2 e.1 hkey e.1 (List.mem_map.2 ⟨e, he, rfl⟩) rfl
  rw [recordEntries, hkind, mem_append]
  constructor
  · exact fun he => ⟨.inr he, hnew e he⟩
  · rintro ⟨he | he, hkey⟩
    · simp only [mem_cons, not_mem_nil, or_false] at he
      obtain rfl | rfl | rfl := he <;> simp at hkey
    · exact he

/-- Graphs with the same document have the same sink and the same numbers, and under each of them
the same record. -/
theorem records_eq_of_document (hg : g.Orderly) (hh : h.Orderly) (horder : g.order = .ok order)
    (horder' : h.order = .ok order') (heq : g.document docs order = h.document docs' order') :
    g.sink = h.sink ∧ g.ids = h.ids ∧ ∀ n ∈ g.nodes, ∀ n' ∈ h.nodes, n.id = n'.id →
      ofEntries (g.recordEntries docs n) = ofEntries (h.recordEntries docs' n') := by
  simp only [document, Json.object.injEq, cons.injEq, Prod.mk.injEq, Json.array.injEq,
    and_true, true_and] at heq
  obtain ⟨hrecords, hsink⟩ := heq
  have hwritten := perm_written hg.wired.ascending horder
  have hwritten' := perm_written hh.wired.ascending horder'
  refine ⟨?_, ?_, ?_⟩
  · cases hgsink : g.sink <;> cases hhsink : h.sink <;> simp_all [Json.ofOption, ofNat]
  · have hnumbers : ∀ (g : Dag) (docs : Nat → Json) (nodes : List (Node Operator)),
        (nodes.map fun n => ofEntries (g.recordEntries docs n)).map (·.get? "id") =
          (nodes.map (·.id)).map fun id => some (ofNat id) := by
      intro g docs nodes
      rw [List.map_map, List.map_map]
      exact map_congr_left fun n _ => get?_record.2 (by simp [recordEntries])
    have hids : (order.filterMap g.node?).map (·.id) = (order'.filterMap h.node?).map (·.id) := by
      have hsame := congrArg (List.map (·.get? "id")) hrecords
      rw [hnumbers, hnumbers] at hsame
      exact (List.map_inj_right fun _ _ heq => Int.ofNat_inj.1
        (Json.int.inj (Option.some.inj heq))).1 hsame
    have hperm : g.ids.Perm h.ids := (hwritten.map _).symm.trans (hids ▸ hwritten'.map _)
    exact hperm.eq_of_pairwise (fun a b _ _ hab hba => absurd hab (Nat.lt_asymm hba))
      hg.wired.ascending hh.wired.ascending
  · intro n hn n' hn' hid
    have hmem : ofEntries (g.recordEntries docs n) ∈ (order.filterMap g.node?).map fun n =>
        ofEntries (g.recordEntries docs n) := List.mem_map_of_mem (hwritten.mem_iff.2 hn)
    rw [hrecords] at hmem
    obtain ⟨other, hother, hrecord⟩ := List.mem_map.1 hmem
    obtain rfl : other = n' := by
      have hfound := node?_of_mem hh.wired.ascending (hwritten'.mem_iff.1 hother)
      rw [(node_eq_of_record hrecord).1, hid, node?_of_mem hh.wired.ascending hn'] at hfound
      exact (Option.some.inj hfound).symm
    exact hrecord.symm

/-- The edges of an orderly graph are determined by the producers of its operators. -/
theorem mem_edges_iff (hg : g.Orderly) {e : Edge} : e ∈ g.edges ↔
    e.sourceSlot = 0 ∧ e.target ∈ g.ids ∧
      (g.producers e.target)[e.targetSlot]? = some e.source := by
  constructor
  · intro he
    have hproducer := producer?_of_mem_edges hg.wired he
    have hid := (hg.wired.feeds _ _ _ hproducer).1
    exact ⟨hg.slots e he, hid, by rw [hg.wired.getElem?_producers hid, hproducer]⟩
  · rintro ⟨hslot, hid, hsource⟩
    rw [hg.wired.getElem?_producers hid, producer?_eq_some_iff hg.wired.once] at hsource
    obtain ⟨f, hf, hport, hsource⟩ := hsource
    obtain ⟨htarget, htargetSlot⟩ := Prod.mk.inj hport
    have hslot' := hg.slots f hf
    obtain rfl : f = e := by
      cases f
      cases e
      simp_all
    exact hf

theorem sameEdges_of_records (hg : g.Orderly) (hh : h.Orderly) (hids : g.ids = h.ids)
    (hrecords : ∀ n ∈ g.nodes, ∀ n' ∈ h.nodes, n.id = n'.id →
      ofEntries (g.recordEntries docs n) = ofEntries (h.recordEntries docs' n')) :
    sameEdges g.edges h.edges = true := by
  have hmem : ∀ e, e ∈ g.edges ↔ e ∈ h.edges := by
    intro e
    rw [mem_edges_iff hg, mem_edges_iff hh, hids]
    refine and_congr_right fun _ => and_congr_right fun htarget => ?_
    obtain ⟨n', hn', hid'⟩ := List.mem_map.1 htarget
    obtain ⟨n, hn, hid⟩ := List.mem_map.1 (hids ▸ htarget)
    have hproducers := (node_eq_of_record (hrecords n hn n' hn' (hid.trans hid'.symm))).2.2
    rw [hid, hid'] at hproducers
    rw [hproducers]
  simpa [sameEdges] using ⟨fun e he => (hmem e).1 he, fun e he => (hmem e).2 he⟩

theorem sameNodes_of_ids {ms ns : List (Node Operator)} (hids : ms.map (·.id) = ns.map (·.id))
    (h : ∀ m ∈ ms, ∀ n ∈ ns, m.id = n.id → sameNode m n = true) : sameNodes ms ns = true := by
  induction ms generalizing ns with
  | nil =>
    cases ns with
    | nil => rw [sameNodes]
    | cons n ns => cases hids
  | cons m ms ih =>
    cases ns with
    | nil => cases hids
    | cons n ns =>
      obtain ⟨hid, hids⟩ := cons.inj hids
      rw [sameNodes, h m mem_cons_self n mem_cons_self hid, ih hids fun m hm n hn =>
        h m (mem_cons_of_mem _ hm) n (mem_cons_of_mem _ hn), Bool.and_self]

/-! ### All levels -/

mutual

/-- A graph with infinity in place of the constants that are not finite. -/
def settle : Graph Operator → Dag
  | ⟨nodes, edges, sink, nextId, allocated⟩ => ⟨settleNodes nodes, edges, sink, nextId, allocated⟩

/-- Nodes with infinity in place of the constants that are not finite. -/
def settleNodes : List (Node Operator) → List (Node Operator)
  | [] => []
  | n :: rest => settleNode n :: settleNodes rest

/-- A node with infinity in place of the constants that are not finite. -/
def settleNode : Node Operator → Node Operator
  | ⟨id, kind, note⟩ => ⟨id, settleOperator kind, note⟩

/-- An operator with infinity in place of the constants that are not finite. -/
def settleOperator : Operator → Operator
  | .primitive p => .primitive p.settle
  | .pipeline n g => .pipeline n (settle g)

end

theorem settleNodes_eq_map (nodes : List (Node Operator)) :
    settleNodes nodes = nodes.map settleNode := by
  induction nodes with
  | nil => rw [settleNodes, map_nil]
  | cons n nodes ih => rw [settleNodes, ih, map_cons]

theorem settle_eq (g : Dag) : g.settle = { g with nodes := g.nodes.map settleNode } := by
  cases g
  rw [settle, settleNodes_eq_map]

theorem id_settleNode (n : Node Operator) : (settleNode n).id = n.id := by
  cases n
  rw [settleNode]

theorem ids_settle (g : Dag) : g.settle.ids = g.ids := by
  rw [settle_eq, ids, List.map_map]
  exact map_congr_left fun n _ => id_settleNode n

/-- Operators with the same record are equal once they are settled, if the graphs inside are. -/
theorem sameNode_of_record
    (hrecord : ofEntries (g.recordEntries docs n) = ofEntries (h.recordEntries docs' n')) {P : Prop}
    (hprimitive : ∀ p, P → n.kind = .primitive p → p.isFinite = true)
    (hinside : ∀ m k m' k', n.kind = .pipeline m k → n'.kind = .pipeline m' k' →
      docs n.id = docs' n'.id → k.settle.same k'.settle = true ∧ (P → k.same k' = true)) :
    sameNode (settleNode n) (settleNode n') = true ∧ (P → sameNode n n' = true) := by
  obtain ⟨hid, htag, -⟩ := node_eq_of_record hrecord
  have hconfiguration : ∀ (g : Dag) (docs : Nat → Json) (id m : Nat) (k : Dag) (note : Note),
      ("num_inputs", .ofNat m) ∈ g.recordEntries docs ⟨id, .pipeline m k, note⟩ ∧
        ("inner_dag", docs id) ∈ g.recordEntries docs ⟨id, .pipeline m k, note⟩ := by
    simp [recordEntries]
  obtain ⟨id, kind, note⟩ := n
  obtain ⟨id', kind', note'⟩ := n'
  obtain rfl : id = id' := hid
  cases kind with
  | primitive p =>
    cases kind' with
    | primitive q =>
      have hmembers : ∀ key value, (key, value) ∈ p.members ↔
        (key, value) ∈ q.members := fun key value =>
        (mem_members_iff rfl).trans ((and_congr_left fun _ => mem_recordEntries_iff hrecord _).trans
          (mem_members_iff rfl).symm)
      obtain ⟨hsettled, hfinite⟩ := Primitive.same_of_members htag hmembers
      refine ⟨?_, fun hP => ?_⟩
      · simpa [sameNode, settleNode, settleOperator, sameOperator] using hsettled
      · simpa [sameNode, sameOperator] using hfinite (hprimitive p hP rfl)
    | pipeline m k => cases p <;> cases htag
  | pipeline m k =>
    cases kind' with
    | primitive q => cases q <;> cases htag
    | pipeline m' k' =>
      obtain ⟨hinputs, hdoc⟩ := hconfiguration g docs id m k note
      obtain ⟨hinputs', hdoc'⟩ := hconfiguration h docs' id m' k' note'
      obtain rfl : m = m' :=
        Int.ofNat_inj.1 (Json.int.inj (value_eq_of_record hrecord hinputs hinputs'))
      have hdocs := value_eq_of_record hrecord hdoc hdoc'
      obtain ⟨hsettled, hfinite⟩ := hinside m k m k' rfl rfl hdocs
      refine ⟨?_, fun hP => ?_⟩
      · simpa [sameNode, settleNode, settleOperator, sameOperator] using hsettled
      · simpa [sameNode, sameOperator] using hfinite hP

/-- **Graphs with the same document are equal once they are settled**, and equal as they are if the
constants of one are finite. -/
theorem same_of_toJson (hg : g.Everywhere Orderly) (hh : h.Everywhere Orderly)
    (hgj : g.toJson = .ok j) (hhj : h.toJson = .ok j) :
    g.settle.same h.settle = true ∧ (g.Finite → g.same h = true) := by
  induction hg generalizing h j with
  | @intro g hlevel hinside ih =>
    obtain ⟨docs, order, horder, hdocs, hdocument⟩ := exists_document ⟨hlevel, hinside⟩
    obtain ⟨docs', order', horder', hdocs', hdocument'⟩ := exists_document hh
    have heq : g.document docs order = h.document docs' order' := by
      rw [hgj] at hdocument
      rw [hhj] at hdocument'
      exact (Except.ok.inj hdocument).symm.trans (Except.ok.inj hdocument')
    obtain ⟨hsink, hids, hrecords⟩ := records_eq_of_document hlevel hh.here horder horder' heq
    have hedges := sameEdges_of_records hlevel hh.here hids hrecords
    have hnode : ∀ n ∈ g.nodes, ∀ n' ∈ h.nodes, n.id = n'.id →
        sameNode (settleNode n) (settleNode n') = true ∧ (g.Finite → sameNode n n' = true) := by
      intro n hn n' hn' hid
      have hfound := node?_of_mem hlevel.wired.ascending hn
      have hfound' := node?_of_mem hh.here.wired.ascending hn'
      refine sameNode_of_record (hrecords n hn n' hn' hid) (fun p hfinite hkind => ?_) ?_
      · have hconstants := hfinite.here n hn
        rwa [hkind] at hconstants
      · intro m k m' k' hkind hkind' hdoc
        have hinner := inner?_eq_some_iff.2 ⟨n, m, hfound, hkind⟩
        have hinner' := inner?_eq_some_iff.2 ⟨n', m', hfound', hkind'⟩
        obtain ⟨hsettled, hfinite⟩ := ih n.id k hinner (hh.inside hinner') (hdocs n.id k hinner)
          (hdoc ▸ hdocs' n'.id k' hinner')
        exact ⟨hsettled, fun hg => hfinite (hg.inside hinner)⟩
    constructor
    · have hsettled : sameNodes g.settle.nodes h.settle.nodes = true := by
        refine sameNodes_of_ids ((ids_settle g).trans (hids.trans (ids_settle h).symm)) ?_
        rw [settle_eq, settle_eq, List.forall_mem_map]
        intro n hn
        rw [List.forall_mem_map]
        intro n' hn' hid
        rw [id_settleNode, id_settleNode] at hid
        exact (hnode n hn n' hn' hid).1
      rw [same_eq, hsettled, settle_eq, settle_eq]
      simp [hedges, hsink]
    · intro hfinite
      have hsame := sameNodes_of_ids hids fun n hn n' hn' hid => (hnode n hn n' hn' hid).2 hfinite
      rw [same_eq]
      simp [hsame, hedges, hsink]

/-- **Graphs with the same text are equal once they are settled.**  Valid graphs have texts, and if
the texts of two of them are the same, then the graphs are equal but for constants that are not
finite; they are equal as they are if the constants of one are finite. -/
theorem same_of_write (hg : g.Numbered) (hh : h.Numbered) (hgvalid : g.validate = .ok ())
    (hhvalid : h.validate = .ok ()) : ∃ s t, g.write = .ok s ∧ h.write = .ok t ∧
      (s = t → g.settle.same h.settle = true ∧ (g.Finite → g.same h = true)) := by
  have hgorderly := orderly_of_checkOpenWithin hg (checkOpenWithin_of_validateWithin hg hgvalid)
  have hhorderly := orderly_of_checkOpenWithin hh (checkOpenWithin_of_validateWithin hh hhvalid)
  obtain ⟨docs, order, -, -, hgj⟩ := exists_document hgorderly
  obtain ⟨docs', order', -, -, hhj⟩ := exists_document hhorderly
  refine ⟨_, _, congrArg (Except.map Json.pretty) hgj, congrArg (Except.map Json.pretty)
    hhj, fun htext => ?_⟩
  have heq := Json.eq_of_pretty (isFinite_toJson hgorderly hgj)
    (isFinite_toJson hhorderly hhj) htext
  exact same_of_toJson hgorderly hhorderly hgj (heq ▸ hhj)

/-- The first field of the input, scaled. -/
def scaled (x : Float) : Dag where
  nodes := [⟨0, .primitive (.parameterLookup 0 none), {}⟩,
    ⟨1, .primitive (.map (.tuple [.binary .mul (.field 0 0) (.literal (.float x))])), {}⟩]
  edges := [⟨0, 0, 1, 0⟩]
  sink := some 1

/-- All pairs of an integer and a number that a pipeline scales, with the edges in some order. -/
def scaledPairs (x y : Float) (edges : List Edge) : Dag where
  nodes := [⟨1, .pipeline 1 (scaled x), {}⟩,
    ⟨3, .primitive (.constantTuple [.float y, .int (-4)]), {}⟩,
    ⟨4, .primitive (.range ⟨0, 10, 2⟩), {}⟩, ⟨7, .primitive .cartesian, {}⟩]
  edges
  sink := some 7

theorem everywhere_scaledPairs {P : Dag → Prop} {x y : Float} {edges : List Edge}
    (hhere : P (scaledPairs x y edges)) (hinside : P (scaled x)) :
    (scaledPairs x y edges).Everywhere P :=
  everywhere_of_inner hhere (forall_mem_singleton.2 (everywhere_of_inner hinside nofun))

theorem validate_scaledPairs (x y : Float) :
    (scaledPairs x y [⟨1, 0, 7, 1⟩, ⟨4, 0, 7, 0⟩, ⟨3, 0, 1, 0⟩]).validate = .ok () ∧
      (scaledPairs x y [⟨3, 0, 1, 0⟩, ⟨4, 0, 7, 0⟩, ⟨1, 0, 7, 1⟩]).validate = .ok () := by
  constructor <;> cbv

/-- The order of the edges is not written. -/
theorem toJson_scaledPairs {x y : Float} {edges edges' : List Edge} (hperm : edges'.Perm edges)
    (hg : (scaledPairs x y edges).Everywhere Orderly) :
    (scaledPairs x y edges').toJson = (scaledPairs x y edges).toJson := by
  have hcopied : Copied (fun _ => scaled x) (scaledPairs x y edges) (scaledPairs x y edges') :=
    ⟨rfl, hperm, rfl⟩
  obtain ⟨docs, order, horder, hdocs, hdocument⟩ := exists_document hg
  rw [hdocument, ← document_of_copied hg.here.wired hcopied]
  refine toJson_eq_ok (hcopied.ids ▸ hg.here.wired.ascending)
    (hcopied.order.trans horder) fun id h hid => ?_
  exact hdocs id h hid

/-- The pairs with their edges in two orders have the same text, and are equal. -/
theorem scaledPairs_same :
    ∃ g h s, g = scaledPairs 0.5 0.75 [⟨1, 0, 7, 1⟩, ⟨4, 0, 7, 0⟩, ⟨3, 0, 1, 0⟩] ∧
    h = scaledPairs 0.5 0.75 [⟨3, 0, 1, 0⟩, ⟨4, 0, 7, 0⟩, ⟨1, 0, 7, 1⟩] ∧ g.Numbered ∧ h.Numbered ∧
    g.validate = .ok () ∧ h.validate = .ok () ∧ g.Finite ∧ g.write = .ok s ∧ h.write = .ok s ∧
    g.settle.same h.settle = true ∧ g.same h = true := by
  have hnumbered : ∀ edges, (scaledPairs 0.5 0.75 edges).Numbered := fun edges =>
    everywhere_scaledPairs (by simp [ids, scaledPairs]) (by simp [ids, scaled])
  have hfinite : (scaledPairs 0.5 0.75 [⟨1, 0, 7, 1⟩, ⟨4, 0, 7, 0⟩, ⟨3, 0, 1, 0⟩]).Finite :=
    everywhere_scaledPairs (List.all_eq_true.1 (by decide +kernel))
      (List.all_eq_true.1 (by decide +kernel))
  obtain ⟨hgvalid, hhvalid⟩ := validate_scaledPairs 0.5 0.75
  have horderly :=
    orderly_of_checkOpenWithin (hnumbered _)
      (checkOpenWithin_of_validateWithin (hnumbered _) hgvalid)
  obtain ⟨s, t, hs, ht, hsame⟩ := same_of_write (hnumbered _) (hnumbered _) hgvalid hhvalid
  obtain rfl : s = t := by
    have htext : (scaledPairs 0.5 0.75 [⟨3, 0, 1, 0⟩, ⟨4, 0, 7, 0⟩, ⟨1, 0, 7, 1⟩]).write =
        .ok s := by
      rw [← hs, write, write, toJson_scaledPairs (by decide) horderly]
    exact Except.ok.inj (htext.symm.trans ht)
  obtain ⟨hsettled, hequal⟩ := hsame rfl
  exact ⟨_, _, s, rfl, rfl, hnumbered _, hnumbered _, hgvalid, hhvalid, hfinite, hs, ht, hsettled,
    hequal hfinite⟩

/-- One row of a number. -/
def numberRow (x : Float) : Dag where
  nodes := [⟨0, .primitive (.constantTuple [.float x]), {}⟩]
  sink := some 0
  nextId := 1

/-- The row of a number is written by way of the document of the number. -/
theorem toJson_numberRow (x : Float) :
    (numberRow x).toJson =
      .ok (.object [("dag",
      .array [.ofEntries [("id", .int 0), ("op", .string "constant_tuple"),
      ("predecessors", .array []), ("values", .array [.object [("float", .ofFloat x)]])]]),
      ("sink", .int 0)]) := by
  have horder : (numberRow x).order = .ok [0] := by cbv
  have hproducers : (numberRow x).producers 0 = [] := by cbv
  have hnodes : [0].filterMap (numberRow x).node? = (numberRow x).nodes := rfl
  have hinner : ∀ id h, (numberRow x).inner? id = some h →
      h.toJson = .ok .null := fun id h hid => by
    simpa [inner, numberRow, Operator.inner?] using mem_inner_of_inner? hid
  rw [toJson_eq_ok (by simp [ids, numberRow]) horder hinner, document, hnodes]
  rw [numberRow, map_singleton, recordEntries, ← numberRow, hproducers]
  rfl

/-- The two infinities are written alike, although the graphs are valid, have types and differ. -/
theorem infinities_written_alike : ∃ g h s, g = numberRow (infinity false) ∧
    h = numberRow (infinity true) ∧ g.validate = .ok () ∧ h.validate = .ok () ∧
    (∃ types, g.types = .ok types) ∧ (∃ types, h.types = .ok types) ∧
      g.write = .ok s ∧ h.write = .ok s ∧
    g.same h = false := by
  have hvalid : ∀ x, (numberRow x).validate = .ok () := by
    intro x
    cbv
  have htypes : ∀ x, ∃ types, (numberRow x).types = .ok types := by
    intro x
    exact ⟨_, by cbv⟩
  have hnull : Json.ofFloat (infinity false) = .null ∧
    Json.ofFloat (infinity true) = .null :=
    ⟨if_neg (by decide +kernel), if_neg (by decide +kernel)⟩
  have hdiffer : (infinity false == infinity true) = false := by decide +kernel
  have hg := toJson_numberRow (infinity false)
  have hh := toJson_numberRow (infinity true)
  rw [hnull.1] at hg
  rw [hnull.2] at hh
  refine ⟨_, _, _, rfl, rfl, hvalid _, hvalid _, htypes _, htypes _,
    congrArg (Except.map Json.pretty) hg, congrArg (Except.map Json.pretty) hh, ?_⟩
  rw [same_eq]
  simp [numberRow, sameNodes, sameNode, sameOperator, Primitive.same, Literal.same, hdiffer]

end Graph

end Dataflow
