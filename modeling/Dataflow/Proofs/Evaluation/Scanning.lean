/-
**Scanning undoes materializing.**

A row vector holds all rows of an operator in one array, and scanning an array gives its items one
by one.  So a scan of a row vector has the rows of which the vector was made, or these rows behind
their positions.  Both operators store what they make: the vector the rows as the items of its
array, and the scan the items as rows.  Neither changes a row that was stored before, of whatever
width it is and whatever its fields are.

Main results:

* `scan_iff` — **what is scanned from a row vector are the rows that went into it**;
* `Graph.scan_undoes_vector` — rows of every type, and those of every operator of a graph, come out
  as they went in.
-/

import Dataflow.Proofs.Meaning.Evaluation

namespace Dataflow

open List Interpretation Outcome

/-- The type of a scan of a row vector: the type of its rows, behind one of their positions if these
are asked for. -/
def TupleType.scanned (addIndex : Bool) (t : TupleType) : TupleType :=
  if addIndex then positional (.atomic .int64 :: t.types) else t

/-- The rows of a scan of a row vector, each behind its position if this is asked for. -/
def Rows.scanned (addIndex : Bool) (rows : Rows) : Rows :=
  if addIndex then rows.mapIdx fun i row => .int (Int64.ofNat i) :: row else rows

theorem TupleType.store_behind {t : TupleType} {row : Row} (h : t.store row = row) (i : Int64) :
    (positional (.atomic .int64 :: t.types)).store (.int i :: row) = .int i :: row := by
  by_cases hlength : row.length = t.types.length
  · rw [store_eq (by simp [hlength]), types_positional, zipWith_cons_cons, ← store_eq hlength, h]
    rfl
  · rw [store, if_neg (by rw [← length_types]; simp [hlength])]

variable {addIndex : Bool} {c : EvaluationContext} {t : TupleType} {rows : Rows} {out : Stream}

theorem TupleType.store_scanned (h : rows.map t.store = rows) :
    (Rows.scanned addIndex rows).map (t.scanned addIndex).store = Rows.scanned addIndex rows := by
  cases addIndex with
  | false => exact h
  | true =>
    refine ext_getElem? fun i => ?_
    have hrow : (rows.map t.store)[i]? = rows[i]? := by rw [h]
    simp only [Rows.scanned, scanned, if_true, getElem?_map, getElem?_mapIdx] at hrow ⊢
    cases hi : rows[i]? with
    | none => rfl
    | some row =>
      rw [hi, Option.map_some, Option.some.injEq] at hrow
      simp only [Option.map_some, store_behind hrow]

/-- An operator whose rows storing leaves alone makes these rows and no others. -/
theorem makes_iff {p : Primitive} {operands : List Stream}
    (htype : p.outputType (operands.map (·.type)) c.bound = .ok t)
    (hrun : p.run operands c.parameters = .ok rows) (h : rows.map t.store = rows) :
    evaluation.primitive c p operands out ↔ out = ⟨t, rows⟩ := by
  obtain ⟨type, outRows⟩ := out
  constructor
  · rintro ⟨htype', raw, hrun', hrows⟩
    obtain rfl : t = type := Except.ok.inj (htype.symm.trans htype')
    obtain rfl : rows = raw := Except.ok.inj (hrun.symm.trans hrun')
    exact congrArg _ (hrows.trans h)
  · rintro ⟨⟩
    exact ⟨htype, rows, hrun, h.symm⟩

theorem vector_iff (h : rows.map t.store = rows) :
    evaluation.primitive c .materializeRowVector [⟨t, rows⟩] out ↔
      out = ⟨t.vectorOf, [[.array (rows.map .tuple)]]⟩ :=
  makes_iff rfl rfl (by rw [map_singleton, TupleType.store_vectorOf h])

/-- **What is scanned from a row vector are the rows that went into it.** -/
theorem scan_iff (h : rows.map t.store = rows) :
    evaluation.primitive c (.rowScan addIndex) [⟨t.vectorOf, [[.array (rows.map .tuple)]]⟩] out ↔
      out = ⟨t.scanned addIndex, Rows.scanned addIndex rows⟩ := by
  have hitems : (rows.map Value.tuple).mapIdx (fun i item =>
      (if addIndex then [.int (Int64.ofNat i)] else []) ++ item.fields) =
        Rows.scanned addIndex rows := by
    refine ext_getElem? fun i => ?_
    cases addIndex <;> simp [Rows.scanned, Value.fields, Function.comp_def]
  refine makes_iff rfl ?_ (TupleType.store_scanned h)
  rw [← hitems]
  simp [Primitive.run, Primitive.runUnary, scanRow, Value.array?]

namespace Graph

open GraphTypes

/-- An operator scans the row vector of the rows of another one. -/
structure ScansVector (g : Dag) (addIndex : Bool) (source vector scan : Nat) : Prop where
  materializes : ∃ node, g.node? vector = some node ∧ node.kind = .primitive .materializeRowVector
  source : g.producers vector = [source]
  scans : ∃ node, g.node? scan = some node ∧ node.kind = .primitive (.rowScan addIndex)
  vector : g.producers scan = [vector]

/-- A scan of a row vector has the rows of the operator behind the vector. -/
theorem ScansVector.value {g : Dag} {source vector scan : Nat} {v : Nat → Stream}
    (hg : g.ScansVector addIndex source vector scan) (hv : evaluation.Models g c v)
    (hsource : source ∈ g.ids) :
    v scan = ⟨(v source).type.scanned addIndex, Rows.scanned addIndex (v source).rows⟩ := by
  have hstored := stored_of_models hv hsource
  obtain ⟨node, hnode, hkind⟩ := hg.materializes
  obtain ⟨node', hnode', hkind'⟩ := hg.scans
  have hvector := models_iff.1 hv vector node hnode
  have hscan := models_iff.1 hv scan node' hnode'
  rw [hkind, hg.source] at hvector
  rw [hkind', hg.vector, map_singleton, (vector_iff hstored).1 hvector] at hscan
  exact (scan_iff hstored).1 hscan

/-- Rows of a type that are read, materialized and scanned. -/
def scannedVector (addIndex : Bool) (t : TupleType) : Dag where
  nodes := [⟨0, .primitive (.parameterLookup 0 (some t)), {}⟩,
    ⟨1, .primitive .materializeRowVector, {}⟩, ⟨2, .primitive (.rowScan addIndex), {}⟩]
  edges := [⟨0, 0, 1, 0⟩, ⟨1, 0, 2, 0⟩]
  sink := some 2

theorem types_scannedVector (addIndex : Bool) (t : TupleType) : (scannedVector addIndex t).types =
    .ok ⟨[(0, t), (1, t.vectorOf), (2, t.scanned addIndex)], []⟩ := by
  cbv

theorem models_scannedVector (h : rows.map t.store = rows) :
    evaluation.Models (scannedVector addIndex t) ⟨none, [rows]⟩ fun
      | 0 => ⟨t, rows⟩
      | 1 => ⟨t.vectorOf, [[.array (rows.map .tuple)]]⟩
      | _ => ⟨t.scanned addIndex, Rows.scanned addIndex rows⟩ := by
  have hproducers : [0, 1, 2].map (scannedVector addIndex t).producers = [[], [0], [1]] := by cbv
  injection hproducers with hread hrest
  injection hrest with hvector hrest
  injection hrest with hscan
  refine models_iff.2 fun id node hnode => ?_
  rcases id with _ | _ | _ | id <;> cases hnode
  · rw [hread]
    exact (makes_iff rfl rfl h).2 rfl
  · rw [hvector]
    exact (vector_iff h).2 rfl
  · rw [hscan]
    exact (scan_iff h).2 rfl

/-- **Scanning undoes materializing.**  Rows of any type that storing leaves alone can be read,
materialized and scanned, and they come out as they went in, at their type, or behind their
positions; and so do the rows of every operator of every graph, on every level. -/
theorem scan_undoes_vector {t : TupleType} {rows : Rows}
    (hrows : ∀ row ∈ rows, t.store row = row) (addIndex : Bool) :
    (∃ types, (scannedVector addIndex t).types = .ok types ∧
      types.output 2 = .ok (t.scanned addIndex)) ∧
    (scannedVector addIndex t).evaluate [rows] = .ok (Rows.scanned addIndex rows) ∧
    ∀ (g : Dag) source vector scan bound types parameters,
      g.ScansVector addIndex source vector scan → g.typesWithin bound = .ok types →
      types.output source = .ok t →
      ({ g with sink := some source } : Dag).evaluateWith types parameters = .ok rows →
      types.output scan = .ok (t.scanned addIndex) ∧
        ({ g with sink := some scan } : Dag).evaluateWith types parameters =
        .ok (Rows.scanned addIndex rows) := by
  have hstored : rows.map t.store = rows := (map_congr_left hrows).trans (List.map_id _)
  refine ⟨⟨_, types_scannedVector addIndex t, rfl⟩, ?_, ?_⟩
  · exact (evaluate_eq_ok_iff (types_scannedVector addIndex t)).2
      ⟨_, 2, models_scannedVector hstored, rfl, by simp [scannedVector, ids], rfl⟩
  · intro g source vector scan bound types parameters hg htypes ht hsource
    obtain ⟨hmem, v, hv, rfl⟩ := (evaluateWith_sink_iff htypes).1 hsource
    have hscan := hg.value hv hmem
    obtain ⟨node, hnode, -⟩ := hg.scans
    have hid := mem_ids_of_node? hnode
    obtain rfl : (v source).type = t :=
      Option.some.inj ((output_of_models htypes hv source hmem).symm.trans (output_eq_ok_iff.1 ht))
    exact ⟨output_eq_ok_iff.2 (by rw [output_of_models htypes hv scan hid, hscan]),
      (evaluateWith_sink_iff htypes).2 ⟨hid, v, hv, by rw [hscan]⟩⟩

/-- Rows of one field, which is itself an array of empty tuples. -/
def nestedRows : Rows := [[.array [.tuple [], .tuple []]], [.array []]]

theorem nestedRows_scanned :
    (scannedVector true [⟨"rows", .array (.tuple [])⟩]).evaluate [nestedRows] =
      .ok [[.int 0, .array [.tuple [], .tuple []]], [.int 1, .array []]] ∧
    (scannedVector true [⟨"rows", .array (.tuple [])⟩]).ScansVector true 0 1 2 ∧
    (scannedVector false [⟨"rows", .array (.tuple [])⟩]).evaluate [nestedRows] =
      .ok nestedRows := by
  have hstored : ∀ row ∈ nestedRows, TupleType.store [⟨"rows", .array (.tuple [])⟩] row = row := by
    simp only [nestedRows, forall_mem_cons]
    exact ⟨by cbv, by cbv, by simp⟩
  exact ⟨(scan_undoes_vector hstored true).2.1, ⟨⟨_, rfl, rfl⟩, by cbv, ⟨_, rfl, rfl⟩, by cbv⟩,
    (scan_undoes_vector hstored false).2.1⟩

end Graph

end Dataflow
