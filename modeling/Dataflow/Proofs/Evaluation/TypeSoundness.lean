/-
**Type soundness.**

Every row that a graph produces is of the type that was inferred for its sink, if the rows of its
parameters are of their declared types.  The graph must not have a fold that returns its only field,
a tuple, alone: the rows of such a fold have the fields of that tuple.

Main results:

* `Graph.models_soundly` — the types of a graph are a model of it under the demands of `soundly`;
* `Graph.holds_of_models` — in every model by rows, the rows of an operator are held by its type;
* `Graph.admits_of_evaluate` — **the rows of a graph are of the type of its sink**.
-/

import Dataflow.Proofs.Meaning.Evaluation
import Mathlib

namespace Dataflow

open Outcome

variable {operands : List Stream}

/-- Whether no operator of a graph or of a graph inside it is a fold that returns its only field, a
tuple, alone. -/
def Graph.foldsPlainly : Dag → GraphTypes → Bool :=
  Graph.fold fun g inner types => g.nodes.all fun node =>
    match node.kind with
    | .primitive p => !(g.inputTypes types node.id).toOption.any p.returnsBareTuple
    | .pipeline _ _ =>
      match inner.get? node.id, Table.get? types.inner node.id with
      | some plainly, some innerTypes => plainly innerTypes
      | _, _ => true

/-- Whether the rows of the parameters are of the declared types of all look-ups of a graph. -/
def Graph.admitsInputs (g : Dag) (parameters : List Rows) : Bool := g.nodes.all fun node =>
    match node.kind with
    | .primitive (.parameterLookup n (some declared)) =>
      (parameters[n]?.getD []).all declared.admits
    | _ => true

/-- What is asked of operators whose rows are followed: no fold returns its only field, a tuple,
alone, and outside pipelines the rows of a parameter are of the type of its look-up. -/
def soundly (parameters : List Rows) : Demands := fun bound p inputs t =>
  p.returnsBareTuple inputs = false ∧
    (bound = none → ∀ n declared, p = .parameterLookup n declared → ∀ rows,
      parameters[n]? = some rows → ∀ row ∈ rows, t.admits row = true)

/-- A stream of a type, all of whose rows are held by the type. -/
def TupleType.HoldsAll (t : TupleType) (s : Stream) : Prop :=
  s.type = t ∧ ∀ row ∈ s.rows, t.Holds row

theorem types_of_holdsAll {inputs : List TupleType}
    (h : List.Forall₂ TupleType.HoldsAll inputs operands) : inputs = operands.map (·.type) := by
  induction h with
  | nil => rfl
  | cons hs _ ih => rw [List.map_cons, hs.1, ih]

/-- The contexts that have the given rows of the parameters outside pipelines, and inside a pipeline
rows that are held by the types of its inputs. -/
def Supplies (parameters : List Rows) (bound : Option (List TupleType)) (c : EvaluationContext) :
    Prop :=
  c.bound = bound ∧ match bound with
    | none => c.parameters = parameters
    | some inputs => ∀ (n : Nat) (t : TupleType) (rows : Rows), inputs[n]? = some t →
        c.parameters[n]? = some rows → ∀ row ∈ rows, t.Holds row

namespace Graph

open GraphTypes

variable {g : Dag} {bound : Option (List TupleType)} {types : GraphTypes} {parameters : List Rows}

theorem foldsPlainly_eq (g : Dag) (types : GraphTypes) :
    g.foldsPlainly types = g.nodes.all fun node =>
      match node.kind with
      | .primitive p => !(g.inputTypes types node.id).toOption.any p.returnsBareTuple
      | .pipeline _ _ =>
        match (g.inner.get? node.id).map foldsPlainly, Table.get? types.inner node.id with
        | some plainly, some innerTypes => plainly innerTypes
        | _, _ => true := by
  simp only [← Table.get?_map]
  rw [foldsPlainly, fold_eq]

variable {n : Nat} {declared : Option TupleType} {t : TupleType} {inputs : List TupleType}
  {c : EvaluationContext}

theorem outputType_parameterLookup
    (h : (Primitive.parameterLookup n declared).outputType inputs bound = .ok t) :
    lookupType n declared bound = .ok t := by
  cases Primitive.outputType_eq_ok_iff.1 h with
  | parameterLookup lookup => exact lookup

/-- The types of a graph that folds plainly are a model of it under the demands on operators whose
rows are followed. -/
theorem models_soundly (h : g.types = .ok types) (hplain : g.foldsPlainly types = true)
    (hinputs : g.admitsInputs parameters = true) :
    (typing (soundly parameters)).Models g none types.type := by
  refine models_of_typesWithin (H := fun g bound types => g.foldsPlainly types = true ∧
    (bound = none → g.admitsInputs parameters = true)) ?_ ?_ h ⟨hplain, fun _ => hinputs⟩
  · rintro g bound types ⟨hplain, hinputs⟩ id node p inputs hnode hkind hin hout
    refine ⟨?_, ?_⟩
    · rw [foldsPlainly_eq, List.all_eq_true] at hplain
      have hnodeplain := hplain node (mem_of_node? hnode)
      simpa [hkind, id_eq_of_node? hnode, hin, Except.toOption] using hnodeplain
    · rintro rfl n declared rfl rows hrows row hrow
      have hadmits := hinputs rfl
      rw [admitsInputs, List.all_eq_true] at hadmits
      have hrowsadmitted := hadmits node (mem_of_node? hnode)
      simp only [hkind, declared_of_lookupType (outputType_parameterLookup hout),
        hrows, Option.getD_some, List.all_eq_true] at hrowsadmitted
      exact hrowsadmitted row hrow
  · rintro g bound types ⟨hplain, -⟩ id inside inputs inner hid hinner
    obtain ⟨node, n, hnode, hkind⟩ := inner?_eq_some_iff.1 hid
    rw [foldsPlainly_eq, List.all_eq_true] at hplain
    have hnodeplain := hplain node (mem_of_node? hnode)
    simp only [hkind, id_eq_of_node? hnode, get?_inner hid, Option.map_some, hinner] at hnodeplain
    exact ⟨hnodeplain, by rintro ⟨⟩⟩

/-- The primitive operators, on streams that are held by their types, make streams that are. -/
theorem holdsAll_of_primitive {p : Primitive} {s : Stream}
    (hc : Supplies parameters bound c) (hoperands : List.Forall₂ TupleType.HoldsAll inputs operands)
    (ht : (typing (soundly parameters)).primitive bound p inputs t)
    (hs : evaluation.primitive c p operands s) : t.HoldsAll s := by
  obtain ⟨rfl, hparameters⟩ := hc
  obtain ⟨hout, hbare, hadmits⟩ := ht
  obtain ⟨hout', raw, hraw, hrows⟩ := hs
  obtain rfl := types_of_holdsAll hoperands
  have htype : s.type = t := Except.ok.inj (hout'.symm.trans hout)
  refine ⟨htype, ?_⟩
  have hfits : ∀ row ∈ raw, t.Fits row := by
    refine Primitive.fits_of_run hout hbare ?_ ?_ hraw
    · intro operand hoperand
      obtain ⟨i, hi⟩ := List.mem_iff_getElem?.1 hoperand
      exact (forall₂_getElem? hoperands (by simp [hi]) hi).2
    · rintro n declared rfl type rows hlookup hrows row hrow
      obtain rfl : type = t := Except.ok.inj (hlookup.symm.trans (outputType_parameterLookup hout))
      cases hbound : c.bound with
      | none =>
        rw [hbound] at hparameters
        exact hadmits hbound n declared rfl rows (hparameters ▸ hrows) row hrow
      | some inputs =>
        rw [hbound] at hparameters hlookup
        exact (hparameters n type rows (bound_of_lookupType hlookup) hrows row hrow).admits
  rw [hrows, htype]
  intro row hrow
  obtain ⟨row, hmem, rfl⟩ := List.mem_map.1 hrow
  exact TupleType.holds_store (hfits row hmem)

theorem supplies_enter (hoperands : List.Forall₂ TupleType.HoldsAll inputs operands) :
    Supplies parameters (some inputs) (evaluation.enter operands) := by
  refine ⟨congrArg some (types_of_holdsAll hoperands).symm, fun n t rows ht hrows row hrow => ?_⟩
  obtain ⟨s, hs, rfl⟩ : ∃ s, operands[n]? = some s ∧ s.rows = rows := by
    simpa [evaluation] using hrows
  exact (forall₂_getElem? hoperands ht hs).2 row hrow

/-- **In every model by rows, the rows of an operator are held by its type.** -/
theorem holds_of_models {τ : Nat → TupleType} {v : Nat → Stream} (hg : g.Everywhere Founded)
    (hc : Supplies parameters bound c) (hτ : (typing (soundly parameters)).Models g bound τ)
    (hv : evaluation.Models g c v) : ∀ id ∈ g.ids, (τ id).HoldsAll (v id) := by
  refine Interpretation.Models.related (Q := Supplies parameters) ?_ ?_ hg hc hτ hv
  · intro bound c p inputs operands t s hc hoperands ht hs
    exact holdsAll_of_primitive hc hoperands ht hs
  · intro inputs operands hoperands
    exact supplies_enter hoperands

/-- **The rows of a graph are of the type of its sink**, if the rows of its parameters are of their
declared types and no fold returns its only field, a tuple, alone. -/
theorem admits_of_evaluate {rows : Rows} (htypes : g.types = .ok types)
    (hplain : g.foldsPlainly types = true) (hinputs : g.admitsInputs parameters = true)
    (h : g.evaluate parameters = .ok rows) :
    ∃ sink type, g.sink = some sink ∧ types.output sink = .ok type ∧
      ∀ row ∈ rows, row.length = type.length ∧ type.admits row = true := by
  rw [evaluate, htypes, Outcome.ok_bind] at h
  obtain ⟨v, sink, hv, hsink, hmem, hvalue⟩ := models_of_evaluateWith htypes h
  obtain ⟨-, hrows⟩ := holds_of_models (founded_of_typesWithin htypes) ⟨rfl, rfl⟩
    (models_soundly htypes hplain hinputs) hv sink hmem
  obtain ⟨type, htype⟩ := (closed_of_typesWithin htypes).2 sink hmem
  rw [hvalue, GraphTypes.type, htype, Option.getD_some] at hrows
  exact ⟨sink, type, hsink, output_eq_ok_iff.2 htype, fun row hrow =>
    ⟨(hrows row hrow).length_eq, (hrows row hrow).admits⟩⟩

/-- Tuples of one byte. -/
def byteType : TupleType := [⟨"x", .atomic .int8⟩]

/-- Bytes, summed inside a pipeline. -/
def byteSum : Dag where
  nodes := [⟨0, .primitive (.parameterLookup 0 (some byteType)), {}⟩, ⟨1, .pipeline 1 {
      nodes := [⟨0, .primitive (.parameterLookup 0 none), {}⟩,
        ⟨1, .primitive (.reduce (.binary .add (.field 0 0) (.field 1 0))), {}⟩]
      edges := [⟨0, 0, 1, 0⟩]
      sink := some 1
      nextId := 2 }, {}⟩]
  edges := [⟨0, 0, 1, 0⟩]
  sink := some 1
  nextId := 2

/-- Two bytes of 100 have a sum that is a byte again. -/
theorem byteSum_admits : byteSum.evaluate [[[.int 100], [.int 100]]] = .ok [[.int (-56)]] ∧
    ∃ sink type, byteSum.sink = some sink ∧ type = byteType ∧
      ∀ row ∈ [[Value.int (-56)]], row.length = type.length ∧ type.admits row = true := by
  have htypes : byteSum.types = .ok
      ⟨[(0, byteType), (1, byteType)], [(1, ⟨[(0, byteType), (1, byteType)], []⟩)]⟩ := by cbv
  have hrows : byteSum.evaluate [[[.int 100], [.int 100]]] = .ok [[.int (-56)]] := by cbv
  obtain ⟨sink, type, hsink, htype, h⟩ :=
    admits_of_evaluate htypes (by cbv) (by cbv) hrows
  obtain rfl : 1 = sink := Option.some.inj hsink
  exact ⟨hrows, 1, type, hsink, (Except.ok.inj htype).symm, h⟩

/-- Tuples of one field, which is a pair of integers. -/
def pairType : TupleType := [⟨"t", .tuple [⟨"a", .atomic .int64⟩, ⟨"b", .atomic .int64⟩]⟩]

/-- A fold over such tuples that returns the pair of its first argument alone. -/
def pairFold : Dag where
  nodes := [⟨0, .primitive (.parameterLookup 0 (some pairType)), {}⟩,
    ⟨1, .primitive (.reduce (.field 0 0)), {}⟩]
  edges := [⟨0, 0, 1, 0⟩]
  sink := some 1
  nextId := 2

/-- Two pairs are folded to a row of two integers, where a row with one pair was inferred. -/
theorem pairFold_not_admits : ∃ types, pairFold.types = .ok types ∧
    types.output 1 = .ok pairType ∧
    pairFold.admitsInputs [[[.tuple [.int 1, .int 2]], [.tuple [.int 3, .int 4]]]] = true ∧
    pairFold.evaluate [[[.tuple [.int 1, .int 2]], [.tuple [.int 3, .int 4]]]] =
      .ok [[.int 1, .int 2]] ∧ pairType.admits [.int 1, .int 2] = false := by
  refine ⟨⟨[(0, pairType), (1, pairType)], []⟩, ?_, rfl, ?_, ?_, rfl⟩
  · cbv
  · cbv
  · cbv

end Graph

end Dataflow
