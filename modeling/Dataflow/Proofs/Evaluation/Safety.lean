/-
**Carrying out a plan does not go wrong inside.**

A graph that is valid and has types is carried out on any rows, whether they are of the declared
types or not, without a failure of the evaluator's own: it produces rows, or it fails in execution,
because a row lacks a field, a value is of the wrong sort, or a divisor is zero.  The steps that are
not defined everywhere are guarded.  A range comes to its end by itself, the partition of a key is
one of the partitions, a join cuts the keys off no row that is too short for them, and nothing is
divided by the integer zero.

Main results:

* `Expr.safe_eval` — an expression that has a type fails in execution only, on any rows;
* `Primitive.safe_run` — so does an operator that has a type;
* `Graph.safe_evaluateNode`, `Graph.safe_evaluateWith` — one operator after its producers, and a
  graph;
* `Primitive.guarded_of_check` — an operator of a sound configuration is guarded;
* `Graph.evaluate_ok_or_execution` — **a valid graph produces rows or fails in execution**, and all
  its operators are guarded.
-/

import Dataflow.Proofs.Evaluation.Ranges
import Dataflow.Proofs.Expr.Totality
import Dataflow.Proofs.Graph.Checks
import Dataflow.Proofs.Meaning.Evaluation

namespace Dataflow

open List Outcome

variable {p : Primitive} {t : FieldType}

/-! ### Safe outcomes -/

namespace Outcome

variable {α β : Type} {xs : List α} {f : α → Outcome β} {x : Outcome α}

/-- An outcome that is no failure, or a failure in execution. -/
def Safe (x : Outcome α) : Prop :=
  ∀ failure, x = .error failure → ∃ fault, failure = .execution fault

theorem Safe.ok (a : α) : Safe (.ok a) := nofun

theorem Safe.execution (fault : ExecutionFault) : Safe (.error (.execution fault) : Outcome α) :=
  FailsOnly.error ⟨fault, rfl⟩

theorem Safe.ofOption (fault : ExecutionFault) (o : Option α) :
    Safe (ofOption (.execution fault) o) := by
  cases o with
  | none => exact .execution fault
  | some a => exact .ok a

theorem Safe.bind (hx : x.Safe) (hf : ∀ a, x = .ok a → (f a).Safe) : (x >>= f).Safe :=
  FailsOnly.bind hx hf

theorem Safe.ite {c : Prop} [Decidable c] {x y : Outcome α} (hx : x.Safe) (hy : y.Safe) :
    Safe (if c then x else y) :=
  FailsOnly.ite hx hy

theorem Safe.inRunningOperator (hx : x.Safe) (name : String) :
    Safe (x.mapError (Failure.inRunningOperator name)) := by
  cases x with
  | error failure =>
    obtain ⟨fault, rfl⟩ := hx failure rfl
    exact .execution _
  | ok a => exact .ok a

theorem Safe.mapM (h : ∀ x ∈ xs, (f x).Safe) : (xs.mapM f).Safe := FailsOnly.mapM h

theorem Safe.filterM {p : α → Outcome Bool} (h : ∀ x ∈ xs, (p x).Safe) : (xs.filterM p).Safe := by
  have haux : ∀ acc, (xs.filterAuxM p acc).Safe := by
    induction xs with
    | nil => exact fun acc => .ok acc
    | cons x xs ih =>
      intro acc
      exact (h x mem_cons_self).bind fun b _ => ih (fun x hx => h x (mem_cons_of_mem _ hx)) _
  exact (haux []).bind fun ys _ => .ok _

theorem Safe.foldlM {f : β → α → Outcome β} (h : ∀ b, ∀ x ∈ xs, (f b x).Safe) (b : β) :
    (xs.foldlM f b).Safe :=
  (foldlM_induction (P := fun _ _ => True)
    (fun _ x _ b hsplit _ => ⟨fun _ _ => trivial, h b x (by simp [hsplit])⟩) trivial).2

end Outcome

open Outcome (Safe)

/-! ### Expressions -/

theorem BinaryOp.safe_apply (op : BinaryOp) (l r : Value) : (op.apply l r).Safe := by
  have hint : ∀ i j, (op.applyInt i j).Safe := by
    intro i j
    cases op
    case div | rem => exact .ite (.execution _) (.ok _)
    all_goals first | exact .ok _ | exact .execution _
  have hfloat : ∀ x y, (op.applyFloat x y).Safe := by
    intro x y
    cases op <;> first | exact .ok _ | exact .execution _
  have hbool : ∀ b c, (op.applyBool b c).Safe := by
    intro b c
    cases op <;> first | exact .ok _ | exact .execution _
  unfold apply
  split
  · exact hint _ _
  · exact hbool _ _
  · split
    · exact hfloat _ _
    · exact .execution _

theorem UnaryOp.safe_apply (op : UnaryOp) (v : Value) : (op.apply v).Safe := by
  cases op <;> cases v <;> first | exact .ok _ | exact .execution _

namespace Expr

/-- **An expression that has a type fails in execution only**, whatever the rows are. -/
theorem safe_eval {args : List TupleType} {e : Expr} (ht : e.infer args = .ok t)
    (rows : List Row) : (e.eval rows (some args)).Safe := by
  have hnarrow : ∀ {e : Expr} {t : FieldType} (v : Value), e.infer args = .ok t →
      (narrow (some args) e v).Safe := by
    intro e t v ht
    obtain ⟨w, hw⟩ := exists_narrow ht v
    rw [hw]
    exact .ok w
  induction e, t, ht using infer_induction with
  | field arg index => exact .ofOption _ _
  | literal value => exact .ok _
  | binary op left right a b k ht _ _ _ ihl ihr =>
    rw [eval]
    refine ihl.bind fun l _ => .ite ?_ ?_
    · refine Safe.bind (.ofOption _ _) fun b _ => .ite (.ok _) ?_
      exact ihr.bind fun r _ => Safe.bind (.ofOption _ _) fun c _ => .ok _
    · exact ihr.bind fun r _ => (op.safe_apply l r).bind fun v _ => hnarrow v ht
  | unary op operand k ht _ _ ih =>
    rw [eval]
    exact ih.bind fun v _ => (op.safe_apply v).bind fun w _ => hnarrow w ht
  | tuple items types _ htypes ih =>
    rw [eval, evalAll_eq_mapM]
    refine Safe.bind (Safe.mapM fun e he => ?_) fun values _ => .ok _
    obtain ⟨i, hi⟩ := mem_iff_getElem?.1 he
    obtain ⟨t, -, ht⟩ := exists_of_forall₂ htypes hi
    exact ih e he t ht

end Expr

/-! ### Operators -/

theorem safe_combine {function : Expr} {type : TupleType} (ht : function.infer [type, type] = .ok t)
    (acc next : Row) : (combine function type acc next).Safe :=
  (Expr.safe_eval ht _).bind fun _ _ => .ok _

theorem Groups.safe_update {α : Type} {f : Option α → Outcome α}
    (hf : ∀ o, (f o).Safe) (key : String) (groups : Groups α) :
    (Groups.update key f groups).Safe := by
  induction groups with
  | nil => exact (hf none).bind fun _ _ => .ok _
  | cons group groups ih =>
    rw [Groups.update]
    exact .ite ((hf _).bind fun _ _ => .ok _) (ih.bind fun _ _ => .ok _)

theorem Accumulator.safe_update (value : Option Value) (acc : Accumulator) :
    (acc.update value).Safe := by
  have hadd : ∀ kind total v, (addTo kind total v).Safe := by
    intro kind total v
    unfold addTo
    split <;> first | exact .ok _ | exact .execution _
  have hcompare : ∀ v w : Value, (v.compare w).Safe := by
    intro v w
    unfold Value.compare
    split
    · exact .ok _
    · exact .ite (.ok _) (.ite (.ok _) (.ite (.ok _) (.execution _)))
    · exact .execution _
  have hbetter : ∀ keep best v, (better keep best v).Safe := by
    intro keep best v
    cases best with
    | none => exact .ok _
    | some old => exact (hcompare v old).bind fun _ _ => .ite (.ok _) (.ok _)
  cases acc with
  | count rows => exact .ok _
  | sum kind total =>
    exact Safe.bind (.ofOption _ _) fun v _ => (hadd kind total v).bind fun _ _ => .ok _
  | least best =>
    exact Safe.bind (.ofOption _ _) fun v _ => (hbetter .lt best v).bind fun _ _ => .ok _
  | greatest best =>
    exact Safe.bind (.ofOption _ _) fun v _ => (hbetter .gt best v).bind fun _ _ => .ok _

theorem safe_joinRows (keys : Nat) (left right : Rows) : (joinRows keys left right).Safe := by
  have hkey : ∀ row, (joinKey keys row).Safe := fun row => .ite (.execution _) (.ok _)
  refine Safe.bind (.mapM fun row _ => (hkey row).bind fun _ _ => .ok _) fun keyed _ => ?_
  exact Safe.bind (.mapM fun row _ => (hkey row).bind fun _ _ => .ok _) fun _ _ => .ok _

namespace Primitive

/-- An operator with one input that has a type fails in execution only. -/
theorem safe_runUnary {bound : Option (List TupleType)} {input output : TupleType}
    (htype : HasType bound p [input] output) (rows : Rows) : (p.runUnary input rows).Safe := by
  cases htype with
  | rowScan =>
    exact Safe.bind (.mapM fun row _ => Safe.bind (.ofOption _ _) fun _ _ => .ok _) fun _ _ => .ok _
  | filter decides =>
    exact .filterM fun row _ => (Expr.safe_eval decides _).bind fun v _ => .ofOption _ _
  | map infers => exact .mapM fun row _ => (Expr.safe_eval infers _).bind fun _ _ => .ok _
  | projection => exact .mapM fun row _ => .mapM fun p _ => .ofOption _ _
  | reduce infers =>
    cases rows with
    | nil => exact .ok _
    | cons first rest =>
      exact (Safe.foldlM (fun acc row _ => safe_combine infers acc row) first).bind fun _ _ => .ok _
  | reduceByKey _ _ infers =>
    refine Safe.bind (.foldlM (fun groups row _ => ?_) _) fun _ _ => .ok _
    cases row with
    | nil => exact .execution _
    | cons key values =>
      refine Groups.safe_update (fun group => ?_) _ _
      cases group with
      | none => exact .ok _
      | some group => exact (safe_combine infers _ _).bind fun _ _ => .ok _
  | groupBy =>
    refine Safe.bind (.foldlM (fun groups row _ => ?_) _) fun _ _ => .ok _
    refine Safe.bind (.mapM fun k _ => .ofOption _ _) fun key _ => ?_
    refine Groups.safe_update (fun group => ?_) _ _
    exact Safe.bind (.mapM fun a _ => Accumulator.safe_update _ _) fun _ _ => .ok _
  | partition => exact .mapM fun row _ => Safe.bind (.ofOption _ _) fun _ _ => .ok _
  | materializeRowVector => exact .ok _
  | ensureSingleTuple => exact .ite (.ok _) (.execution _)

/-- **An operator that has a type fails in execution only**, whatever the rows of its inputs are. -/
theorem safe_run {operands : List Stream} {bound : Option (List TupleType)} {output : TupleType}
    (hout : p.outputType (operands.map (·.type)) bound = .ok output)
    (parameters : List Rows) : (p.run operands parameters).Safe := by
  have htype := outputType_eq_ok_iff.1 hout
  have hlength : operands.length = p.inputs := (List.length_map _).symm.trans htype.length_eq
  cases p with
  | range | constantTuple => exact .ok _
  | parameterLookup n declared => exact .ofOption _ _
  | join keys =>
    obtain ⟨left, right, rfl⟩ := length_eq_two.1 hlength
    exact safe_joinRows keys left.rows right.rows
  | cartesian =>
    obtain ⟨left, right, rfl⟩ := length_eq_two.1 hlength
    exact .ok _
  | _ =>
    obtain ⟨input, rfl⟩ := length_eq_one_iff.1 hlength
    exact safe_runUnary htype input.rows

end Primitive

/-! ### Graphs -/

namespace Graph

open GraphTypes

variable {g : Dag} {bound : Option (List TupleType)} {types : GraphTypes}
  {results : Table Rows} {id : Nat}

/-- **Carrying out one operator after its producers fails in execution only**, if this holds of the
graph inside it. -/
theorem safe_evaluateNode (htypes : g.typesWithin bound = .ok types) (hid : id ∈ g.ids)
    (hresults : ∀ q ∈ g.producers id, ∃ rows, results.get? q = some rows)
    (hinner : ∀ h, g.inner? id = some h → ∀ inputs inner sink parameters,
      h.typesWithin (some inputs) = .ok inner → h.sink = some sink → sink ∈ h.ids →
      (h.evaluateWith inner parameters).Safe) (parameters : List Rows) :
    (g.evaluateStep types parameters results id).Safe ∧
      ∀ more, g.evaluateStep types parameters results id = .ok more →
      ∃ rows, more = results.put id rows := by
  obtain ⟨hclosed, hall⟩ := closed_of_typesWithin htypes
  obtain ⟨output, houtput⟩ := hall id hid
  obtain ⟨node, inputs, hnode, hinputs, hfollows⟩ := hclosed.follows id output houtput
  -- The operands are found, and they are of the types that the output type was made of.
  obtain ⟨operands, hoperands, htyped⟩ : ∃ operands, g.operands types results node = .ok operands ∧
      operands.map (·.type) = inputs := by
    rw [inputTypes, mapM_eq_ok_iff] at hinputs
    simp only [operands_eq_ok_iff, id_eq_of_node? hnode]
    clear hfollows
    generalize g.producers id = producers at hinputs hresults
    induction hinputs with
    | nil => exact ⟨[], .nil, rfl⟩
    | @cons q t producers inputs hq _ ih =>
      obtain ⟨rows, hrows⟩ := hresults q mem_cons_self
      obtain ⟨operands, hoperands, htyped⟩ := ih fun q hq => hresults q (mem_cons_of_mem _ hq)
      exact ⟨⟨t, rows⟩ :: operands,
        .cons ⟨output_eq_ok_iff.1 hq, hrows⟩ hoperands, by simp [htyped]⟩
  refine ⟨?_, fun more hmore => ?_⟩
  · have hget : g.get id = .ok node := ofOption_eq_ok_iff.2 hnode
    have houtput' : types.output id = .ok output := output_eq_ok_iff.2 houtput
    rw [evaluateStep, evaluateNode, hget, ok_bind, hoperands, ok_bind, houtput']
    refine Safe.bind (.inRunningOperator ?_ _) fun rows _ => .ok _
    cases hkind : node.kind with
    | primitive p =>
      rw [hkind, ← htyped] at hfollows
      exact Primitive.safe_run hfollows parameters
    | pipeline n h =>
      rw [hkind] at hfollows
      obtain ⟨-, inner, sink, hinside, hget, hsink, htsink⟩ := hfollows
      have hfound := inner?_eq_some_iff.2 ⟨node, n, hnode, hkind⟩
      simp only [hget, ofOption_some, ok_bind, Table.get?_map, get?_inner hfound, Option.map_some]
      exact hinner h hfound inputs inner sink _ hinside hsink
        ((closed_of_typesWithin hinside).1.mem_ids htsink)
  · obtain ⟨_, _, raw, output, -, -, -, -, rfl⟩ := evaluateNode_eq_ok_iff.1 hmore
    exact ⟨_, rfl⟩

/-- **A graph of known types whose sink is one of its operators fails in execution only.** -/
theorem safe_evaluateWith {sink : Nat} (htypes : g.typesWithin bound = .ok types)
    (hsink : g.sink = some sink) (hmem : sink ∈ g.ids) (parameters : List Rows) :
    (g.evaluateWith types parameters).Safe := by
  induction g using levelInduction generalizing bound types sink parameters with
  | step g ih =>
    obtain ⟨rank, hrank⟩ := (founded_of_typesWithin htypes).here
    have htypes' := htypes
    rw [typesWithin_eq, bind_eq_ok_iff] at htypes'
    obtain ⟨order, horder, -⟩ := htypes'
    -- The operators that were visited have rows.
    obtain ⟨hall, hsafe⟩ := foldlM_order horder (f := g.evaluateStep types parameters) (b := [])
      (fun done results => ∀ q ∈ done, ∃ rows, results.get? q = some rows)
      (fun failure => ∃ fault, failure = .execution fault)
      (fun done id results hid hproducers hdone => by
        obtain ⟨hsafe, hnext⟩ := safe_evaluateNode htypes hid
          (fun q hq => hdone q (hproducers q hq (hrank id hid q hq).1))
          (fun h hh inputs inner sink parameters htypes hsink hmem => ih id h hh htypes
          hsink hmem parameters) parameters
        refine ⟨fun more hmore q hq => ?_, hsafe⟩
        obtain ⟨rows, rfl⟩ := hnext more hmore
        rw [Table.get?_put]
        split
        · exact ⟨rows, rfl⟩
        · next hne => exact hdone q (by simpa [Ne.symm hne] using hq))
      (by simp)
    rw [evaluateWith_eq, horder, ok_bind]
    refine Outcome.Safe.bind hsafe fun results hresults => ?_
    obtain ⟨rows, hrows⟩ := hall results hresults sink ((mem_order_iff horder).2 hmem)
    rw [hsink, ofOption_some, ok_bind, hrows, ofOption_some]
    exact .ok rows

end Graph

/-! ### Guards -/

namespace Primitive

/-- The steps of an operator that are not defined everywhere are taken only where they are: a range
comes to its end by itself, so that more steps add nothing; the partition of a key is one of the
partitions; and a join cuts the keys off no row that has fewer fields. -/
def Guarded : Primitive → Prop
  | range r => ∀ count, r.take count <+: r.values
  | partition count _ =>
    ∀ key, 0 ≤ (partitionOf count key).toInt ∧ (partitionOf count key).toInt < count
  | join keys => ∀ left right, (∃ row ∈ right, row.length < keys) →
      joinRows keys left right = .error (.execution (.tooFewKeyFields keys))
  | _ => True

end Primitive

theorem partitionOf_bounds {count : Nat} (hcount : count ≠ 0) (key : Int64) :
    0 ≤ (partitionOf count key).toInt ∧ (partitionOf count key).toInt < count := by
  have hmax : Int64.maxValue.toInt = 2 ^ 63 - 1 := by decide
  have hpos : 0 < min (count : Int) Int64.maxValue.toInt := by omega
  have hlow := Int.emod_nonneg key.toInt (Int.ne_of_gt hpos)
  have hhigh := Int.emod_lt_of_pos key.toInt hpos
  rw [partitionOf, Int64.toInt_ofInt_of_le (by omega) (by omega)]
  omega

/-- A join fails on a right row that is too short for the keys, before it cuts any row. -/
theorem joinRows_of_short {keys : Nat} {left right : Rows} (h : ∃ row ∈ right, row.length < keys) :
    joinRows keys left right = .error (.execution (.tooFewKeyFields keys)) := by
  have hkeyed : (right.mapM fun row => do return (← joinKey keys row, row)) =
      .error (.execution (.tooFewKeyFields keys)) := by
    obtain ⟨row, hrow, hshort⟩ := h
    induction right with
    | nil => cases hrow
    | cons first right ih =>
      rw [mapM_cons]
      by_cases hfirst : first.length < keys
      · simp [joinKey, hfirst]
      · have hmem := (mem_cons.1 hrow).resolve_left fun heq => hfirst (heq ▸ hshort)
        rw [joinKey, if_neg hfirst, ih hmem]
        rfl
  rw [joinRows, hkeyed]
  rfl

theorem Primitive.guarded_of_check (h : p.check = .ok ()) : p.Guarded := by
  cases p with
  | range r =>
    have hstep : r.step ≠ 0 := by
      intro hzero
      rw [check, if_pos hzero] at h
      cases h
    obtain ⟨_, -, -, htake⟩ := Range.map_values hstep
    exact fun count => htake count ▸ take_prefix _ _
  | partition count key =>
    have hcount : count ≠ 0 := by
      intro hzero
      rw [check, if_pos hzero] at h
      cases h
    exact partitionOf_bounds hcount
  | join keys => exact fun left right h => joinRows_of_short h
  | _ => trivial

theorem BinaryOp.applyInt_zero {op : BinaryOp} (h : op.divides = true) (l : Int64) :
    op.applyInt l 0 = .error (.execution .divisionByZero) := by
  cases op
  case div | rem => rfl
  all_goals cases h

namespace Graph

variable {g : Dag} {types : GraphTypes}

/-- The operators of a valid graph are guarded, at every level. -/
theorem guarded_of_validateWithin {inputs : Option Nat} (hg : g.Numbered)
    (hvalid : g.validateWithin inputs = .ok ()) : g.Everywhere fun h =>
      ∀ id node p, h.node? id = some node → node.kind = .primitive p → p.Guarded := by
  induction hg generalizing inputs with
  | @intro g hascending hinside ih =>
    have hchecked := (validateWithin_eq_ok_iff ⟨hascending, hinside⟩).1 hvalid
    refine ⟨fun id node p hnode hkind => ?_, fun id h hid => ?_⟩
    · have hsound := hchecked.sound id node hnode
      rw [hkind] at hsound
      exact Primitive.guarded_of_check hsound
    · obtain ⟨node, n, hnode, hkind⟩ := inner?_eq_some_iff.1 hid
      exact ih id h hid (hchecked.inside id node n h hnode hkind)

/-- **A valid graph that has types produces rows or fails in execution**, whatever the rows of its
parameters are, and no step is taken where it is not defined: all its operators are guarded, and a
quotient or remainder by the integer zero is a failure in execution. -/
theorem evaluate_ok_or_execution (hg : g.Numbered) (hvalid : g.validate = .ok ())
    (htypes : g.types = .ok types) (parameters : List Rows) :
    ((∃ rows, g.evaluate parameters = .ok rows) ∨
        ∃ fault, g.evaluate parameters = .error (.execution fault)) ∧
      (g.Everywhere fun h =>
        ∀ id node p, h.node? id = some node → node.kind = .primitive p → p.Guarded) ∧
      ∀ op : BinaryOp, op.divides = true →
        ∀ l, op.applyInt l 0 = .error (.execution .divisionByZero) := by
  have hchecked := (validateWithin_eq_ok_iff hg).1 hvalid
  refine ⟨?_, guarded_of_validateWithin hg hvalid, fun op h l => BinaryOp.applyInt_zero h l⟩
  obtain ⟨sink, hsink⟩ := Option.isSome_iff_exists.1 hchecked.sink
  have hsafe : (g.evaluate parameters).Safe := by
    rw [evaluate, htypes, Outcome.ok_bind]
    exact safe_evaluateWith htypes hsink (hchecked.wired.sink sink hsink) parameters
  cases h : g.evaluate parameters with
  | ok rows => exact .inl ⟨rows, rfl⟩
  | error failure =>
    obtain ⟨fault, rfl⟩ := hsafe failure h
    exact .inr ⟨fault, rfl⟩

/-- Keys and weights, joined with every third integer, put into buckets and divided inside a
pipeline. -/
def bucketShares : Dag where
  nodes := [⟨0, .primitive
    (.parameterLookup 0 (some [⟨"key", .atomic .int64⟩, ⟨"weight", .atomic .int64⟩])), {}⟩,
    ⟨1, .primitive (.range ⟨0, 10, 3⟩), {}⟩, ⟨2, .primitive (.join 1), {}⟩,
    ⟨3, .primitive (.partition 2 0), {}⟩, ⟨4, .pipeline 1 {
      nodes := [⟨0, .primitive (.parameterLookup 0 none), {}⟩,
        ⟨1, .primitive (.map (.binary .div (.field 0 1) (.field 0 2))), {}⟩]
      edges := [⟨0, 0, 1, 0⟩]
      sink := some 1
      nextId := 2 }, {}⟩]
  edges := [⟨0, 0, 2, 0⟩, ⟨1, 0, 2, 1⟩, ⟨2, 0, 3, 0⟩, ⟨3, 0, 4, 0⟩]
  sink := some 4
  nextId := 5

/-- One row has a weight of zero, and the other one has no weight. -/
theorem bucketShares_evaluate : bucketShares.validate = .ok () ∧
    (((∃ rows, bucketShares.evaluate [[[.int 3, .int 0], [.int 6]]] = .ok rows) ∨
        ∃ fault, bucketShares.evaluate [[[.int 3, .int 0], [.int 6]]] = .error (.execution fault)) ∧
      (bucketShares.Everywhere fun h =>
        ∀ id node p, h.node? id = some node → node.kind = .primitive p → p.Guarded) ∧
      ∀ op : BinaryOp, op.divides = true →
        ∀ l, op.applyInt l 0 = .error (.execution .divisionByZero)) := by
  have hvalid : bucketShares.validate = .ok () := by cbv
  obtain ⟨types, htypes⟩ : ∃ types, bucketShares.types = .ok types := ⟨_, by cbv⟩
  exact ⟨hvalid, evaluate_ok_or_execution (isNumbered_iff.1 (by cbv)) hvalid htypes _⟩

end Graph

end Dataflow
