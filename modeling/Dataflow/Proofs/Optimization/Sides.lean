/-
**Predicates on pairs, told on one side.**

A predicate on the pairs of a join or product is told on the side that carries the columns of its
fields.  Here it is said what this is worth for the rows of an evaluation, at whatever level: on the
left side the predicate has its value on every pair, failures included.  On the right side it has it
too, as long as it reads no key there; a key of the right row is not in the pair, and though it has
the text of the left key, it may be another value than that of the field that the predicate reads in
the pair.  A product has no keys, so filtering its pairs is filtering one side first, in the same
order.

Main results:

* `Graph.holds_of_yields` — what an operator yields is held by its type;
* `Graph.Documented.at?`, `Graph.Documented.enters` — the graphs inside are documented, and are
  given rows of their types;
* `Graph.evalTyped_side_of_join` — **a predicate on the pairs of a join has its value on one side**;
* `Graph.filter_side_of_product` — **filtering the pairs of a product is filtering one side**.
-/

import Dataflow.Proofs.Expr.Totality
import Dataflow.Proofs.Graph.Traces
import Dataflow.Proofs.Meaning.Inherited
import Dataflow.Proofs.Meaning.Renaming
import Dataflow.Proofs.Optimization.Preservation

namespace Dataflow.Graph

open List Option Interpretation Outcome

variable {g g' h k : Dag} {bound : Option (List TupleType)} {types inner : GraphTypes}
  {parameters : List Rows} {c c' : EvaluationContext} {path : List Nat} {id : Nat}
  {τ : Nat → TupleType} {p : Primitive}

/-! ### Rows at all levels -/

/-- The graphs that an evaluation goes into: the graph itself, and the graphs inside its pipelines
whose producers yield something, each with its context.  The path has the numbers of the
pipelines. -/
inductive Enters : Dag → EvaluationContext → List Nat → Dag → EvaluationContext → Prop
  | here {g : Dag} {c : EvaluationContext} : Enters g c [] g c
  | inside {g h k : Dag} {c c' : EvaluationContext} {id : Nat} {path : List Nat} (v : Nat → Stream)
      (hid : g.inner? id = some h) (hproducers : ∀ q ∈ g.producers id, Yields g c q (v q))
      (hrest : Enters h (evaluation.enter ((g.producers id).map v)) path k c') :
      Enters g c (id :: path) k c'

theorem holds_of_yields {out : Stream} (hτ : (typing (soundly parameters)).Models g bound τ)
    (hc : Supplies parameters bound c) (h : Yields g c id out) : (τ id).HoldsAll out := by
  induction h generalizing bound τ with
  | @primitive g c id node p out v hnode hkind _ hout ih =>
    have hmake := models_iff.1 hτ id node hnode
    rw [hkind] at hmake
    refine holdsAll_of_primitive hc ?_ hmake hout
    rw [forall₂_map_left_iff, forall₂_map_right_iff, forall₂_same]
    exact fun q hq => ih q hq hτ hc
  | @pipeline g h c id n sink node out v hnode hkind _ hsink _ ihproducers ih =>
    have hmake := models_iff.1 hτ id node hnode
    rw [hkind] at hmake
    obtain ⟨-, σ, hσ, sink', hsink', -, hvalue⟩ := hmake
    obtain rfl : sink = sink' := mem_unique hsink hsink'
    rw [hvalue]
    refine ih hσ (supplies_enter ?_)
    rw [forall₂_map_left_iff, forall₂_map_right_iff, forall₂_same]
    exact fun q hq => ihproducers q hq hτ hc

/-- A graph that is wired and annotated, at all levels, with its types. -/
structure Documented (bound : Option (List TupleType)) (g : Dag) (types : GraphTypes) : Prop where
  wired : g.Everywhere Wired
  annotated : Annotated bound g
  types : g.typesWithin bound = .ok types

namespace Documented

theorem of_annotated (hg : g.Numbered) (hvalid : g.validate = .ok ()) (htypes : g.types = .ok types)
    (h : g.annotated = .ok g') : Documented none g' types := by
  have hwired := wired_of_checkOpenWithin hg (checkOpenWithin_of_validateWithin hg hvalid)
  obtain ⟨halike, hannotated⟩ := annotated_of_annotate hg h
  exact ⟨halike.everywhere_wired hwired, hannotated, (halike.typesWithin_eq none).trans htypes⟩

variable (hd : Documented bound g types)
include hd

theorem typed : (typing fun _ _ _ _ => True).Models g bound types.type :=
  typed_of_typesWithin hd.types

theorem noted (hid : id ∈ g.ids) : g.NotedAt id (types.type id) :=
  (noted_of_annotated hd.wired hd.annotated hd.typed).1 id hid

theorem inside (hid : g.inner? id = some h) :
    ∃ inner, Table.get? types.inner id = some inner ∧
      Documented (some ((g.producers id).map types.type)) h
      inner := by
  obtain ⟨inner, hinner, htypes⟩ := inner_of_typesWithin hd.types hid
  exact ⟨inner, hinner, hd.wired.inside hid,
    (noted_of_annotated hd.wired hd.annotated hd.typed).2 id h hid, htypes⟩

theorem at? (hpath : g.at? path = some h) :
    ∃ bound' inner, types.at? path = some inner ∧ Documented bound' h inner := by
  induction path generalizing g bound types with
  | nil =>
    cases hpath
    exact ⟨bound, types, rfl, hd⟩
  | cons id path ih =>
    obtain ⟨k, hid, hpath⟩ := bind_eq_some_iff.1 hpath
    obtain ⟨next, hnext, hd'⟩ := hd.inside hid
    obtain ⟨bound', inner, hinner, hd''⟩ := ih hd' hpath
    refine ⟨bound', inner, ?_, hd''⟩
    rw [GraphTypes.at?, hnext]
    exact hinner

/-- **A graph that an evaluation goes into is documented, and given rows of its types.** -/
theorem enters (hτ : (typing (soundly parameters)).Models g bound τ)
    (hc : Supplies parameters bound c) (h : Enters g c path k c') :
    ∃ bound' inner σ, types.at? path = some inner ∧ Documented bound' k inner ∧
      (typing (soundly parameters)).Models k bound' σ ∧ Supplies parameters bound' c' := by
  induction h generalizing bound types τ with
  | here => exact ⟨bound, types, τ, rfl, hd, hτ, hc⟩
  | @inside g h k c c' id path v hid hproducers _ ih =>
    obtain ⟨next, hnext, hd'⟩ := hd.inside hid
    obtain ⟨σ, hσ⟩ := hτ.inside hid
    have hbound : (typing (soundly parameters)).enter ((g.producers id).map τ) =
        some ((g.producers id).map types.type) :=
        congrArg some (map_producers_eq hd.wired hτ hd.typed id)
    have hsupplies : Supplies parameters (some ((g.producers id).map types.type))
        (evaluation.enter ((g.producers id).map v)) := by
      rw [← hbound]
      refine supplies_enter ?_
      rw [forall₂_map_left_iff, forall₂_map_right_iff, forall₂_same]
      exact fun q hq => holds_of_yields hτ hc (hproducers q hq)
    rw [hbound] at hσ
    obtain ⟨bound', inner, σ', hinner, hd'', hσ', hc'⟩ := ih hd' hσ hsupplies
    refine ⟨bound', inner, σ', ?_, hd'', hσ', hc'⟩
    rw [GraphTypes.at?, hnext]
    exact hinner

theorem pairs {node : Node Operator} {product keys l r : Nat} (hnode : g.node? product = some node)
    (hkind : node.kind = .primitive p) (hp : p.pairKeys? = some keys)
    (hl : g.producer? product 0 = some l) (hr : g.producer? product 1 = some r) :
    g.producers product = [l, r] ∧
      p.outputType [types.type l, types.type r] bound = .ok (types.type product) := by
  obtain ⟨l', r', hpair, hl', hr'⟩ := hd.wired.here.producers_of_inputs_two hnode
    (by rw [hkind]; exact inputs_of_pairKeys hp)
  obtain rfl := mem_unique hl hl'
  obtain rfl := mem_unique hr hr'
  have hmake := models_iff.1 hd.typed product node hnode
  rw [hkind, hpair] at hmake
  exact ⟨hpair, hmake.1⟩

end Documented

/-! ### Joins -/

variable {node : Node Operator} {l r slot : Nat} {e e' : Expr}

/-- **A predicate on the pairs of a join has its value on the side that it is told on**, failures
included, for all rows that the join makes a pair of when a graph is evaluated on rows of the
declared types, at any level.  No fold may return its only field, a tuple, alone.  Where the
predicate reads a key of the right row, the field of the pair that it reads instead must be the left
key at the same place and not floating, or have the type and the value of the right key. -/
theorem evalTyped_side_of_join {join keys : Nat} {left right : Stream} {a b : Row} (hg : g.Numbered)
    (hvalid : g.validate = .ok ()) (htypes : g.types = .ok types)
    (hplain : g.foldsPlainly types = true) (hinputs : g.admitsInputs parameters = true)
    (hannotated : g.annotated = .ok g') (henters : Enters g' ⟨none, parameters⟩ path h c)
    (hinner : types.at? path = some inner) (hnode : h.node? join = some node)
    (hkind : node.kind = .primitive (.join keys)) (hl : h.producer? join 0 = some l)
    (hr : h.producer? join 1 = some r) (he : e.infer [inner.type join] = .ok (.atomic .bool))
    (hside : h.sidePredicate? join e = some (slot, e')) (hleft : Yields h c l left)
    (hright : Yields h c r right) (ha : a ∈ left.rows) (hb : b ∈ right.rows)
    (hmatch : (Primitive.join keys).matches a b = true)
    (hkeys : slot = 1 → ∀ index q, (index, q) ∈ e.positions.zip e'.positions → q < keys →
      (index = q ∧ ∀ type, (inner.type join).type? index = some type → type.isFloat = false) ∨
        ((inner.type join).type? index = (inner.type r).type? q ∧
      (a ++ b.drop keys)[index]? = b[q]?)) :
    ∃ type row, [inner.type l, inner.type r][slot]? = some type ∧ [a, b][slot]? = some row ∧
      e'.evalTyped [type] [row] = e.evalTyped [inner.type join] [a ++ b.drop keys] := by
  have hd := Documented.of_annotated hg hvalid htypes hannotated
  have hsound := (annotated_of_annotate hg hannotated).1.models
    (models_soundly htypes hplain hinputs)
  obtain ⟨bound, inner', σ, hinner', hd', hσ, hc⟩ := hd.enters hsound ⟨rfl, rfl⟩ henters
  obtain rfl : inner = inner' := some.inj (hinner.symm.trans hinner')
  -- The rows of the sides are held by the types that were inferred, as there is one typing only.
  have hholds : ∀ {q out}, q ∈ h.ids → Yields h c q out → ∀ row ∈ out.rows,
      (inner.type q).Holds row := by
    intro q out hq hout row hrow
    rw [← eq_of_models (hd'.wired.imp fun _ => Wired.founded) hσ hd'.typed q hq]
    exact (holds_of_yields hσ hc hout).2 row hrow
  have hlmem := (hd'.wired.here.feeds _ _ _ hl).2
  have ha := hholds hlmem hleft a ha
  have hb := hholds (hd'.wired.here.feeds _ _ _ hr).2 hright b hb
  obtain ⟨hpair, ht⟩ := hd'.pairs hnode hkind rfl hl hr
  obtain ⟨f, hremap, ⟨rfl, hf⟩ | ⟨rfl, hf⟩⟩ :=
    positions_of_sidePredicate? hd'.wired.here hnode hkind rfl hpair
      (hd'.noted (mem_ids_of_node? hnode)) (hd'.noted hlmem) hside
  · exact ⟨_, _, rfl, rfl, evalTyped_left rfl ht hremap he (fun index _ => hf index) ha hb⟩
  · refine ⟨_, _, rfl, rfl, evalTyped_right rfl ht hremap he ha hb fun index hindex q hq => ?_⟩
    by_cases hle : keys ≤ q
    · exact .inl ⟨hle, hf index q hq hle⟩
    · have hlt : q < keys := by omega
      rcases hkeys rfl index q (mem_zip_positions hremap hindex hq) hlt with ⟨rfl, hfloat⟩ | hagree
      · exact .inr (key_of_matches rfl ht ha hb hmatch hlt hfloat)
      · exact .inr hagree

/-- Numbers joined with the pairs of a number with itself or another one, by the first of them. -/
def selfPairs : Dag where
  nodes := [⟨0, .primitive (.range ⟨0, 2, 1⟩), {}⟩, ⟨1, .primitive (.range ⟨0, 2, 1⟩), {}⟩,
    ⟨2, .primitive .cartesian, {}⟩, ⟨3, .primitive (.join 1), {}⟩]
  edges := [⟨0, 0, 2, 0⟩, ⟨0, 0, 2, 1⟩, ⟨1, 0, 3, 0⟩, ⟨2, 0, 3, 1⟩]
  sink := some 3

/-- Whether a field is a number above zero. -/
def positive (index : Nat) : Expr := .binary .gt (.field 0 index) (.literal (.int 0))

/-- The rows of the operators: the numbers, and their pairs, which the join makes again. -/
def selfStream (id : Nat) : Stream :=
  if id < 2 then ⟨.scalar .int64, [[.int 0], [.int 1]]⟩
  else ⟨.positional [.atomic .int64, .atomic .int64],
    [[.int 0, .int 0], [.int 0, .int 1], [.int 1, .int 0], [.int 1, .int 1]]⟩

theorem numbered_selfPairs : selfPairs.Numbered := isNumbered_iff.1 (by cbv)

theorem validate_selfPairs : selfPairs.validate = .ok () := by
  cbv

theorem models_selfPairs : evaluation.Models selfPairs ⟨none, []⟩ selfStream := by
  rw [models_iff]
  intro id node hnode
  have hid : id = 0 ∨ id = 1 ∨ id = 2 ∨ id = 3 := by
    simpa [ids, selfPairs] using mem_ids_of_node? hnode
  rcases hid with rfl | rfl | rfl | rfl <;> cases hnode
  · exact ⟨by cbv, _, by cbv, by cbv⟩
  · exact ⟨by cbv, _, by cbv, by cbv⟩
  · exact ⟨by cbv, _, by cbv, by cbv⟩
  · exact ⟨by cbv, _, by cbv, by cbv⟩

/-- The annotated graph: the second field of the pairs of the join has the column of the right
key. -/
theorem exists_annotated_selfPairs : ∃ g' types node, selfPairs.annotated = .ok g' ∧
    selfPairs.types = .ok types ∧ selfPairs.foldsPlainly types = true ∧
    (∀ id ∈ selfPairs.ids, types.type id = (selfStream id).type) ∧
    g'.node? 3 = some node ∧ node.kind = .primitive (.join 1) ∧ g'.producer? 3 0 = some 1 ∧
      g'.producer? 3 1 = some 2 ∧
    g'.sidePredicate? 3 (positive 1) = some (1, positive 0) ∧
    ∀ id ∈ selfPairs.ids, Yields g' ⟨none, []⟩ id (selfStream id) := by
  have hplain : selfPairs.types.toOption.any selfPairs.foldsPlainly = true := by cbv
  have hside : selfPairs.annotated.toOption.bind (fun g' => g'.sidePredicate? 3 (positive 1)) =
      some (1, positive 0) := by cbv
  obtain ⟨types, htypes, hplain⟩ := (Option.any_eq_true _ _).1 hplain
  obtain ⟨g', hg', hside⟩ := bind_eq_some_iff.1 hside
  rw [toOption_eq_some_iff] at htypes hg'
  have halike := (annotated_of_annotate numbered_selfPairs hg').1
  have hjoin : selfPairs.node? 3 = some ⟨3, .primitive (.join 1), {}⟩ := rfl
  obtain ⟨node, hnode, hshell⟩ := node?_of_shells halike.shells hjoin
  have hfounded := founded_of_typesWithin ((halike.typesWithin_eq none).trans htypes)
  refine ⟨g', types, node, hg', htypes, hplain, fun id hid => ?_, hnode,
    Operator.shell_eq_inl_iff.1 hshell, by rw [halike.producer?]; cbv, by
    rw [halike.producer?]; cbv, hside, fun id hid => ?_⟩
  · exact (type_of_models htypes models_selfPairs id hid).symm
  · exact (yields_iff_of_models hfounded (halike.models models_selfPairs)
      (halike.ids ▸ hid) _).2 rfl

/-- Where the numbers of a pair are the same, the predicate has its value on the right row. -/
theorem selfPairs_evalTyped : ∃ g' types, selfPairs.validate = .ok () ∧
      selfPairs.types = .ok types ∧
    selfPairs.annotated = .ok g' ∧ g'.sidePredicate? 3 (positive 1) = some (1, positive 0) ∧
    Yields g' ⟨none, []⟩ 1 (selfStream 1) ∧ [.int 1] ∈ (selfStream 1).rows ∧
    Yields g' ⟨none, []⟩ 2 (selfStream 2) ∧ [.int 1, .int 1] ∈ (selfStream 2).rows ∧
    (positive 0).evalTyped [types.type 2] [[.int 1, .int 1]] =
      (positive 1).evalTyped [types.type 3] [[.int 1] ++ [.int 1]] := by
  obtain ⟨g', types, node, hg', htypes, hplain, htype, hnode, hkind, hl, hr, hside, hyields⟩ :=
    exists_annotated_selfPairs
  have h1 := hyields 1 (by decide)
  have h2 := hyields 2 (by decide)
  have ha : [.int 1] ∈ (selfStream 1).rows := by simp [selfStream]
  have hb : [.int 1, .int 1] ∈ (selfStream 2).rows := by simp [selfStream]
  have hsame : (types.type 3).type? 1 = (types.type 2).type? 0 := by
    rw [htype 3 (by decide), htype 2 (by decide)]
    cbv
  obtain ⟨type, row, hslot, hrow, heval⟩ :=
    evalTyped_side_of_join numbered_selfPairs validate_selfPairs
    htypes hplain (by cbv)
    hg' .here rfl hnode hkind hl hr (by rw [htype 3 (by decide)]; cbv) hside h1 h2 ha hb (by cbv)
    fun _ index q hmem hlt => by
      obtain ⟨rfl, rfl⟩ :
        index = 1 ∧ q = 0 := by simpa [positive, Expr.positions, Expr.fields] using hmem
      exact .inr ⟨hsame, rfl⟩
  cases hslot
  cases hrow
  exact ⟨g', types, validate_selfPairs, htypes, hg', hside, h1, ha, h2, hb, heval⟩

/-- Where they are not, it has another value there. -/
theorem selfPairs_evalTyped_ne : ∃ g' types, selfPairs.validate = .ok () ∧
      selfPairs.types = .ok types ∧
    selfPairs.annotated = .ok g' ∧ g'.sidePredicate? 3 (positive 1) = some (1, positive 0) ∧
    Yields g' ⟨none, []⟩ 1 (selfStream 1) ∧ [.int 0] ∈ (selfStream 1).rows ∧
    Yields g' ⟨none, []⟩ 2 (selfStream 2) ∧ [.int 0, .int 1] ∈ (selfStream 2).rows ∧
    (Primitive.join 1).matches [.int 0] [.int 0, .int 1] = true ∧
    (positive 1).evalTyped [types.type 3] [[.int 0] ++ [.int 1]] = .ok (.bool true) ∧
    (positive 0).evalTyped [types.type 2] [[.int 0, .int 1]] = .ok (.bool false) := by
  obtain ⟨g', types, node, hg', htypes, -, htype, -, -, -, -, hside, hyields⟩ :=
    exists_annotated_selfPairs
  refine ⟨g', types, validate_selfPairs, htypes, hg', hside,
    hyields 1 (by decide), by simp [selfStream], hyields 2 (by decide), by
    simp [selfStream], by cbv, ?_, ?_⟩
  · rw [htype 3 (by decide)]
    cbv
  · rw [htype 2 (by decide)]
    cbv

/-! ### Products -/

/-- A filter that can change places with an operator keeps the rows that the operator makes of the
rows kept before, if its predicate has a value on all rows there. -/
theorem filterRows_of_commutes {t : TupleType} {operands : List Stream} {source : Stream}
    {make : Rows → Rows} (hcommutes : Commutes c p slot e e' operands source t make)
    (he : e.infer [t] = .ok (.atomic .bool)) (hsource : source.Held)
    (hvalues : ∀ row ∈ source.rows, ∃ v, e'.evalTyped [source.type] [row] = .ok v) :
    ∃ kept, filterRows e' source.type source.rows = .ok kept ∧
      filterRows e t (make source.rows) = .ok (make kept) := by
  have hdecides : ∀ row ∈ source.rows, ∃ b, passes e' source.type row = .ok b := by
    intro row hrow
    obtain ⟨v, hv⟩ := hvalues row hrow
    exact passes_of_evalTyped (hcommutes.infer.trans he) (hsource row hrow).fits hv
  refine ⟨_, filterM_eq_ok_iff.2 ⟨hdecides, rfl⟩, ?_⟩
  refine filterM_eq_ok_iff.2 ⟨fun out hout => ?_, hcommutes.filters.symm⟩
  obtain ⟨row, hrow, hpasses⟩ := hcommutes.covers out hout
  exact hpasses ▸ hdecides row hrow

theorem run_cartesian (left right : Stream) (parameters : List Rows) :
    Primitive.cartesian.run [left, right] parameters =
      .ok (pairRows .cartesian 0 left.rows right.rows) :=
  run_of_pairKeys (c := ⟨none, parameters⟩) rfl (fun _ _ => Nat.zero_le _) fun _ _ => Nat.zero_le _

/-- **Filtering the pairs of a product is filtering one side first**, at any level of a graph: if a
predicate on the pairs is told on a side, then for all rows that are admitted by the types of the
sides and left alone by storing, if it has a value on every row of that side, the rows are the same,
in the same order. -/
theorem filter_side_of_product (parameters : List Rows) {product : Nat}
    {left right : Rows} (hg : g.Numbered) (hvalid : g.validate = .ok ())
    (htypes : g.types = .ok types) (hannotated : g.annotated = .ok g')
    (hpath : g'.at? path = some h) (hinner : types.at? path = some inner)
    (hnode : h.node? product = some node) (hkind : node.kind = .primitive .cartesian)
    (hl : h.producer? product 0 = some l) (hr : h.producer? product 1 = some r)
    (he : e.infer [inner.type product] = .ok (.atomic .bool))
    (hside : h.sidePredicate? product e = some (slot, e'))
    (hleft : ∀ row ∈ left, (inner.type l).admits row = true ∧ (inner.type l).store row = row)
    (hright : ∀ row ∈ right, (inner.type r).admits row = true ∧ (inner.type r).store row = row) :
    let sides : List Stream := [⟨inner.type l, left⟩, ⟨inner.type r, right⟩]
    ∃ side, sides[slot]? = some side ∧
      ((∀ row ∈ side.rows, ∃ v, e'.evalTyped [side.type] [row] = .ok v) →
        ∃ kept pairs rows, filterRows e' side.type side.rows = .ok kept ∧
          Primitive.cartesian.run sides parameters = .ok pairs ∧
          filterRows e (inner.type product) pairs = .ok rows ∧
          Primitive.cartesian.run (sides.set slot ⟨side.type, kept⟩) parameters = .ok rows) := by
  obtain ⟨bound, inner', hinner', hd⟩ :=
    (Documented.of_annotated hg hvalid htypes hannotated).at? hpath
  obtain rfl : inner = inner' := some.inj (hinner.symm.trans hinner')
  obtain ⟨hpair, ht⟩ := hd.pairs hnode hkind rfl hl hr
  have hleft : Stream.Held ⟨inner.type l, left⟩ :=
    fun row hrow => TupleType.holds_iff.2 (hleft row hrow)
  have hright : Stream.Held ⟨inner.type r, right⟩ :=
    fun row hrow => TupleType.holds_iff.2 (hright row hrow)
  rcases commutes_of_sidePredicate? (c := ⟨bound, parameters⟩) hd.wired.here hnode hkind rfl hpair
    (hd.noted (mem_ids_of_node? hnode)) (hd.noted (hd.wired.here.feeds _ _ _ hl).2)
    hleft hright ht he hside (fun _ _ _ _ hlt => absurd hlt (Nat.not_lt_zero _)) with ⟨rfl,
    hcommutes⟩ | ⟨rfl, hcommutes⟩
  · refine ⟨_, rfl, fun hvalues => ?_⟩
    obtain ⟨kept, hkept, hrows⟩ := filterRows_of_commutes hcommutes he hleft hvalues
    exact ⟨kept, _, _, hkept, run_cartesian _ _ _, hrows, run_cartesian ⟨inner.type l, kept⟩ _ _⟩
  · refine ⟨_, rfl, fun hvalues => ?_⟩
    obtain ⟨kept, hkept, hrows⟩ := filterRows_of_commutes hcommutes he hright hvalues
    exact ⟨kept, _, _, hkept, run_cartesian _ _ _, hrows, run_cartesian _ ⟨inner.type r, kept⟩ _⟩

/-- The product inside a pipeline, on some rows of the types of its sides. -/
theorem pairsInside_filter : ∃ g' h types inner, pairsInside.validate = .ok () ∧
      pairsInside.types = .ok types ∧
    pairsInside.annotated = .ok g' ∧ g'.at? [2] = some h ∧ types.at? [2] = some inner ∧
    h.sidePredicate? 2 (positive 1) = some (1, positive 0) ∧
    ∃ kept pairs rows, filterRows (positive 0) (inner.type 1) [[.int 0], [.int 1]] = .ok kept ∧
      Primitive.cartesian.run [⟨inner.type 0, [[.int 0], [.int 1]]⟩,
      ⟨inner.type 1, [[.int 0], [.int 1]]⟩] [] =
        .ok pairs ∧
      filterRows (positive 1) (inner.type 2) pairs = .ok rows ∧
      Primitive.cartesian.run [⟨inner.type 0, [[.int 0], [.int 1]]⟩, ⟨inner.type 1, kept⟩] [] =
        .ok rows := by
  have hvalid : pairsInside.validate = .ok () := by cbv
  have hnumbered : pairsInside.Numbered := isNumbered_iff.1 (by cbv)
  have hside : pairsInside.annotated.toOption.bind (fun g' => (g'.at? [2]).bind fun h =>
      h.sidePredicate? 2 (positive 1)) = some (1, positive 0) := by cbv
  have hlevel : pairsInside.types.toOption.bind (fun types => (types.at? [2]).map fun inner =>
      (inner.type 0, inner.type 1, inner.type 2)) =
      some (.scalar .int64, .scalar .int64, .positional [.atomic .int64, .atomic .int64]) := by cbv
  obtain ⟨g', hg', hside⟩ := bind_eq_some_iff.1 hside
  obtain ⟨h, hpath, hside⟩ := bind_eq_some_iff.1 hside
  obtain ⟨types, htypes, hlevel⟩ := bind_eq_some_iff.1 hlevel
  obtain ⟨inner, hinner, hlevel⟩ := map_eq_some_iff.1 hlevel
  obtain ⟨hzero, hone, htwo⟩ : inner.type 0 = _ ∧ inner.type 1 = _ ∧
    inner.type 2 = _ := by simpa using hlevel
  rw [Outcome.toOption_eq_some_iff] at htypes hg'
  obtain ⟨k, hk, hproduct, hl, hr⟩ : ∃ k, pairsInside.inner? 2 = some k ∧
      k.node? 2 = some ⟨2, .primitive .cartesian, {}⟩ ∧ k.producer? 2 0 = some 0 ∧
      k.producer? 2 1 = some 1 :=
    ⟨_, rfl, rfl, rfl, rfl⟩
  have hid : g'.inner? 2 = some h := by
    obtain ⟨h', hid, hh⟩ := bind_eq_some_iff.1 hpath
    cases hh
    exact hid
  have halike := (annotated_of_annotate hnumbered hg').1.inside hk hid
  obtain ⟨node, hnode, hshell⟩ := node?_of_shells halike.shells hproduct
  have hrows : ∀ row ∈ ([[.int 0], [.int 1]] : Rows),
      (TupleType.scalar .int64).admits row = true ∧ (TupleType.scalar .int64).store row = row := by
    simp only [forall_mem_cons]
    exact ⟨⟨by cbv, by cbv⟩, ⟨by cbv, by cbv⟩, forall_mem_nil _⟩
  obtain ⟨side, hslot, hfilter⟩ :=
    filter_side_of_product [] hnumbered hvalid htypes hg' hpath hinner hnode
    (Operator.shell_eq_inl_iff.1 hshell) ((halike.producer? 2 0).trans hl)
    ((halike.producer? 2 1).trans hr) (by rw [htwo]; cbv) hside (hzero ▸ hrows) (hone ▸ hrows)
  cases hslot
  refine ⟨g', h, types, inner, hvalid, htypes, hg', hpath, hinner, hside, hfilter ?_⟩
  simp only [hone, forall_mem_cons]
  exact ⟨⟨.bool false, by cbv⟩, ⟨.bool true, by cbv⟩, forall_mem_nil _⟩

end Dataflow.Graph
