/-
**Properties that annotation notes.**

A property of a field has its origin at an operator that gives it, and from there every operator
that passes the field on and keeps properties hands it on.  Annotation notes no other properties.
So a property is true of the rows of all these operators if it is true of the rows of the first one:
that is so if this operator can be taken at its word, on the rows that it works on.  It is not so
for positions in several arrays, nor for one key of several.

Main results:

* `Graph.givenBy_of_annotateWith` — **every property that annotation notes comes from an operator
  that gives it**;
* `Graph.GivenBy.holdsOf` — a property that comes from an operator is true of the rows of a model;
* `Graph.holdsOf_of_knownAt` — **properties that annotation notes are true of the rows**, if the
  operators that give them can be taken at their word.
-/

import Dataflow.Proofs.Evaluation.Properties

namespace Dataflow

open List Option

/-! ### Properties as they are written down -/

/-- A field as it is written down has no property that the operator does not give, or keep from the
field that it passes on. -/
def Field.Accounted (op : Operator) (inputs : List (List Field)) (field noted : Field) : Prop :=
  ∀ p, noted.properties.has p = true → (op.givesProperties field.position).has p = true ∨
    op.keepsProperties = true ∧
      ∃ source, op.source? inputs field.position = some source ∧ source.properties.has p = true

theorem Assignment.accounted_extend (op : Operator) (inputs : List (List Field))
    (previous : List Field) (a : Assignment) (field : Field) :
    ∃ noted, (extend op inputs previous a field).fields = a.fields ++ [noted] ∧
      Field.Accounted op inputs field noted := by
  cases hsource : op.source? inputs field.position with
  | some source =>
    simp only [extend, hsource]
    refine ⟨_, rfl, fun p hp => ?_⟩
    rw [Properties.has_union, Bool.or_eq_true] at hp
    rcases hp with hkept | hgiven
    · split at hkept
      · next hkeeps => exact .inr ⟨hkeeps, source, hsource, hkept⟩
      · cases p <;> cases hkept
    · exact .inl hgiven
  | none =>
    simp only [extend, hsource]
    exact ⟨_, rfl, fun p hp => .inl hp⟩

namespace Graph

open GraphTypes

variable {g g' : Dag} {types : GraphTypes} {bound : Option (List TupleType)}
  {parameters : List Rows} {p : Property} {id position giver origin i : Nat} {v : Nat → Stream}
  {c : EvaluationContext} {prim : Primitive}

/-! ### Where properties come from -/

/-- Where a property of a field comes from: an operator gives it to one of its fields, and those
behind it pass that field on and keep its properties. -/
inductive GivenBy (g : Dag) (p : Property) : (id position giver origin : Nat) → Prop
  | gives {id position : Nat} {node : Node Operator} (node? : g.node? id = some node)
      (gives : (node.kind.givesProperties position).has p = true) :
      GivenBy g p id position id position
  | handed {id position left q index giver origin : Nat} {node : Node Operator}
      (node? : g.node? id = some node) (keeps : node.kind.keepsProperties = true)
      (origin? : node.kind.origin? left position = some (0, index))
      (producer : (g.producers id).head? = some q) (given : GivenBy g p q index giver origin) :
      GivenBy g p id position giver origin

/-- In the graph that is left when the operators `done` are annotated, their properties come from
somewhere. -/
def Accounted (g : Dag) (done : List Nat) (reached : Dag) : Prop :=
  ∀ id ∈ done, ∀ (i : Nat) field p, (reached.fieldsAt id)[i]? = some field →
    field.properties.has p = true → ∃ giver origin, g.GivenBy p id i giver origin

theorem origin?_of_keepsProperties {op : Operator} {left input index : Nat}
    (hkeeps : op.keepsProperties = true)
    (horigin : op.origin? left position = some (input, index)) : input = 0 := by
  cases op with
  | pipeline n h => cases hkeeps
  | primitive prim =>
    cases prim with
    | filter | ensureSingleTuple => cases horigin; rfl
    | projection positions =>
      obtain ⟨_, -, hij⟩ := map_eq_some_iff.1 horigin
      cases hij
      rfl
    | map function =>
      simp only [Operator.origin?] at horigin
      split at horigin <;> grind
    | _ => cases hkeeps

/-- Annotating one operator notes no property that comes from nowhere. -/
theorem Accounted.annotateNode {inner : Table (GraphTypes → Except Interruption Dag)}
    {done : List Nat} {reached : Dag} (hreached : g.Accounted done reached)
    (hprogress : g.Progress types done reached) (hfresh : id ∉ done)
    (hproducers : ∀ q ∈ g.producers id, q ∈ done)
    (h : annotateNode types inner reached id = .ok g') : g.Accounted (done ++ [id]) g' := by
  obtain ⟨node, node', output, ha⟩ := annotates_of_annotateNode h
  intro m hm i field p hfield hp
  rw [mem_append, mem_singleton] at hm
  rcases hm with hm | rfl
  · rw [ha.fieldsAt_of_ne fun heq => hfresh (heq ▸ hm)] at hfield
    exact hreached m hm i field p hfield hp
  · obtain ⟨noted, hnoted, haccounted⟩ := Assignment.forall₂_foldl node.kind (reached.inputFields m)
      node.note.fields (Assignment.accounted_extend _ _ _) (Field.ofTuple output)
      ⟨[], [], reached.allocated⟩
    rw [fieldsAt_eq ha.placed, ha.fields, assignedAt, hnoted, nil_append] at hfield
    have hnode : g.node? m = some node := hprogress.untouched m hfresh ▸ ha.found
    have hlt : i < (Field.ofTuple output).length :=
      haccounted.length_eq ▸ (List.getElem?_eq_some_iff.1 hfield).1
    have hget := getElem?_eq_getElem hlt
    have hposition : (Field.ofTuple output)[i].position = i := by
      rw [getElem?_ofTuple] at hget
      obtain ⟨_, -, hfrom⟩ := map_eq_some_iff.1 hget
      rw [← hfrom]
    rcases forall₂_getElem? haccounted hget hfield p hp with hgives | ⟨hkeeps,
      source, hsource, hkept⟩
    · exact ⟨m, i, .gives hnode (hposition ▸ hgives)⟩
    · rw [hposition] at hsource
      simp only [Operator.source?, bind_eq_bind, bind_eq_some_iff, filter_eq_some_iff] at hsource
      obtain ⟨⟨input, index⟩, horigin, ⟨fields, hinput, hsource⟩, -⟩ := hsource
      obtain rfl := origin?_of_keepsProperties hkeeps horigin
      rw [inputFields, getElem?_map, producers_of_edges hprogress.edges] at hinput
      obtain ⟨q, hq, rfl⟩ := map_eq_some_iff.1 hinput
      have hmem : q ∈ done := hproducers q (mem_of_getElem? hq)
      obtain ⟨giver, origin, hgiven⟩ := hreached q hmem index source p hsource hkept
      exact ⟨giver, origin, .handed hnode hkeeps horigin (head?_eq_getElem? ▸ hq) hgiven⟩

/-- **Every property that annotation notes comes from an operator that gives it.** -/
theorem givenBy_of_annotateWith (hnodup : g.ids.Nodup) (htypes : g.typesWithin bound = .ok types)
    (h : g.annotateWith types = .ok g') {field : Field} (hfield : (g'.fieldsAt id)[i]? = some field)
    (hp : field.properties.has p = true) (hid : id ∈ g.ids) :
    ∃ giver origin, g.GivenBy p id i giver origin := by
  obtain ⟨order, noted, marked, horder, -, haccounted, hmarked, rfl⟩ :=
    annotateWith_induction (P := g.Accounted)
      hnodup htypes (fun _ _ _ _ _ hfresh hproducers hprogress hreached hnext =>
        hreached.annotateNode hprogress hfresh hproducers hnext) nofun h
  rw [fieldsAt_of_outline (markNodes_eq_ok hmarked).2.2.2] at hfield
  exact haccounted id ((mem_order_iff horder).2 hid) i field p hfield hp

/-! ### Properties of the rows of a model -/

theorem inputs_of_keepsProperties (h : (Operator.primitive prim).keepsProperties = true) :
    prim.inputs = 1 := by
  cases prim <;> first | rfl | cases h

/-- An operator that keeps properties has one producer in a model, and the field that it passes on
is a field of that. -/
theorem exists_producer_of_keepsProperties
    {left index : Nat} (hkeeps : (Operator.primitive prim).keepsProperties = true)
    (horigin : (Operator.primitive prim).origin? left position = some (0, index))
    (hmake : evaluation.primitive c prim ((g.producers id).map v) (v id))
    (hposition : position < (v id).type.length) :
    ∃ q, g.producers id = [q] ∧ index < (v q).type.length := by
  have hinputs := inputs_of_keepsProperties hkeeps
  obtain ⟨s, hs⟩ := exists_operand hinputs hmake
  obtain ⟨q, hproducer, rfl⟩ := map_eq_singleton_iff.1 hs
  rw [hs] at hmake
  have hrule := Primitive.outputType_eq_ok_iff.1 hmake.1
  obtain ⟨type, htype⟩ : ∃ type, (v id).type.type? position = some type :=
    ⟨_, by rw [TupleType.type?, getElem?_eq_getElem hposition]; rfl⟩
  obtain ⟨-, source, hsource, -⟩ := Primitive.passes_of_hasType hrule horigin htype
  obtain ⟨_, hget, -⟩ := map_eq_some_iff.1 hsource
  exact ⟨q, hproducer, (List.getElem?_eq_some_iff.1 hget).1⟩

/-- **A property that comes from an operator is true of the rows of a model**, and the values are
atomic, if the operator can be taken at its word. -/
theorem GivenBy.holdsOf (hgiven : g.GivenBy p id position giver origin)
    (hv : evaluation.Models g c v) (hheld : ∀ id ∈ g.ids, (v id).Held)
    (hproducers : ∀ id ∈ g.ids, ∀ q ∈ g.producers id, q ∈ g.ids)
    (hsound : ∀ id node prim, g.node? id = some node → node.kind = .primitive prim →
      prim.check = .ok ())
    (hposition : position < (v id).type.length)
    (hvouches : ∀ node q, g.node? giver = some node → g.producers giver = [q] →
      node.kind.vouches p origin (v q).rows = true) :
    (∃ k, (v id).type.type? position = some (.atomic k)) ∧
      p.HoldsOf (fieldValues (v id).rows position) := by
  -- By induction on the way back to the operator that gives the property.
  induction hgiven with
  | @gives id position node hnode hgives =>
    cases hkind : node.kind with
    | pipeline n h =>
      rw [hkind] at hgives
      cases p <;> cases hgives
    | primitive prim =>
      have hmake := Interpretation.models_iff.1 hv id node hnode
      rw [hkind] at hmake hgives
      refine holdsOf_of_givesProperties (hsound id node prim hnode hkind)
        hgives ?_ hmake hposition ?_
      · intro s hs
        obtain ⟨q, hq, rfl⟩ := List.mem_map.1 hs
        exact hheld q (hproducers id (mem_ids_of_node? hnode) q hq)
      · intro s hs
        obtain ⟨q, hq, rfl⟩ := map_eq_singleton_iff.1 hs
        exact hkind ▸ hvouches node q hnode hq
  | @handed id position left q index giver origin node hnode hkeeps horigin hq _ ih =>
    cases hkind : node.kind with
    | pipeline n h =>
      rw [hkind] at hkeeps
      cases hkeeps
    | primitive prim =>
      have hmake := Interpretation.models_iff.1 hv id node hnode
      rw [hkind] at hmake hkeeps horigin
      obtain ⟨q', hproducer, hindex⟩ :=
        exists_producer_of_keepsProperties hkeeps horigin hmake hposition
      rw [hproducer] at hq
      cases hq
      have hqmem : q ∈ g.ids := hproducers id (mem_ids_of_node? hnode) q (by simp [hproducer])
      obtain ⟨⟨k, hk⟩, hholds⟩ := ih hindex hvouches
      obtain ⟨hatomic, hsublist⟩ :=
        sublist_of_keepsProperties hkeeps horigin (hheld q hqmem) (hproducer ▸ hmake) hk
      exact ⟨⟨k, hatomic⟩, hholds.sublist hsublist⟩

/-! ### Properties of the rows of a graph -/

/-- The rows that an operator of a graph produces. -/
def rowsAt (g : Dag) (parameters : List Rows) (id : Nat) : Outcome Rows :=
  ({ g with sink := some id } : Dag).evaluate parameters

theorem rowsAt_of_models (htypes : g.types = .ok types)
    (hv : evaluation.Models g ⟨none, parameters⟩ v) (hid : id ∈ g.ids) :
    g.rowsAt parameters id = .ok (v id).rows := by
  have htypes' : ({ g with sink := some id } : Dag).types = .ok types := by
    rw [← htypes, Graph.types, Graph.types, typesWithin_eq, typesWithin_eq]
    rfl
  rw [rowsAt, evaluate, htypes', Outcome.ok_bind]
  exact (evaluateWith_sink_iff htypes).2 ⟨hid, v, hv, rfl⟩

/-- Whether an operator that gives a property to one of its fields can be taken at its word, when
the graph is carried out. -/
def vouchedFor (g : Dag) (parameters : List Rows) (p : Property) (giver origin : Nat) : Bool :=
  match g.node? giver, g.producers giver with
  | some node, [q] =>
    match g.rowsAt parameters q with
    | .ok input => node.kind.vouches p origin input
    | .error _ => true
  | _, _ => true

/-- The properties that annotation notes at a field. -/
def knownAt (g : Dag) (id i : Nat) : Option Properties := do
  let annotated ← g.annotate.toOption
  let field ← (annotated.fieldsAt id)[i]?
  return field.properties

theorem annotate_of_knownAt {known : Properties} (htypes : g.types = .ok types)
    (h : g.knownAt id i = some known) : ∃ g' field, g.annotateWith types = .ok g' ∧
      (g'.fieldsAt id)[i]? = some field ∧ field.properties = known ∧ id ∈ g'.ids := by
  simp only [knownAt, annotate, htypes, bind_eq_bind, bind_eq_some_iff, Option.pure_def,
    some.injEq] at h
  obtain ⟨g', hg', field, hfield, hknown⟩ := h
  refine ⟨g', field, ?_, hfield, hknown, ?_⟩
  · cases hannotate : g.annotateWith types with
    | ok _ =>
      rw [hannotate] at hg'
      exact congrArg Except.ok (some.inj hg')
    | error _ =>
      rw [hannotate] at hg'
      cases hg'
  · cases hnode : g'.node? id with
    | some node => exact mem_ids_of_node? hnode
    | none =>
      rw [fieldsAt, hnode] at hfield
      cases hfield

/-- **Every property that annotation notes is given by an operator and handed on, and it is true of
the rows of the operator at which it is noted**, if the operator that gives it can be taken at its
word. -/
theorem holdsOf_of_knownAt {result : Rows} {i : Nat} {known : Properties} (hg : g.Numbered)
    (hvalid : g.validate = .ok ()) (htypes : g.types = .ok types)
    (hplain : g.foldsPlainly types = true) (hinputs : g.admitsInputs parameters = true)
    (hresult : g.evaluate parameters = .ok result) (hknown : g.knownAt id i = some known)
    (hp : known.has p = true) :
    ∃ rows giver origin, g.rowsAt parameters id = .ok rows ∧ (∀ row ∈ rows, ∃ v, row[i]? = some v) ∧
      g.GivenBy p id i giver origin ∧
      (g.vouchedFor parameters p giver origin = true → p.HoldsOf (fieldValues rows i)) := by
  obtain ⟨g', field, hannotate, hfield, rfl, hid⟩ := annotate_of_knownAt htypes hknown
  have hnodup : g.ids.Nodup := hg.here.imp fun h => Nat.ne_of_lt h
  have hprogress := progress_of_annotateWith hnodup htypes hannotate
  rw [ids_eq_of_shells hprogress.shells] at hid
  obtain ⟨rank, hrank⟩ := (founded_of_typesWithin htypes).here
  obtain ⟨v, -, hv, -⟩ := (evaluate_eq_ok_iff htypes).1 hresult
  have hholds := holds_of_models (founded_of_typesWithin htypes) ⟨rfl, rfl⟩
    (models_soundly htypes hplain hinputs) hv
  have hheld : ∀ id ∈ g.ids, (v id).Held := by
    intro id hid row hrow
    rw [(hholds id hid).1]
    exact (hholds id hid).2 row hrow
  have hposition : i < (v id).type.length := by
    rw [(hholds id hid).1, ← (hprogress.noted id hid).length_eq]
    exact (List.getElem?_eq_some_iff.1 hfield).1
  obtain ⟨giver, origin, hgiven⟩ := givenBy_of_annotateWith hnodup htypes hannotate hfield hp hid
  refine ⟨(v id).rows, giver, origin, rowsAt_of_models htypes hv hid, fun row hrow => ?_, hgiven,
    fun hvouched => ?_⟩
  · have hlength := (hheld id hid row hrow).length_eq
    exact ⟨_, getElem?_eq_getElem (hlength ▸ hposition)⟩
  · have hchecked := (validateWithin_eq_ok_iff hg).1 hvalid
    refine (hgiven.holdsOf hv hheld (fun id hid q hq => (hrank id hid q hq).1) ?_ hposition ?_).2
    · intro id node prim hnode hkind
      have hsound := hchecked.sound id node hnode
      rw [hkind] at hsound
      exact hsound
    · intro node q hnode hproducers
      have hq : q ∈ g.ids := (hrank giver (mem_ids_of_node? hnode) q (by simp [hproducers])).1
      simpa only [vouchedFor, hnode, hproducers, rowsAt_of_models htypes hv hq] using hvouched

/-- The totals of keys, of which large ones are kept, with the key behind the total. -/
def largeTotals : Dag where
  nodes := [⟨0, .primitive
    (.parameterLookup 0 (some [⟨"key", .atomic .int64⟩, ⟨"weight", .atomic .int64⟩])), {}⟩,
    ⟨1, .primitive (.groupBy [0] [⟨.sum, some 1⟩]), {}⟩,
    ⟨2, .primitive (.filter (.binary .gt (.field 0 1) (.literal (.int 4)))), {}⟩,
    ⟨3, .primitive (.projection [1, 0]), {}⟩]
  edges := [⟨0, 0, 1, 0⟩, ⟨1, 0, 2, 0⟩, ⟨2, 0, 3, 0⟩]
  sink := some 3
  nextId := 4

/-- Keys stay unique behind the filter and the projection. -/
theorem largeTotals_unique : largeTotals.knownAt 3 1 = some (.ofList [.grouped, .unique]) ∧
    largeTotals.rowsAt [[[.int 1, .int 3], [.int 2, .int 1], [.int 1, .int 2], [.int 3, .int 5]]]
      3 = .ok [[.int 5, .int 1], [.int 5, .int 3]] ∧
    Property.unique.HoldsOf (fieldValues [[.int 5, .int 1], [.int 5, .int 3]] 1) := by
  have hknown : largeTotals.knownAt 3 1 = some (.ofList [.grouped, .unique]) := by cbv
  have hrows : largeTotals.rowsAt
      [[[.int 1, .int 3], [.int 2, .int 1], [.int 1, .int 2], [.int 3, .int 5]]] 3 =
        .ok [[.int 5, .int 1], [.int 5, .int 3]] := by cbv
  obtain ⟨types, htypes, hplain⟩ : ∃ types, largeTotals.types = .ok types ∧
      largeTotals.foldsPlainly types = true := ⟨_, by cbv, by cbv⟩
  obtain ⟨rows, giver, origin, hrows', -, hgiven, hholds⟩ :=
    holdsOf_of_knownAt (p := .unique) (isNumbered_iff.1 (by cbv)) (by cbv) htypes hplain (by cbv)
      (hrows : largeTotals.evaluate _ = _) hknown rfl
  obtain rfl := Except.ok.inj (hrows.symm.trans hrows')
  refine ⟨hknown, hrows, hholds ?_⟩
  -- The key was given its properties by the operator that makes groups.
  have hproducer : largeTotals.producers 3 = [2] := by cbv
  have hproducer' : largeTotals.producers 2 = [1] := by cbv
  obtain ⟨rfl, rfl⟩ : giver = 1 ∧ origin = 0 := by
    cases hgiven with
    | gives hnode hgives =>
      cases hnode
      cases hgives
    | handed hnode hkeeps horigin hq hgiven =>
      cases hnode
      cases horigin
      rw [hproducer] at hq
      cases hq
      cases hgiven with
      | gives hnode hgives =>
        cases hnode
        cases hgives
      | handed hnode hkeeps horigin hq hgiven =>
        cases hnode
        cases horigin
        rw [hproducer'] at hq
        cases hq
        cases hgiven with
        | gives => exact ⟨rfl, rfl⟩
        | handed hnode hkeeps =>
          cases hnode
          cases hkeeps
  cbv

/-- The items of arrays with their positions, grouped by both. -/
def groupedItems : Dag where
  nodes := [⟨0, .primitive (.parameterLookup 0 (some [⟨"items", .array (.atomic .int64)⟩])), {}⟩,
    ⟨1, .primitive (.rowScan true), {}⟩, ⟨2, .primitive (.groupBy [0, 1] []), {}⟩]
  edges := [⟨0, 0, 1, 0⟩, ⟨1, 0, 2, 0⟩]
  sink := some 2
  nextId := 3

/-- Two arrays both have an item at position 0: positions are neither sorted nor unique, and as one
key of two they are not unique either, nor grouped. -/
theorem groupedItems_not_unique : groupedItems.validate = .ok () ∧
    groupedItems.admitsInputs [[[.array [.int 5, .int 6]], [.array [.int 7]]]] = true ∧
    groupedItems.knownAt 1 0 = some (.ofList [.sorted, .unique]) ∧
    groupedItems.knownAt 2 0 = some (.ofList [.grouped, .unique]) ∧
    groupedItems.rowsAt [[[.array [.int 5, .int 6]], [.array [.int 7]]]] 1 =
      .ok [[.int 0, .int 5], [.int 1, .int 6], [.int 0, .int 7]] ∧
    groupedItems.rowsAt [[[.array [.int 5, .int 6]], [.array [.int 7]]]] 2 =
      .ok [[.int 0, .int 5], [.int 1, .int 6], [.int 0, .int 7]] ∧
    ∀ p : Property, ¬ p.HoldsOf
      (fieldValues [[.int 0, .int 5], [.int 1, .int 6], [.int 0, .int 7]] 0) := by
  refine ⟨by cbv, by cbv, by cbv, by cbv, by cbv, by cbv, fun p h => ?_⟩
  have hvalues : fieldValues [[.int 0, .int 5], [.int 1, .int 6], [.int 0, .int 7]] 0 =
    [.int 0, .int 1, .int 0] := rfl
  rw [hvalues] at h
  cases p with
  | grouped => exact absurd (h _ _ _ (.refl _) rfl) (by decide)
  | sorted =>
    have hdown : (Value.int 1).compare (.int 0) = .ok .gt := rfl
    have hup : (Value.int 0).compare (.int 1) = .ok .lt := rfl
    rcases h with h | h
    · have hrel := rel_of_pairwise_cons h.of_cons mem_cons_self
      simp [hdown] at hrel
    · have hrel := rel_of_pairwise_cons h mem_cons_self
      simp [hup] at hrel
  | unique =>
    have hrel : (Value.int 0).same (.int 0) = false := rel_of_pairwise_cons h (by simp)
    cases hrel

end Graph

end Dataflow
