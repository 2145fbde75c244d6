/-
**Dead columns do not influence results.**

The values of a field whose column is dead can be changed without a change of the result, as long as
no fold passes them on.  A fold is noted to read the fields that its function refers to, but a first
tuple that is combined with nothing is passed on as it is, and so are the values of its other
fields, under new columns.  So a column is used after an operator if it is needed there, or if a
fold takes it in and passes it on to a column that is used after the fold.

Two runs of a graph are compared operator by operator: the rows of the one agree with the rows of
the other at all fields whose columns are used.  A pipeline reads all columns of its inputs, hence
nothing differs inside.

Main definitions:

* `Graph.Folded` — the columns that a fold passes on to a column that is not dead;
* `Graph.Used` — the columns that are needed or folded;
* `Graph.DeadField`, `Graph.Unused` — the fields of a parameter that all its look-ups note as dead,
  and those of them that no fold passes on;
* `DifferOnlyAt` — rows of parameters that differ in some fields only.

Main results:

* `Graph.Surveyed.needs` — the notes have all fields that an operator needs;
* `Graph.evaluateNode_agrees` — one operator in the second run follows the first run;
* `Graph.evaluate_eq_ok_iff_of_unused` — **dead columns that no fold passes on do not influence the
  result**.
-/

import Dataflow.Proofs.Evaluation.Agreement
import Dataflow.Proofs.Evaluation.TypeSoundness
import Dataflow.Proofs.Liveness

namespace Dataflow

open List Option Outcome

variable {p : Primitive}

/-- Whether an operator combines tuples with a first one, which it passes on. -/
def Operator.isFold : Operator → Bool
  | .primitive p => p.isFold
  | .pipeline _ _ => false

/-- Rows of parameters, equally many of each, that differ only in the fields `free`, given by
parameter and position. -/
structure DifferOnlyAt (free : Nat → Nat → Prop) (xs ys : List Rows) : Prop where
  length : xs.length = ys.length
  rows : ∀ (n : Nat) (rows others : Rows), xs[n]? = some rows → ys[n]? = some others →
    Forall₂ (fun row other => ∀ i, ¬free n i → row[i]? = other[i]?) rows others

theorem DifferOnlyAt.symm {free : Nat → Nat → Prop} {xs ys : List Rows}
    (h : DifferOnlyAt free xs ys) :
    DifferOnlyAt free ys xs where
  length := h.length.symm
  rows := fun n others rows hothers hrows =>
    (h.rows n rows others hrows hothers).flip.imp fun _ _ hrow i hi => (hrow i hi).symm

namespace Graph

open GraphTypes

variable {g g' : Dag} {types : GraphTypes} {xs ys : List Rows} {id : Nat} {c : Column}

/-! ### Columns that are used -/

/-- Whether the operator under a number is a fold. -/
def foldsAt (g : Dag) (id : Nat) : Bool := ((g.node? id).map (·.kind.isFold)).getD false

/-- The columns that a fold after an operator takes in, at some position, and passes on to a column
at the same position that is not dead after the fold, or that another fold passes on in turn. -/
inductive Folded (g : Dag) : Nat → Column → Prop
  | here {id m k : Nat} {c d : Column} (consumer : m ∈ g.consumers id) (fold : g.foldsAt m = true)
      (taken : g.columnAt id k = some c) (passed : g.columnAt m k = some d)
      (live : d ∉ g.deadAt m) : Folded g id c
  | again {id m k : Nat} {c d : Column} (consumer : m ∈ g.consumers id) (fold : g.foldsAt m = true)
      (taken : g.columnAt id k = some c) (passed : g.columnAt m k = some d)
      (folded : Folded g m d) : Folded g id c
  | after {id m : Nat} {c : Column} (consumer : m ∈ g.consumers id) (folded : Folded g m c) :
      Folded g id c

theorem Folded.exists_edge (h : Folded g id c) :
    ∃ e ∈ g.edges, g.foldsAt e.target = true ∧ ∃ k, g.columnAt e.source k = some c := by
  have hedge : ∀ {id m k : Nat} {c : Column}, m ∈ g.consumers id → g.foldsAt m = true →
    g.columnAt id k = some c →
      ∃ e ∈ g.edges, g.foldsAt e.target = true ∧ ∃ k, g.columnAt e.source k = some c := by
    intro id m k c consumer fold taken
    obtain ⟨e, he, rfl, rfl⟩ := mem_producers.1 (mem_consumers.1 consumer)
    exact ⟨e, he, fold, k, taken⟩
  induction h with
  | here consumer fold taken _ _ | again consumer fold taken _ _ _ =>
    exact hedge consumer fold taken
  | after _ _ ih => exact ih

/-- The columns that are needed after an operator, or that a fold passes on. -/
def Used (g : Dag) (id : Nat) (c : Column) : Prop := Needed g id c ∨ Folded g id c

theorem Used.after {m : Nat} (consumer : m ∈ g.consumers id) (h : Used g m c) : Used g id c :=
  h.imp (.after consumer) (.after consumer)

/-- The positions of an operator's output whose columns are used. -/
def UsedAt (g : Dag) (id k : Nat) : Prop := ∃ c, g.columnAt id k = some c ∧ g.Used id c

/-- A field of a parameter that every look-up of it notes as dead. -/
def DeadField (g : Dag) (n i : Nat) : Prop :=
  ∀ id node declared, g.node? id = some node →
    node.kind = .primitive (.parameterLookup n declared) →
    ∃ c, g.columnAt id i = some c ∧ c ∈ node.note.dead

/-- A field of a parameter that every look-up of it notes as dead and that no fold passes on. -/
def Unused (g : Dag) (n i : Nat) : Prop :=
  ∀ id node declared, g.node? id = some node →
    node.kind = .primitive (.parameterLookup n declared) → ∃ c, g.columnAt id i = some c ∧
    c ∈ node.note.dead ∧ ¬g.Folded id c

/-! ### Notes and runs -/

/-- A graph and its annotated form: they are alike, and every operator is noted with its fields,
with the columns that it reads, and with those of its columns that are not needed. -/
structure Surveyed (g : Dag) (types : GraphTypes) (g' : Dag) : Prop where
  alike : Alike g g'
  noted : ∀ id ∈ g.ids, g'.NotedAt id (types.type id)
  reads : ∀ id node, g.node? id = some node →
    g'.readsAt id = node.kind.reads ((g.producers id).map g'.fieldsAt)
  dead : ∀ id ∈ g.ids, ∀ c, c ∈ g'.deadAt id ↔ (∃ k, g'.columnAt id k = some c) ∧ ¬Needed g' id c

theorem surveyed_of_annotate (hg : g.Numbered) (htypes : g.types = .ok types)
    (h : g.annotate = .ok g') :
    Surveyed g types g' := by
  rw [annotate, htypes] at h
  have hnodup : g.ids.Nodup := hg.here.imp fun h => Nat.ne_of_lt h
  obtain ⟨hreads, hdead⟩ := marked_of_annotateWith hnodup htypes h
  exact ⟨(annotated_of_annotateWith hg htypes h).1,
    (progress_of_annotateWith hnodup htypes h).noted, hreads, hdead⟩

namespace Surveyed

variable {node : Node Operator} (hs : Surveyed g types g') (hnode : g.node? id = some node)
include hs

include hnode in
theorem node? (hkind : node.kind = .primitive p) : ∃ node', g'.node? id = some node' ∧
      node'.kind = .primitive p := by
  obtain ⟨node', hnode', hshell⟩ := node?_of_shells hs.alike.shells hnode
  rw [hkind, Operator.shell, Operator.shell_eq_inl_iff] at hshell
  exact ⟨node', hnode', hshell⟩

theorem consumer {q : Nat} (hq : q ∈ g.producers id) : id ∈ g'.consumers q :=
  mem_consumers.2 (hs.alike.producers id ▸ hq)

/-- A column that a fold takes in is used, if the column to which it is passed on is. -/
theorem used_of_fold {m k : Nat} {d : Column} (hm : m ∈ g.ids) (consumer : m ∈ g'.consumers id)
    (fold : g'.foldsAt m = true) (taken : g'.columnAt id k = some c)
    (passed : g'.columnAt m k = some d) (h : Used g' m d) : Used g' id c := by
  rcases h with hneeded | hfolded
  · refine .inr (.here consumer fold taken passed fun hdead => ?_)
    exact ((hs.dead m hm d).1 hdead).2 hneeded
  · exact .inr (.again consumer fold taken passed hfolded)

include hnode in
/-- A column that an operator reads is used after the producer. -/
theorem used_of_read {i j q : Nat} (hq : (g.producers id)[i]? = some q)
    (hc : g'.columnAt q j = some c) (hread : ∀ positions, node.kind.readPositions = some positions →
      (i, j) ∈ positions) : g'.Used q c := by
  refine .inl (.read (hs.consumer (mem_of_getElem? hq)) ?_)
  have hfield : ((((g.producers id).map g'.fieldsAt)[i]?).bind (·[j]?)).bind
      (·.column) = some c := by
    rw [getElem?_map, hq]
    exact hc
  rw [hs.reads id node hnode, Operator.reads, NatSet.mem_ofList]
  split
  · next positions hpositions => exact mem_filterMap.2 ⟨(i, j), hread positions hpositions, hfield⟩
  · obtain ⟨f, hf, hcolumn⟩ := bind_eq_some_iff.1 hfield
    obtain ⟨fields, hfields, hf⟩ := bind_eq_some_iff.1 hf
    exact mem_filterMap.2 ⟨f, mem_flatten.2
      ⟨fields, mem_of_getElem? hfields, mem_of_getElem? hf⟩, hcolumn⟩

include hnode in
/-- **The notes have all fields that an operator needs** for the fields whose columns are used after
it. -/
theorem needs (hkind : node.kind = .primitive p) :
    p.Needs (((g.producers id).map g'.fieldsAt).head?.getD []).length (g'.UsedAt id) fun i j => ∀ q,
      (g.producers id)[i]? = some q → ∀ c, g'.columnAt q j = some c → g'.Used q c := by
  obtain ⟨node', hnode', hkind'⟩ := hs.node? hnode hkind
  have hid := mem_ids_of_node? hnode
  refine ⟨?_, ?_, ?_, ?_⟩
  · intro positions hpositions i j hmem q hq c hc
    refine hs.used_of_read hnode hq hc fun positions' hpositions' => ?_
    rw [hkind, hpositions, some.injEq] at hpositions'
    exact hpositions' ▸ hmem
  · intro hnone i j q hq c hc
    refine hs.used_of_read hnode hq hc fun positions hpositions => ?_
    rw [hkind, hnone] at hpositions
    cases hpositions
  · -- A field that is passed on carries its column along.
    rintro k i j ⟨d, hd, hused⟩ horigin q hq c hc
    obtain ⟨f, hf, hfcolumn⟩ := bind_eq_some_iff.1 hc
    obtain ⟨n, hn, hncolumn⟩ := bind_eq_some_iff.1 hd
    have hassigned := (hs.noted id hid).assigned node' hnode'
    have hk : k < (types.type id).length := by
      rw [← (hs.noted id hid).length_eq]
      exact (List.getElem?_eq_some_iff.1 hn).1
    have hfield := forall₂_getElem? hassigned
      (by rw [getElem?_ofTuple, getElem?_eq_getElem hk]; rfl) hn
    have hsource : node'.kind.source? ((g'.producers id).map g'.fieldsAt) k = some f := by
      rw [hkind', hs.alike.producers, Operator.source?, horigin]
      simp [hq, hf, Option.filter, hfcolumn]
    obtain rfl : d = c := by
      have heq := hfield.source f hsource
      rw [hncolumn, hfcolumn, some.injEq] at heq
      exact heq
    exact hused.after (hs.consumer (mem_of_getElem? hq))
  · rintro hfold k ⟨d, hd, hused⟩ q hq c hc
    refine hs.used_of_fold hid (hs.consumer (mem_of_getElem? hq)) ?_ hc hd hused
    rw [foldsAt, hnode', map_some, getD_some, hkind']
    exact hfold

/-- Rows of a type that agree at the fields whose columns are used agree everywhere else outside the
type. -/
theorem agree {row other : Row} (hid : id ∈ g.ids) (hrow : row.length = (types.type id).length)
    (h : Row.Agree (g'.UsedAt id) row other) :
    Row.Agree (fun k => ∀ c, g'.columnAt id k = some c → g'.Used id c) row other where
  length := h.length
  values := by
    intro k hk
    cases hf : (g'.fieldsAt id)[k]? with
    | none =>
      rw [List.getElem?_eq_none_iff, (hs.noted id hid).length_eq, ← hrow] at hf
      rw [List.getElem?_eq_none_iff.2 hf, List.getElem?_eq_none_iff.2 (h.length ▸ hf)]
    | some f =>
      obtain ⟨c, hc⟩ := isSome_iff_exists.1 ((hs.noted id hid).columns f (mem_of_getElem? hf))
      have hcolumn : g'.columnAt id k = some c := by rw [columnAt, hf, bind_some, hc]
      exact h.values k ⟨c, hcolumn, hk c hcolumn⟩

end Surveyed

/-- The rows of one operator in the second run, which agree with those of the first run at the
fields whose columns are used. -/
def Tracks (g' : Dag) (v : Nat → Stream) (results : Table Rows) (id : Nat) : Prop :=
  ∃ rows, results.get? id = some rows ∧ Forall₂ (Row.Agree (g'.UsedAt id)) (v id).rows rows

section Runs

variable {v : Nat → Stream} {results : Table Rows} (hs : Surveyed g types g')
  (htypes : g.types = .ok types) (hplain : g.foldsPlainly types = true)
  (hxs : g.admitsInputs xs = true) (hys : g.admitsInputs ys = true)
  (hdiffer : DifferOnlyAt g'.Unused xs ys) {node : Node Operator} {raw : Rows}
include hs

theorem agree_of_tracks (hid : id ∈ g.ids) (hholds : (types.type id).HoldsAll (v id))
    (h : Tracks g' v results id) :
    Forall₂ (Row.Agree fun k => ∀ c, g'.columnAt id k = some c → g'.Used id c) (v id).rows
      ((results.get? id).getD []) := by
  obtain ⟨rows, hrows, hagree⟩ := h
  rw [hrows, getD_some]
  have hlengths := (forall₂_and_left _ _).2 ⟨fun row hrow => (hholds.2 row hrow).length_eq, hagree⟩
  exact hlengths.imp fun row other hrow => hs.agree hid hrow.1 hrow.2

include hxs hys hdiffer

theorem lookup_agrees {n : Nat} {declared : Option TupleType}
    (hnode : g.node? id = some node) (hkind : node.kind = .primitive (.parameterLookup n declared))
    (htype : declared.isSome = true) (hraw : xs[n]? = some raw) :
    ∃ raw', ys[n]? = some raw' ∧ Forall₂ (Row.Agree (g'.UsedAt id)) raw raw' := by
  obtain ⟨t, rfl⟩ := isSome_iff_exists.1 htype
  obtain ⟨node', hnode', hkind'⟩ := hs.node? hnode hkind
  have hn : n < ys.length := hdiffer.length ▸ (List.getElem?_eq_some_iff.1 hraw).1
  have hraw' := getElem?_eq_getElem hn
  have hadmits : ∀ {zs : List Rows} {rows : Rows}, g.admitsInputs zs = true → zs[n]? = some rows →
      ∀ row ∈ rows, row.length = t.length := by
    intro zs rows hzs hrows row hrow
    have hlookup := List.all_eq_true.1 hzs node (mem_of_node? hnode)
    simp only [hkind, hrows, getD_some, List.all_eq_true] at hlookup
    exact TupleType.length_eq_of_admits (hlookup row hrow)
  refine ⟨_, hraw', ?_⟩
  have hrows := hdiffer.rows n raw _ hraw hraw'
  have hlengths := (forall₂_and_left _ _).2 ⟨hadmits hxs hraw, hrows⟩
  have hlengths' := (forall₂_and_left _ _).2 ⟨hadmits hys hraw', hlengths.flip⟩
  refine hlengths'.flip.imp ?_
  rintro row other ⟨hother, hrow, hvalues⟩
  refine ⟨hrow.trans hother.symm, fun k hk => hvalues k fun hunused => ?_⟩
  -- The column would be used and unused.
  obtain ⟨d, hd, hused⟩ := hk
  obtain ⟨c, hc, hdead, hfolded⟩ := hunused id node' _ hnode' hkind'
  obtain rfl : c = d := mem_unique hc hd
  have hdead' : c ∈ g'.deadAt id := by
    rw [deadAt, hnode']
    exact hdead
  rcases hused with hneeded | hfold
  · exact ((hs.dead id (mem_ids_of_node? hnode) c).1 hdead').2 hneeded
  · exact hfolded hfold

/-- **A primitive operator in the second run follows the first run**, if its producers do. -/
theorem run_agrees (hholds : ∀ q ∈ g.ids, (types.type q).HoldsAll (v q))
    (hnode : g.node? id = some node) (hkind : node.kind = .primitive p)
    (hproducers : ∀ q ∈ g.producers id, q ∈ g.ids ∧ Tracks g' v results q)
    (hout : p.outputType ((g.producers id).map types.type) none = .ok (types.type id))
    (hraw : p.run ((g.producers id).map v) xs = .ok raw) :
    ∃ raw', p.run ((g.producers id).map fun q => ⟨types.type q, (results.get? q).getD []⟩) ys =
      .ok raw' ∧ Forall₂ (Row.Agree (g'.UsedAt id)) raw raw' := by
  by_cases hlookup : p.tag = .parameterLookup
  · obtain ⟨n, declared, rfl⟩ : ∃ n declared, p = .parameterLookup n declared := by
      cases p <;> first | exact ⟨_, _, rfl⟩ | cases hlookup
    rw [Primitive.run, ofOption_eq_ok_iff] at hraw
    have hdeclared : declared.isSome = true := by
      rw [declared_of_lookupType (outputType_parameterLookup hout), isSome_some]
    obtain ⟨raw', hraw', hagree⟩ := lookup_agrees hs hxs hys hdiffer hnode hkind hdeclared hraw
    exact ⟨raw', ofOption_eq_ok_iff.2 hraw', hagree⟩
  · have hlength : ((g.producers id).map v).length = p.inputs := by
      have := (Primitive.outputType_eq_ok_iff.1 hout).length_eq
      rwa [List.length_map] at this ⊢
    refine Primitive.related_run xs ys hlookup (hs.needs hnode hkind) hlength ?_ ?_ ?_ raw hraw
    · intro s hs' row hrow
      obtain ⟨q, hq, rfl⟩ := map_eq_some_iff.1 (getElem?_map ▸ hs')
      have hqid := (hproducers q (mem_of_getElem? hq)).1
      rw [head?_eq_getElem?, getElem?_map, hq, map_some, getD_some, (hs.noted q hqid).length_eq]
      exact ((hholds q hqid).2 row hrow).length_eq
    · rw [forall₂_map_left_iff, forall₂_map_right_iff, forall₂_same]
      exact fun q hq => (hholds q (hproducers q hq).1).1
    · intro i s s' hi hi'
      rw [getElem?_map, map_eq_some_iff] at hi hi'
      obtain ⟨q, hq, rfl⟩ := hi
      obtain ⟨q', hq', rfl⟩ := hi'
      obtain rfl := mem_unique hq hq'
      obtain ⟨hqid, htracks⟩ := hproducers q (mem_of_getElem? hq)
      exact (agree_of_tracks hs hqid (hholds q hqid) htracks).imp fun row other hrow =>
        hrow.mono fun k hk => hk q hq

include htypes

/-- **Carrying out one operator in the second run follows the first run**, if its producers do. -/
theorem evaluateNode_agrees (hv : evaluation.Models g ⟨none, xs⟩ v)
    (hholds : ∀ q ∈ g.ids, (types.type q).HoldsAll (v q)) (hid : id ∈ g.ids)
    (hproducers : ∀ q ∈ g.producers id, q ∈ g.ids ∧ Tracks g' v results q) :
    ∃ rows, g.evaluateStep types ys results id = .ok (results.put id rows) ∧
      Forall₂ (Row.Agree (g'.UsedAt id)) (v id).rows rows := by
  obtain ⟨hclosed, hall⟩ := closed_of_typesWithin htypes
  obtain ⟨node, hnode⟩ := node?_of_mem_ids hid
  have htyped : ∀ q ∈ g.ids, types.outputs.get? q = some (types.type q) := by
    intro q hq
    obtain ⟨t, ht⟩ := hall q hq
    rw [type, ht, getD_some]
  have hmake := Interpretation.models_iff.1 hv id node hnode
  cases hkind : node.kind with
  | primitive p =>
    rw [hkind] at hmake
    obtain ⟨hout, raw, hraw, hrows⟩ := hmake
    have hinputs : ((g.producers id).map v).map (·.type) = (g.producers id).map types.type := by
      rw [List.map_map]
      exact map_congr_left fun q hq => (hholds q (hproducers q hq).1).1
    rw [(hholds id hid).1] at hout hrows
    obtain ⟨raw', hraw', hagree⟩ :=
      run_agrees hs hxs hys hdiffer hholds hnode hkind hproducers (hinputs ▸ hout) hraw
    refine ⟨raw'.map (types.type id).store, evaluateNode_eq_ok_iff.2
      ⟨node, _, raw', types.type id, hnode, operands_eq_ok_iff.2 ?_, by rw [hkind]; exact hraw',
      htyped id hid, rfl⟩,
        ?_⟩
    · rw [id_eq_of_node? hnode, forall₂_map_right_iff, forall₂_same]
      intro q hq
      obtain ⟨hqid, rows, hqrows, -⟩ := hproducers q hq
      exact ⟨htyped q hqid, by rw [hqrows, getD_some]⟩
    · rw [hrows, forall₂_map_left_iff, forall₂_map_right_iff]
      exact hagree.imp fun row other hrow => hrow.store _
  | pipeline n h =>
    -- All columns of the inputs are read, so the inputs are those of the first run.
    have hsame : ∀ q ∈ g.producers id, results.get? q = some (v q).rows := by
      intro q hq
      obtain ⟨hqid, htracks⟩ := hproducers q hq
      have hagree := agree_of_tracks hs hqid (hholds q hqid) htracks
      obtain ⟨rows, hrows, -⟩ := htracks
      rw [hrows, getD_some] at hagree
      obtain ⟨i, hi⟩ := mem_iff_getElem?.1 hq
      rw [hrows, some.injEq, eq_comm, ← forall₂_eq_eq_eq]
      refine hagree.imp fun row other hrow => hrow.eq fun k c hc => hs.used_of_read hnode hi hc ?_
      rw [hkind]
      rintro _ ⟨⟩
    have hrun := evaluateNode_of_models htypes hv hid hsame fun h _ _ _ _ _ _ =>
      evaluateWith_of_models
    refine ⟨(v id).rows, ?_, forall₂_same.2 fun row _ => Row.Agree.refl _ row⟩
    rw [evaluateNode_eq_ok_iff] at hrun ⊢
    obtain ⟨node', operands, raw, output, hnode', hoperands, hraw, hrest⟩ := hrun
    obtain rfl := mem_unique hnode hnode'
    rw [hkind] at hraw
    exact ⟨node, operands, raw, output, hnode, hoperands, hkind ▸ hraw, hrest⟩

include hplain

/-- A graph in the second run has the rows of the first run. -/
theorem evaluate_of_unused {rows : Rows} (h : g.evaluate xs = .ok rows) :
    g.evaluate ys = .ok rows := by
  obtain ⟨v, sink, hv, hsink, hmem, hvalue⟩ := (evaluate_eq_ok_iff htypes).1 h
  have hfounded := founded_of_typesWithin htypes
  have hholds := holds_of_models hfounded ⟨rfl, rfl⟩ (models_soundly htypes hplain hxs) hv
  obtain ⟨rank, hrank⟩ := hfounded.here
  have htypes' := htypes
  rw [Graph.types, typesWithin_eq, bind_eq_ok_iff] at htypes'
  obtain ⟨order, horder, -⟩ := htypes'
  -- The operators that were visited in the second run follow the first run.
  obtain ⟨results, hresults, hall⟩ :=
    exists_foldlM_order horder (f := g.evaluateStep types ys) (b := [])
    (fun done results => ∀ q ∈ done, Tracks g' v results q)
    (fun done id results hid hproducers hdone => by
      obtain ⟨rows, hrows, hagree⟩ := evaluateNode_agrees hs htypes hxs hys hdiffer hv hholds hid
        fun q hq => ⟨(hrank id hid q hq).1, hdone q (hproducers q hq (hrank id hid q hq).1)⟩
      refine ⟨_, hrows, fun q hq => ?_⟩
      by_cases heq : id = q
      · subst heq
        exact ⟨rows, Table.get?_put_self _ _ _, hagree⟩
      · obtain ⟨others, hothers, hagree⟩ := hdone q (by simpa [Ne.symm heq] using hq)
        exact ⟨others, by rw [Table.get?_put, if_neg heq, hothers], hagree⟩)
    (by simp)
  have htracks := hall sink ((mem_order_iff horder).2 hmem)
  have hagree := agree_of_tracks hs hmem (hholds sink hmem) htracks
  obtain ⟨others, hothers, -⟩ := htracks
  rw [hothers, getD_some, hvalue] at hagree
  have heq : rows = others := by
    rw [← forall₂_eq_eq_eq]
    refine hagree.imp fun row other hrow => hrow.eq fun k c hc => ?_
    exact .inl (.sink (hs.alike.sink ▸ hsink) hc)
  rw [evaluate, htypes, ok_bind, evaluateWith_eq, horder, ok_bind, hresults, ok_bind, hsink,
    ofOption_some, ok_bind, hothers, heq]
  rfl

end Runs

/-- **Dead columns that no fold passes on do not influence the result.**  The graph is annotated,
none of its folds returns its only field, a tuple, alone, and the rows of its parameters are of
their declared types. -/
theorem evaluate_eq_ok_iff_of_unused (hg : g.Numbered) (hannotate : g.annotate = .ok g')
    (htypes : g.types = .ok types) (hplain : g.foldsPlainly types = true)
    (hxs : g.admitsInputs xs = true) (hys : g.admitsInputs ys = true)
    (hdiffer : DifferOnlyAt g'.Unused xs ys) (rows : Rows) :
    g.evaluate xs = .ok rows ↔ g.evaluate ys = .ok rows := by
  have hs := surveyed_of_annotate hg htypes hannotate
  exact ⟨evaluate_of_unused hs htypes hplain hxs hys hdiffer,
    evaluate_of_unused hs htypes hplain hys hxs hdiffer.symm⟩

/-- A field of integers with a column. -/
def integerField (position : Nat) (name : String) (column : Column) (properties : Properties) :
    Field :=
  ⟨position, name, .atomic .int64, some column, properties⟩

/-- Tuples of a key, a weight and a note. -/
def weightType : TupleType :=
  [⟨"key", .atomic .int64⟩, ⟨"weight", .atomic .int64⟩, ⟨"note", .atomic .int64⟩]

/-- The weights of each key, summed without the notes. -/
def weightSums : Dag where
  nodes := [⟨0, .primitive (.parameterLookup 0 (some weightType)), {}⟩,
    ⟨1, .primitive (.projection [0, 1]), {}⟩,
    ⟨2, .primitive (.reduceByKey (.binary .add (.field 0 0) (.field 1 0))), {}⟩]
  edges := [⟨0, 0, 1, 0⟩, ⟨1, 0, 2, 0⟩]
  sink := some 2
  nextId := 3

/-- The same graph with its annotations: the column of the notes is dead. -/
def weightSumsNoted : Dag where
  nodes := [⟨0, .primitive (.parameterLookup 0 (some weightType)),
      { fields := [integerField 0 "key" 0 {}, integerField 1 "weight" 1 {},
      integerField 2 "note" 2 {}]
        writes := [0, 1, 2], dead := [2] }⟩,
    ⟨1, .primitive (.projection [0, 1]),
      { fields := [integerField 0 "v0" 0 {}, integerField 1 "v1" 1 {}] }⟩,
    ⟨2, .primitive (.reduceByKey (.binary .add (.field 0 0) (.field 1 0))),
      { fields := [integerField 0 "v0" 0 { unique := true }, integerField 1 "v1" 3 {}]
        reads := [0, 1], writes := [3] }⟩]
  edges := [⟨0, 0, 1, 0⟩, ⟨1, 0, 2, 0⟩]
  sink := some 2
  nextId := 3
  allocated := 4

/-- Other notes give the same sums. -/
theorem weightSums_evaluate : weightSums.annotate = .ok weightSumsNoted ∧
    (weightSums.evaluate [[[.int 1, .int 2, .int 3], [.int 1, .int 5, .int 4]]] =
      .ok [[.int 1, .int 7]] ↔
      weightSums.evaluate [[[.int 1, .int 2, .int 8], [.int 1, .int 5, .int 9]]] =
      .ok [[.int 1, .int 7]]) := by
  have hannotate : weightSums.annotate = .ok weightSumsNoted := by cbv
  obtain ⟨types, htypes, hplain⟩ : ∃ types, weightSums.types = .ok types ∧
      weightSums.foldsPlainly types = true := ⟨_, by cbv, by cbv⟩
  have hunused : weightSumsNoted.Unused 0 2 := by
    intro id node declared hnode hkind
    have hmem := mem_of_node? hnode
    simp only [weightSumsNoted, mem_cons, not_mem_nil, or_false] at hmem
    rcases hmem with rfl | rfl | rfl
    · obtain rfl := id_eq_of_node? hnode
      refine ⟨2, rfl, mem_singleton_self _, fun hfolded => ?_⟩
      obtain ⟨e, he, hfold, k, hk⟩ := hfolded.exists_edge
      simp only [weightSumsNoted, mem_cons, not_mem_nil, or_false] at he
      rcases he with rfl | rfl
      · cases hfold
      · rcases k with _ | _ | _ <;> cases hk
    · cases hkind
    · cases hkind
  have hdiffer : DifferOnlyAt weightSumsNoted.Unused
    [[[.int 1, .int 2, .int 3], [.int 1, .int 5, .int 4]]]
      [[[.int 1, .int 2, .int 8], [.int 1, .int 5, .int 9]]] := by
    refine ⟨rfl, fun n rows others hrows hothers => ?_⟩
    cases n with
    | zero =>
      cases hrows
      cases hothers
      refine .cons (fun i hi => ?_) (.cons (fun i hi => ?_) .nil)
      all_goals
        by_cases h2 : i = 2
        · exact absurd hunused (h2 ▸ hi)
        · rcases i with _ | _ | _ | _ <;> first | rfl | exact absurd rfl h2
    | succ n => cases hrows
  exact ⟨hannotate, evaluate_eq_ok_iff_of_unused (isNumbered_iff.1 (by cbv)) hannotate htypes hplain
    (by cbv) (by cbv) hdiffer _⟩

/-- Tuples of two integers. -/
def twoIntegers : TupleType := [⟨"a", .atomic .int64⟩, ⟨"b", .atomic .int64⟩]

/-- Pairs, folded by a function that refers to their first field only. -/
def firstPair : Dag where
  nodes := [⟨0, .primitive (.parameterLookup 0 (some twoIntegers)), {}⟩,
    ⟨1, .primitive (.reduce (.tuple [.field 0 0, .field 0 0])), {}⟩]
  edges := [⟨0, 0, 1, 0⟩]
  sink := some 1
  nextId := 2

/-- The same graph with its annotations: the column of the second field is dead. -/
def firstPairNoted : Dag where
  nodes := [⟨0, .primitive (.parameterLookup 0 (some twoIntegers)),
      { fields := [integerField 0 "a" 0 {}, integerField 1 "b" 1 {}], writes :=
      [0, 1], dead := [1] }⟩,
    ⟨1, .primitive (.reduce (.tuple [.field 0 0, .field 0 0])),
      { fields := [integerField 0 "a" 2 {}, integerField 1 "b" 3 {}], reads :=
      [0], writes := [2, 3] }⟩]
  edges := [⟨0, 0, 1, 0⟩]
  sink := some 1
  nextId := 2
  allocated := 4

/-- A single pair is passed on by the fold, with the field whose column is dead. -/
theorem firstPair_evaluate_ne :
    firstPair.validate = .ok () ∧ firstPair.annotate = .ok firstPairNoted ∧
    firstPair.admitsInputs [[[.int 1, .int 2]]] = true ∧
      firstPair.admitsInputs [[[.int 1, .int 3]]] = true ∧
    DifferOnlyAt firstPairNoted.DeadField [[[.int 1, .int 2]]] [[[.int 1, .int 3]]] ∧
    firstPair.evaluate [[[.int 1, .int 2]]] = .ok [[.int 1, .int 2]] ∧
    firstPair.evaluate [[[.int 1, .int 3]]] = .ok [[.int 1, .int 3]] := by
  have hdead : firstPairNoted.DeadField 0 1 := by
    intro id node declared hnode hkind
    have hmem := mem_of_node? hnode
    simp only [firstPairNoted, mem_cons, not_mem_nil, or_false] at hmem
    rcases hmem with rfl | rfl
    · obtain rfl := id_eq_of_node? hnode
      exact ⟨1, rfl, mem_singleton_self _⟩
    · cases hkind
  refine ⟨by cbv, by cbv, by cbv, by cbv,
    ⟨rfl, fun n rows others hrows hothers => ?_⟩, by cbv, by cbv⟩
  cases n with
  | zero =>
    cases hrows
    cases hothers
    refine .cons (fun i hi => ?_) .nil
    by_cases h1 : i = 1
    · exact absurd hdead (h1 ▸ hi)
    · rcases i with _ | _ | _ <;> first | rfl | exact absurd rfl h1
  | succ n => cases hrows

end Graph

end Dataflow
