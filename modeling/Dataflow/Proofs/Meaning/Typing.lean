/-
**The types of a graph are a model of it.**

The table that typing fills, operator by operator, keeps what it has, and every type in it follows
from the types of the producers.  So the finished table is a model, whatever the order in which it
was filled.

Main results:

* `Graph.typeNode_closed` — typing one operator keeps the table closed and what is in it;
* `Graph.founded_of_typesWithin` — a graph that has types has no cycle;
* `Graph.models_of_typesWithin` — **the types of a graph are a model of it**.
-/

import Dataflow.Proofs.Evaluation.Operators
import Dataflow.Proofs.Meaning.Interpretation
import Dataflow.Typing.Graph

namespace Dataflow

open Option Outcome Table

variable {inputs : List TupleType} {t : TupleType}

/-- What is asked of an operator beyond having a type, given the types of the inputs of the pipeline
around it, if there is one, of its own inputs and of its output. -/
abbrev Demands := (bound : Option (List TupleType)) → Primitive →
      (inputs : List TupleType) → TupleType → Prop

/-- Operators interpreted by their output types, as far as they meet some demands. -/
def typing (demands : Demands) : Interpretation TupleType (Option (List TupleType)) where
  primitive bound p inputs t := p.outputType inputs bound = .ok t ∧ demands bound p inputs t
  enter inputs := some inputs

namespace GraphTypes

/-- The type that a table has for an operator. -/
def type (types : GraphTypes) (id : Nat) : TupleType := (types.outputs.get? id).getD []

theorem output_eq_ok_iff {types : GraphTypes} {id : Nat} :
    types.output id = .ok t ↔ types.outputs.get? id = some t :=
  ofOption_eq_ok_iff

/-- A table that has all that another one has. -/
structure Extends (types more : GraphTypes) : Prop where
  outputs : ∀ k t, types.outputs.get? k = some t → more.outputs.get? k = some t
  inner : ∀ k t, get? types.inner k = some t → get? more.inner k = some t

/-- Whether a type of an operator follows from the types that a table has for its producers and for
the graph inside it. -/
def Follows (g : Dag) (bound : Option (List TupleType)) (types : GraphTypes) (id : Nat)
    (t : TupleType) : Prop :=
  ∃ node inputs, g.node? id = some node ∧ g.inputTypes types id = .ok inputs ∧
    match node.kind with
    | .primitive p => p.outputType inputs bound = .ok t
    | .pipeline n h => inputs.length = n ∧ ∃ inner sink, h.typesWithin (some inputs) = .ok inner ∧
        get? types.inner id = some inner ∧ h.sink = some sink ∧
        inner.outputs.get? sink = some t

variable {g : Dag} {bound : Option (List TupleType)} {types more : GraphTypes} {id : Nat}

theorem inputTypes_mono (hmore : types.Extends more)
    (h : g.inputTypes types id = .ok inputs) : g.inputTypes more id = .ok inputs := by
  rw [Graph.inputTypes, mapM_eq_ok_iff] at h ⊢
  exact h.imp fun q t hq => output_eq_ok_iff.2 (hmore.outputs q t (output_eq_ok_iff.1 hq))

theorem Follows.mono (hmore : types.Extends more) (h : Follows g bound types id t) :
    Follows g bound more id t := by
  obtain ⟨node, inputs, hnode, hinputs, hkind⟩ := h
  refine ⟨node, inputs, hnode, inputTypes_mono hmore hinputs, ?_⟩
  cases hk : node.kind with
  | primitive p =>
    rw [hk] at hkind
    exact hkind
  | pipeline n h =>
    rw [hk] at hkind
    obtain ⟨hlength, inner, sink, htypes, hinner, hsink⟩ := hkind
    exact ⟨hlength, inner, sink, htypes, hmore.inner id inner hinner, hsink⟩

/-- A table whose types follow from each other, and which has a type for every pipeline of which it
has the types inside. -/
structure Closed (g : Dag) (bound : Option (List TupleType)) (types : GraphTypes) : Prop where
  follows : ∀ id t, types.outputs.get? id = some t → Follows g bound types id t
  typed : ∀ id inner, get? types.inner id = some inner → ∃ t, types.outputs.get? id = some t

theorem Closed.mem_ids (hclosed : Closed g bound types) (h : types.outputs.get? id = some t) :
    id ∈ g.ids := by
  obtain ⟨node, -, hnode, -⟩ := hclosed.follows id t h
  exact Graph.mem_ids_of_node? hnode

theorem inputTypes_eq (h : g.inputTypes types id = .ok inputs) :
    inputs = (g.producers id).map types.type := by
  rw [Graph.inputTypes, mapM_eq_ok_iff] at h
  generalize g.producers id = producers at h
  induction h with
  | nil => rfl
  | cons hq _ ih =>
    rw [List.map_cons, ← ih, type, output_eq_ok_iff.1 hq, getD_some]

end GraphTypes

namespace Graph

open GraphTypes

variable {g : Dag} {bound : Option (List TupleType)} {types more inner : GraphTypes} {id : Nat}
  {node : Node Operator}

theorem typesWithin_eq (g : Dag) (bound : Option (List TupleType)) :
    g.typesWithin bound = g.order >>= fun order =>
      order.foldlM (g.typeNode (g.inner.map fun e => (e.1, e.2.typesWithin)) bound) {} := by
  rw [typesWithin, fold_eq]

/-- What typing one operator does: it finds a type that follows from those of the producers, and
adds it to the table, for a pipeline together with the types inside. -/
theorem typeNode_cases (h : g.typeNode (g.inner.map fun e => (e.1, e.2.typesWithin))
      bound types id = .ok more) :
    ∃ node inputs t, g.node? id = some node ∧ g.inputTypes types id = .ok inputs ∧
      ((∃ p, node.kind = .primitive p ∧ p.outputType inputs bound = .ok t ∧
          more = { types with outputs := types.outputs.put id t }) ∨
        ∃ n h inner sink, node.kind = .pipeline n h ∧ inputs.length = n ∧
          h.typesWithin (some inputs) = .ok inner ∧ h.sink = some sink ∧
          inner.outputs.get? sink = some t ∧
          more = ⟨types.outputs.put id t, put id inner types.inner⟩) := by
  simp only [typeNode, bind_eq_ok_iff, Graph.get, ofOption_eq_ok_iff] at h
  obtain ⟨node, hnode, inputs, hinputs, h⟩ := h
  cases hkind : node.kind with
  | primitive p =>
    simp only [hkind, bind_eq_ok_iff, mapError_eq_ok_iff] at h
    obtain ⟨t, ht, h⟩ := h
    cases h
    exact ⟨node, inputs, t, hnode, hinputs, .inl ⟨p, hkind, ht, rfl⟩⟩
  | pipeline n inside =>
    simp only [hkind, bind_eq_ok_iff, ofOption_eq_ok_iff] at h
    obtain ⟨_, harity, infer, hinfer, inner, hinner, sink, hsink, t, ht, h⟩ := h
    cases h
    rw [get?_map, get?_inner (inner?_eq_some_iff.2 ⟨node, n, hnode, hkind⟩), map_some,
      some.injEq] at hinfer
    subst hinfer
    exact ⟨node, inputs, t, hnode, hinputs,
      .inr ⟨n, inside, inner, sink, hkind, Operator.length_of_checkArity harity, hinner, hsink,
      output_eq_ok_iff.1 ht, rfl⟩⟩

/-- A type that follows from the types in a table is the only one that does. -/
theorem eq_of_follows {t u : TupleType} {p : Primitive}
    (hnode : g.node? id = some node) (hinputs : g.inputTypes types id = .ok inputs)
    (hkind : node.kind = .primitive p) (ht : p.outputType inputs bound = .ok t)
    (h : Follows g bound types id u) : u = t := by
  obtain ⟨node', inputs', hnode', hinputs', h⟩ := h
  obtain rfl : node = node' := mem_unique hnode hnode'
  obtain rfl : inputs = inputs' := Except.ok.inj (hinputs.symm.trans hinputs')
  rw [hkind] at h
  exact Except.ok.inj (h.symm.trans ht)

theorem inner_of_follows {t u : TupleType} {n : Nat} {h : Dag} {sink : Nat}
    (hnode : g.node? id = some node) (hinputs : g.inputTypes types id = .ok inputs)
    (hkind : node.kind = .pipeline n h) (hinner : h.typesWithin (some inputs) = .ok inner)
    (hsink : h.sink = some sink) (ht : inner.outputs.get? sink = some t)
    (hfollows : Follows g bound types id u) :
    u = t ∧ get? types.inner id = some inner := by
  obtain ⟨node', inputs', hnode', hinputs', hfollows⟩ := hfollows
  obtain rfl : node = node' := mem_unique hnode hnode'
  obtain rfl : inputs = inputs' := Except.ok.inj (hinputs.symm.trans hinputs')
  rw [hkind] at hfollows
  obtain ⟨-, inner', sink', hinner', hget, hsink', hu⟩ := hfollows
  obtain rfl : inner = inner' := Except.ok.inj (hinner.symm.trans hinner')
  obtain rfl : sink = sink' := mem_unique hsink hsink'
  exact ⟨mem_unique hu ht, hget⟩

/-- **Typing one operator** keeps the table closed and what is in it, and gives the operator a
type. -/
theorem typeNode_closed (hclosed : Closed g bound types)
    (h : g.typeNode (g.inner.map fun e => (e.1, e.2.typesWithin)) bound types id = .ok more) :
    Closed g bound more ∧ types.Extends more ∧ ∃ t, more.outputs.get? id = some t := by
  obtain ⟨node, inputs, t, hnode, hinputs, hcases⟩ := typeNode_cases h
  -- An operator that had a type before gets it again, so nothing in the table changes.
  have hextends : types.Extends more := by
    rcases hcases with ⟨p, hkind, ht, rfl⟩ | ⟨n, inside, inner, sink, hkind, hlength,
      hinner, hsink, ht, rfl⟩
    · refine ⟨fun k u hu => ?_, fun k inner hk => hk⟩
      rw [get?_put]
      split
      · next hk =>
        subst hk
        rw [eq_of_follows hnode hinputs hkind ht (hclosed.follows id u hu)]
      · exact hu
    · refine ⟨fun k u hu => ?_, fun k inner' hk => ?_⟩
      · rw [get?_put]
        split
        · next hk =>
          subst hk
          rw [(inner_of_follows hnode hinputs hkind hinner hsink ht (hclosed.follows id u hu)).1]
        · exact hu
      · rw [get?_put]
        split
        · next heq =>
          subst heq
          obtain ⟨u, hu⟩ := hclosed.typed id inner' hk
          rw [← (inner_of_follows hnode hinputs hkind hinner hsink ht (hclosed.follows id u hu)).2,
            hk]
        · exact hk
  have hinputs' := inputTypes_mono hextends hinputs
  have hmore : Follows g bound more id t ∧ more.outputs.get? id = some t ∧
      (∀ k u, more.outputs.get? k = some u → k ≠ id → types.outputs.get? k = some u) ∧
      ∀ k inner, get? more.inner k = some inner → k ≠ id →
      get? types.inner k = some inner := by
    rcases hcases with ⟨p, hkind, ht, rfl⟩ | ⟨n, inside, inner, sink, hkind, hlength,
      hinner, hsink, ht, rfl⟩
    · refine ⟨⟨node, inputs, hnode, hinputs', by rw [hkind]; exact ht⟩, get?_put_self _ _ _,
        fun k u hu hne => ?_, fun k inner hk _ => hk⟩
      rwa [get?_put, if_neg hne.symm] at hu
    · refine ⟨⟨node, inputs, hnode, hinputs', ?_⟩, get?_put_self _ _ _, fun k u hu hne => ?_,
        fun k inner hk hne => ?_⟩
      · rw [hkind]
        exact ⟨hlength, inner, sink, hinner, get?_put_self _ _ _, hsink, ht⟩
      · rwa [get?_put, if_neg hne.symm] at hu
      · rwa [get?_put, if_neg hne.symm] at hk
  obtain ⟨hfollows, hget, houtputs, hinner⟩ := hmore
  refine ⟨⟨fun k u hu => ?_, fun k inner hk => ?_⟩, hextends, t, hget⟩
  · by_cases hk : k = id
    · subst hk
      rwa [mem_unique hu hget]
    · exact (hclosed.follows k u (houtputs k u hu hk)).mono hextends
  · by_cases hne : k = id
    · exact ⟨t, hne ▸ hget⟩
    · obtain ⟨u, hu⟩ := hclosed.typed k inner (hinner k inner hk hne)
      exact ⟨u, hextends.outputs k u hu⟩

/-- The finished table is closed and has a type for every operator. -/
theorem closed_of_typesWithin (h : g.typesWithin bound = .ok types) :
    Closed g bound types ∧ ∀ id ∈ g.ids, ∃ t, types.outputs.get? id = some t := by
  rw [typesWithin_eq, bind_eq_ok_iff] at h
  obtain ⟨order, horder, h⟩ := h
  suffices hrun : Closed g bound types ∧ ∀ id ∈ order, ∃ t, types.outputs.get? id = some t from
    ⟨hrun.1, fun id hid => hrun.2 id ((mem_order_iff horder).2 hid)⟩
  refine (foldlM_induction (E := fun _ => True)
    (P := fun done types => Closed g bound types ∧ ∀ id ∈ done, ∃ t, types.outputs.get? id = some t)
    (fun done id _ types _ hdone => ⟨fun more hmore => ?_, fun _ _ => trivial⟩)
    ⟨⟨by simp, by simp⟩, nofun⟩).1 types h
  obtain ⟨hclosed, hextends, t, ht⟩ := typeNode_closed hdone.1 hmore
  refine ⟨hclosed, fun k hk => ?_⟩
  rcases List.mem_append.1 hk with hk | hk
  · obtain ⟨t, ht⟩ := hdone.2 k hk
    exact ⟨t, hextends.outputs k t ht⟩
  · exact List.mem_singleton.1 hk ▸ ⟨t, ht⟩

/-- A graph that has types has no cycle, and neither have the graphs inside it. -/
theorem founded_of_typesWithin (h : g.typesWithin bound = .ok types) : g.Everywhere Founded := by
  induction g using levelInduction generalizing bound types with
  | step g ih =>
    obtain ⟨hclosed, hall⟩ := closed_of_typesWithin h
    have h' := h
    rw [typesWithin_eq, bind_eq_ok_iff] at h'
    obtain ⟨order, horder, -⟩ := h'
    refine ⟨⟨order.idxOf, fun id hid q hq => ?_⟩, fun id inside hinside => ?_⟩
    · obtain ⟨t, ht⟩ := hall id hid
      obtain ⟨node, inputs, -, hinputs, -⟩ := hclosed.follows id t ht
      rw [inputTypes, mapM_eq_ok_iff] at hinputs
      have hmem : q ∈ g.ids := by
        obtain ⟨i, hi⟩ := List.mem_iff_getElem?.1 hq
        obtain ⟨input, -, hinput⟩ := exists_of_forall₂ hinputs hi
        exact hclosed.mem_ids (output_eq_ok_iff.1 hinput)
      exact ⟨hmem, ranks_of_order horder id hid q hq hmem⟩
    · obtain ⟨node, n, hnode, hkind⟩ := inner?_eq_some_iff.1 hinside
      obtain ⟨t, ht⟩ := hall id (mem_ids_of_node? hnode)
      obtain ⟨node', inputs, hnode', -, hfollows⟩ := hclosed.follows id t ht
      obtain rfl : node = node' := mem_unique hnode hnode'
      rw [hkind] at hfollows
      obtain ⟨-, inner, -, hinner, -⟩ := hfollows
      exact ih id inside hinside hinner

/-- **The types of a graph are a model of it.**  `H` holds of the graph and of the graphs inside it,
and says that their operators meet the demands. -/
theorem models_of_typesWithin {demands : Demands}
    {H : Dag → Option (List TupleType) → GraphTypes → Prop}
    (hhere : ∀ g bound types, H g bound types → ∀ id node p inputs, g.node? id = some node →
      node.kind = .primitive p → g.inputTypes types id = .ok inputs →
      p.outputType inputs bound = .ok (types.type id) → demands bound p inputs (types.type id))
    (hinside : ∀ g bound types, H g bound types → ∀ id h inputs inner, g.inner? id = some h →
      get? types.inner id = some inner → H h (some inputs) inner)
    (h : g.typesWithin bound = .ok types) (hg : H g bound types) :
    (typing demands).Models g bound types.type := by
  induction g using levelInduction generalizing bound types with
  | step g ih =>
    obtain ⟨hclosed, hall⟩ := closed_of_typesWithin h
    rw [Interpretation.models_iff]
    intro id node hnode
    obtain ⟨t, ht⟩ := hall id (mem_ids_of_node? hnode)
    obtain ⟨node', inputs, hnode', hinputs, hfollows⟩ := hclosed.follows id t ht
    obtain rfl : node = node' := mem_unique hnode hnode'
    have htype : types.type id = t := by rw [type, ht, getD_some]
    rw [← inputTypes_eq hinputs]
    cases hkind : node.kind with
    | primitive p =>
      rw [hkind, ← htype] at hfollows
      exact ⟨hfollows, hhere g bound types hg id node p inputs hnode hkind hinputs hfollows⟩
    | pipeline n inside =>
      rw [hkind] at hfollows
      obtain ⟨hlength, inner, sink, hinner, hget, hsink, htsink⟩ := hfollows
      have hid : g.inner? id = some inside := inner?_eq_some_iff.2 ⟨node, n, hnode, hkind⟩
      refine ⟨hlength, inner.type, ?_, sink, hsink, ?_, ?_⟩
      · exact ih id inside hid hinner (hinside g bound types hg id inside inputs inner hid hget)
      · exact (closed_of_typesWithin hinner).1.mem_ids htsink
      · rw [htype, type, htsink, getD_some]

theorem typed_of_typesWithin (h : g.typesWithin bound = .ok types) :
    (typing fun _ _ _ _ => True).Models g bound types.type :=
  models_of_typesWithin (H := fun _ _ _ => True) (by simp) (by simp) h trivial

/-- A graph has one type for every operator, whatever is asked of the operators. -/
theorem eq_of_models {demands demands' : Demands} {τ τ' : Nat → TupleType}
    (hg : g.Everywhere Founded) (hτ : (typing demands).Models g bound τ)
    (hτ' : (typing demands').Models g bound τ') :
    ∀ id ∈ g.ids, τ id = τ' id := by
  refine Interpretation.Models.related (R := Eq) (Q := Eq) ?_ ?_ hg rfl hτ hτ'
  · rintro bound _ p inputs inputs' t t' rfl hinputs ⟨ht, -⟩ ⟨ht', -⟩
    obtain rfl : inputs = inputs' := List.forall₂_eq_eq_eq ▸ hinputs
    exact Except.ok.inj (ht.symm.trans ht')
  · intro inputs inputs' hinputs
    obtain rfl : inputs = inputs' := List.forall₂_eq_eq_eq ▸ hinputs
    rfl

end Graph

end Dataflow
