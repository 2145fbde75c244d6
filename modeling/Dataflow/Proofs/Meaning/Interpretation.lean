/-
**Models of a graph.**

Types and rows are found for the operators of a graph in topological order, but what they mean does
not depend on the order: a model of a graph gives every operator a value such that the value of each
operator follows from those of its producers.  The value of a pipeline is that of the sink in a
model of the graph inside it.  Rewriting a graph is then a matter of changing a model at a few
operators.

Main definitions:

* `Graph.Everywhere` — a property of a graph and of all graphs inside it;
* `Graph.Founded` — the graphs without cycles whose edges come from operators of the graph;
* `Interpretation`, `Interpretation.Models` — what operators make of values, and the models of a
  graph;
* `Interpretation.Makes` — the values that an operator can have.

Main results:

* `Interpretation.models_iff` — a model gives every operator a value that it makes of those of its
  producers;
* `Interpretation.Models.related` — **models that operators relate are related**, along a graph
  without cycles.
-/

import Dataflow.Proofs.Graph.Order
import Dataflow.Operator.Basic

namespace Dataflow

open List Option

variable {g : Dag}

theorem Table.mem_of_get? {α : Type} {t : Table α} {n : Nat} {a : α} (h : t.get? n = some a) :
    (n, a) ∈ t := by
  induction t with
  | nil => cases h
  | cons e t ih =>
    rw [Table.get?_cons] at h
    split at h
    · next hn =>
      cases h
      exact hn ▸ mem_cons_self
    · exact mem_cons_of_mem _ (ih h)

/-! ### Levels -/

namespace Graph

/-- A property of a graph and of all graphs inside it. -/
inductive Everywhere (P : Dag → Prop) : Dag → Prop
  | intro {g : Dag} (here : P g) (inside : ∀ id h, g.inner? id = some h → Everywhere P h) :
      Everywhere P g

namespace Everywhere

variable {P Q : Dag → Prop} {g h : Dag} {id : Nat}

theorem here (hg : Everywhere P g) : P g := by
  cases hg
  assumption

theorem inside (hg : Everywhere P g) (hid : g.inner? id = some h) : Everywhere P h := by
  cases hg with
  | intro _ inside => exact inside id h hid

theorem imp (himp : ∀ g, P g → Q g) (hg : Everywhere P g) : Everywhere Q g := by
  induction hg with
  | intro here _ ih => exact ⟨himp _ here, ih⟩

end Everywhere

variable {g h : Dag} {id : Nat} {P : Dag → Prop}

theorem inner?_eq_some_iff : g.inner? id = some h ↔ ∃ node n, g.node? id = some node ∧
      node.kind = .pipeline n h := by
  simp only [inner?, bind_eq_some_iff]
  refine exists_congr fun node => ?_
  cases hk : node.kind with
  | primitive | pipeline => simp [Operator.inner?]

theorem get?_inner (hid : g.inner? id = some h) : g.inner.get? id = some h := by
  obtain ⟨node, n, hnode, hkind⟩ := inner?_eq_some_iff.1 hid
  simp only [node?, inner] at hnode ⊢
  generalize g.nodes = nodes at hnode
  induction nodes with
  | nil => simp at hnode
  | cons m nodes ih =>
    rw [find?_cons] at hnode
    split at hnode
    · next heq =>
      obtain rfl : m = node := some.inj hnode
      rw [filterMap_cons, hkind]
      simp only [Operator.inner?, map_some, Table.get?_cons]
      rw [if_pos (by simpa using heq)]
    · next heq =>
      have hne : m.id ≠ id := by simpa using heq
      rw [filterMap_cons]
      split
      · exact ih hnode
      · next e he =>
        obtain ⟨h', -, rfl⟩ := map_eq_some_iff.1 he
        rw [Table.get?_cons, if_neg hne]
        exact ih hnode

theorem mem_inner_of_inner? (hid : g.inner? id = some h) : (id, h) ∈ g.inner :=
  Table.mem_of_get? (get?_inner hid)

theorem everywhere_of_inner (here : P g) (inside : ∀ e ∈ g.inner, Everywhere P e.2) :
    Everywhere P g :=
  ⟨here, fun _ _ hid => inside _ (mem_inner_of_inner? hid)⟩

/-- What holds of a graph whenever it holds of the graphs of its pipelines holds of every graph. -/
theorem levelInduction (step : ∀ g, (∀ id h, g.inner? id = some h → P h) → P g)
    (g : Dag) : P g := by
  induction g using Graph.induction with
  | step g ih => exact step g fun id h hid => ih (id, h) (mem_inner_of_inner? hid)

/-- A graph in which every input comes from an operator of the graph, and there is no cycle. -/
def Founded (g : Dag) : Prop :=
  ∃ rank : Nat → Nat, ∀ id ∈ g.ids, ∀ q ∈ g.producers id, q ∈ g.ids ∧ rank q < rank id

theorem mem_ids_of_node? {node : Node Operator} (h : g.node? id = some node) : id ∈ g.ids :=
  (contains_iff_mem_ids g id).1 (by simp [contains, h])

theorem node?_of_mem_ids (h : id ∈ g.ids) : ∃ node, g.node? id = some node :=
  isSome_iff_exists.1 ((contains_iff_mem_ids g id).2 h)

/-- What holds of an operator whenever it holds of its producers holds of every operator. -/
theorem Founded.induction (hg : g.Founded) {P : Nat → Prop}
    (step : ∀ id ∈ g.ids, (∀ q ∈ g.producers id, P q) → P id) : ∀ id ∈ g.ids, P id := by
  obtain ⟨rank, hrank⟩ := hg
  intro id
  induction hn : rank id using Nat.strongRecOn generalizing id with
  | ind n ih =>
    intro hid
    refine step id hid fun q hq => ?_
    obtain ⟨hmem, hlt⟩ := hrank id hid q hq
    exact ih (rank q) (hn ▸ hlt) q rfl hmem

end Graph

/-! ### Interpretations -/

/-- What operators make of values: the values that a primitive operator can have, given those of its
inputs and a context, and the context inside a pipeline, given the values of its inputs. -/
structure Interpretation (α C : Type) where
  primitive : C → Primitive → List α → α → Prop
  enter : List α → C

namespace Interpretation

variable {α β C D : Type}

/-- The models of a graph in a context.  `inside` has the models of the graphs of the pipelines. -/
inductive Models (I : Interpretation α C) : Dag → C → (Nat → α) → Prop
  | intro {g : Dag} {c : C} {v : Nat → α} (inside : Nat → Nat → α)
      (primitive : ∀ id node p, g.node? id = some node → node.kind = .primitive p →
        I.primitive c p ((g.producers id).map v) (v id))
      (pipeline : ∀ id node n h, g.node? id = some node → node.kind = .pipeline n h →
        (g.producers id).length = n ∧
          ∃ sink, h.sink = some sink ∧ sink ∈ h.ids ∧ v id = inside id sink)
      (inner : ∀ id node n h, g.node? id = some node → node.kind = .pipeline n h →
        Models I h (I.enter ((g.producers id).map v)) (inside id)) : Models I g c v

/-- The values that an operator can have, given those of its inputs and a context. -/
def Makes (I : Interpretation α C) (c : C) (op : Operator) (operands : List α) (a : α) : Prop :=
  match op with
  | .primitive p => I.primitive c p operands a
  | .pipeline n h => operands.length = n ∧ ∃ w, I.Models h (I.enter operands) w ∧
      ∃ sink, h.sink = some sink ∧ sink ∈ h.ids ∧ a = w sink

variable {I : Interpretation α C} {c : C} {v : Nat → α}

/-- A model gives every operator a value that it makes of those of its producers. -/
theorem models_iff : I.Models g c v ↔ ∀ id node, g.node? id = some node →
      I.Makes c node.kind ((g.producers id).map v) (v id) := by
  constructor
  · rintro ⟨inside, primitive, pipeline, inner⟩ id node hnode
    cases hkind : node.kind with
    | primitive p => exact primitive id node p hnode hkind
    | pipeline n h =>
      obtain ⟨hlength, sink⟩ := pipeline id node n h hnode hkind
      exact ⟨by simpa using hlength, inside id, inner id node n h hnode hkind, sink⟩
  · intro hmakes
    -- Every pipeline has a model of its graph; they are chosen once for all pipelines.
    have hinside : ∀ id, ∃ w : Nat → α, ∀ node n h, g.node? id = some node →
        node.kind = .pipeline n h → (g.producers id).length = n ∧
        I.Models h (I.enter ((g.producers id).map v)) w ∧
          ∃ sink, h.sink = some sink ∧ sink ∈ h.ids ∧ v id = w sink := by
      intro id
      cases hid : g.inner? id with
      | none =>
        refine ⟨v, fun node n h hnode hkind => ?_⟩
        rw [Graph.inner?_eq_some_iff.2 ⟨node, n, hnode, hkind⟩] at hid
        cases hid
      | some h =>
        obtain ⟨node, n, hnode, hkind⟩ := Graph.inner?_eq_some_iff.1 hid
        have hmake := hmakes id node hnode
        rw [hkind] at hmake
        obtain ⟨hlength, w, hw, sink⟩ := hmake
        refine ⟨w, fun node' n' h' hnode' hkind' => ?_⟩
        obtain rfl : node = node' := mem_unique hnode hnode'
        obtain ⟨rfl, rfl⟩ : n = n' ∧ h = h' := by simpa using hkind.symm.trans hkind'
        exact ⟨by simpa using hlength, hw, sink⟩
    choose inside hinside using hinside
    refine ⟨inside, ?_, ?_, ?_⟩
    · intro id node p hnode hkind
      have hmake := hmakes id node hnode
      rwa [hkind] at hmake
    · intro id node n h hnode hkind
      exact ⟨(hinside id node n h hnode hkind).1, (hinside id node n h hnode hkind).2.2⟩
    · intro id node n h hnode hkind
      exact (hinside id node n h hnode hkind).2.1

theorem Models.inside {g h : Dag} {id : Nat} (hv : I.Models g c v) (hid : g.inner? id = some h) :
    ∃ w, I.Models h (I.enter ((g.producers id).map v)) w := by
  obtain ⟨node, n, hnode, hkind⟩ := Graph.inner?_eq_some_iff.1 hid
  have hmake := models_iff.1 hv id node hnode
  rw [hkind] at hmake
  obtain ⟨-, w, hw, -⟩ := hmake
  exact ⟨w, hw⟩

/-- **Models that operators relate are related.**  `R` relates the values of operators and `Q` the
contexts; the graph and the graphs inside it have no cycles. -/
theorem Models.related {J : Interpretation β D} {R : α → β → Prop} {Q : C → D → Prop}
    (primitive : ∀ c d p as bs a b, Q c d → Forall₂ R as bs → I.primitive c p as a →
      J.primitive d p bs b → R a b)
    (enter : ∀ as bs, Forall₂ R as bs → Q (I.enter as) (J.enter bs))
      (hg : g.Everywhere Graph.Founded)
    {d : D} {w : Nat → β} (hQ : Q c d) (hv : I.Models g c v) (hw : J.Models g d w) :
      ∀ id ∈ g.ids, R (v id) (w id) := by
  induction hg generalizing c d v w with
  | @intro g hfounded _ ih =>
    -- Along the levels, and on each level along the edges.
    refine hfounded.induction fun id hid hproducers => ?_
    obtain ⟨node, hnode⟩ := Graph.node?_of_mem_ids hid
    have hoperands : Forall₂ R ((g.producers id).map v) ((g.producers id).map w) := by
      rw [forall₂_map_left_iff, forall₂_map_right_iff, forall₂_same]
      exact hproducers
    have hmake := models_iff.1 hv id node hnode
    have hmake' := models_iff.1 hw id node hnode
    cases hkind : node.kind with
    | primitive p =>
      rw [hkind] at hmake hmake'
      exact primitive c d p _ _ _ _ hQ hoperands hmake hmake'
    | pipeline n h =>
      rw [hkind] at hmake hmake'
      obtain ⟨-, v', hv', sink, hsink, hmem, hvalue⟩ := hmake
      obtain ⟨-, w', hw', sink', hsink', -, hvalue'⟩ := hmake'
      obtain rfl : sink = sink' := mem_unique hsink hsink'
      rw [hvalue, hvalue']
      exact ih id h (Graph.inner?_eq_some_iff.2 ⟨node, n, hnode, hkind⟩)
        (enter _ _ hoperands) hv' hw' sink hmem

end Interpretation

end Dataflow
