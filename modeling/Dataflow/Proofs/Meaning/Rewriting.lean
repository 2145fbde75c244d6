/-
**Changes of a graph that carry values over.**

A change of a graph is followed through the models of the graph: every value that the sink could
have before, it can have afterwards.  Changes of this sort compose, and a change of the graph inside
a pipeline is one of the graph around it.  Graphs that differ in their annotations only have the
same models.

Main results:

* `Interpretation.models_replaceInner` — **a change inside a pipeline keeps the models around it**,
  if it carries the values of the sink over;
* `Graph.Alike.models` — **annotations do not matter for models**.
-/

import Dataflow.Proofs.Graph.Wiring

namespace Dataflow

open Option Interpretation Operator

variable {α C : Type} {I : Interpretation α C} {op op' : Operator} {v : Nat → α}

/-! ### Carrying values over -/

namespace Interpretation

variable {I : Interpretation α C} {c : C} {g h k : Dag}

/-- Every value that the sink of a graph can have in a context, the sink of another graph can have
there. -/
def Carries (I : Interpretation α C) (c : C) (g h : Dag) : Prop :=
  ∀ v, I.Models g c v → ∃ w, I.Models h c w ∧ h.sink.map w = g.sink.map v

theorem Carries.refl (I : Interpretation α C) (c : C) (g : Dag) : I.Carries c g g :=
  fun v hv => ⟨v, hv, rfl⟩

theorem Carries.trans (hgh : I.Carries c g h) (hhk : I.Carries c h k) : I.Carries c g k := by
  intro v hv
  obtain ⟨w, hw, hsink⟩ := hgh v hv
  obtain ⟨u, hu, hsink'⟩ := hhk w hw
  exact ⟨u, hu, hsink'.trans hsink⟩

/-- A pipeline can have the value that it had with another graph inside, if that carries it over. -/
theorem makes_of_carries {n : Nat} {operands : List α} {a : α}
    (hcarries : I.Carries (I.enter operands) g h) (hmem : ∀ sink, h.sink = some sink → sink ∈ h.ids)
    (hmake : I.Makes c (.pipeline n g) operands a) : I.Makes c (.pipeline n h) operands a := by
  obtain ⟨hlength, v, hv, sink, hsink, -, rfl⟩ := hmake
  obtain ⟨w, hw, hvalue⟩ := hcarries v hv
  rw [hsink, map_some, map_eq_some_iff] at hvalue
  obtain ⟨sink', hsink', hvalue⟩ := hvalue
  exact ⟨hlength, w, hw, sink', hsink', hmem sink' hsink', hvalue.symm⟩

end Interpretation

/-! ### Changes inside a pipeline -/

namespace Graph

variable {g h : Dag} {id : Nat}

/-- A graph with another one inside the pipeline under a number. -/
def replaceInner (g : Dag) (id : Nat) (h : Dag) : Dag :=
  g.modify id fun n => { n with kind := n.kind.withInner h }

theorem node?_replaceInner (g : Dag) (id : Nat) (h : Dag) (m : Nat) :
    (g.replaceInner id h).node? m = (g.node? m).map fun n =>
      if m = id then { n with kind := n.kind.withInner h } else n := by
  rw [replaceInner, node?_modify]
  cases hm : g.node? m with
  | none => rfl
  | some n => rw [map_some, map_some, id_eq_of_node? hm]

theorem inner?_replaceInner (g : Dag) (id : Nat) (h : Dag) (m : Nat) :
    (g.replaceInner id h).inner? m = if m = id then (g.inner? m).map fun _ =>
      h else g.inner? m := by
  simp only [inner?, node?_replaceInner]
  cases g.node? m with
  | none => simp
  | some n =>
    by_cases hm : m = id
    · cases hkind : n.kind <;> simp [hm, hkind, Operator.withInner, Operator.inner?]
    · simp [hm]

theorem ids_replaceInner (g : Dag) (id : Nat) (h : Dag) :
    (g.replaceInner id h).ids = g.ids := ids_modify g id _

theorem Wired.replaceInner (hg : g.Wired) (id : Nat) (h : Dag) : (g.replaceInner id h).Wired where
  ascending := by
    rw [ids_replaceInner]
    exact hg.ascending
  once := hg.once
  fed := by
    intro m node hnode slot
    rw [node?_replaceInner, map_eq_some_iff] at hnode
    obtain ⟨n, hn, rfl⟩ := hnode
    have hinputs : (if m = id then { n with kind := n.kind.withInner h } else n).kind.inputs =
        n.kind.inputs := by
      split
      · cases hkind : n.kind <;> simp [Operator.withInner, Operator.inputs]
      · rfl
    rw [hinputs]
    exact hg.fed m n hn slot
  feeds := by
    rw [ids_replaceInner]
    exact hg.feeds
  acyclic := hg.acyclic
  sink := by
    rw [ids_replaceInner]
    exact hg.sink

/-- A property of all levels stays one of them, if the graph around the change keeps it. -/
theorem Everywhere.replaceInner {P : Dag → Prop} (hg : g.Everywhere P) (hh : h.Everywhere P)
    (here : P (g.replaceInner id h)) : (g.replaceInner id h).Everywhere P := by
  refine ⟨here, fun m k hk => ?_⟩
  rw [inner?_replaceInner] at hk
  split at hk
  · obtain ⟨-, -, rfl⟩ := map_eq_some_iff.1 hk
    exact hh
  · exact hg.inside hk

theorem everywhere_replaceInner (hg : g.Everywhere Wired) (hh : h.Everywhere Wired) :
    (g.replaceInner id h).Everywhere Wired :=
  hg.replaceInner hh (hg.here.replaceInner id h)

end Graph

/-- **A change inside a pipeline keeps the models around it**, if it carries the values of the sink
over. -/
theorem Interpretation.models_replaceInner {c : C} {g h : Dag} {id : Nat}
    (hv : I.Models g c v)
    (hcarries : ∀ k, g.inner? id = some k → I.Carries (I.enter ((g.producers id).map v)) k h)
    (hmem : ∀ sink, h.sink = some sink → sink ∈ h.ids) : I.Models (g.replaceInner id h) c v := by
  rw [models_iff] at hv ⊢
  intro m node hnode
  rw [Graph.node?_replaceInner, map_eq_some_iff] at hnode
  obtain ⟨n, hn, rfl⟩ := hnode
  have hmake : I.Makes c n.kind ((g.producers m).map v) (v m) := hv m n hn
  split
  · next heq =>
    subst heq
    cases hkind : n.kind with
    | primitive p =>
      rw [hkind] at hmake
      exact hmake
    | pipeline inputs k =>
      rw [hkind] at hmake
      exact makes_of_carries (hcarries k (Graph.inner?_eq_some_iff.2 ⟨n, inputs, hn, hkind⟩))
        hmem hmake
  · exact hmake

/-! ### Annotations -/

/-- What an operator is, apart from the graph inside it: a primitive operator, or the number of
inputs of a pipeline. -/
def Operator.shell : Operator → Primitive ⊕ Nat
  | primitive p => .inl p
  | pipeline inputs _ => .inr inputs

theorem Operator.shell_eq_inl_iff {p : Primitive} : op.shell = .inl p ↔ op = .primitive p := by
  cases op <;> simp [shell]

theorem Operator.shell_eq_inr_iff {n : Nat} : op.shell = .inr n ↔ ∃ h, op = .pipeline n h := by
  cases op <;> simp [shell, eq_comm]

theorem Operator.shell_withInner (op : Operator) (h : Dag) : (op.withInner h).shell = op.shell := by
  cases op <;> rfl

theorem Operator.inputs_eq_of_shell (h : op.shell = op'.shell) : op.inputs = op'.inputs := by
  cases op <;> cases op' <;> simp_all [shell, inputs]

namespace Graph

variable {g h : Dag} {id : Nat}

/-- The operators of a graph under their numbers, apart from the graphs inside them. -/
def shells (g : Dag) : List (Nat × (Primitive ⊕ Nat)) := g.nodes.map fun n => (n.id, n.kind.shell)

/-- The graphs that differ in their annotations only. -/
inductive Alike : Dag → Dag → Prop
  | intro {g h : Dag} (edges : g.edges = h.edges) (sink : g.sink = h.sink)
      (shells : g.shells = h.shells)
      (inside : ∀ id a b, g.inner? id = some a → h.inner? id = some b → Alike a b) : Alike g h

theorem ids_eq_of_shells (hshells : g.shells = h.shells) : g.ids = h.ids := by
  have hids : ∀ g : Dag, g.ids = g.shells.map (·.1) := by
    intro g
    simp [shells, ids]
  rw [hids, hids, hshells]

theorem node?_of_shells (hshells : g.shells = h.shells) {n : Node Operator}
    (hn : g.node? id = some n) : ∃ m, h.node? id = some m ∧ m.kind.shell = n.kind.shell := by
  have hfind : ∀ g : Dag, (g.shells.find? (·.1 == id)).map (·.2) =
      (g.node? id).map fun n => n.kind.shell := by
    intro g
    simp only [shells, node?, List.find?_map, Option.map_map]
    rfl
  have heq : (h.node? id).map (fun n => n.kind.shell) = some n.kind.shell := by
    rw [← hfind, ← hshells, hfind, hn, map_some]
  simpa [eq_comm] using heq

theorem inner?_of_shells {a : Dag} (hshells : g.shells = h.shells) (ha : g.inner? id = some a) :
    ∃ b, h.inner? id = some b := by
  obtain ⟨node, n, hnode, hkind⟩ := inner?_eq_some_iff.1 ha
  obtain ⟨node', hnode', hshell⟩ := node?_of_shells hshells hnode
  rw [hkind, shell, shell_eq_inr_iff] at hshell
  obtain ⟨b, hkind'⟩ := hshell
  exact ⟨b, inner?_eq_some_iff.2 ⟨node', n, hnode', hkind'⟩⟩

namespace Alike

theorem refl (g : Dag) : Alike g g := by
  induction g using levelInduction with
  | step g ih =>
    refine ⟨rfl, rfl, rfl, fun id a b ha hb => ?_⟩
    obtain rfl : a = b := mem_unique ha hb
    exact ih id a ha

variable (hgh : Alike g h)
include hgh

theorem symm : Alike h g := by
  induction hgh with
  | intro edges sink shells _ ih =>
    exact ⟨edges.symm, sink.symm, shells.symm, fun id a b ha hb => ih id b a hb ha⟩

theorem edges : g.edges = h.edges := by
  cases hgh
  assumption

theorem sink : g.sink = h.sink := by
  cases hgh
  assumption

theorem shells : g.shells = h.shells := by
  cases hgh
  assumption

theorem ids : g.ids = h.ids := ids_eq_of_shells hgh.shells

theorem inside {a b : Dag} (ha : g.inner? id = some a) (hb : h.inner? id = some b) : Alike a b := by
  cases hgh with
  | intro _ _ _ inside => exact inside id a b ha hb

theorem producer? (id slot : Nat) : h.producer? id slot = g.producer? id slot := by
  rw [Graph.producer?, Graph.producer?, hgh.edges]

theorem producers (id : Nat) : h.producers id = g.producers id := by
  rw [Graph.producers, Graph.producers, inFlows, inFlows, hgh.edges]

/-- **Annotations do not matter for models.** -/
theorem models {c : C} (hv : I.Models g c v) : I.Models h c v := by
  induction hgh generalizing c v with
  | @intro g h edges sink shells inside ih =>
    have hgh : Alike g h := ⟨edges, sink, shells, inside⟩
    rw [models_iff] at hv ⊢
    intro id m hm
    obtain ⟨n, hn, hshell⟩ := node?_of_shells shells.symm hm
    have hmake := hv id n hn
    rw [hgh.producers]
    cases hkind : m.kind with
    | primitive p =>
      rw [hkind, shell, shell_eq_inl_iff] at hshell
      rwa [hshell] at hmake
    | pipeline inputs b =>
      rw [hkind, shell, shell_eq_inr_iff] at hshell
      obtain ⟨a, ha⟩ := hshell
      rw [ha] at hmake
      have hina := inner?_eq_some_iff.2 ⟨n, inputs, hn, ha⟩
      have hinb := inner?_eq_some_iff.2 ⟨m, inputs, hm, hkind⟩
      have hab := inside id a b hina hinb
      obtain ⟨hlength, w, hw, s, hs, hmem, hvalue⟩ := hmake
      exact ⟨hlength, w, ih id a b hina hinb hw, s, hab.sink ▸ hs, hab.ids ▸ hmem, hvalue⟩

theorem carries (I : Interpretation α C) (c : C) : I.Carries c g h :=
  fun v hv => ⟨v, hgh.models hv, by rw [hgh.sink]⟩

theorem wired (hg : g.Wired) : h.Wired where
  ascending := hgh.ids ▸ hg.ascending
  once := hgh.edges ▸ hg.once
  fed := by
    intro id m hm slot
    obtain ⟨n, hn, hshell⟩ := node?_of_shells hgh.shells.symm hm
    rw [hgh.producer?, hg.fed id n hn slot, inputs_eq_of_shell hshell]
  feeds := by
    intro id slot q hq
    rw [hgh.producer?] at hq
    exact hgh.ids ▸ hg.feeds id slot q hq
  acyclic := by
    obtain ⟨rank, hrank⟩ := hg.acyclic
    exact ⟨rank, fun id slot q hq => hrank id slot q (hgh.producer? id slot ▸ hq)⟩
  sink := by
    intro sink hsink
    exact hgh.ids ▸ hg.sink sink (hgh.sink ▸ hsink)

theorem everywhere_wired (hg : g.Everywhere Wired) : h.Everywhere Wired := by
  induction hgh with
  | @intro g h edges sink shells inside ih =>
    have hgh : Alike g h := ⟨edges, sink, shells, inside⟩
    refine ⟨hgh.wired hg.here, fun id b hb => ?_⟩
    obtain ⟨a, ha⟩ := inner?_of_shells shells.symm hb
    exact ih id a b ha hb (hg.inside ha)

end Alike

end Graph

end Dataflow
