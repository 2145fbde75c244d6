/-
**Graphs that are equal to themselves.**

Equality compares operators under the same numbers, edges and sinks, and does not look at
annotations.  Double constants are compared as numbers, so a constant that is not a number differs
from itself, and so does every operator and every graph that holds it.

Main results:

* `Expr.same_remap` — replacing fields keeps the constants;
* `Graph.same_self_iff` — **a graph is equal to itself exactly if its constants are**;
* `Graph.Alike.same_left` — **annotations do not matter for equality**.
-/

import Dataflow.Proofs.Document.Copy
import Dataflow.Proofs.Expr.Remap
import Dataflow.Proofs.Graph.Checks

namespace Dataflow

open List Operator

theorem Expr.same_remap {f : Nat → Nat → Option (Nat × Nat)} {e e' : Expr} (hsame : e.same e = true)
    (h : e.remap f = some e') : e'.same e' = true := by
  induction e, e', h using remap_induction with
  | field arg index r => simp [same]
  | literal value => exact hsame
  | binary op left right l r _ _ _ ihl ihr =>
    simp only [same, BEq.rfl, Bool.true_and, Bool.and_eq_true] at hsame ⊢
    exact ⟨ihl hsame.1, ihr hsame.2⟩
  | unary op operand u _ _ ih =>
    simp only [same, BEq.rfl, Bool.true_and] at hsame ⊢
    exact ih hsame
  | tuple items items' h hitems ih =>
    rw [same] at hsame ⊢
    clear h
    induction hitems with
    | nil => rfl
    | cons he _ ihs =>
      rw [sameAll, Bool.and_eq_true] at hsame ⊢
      exact ⟨ih _ mem_cons_self _ he hsame.1, ihs (fun e he => ih e (mem_cons_of_mem _ he)) hsame.2⟩

/-- Whether an operator is equal to itself; the graph of a pipeline is not looked at. -/
def Operator.isRegular : Operator → Bool
  | primitive p => p.same p
  | pipeline _ _ => true

theorem Operator.isRegular_of_shell {op op' : Operator} (h : op.shell = op'.shell) :
    op.isRegular = op'.isRegular := by
  cases op <;> cases op' <;> simp_all [shell, isRegular]

namespace Graph

variable {g g' h : Dag} {id : Nat}

/-- The operators of a graph, and of the graphs inside it, are equal to themselves. -/
def Regular (g : Dag) : Prop :=
  g.Everywhere fun h => ∀ id node, h.node? id = some node → node.kind.isRegular = true

theorem sameNodes_self_iff {nodes : List (Node Operator)} :
    sameNodes nodes nodes = true ↔ ∀ n ∈ nodes, sameOperator n.kind n.kind = true := by
  induction nodes with
  | nil => simp [sameNodes]
  | cons n nodes ih =>
    rw [sameNodes, Bool.and_eq_true, ih, forall_mem_cons]
    refine and_congr_left' ?_
    obtain ⟨id, kind, note⟩ := n
    simp [sameNode]

/-- **A graph is equal to itself exactly if its constants are.** -/
theorem same_self_iff (hg : g.Numbered) : g.same g = true ↔ g.Regular := by
  induction hg with
  | @intro g hascending _ ih =>
    have hedges : sameEdges g.edges g.edges = true := sameEdges_of_perm (.refl _)
    rw [same_eq, hedges, BEq.rfl, Bool.true_and, Bool.and_true, sameNodes_self_iff]
    constructor
    · intro h
      refine ⟨fun id node hnode => ?_, fun id k hk => ?_⟩
      · have hsame := h node (mem_of_node? hnode)
        cases hkind : node.kind with
        | primitive p => simpa [hkind, sameOperator, isRegular] using hsame
        | pipeline n k => rfl
      · obtain ⟨node, n, hnode, hkind⟩ := inner?_eq_some_iff.1 hk
        have hsame := h node (mem_of_node? hnode)
        rw [hkind, sameOperator, Bool.and_eq_true] at hsame
        exact (ih id k hk).1 hsame.2
    · intro h n hn
      have hnode := node?_of_mem hascending hn
      have hregular := h.here n.id n hnode
      cases hkind : n.kind with
      | primitive p => simpa [hkind, sameOperator, isRegular] using hregular
      | pipeline m k =>
        have hid := inner?_eq_some_iff.2 ⟨n, m, hnode, hkind⟩
        rw [sameOperator, BEq.rfl, Bool.true_and]
        exact (ih n.id k hid).2 (h.inside hid)

theorem Alike.regular (hgh : Alike g g') (hg : g.Regular) : g'.Regular := by
  induction hgh with
  | intro _ _ shells _ ih =>
    refine ⟨fun id node' hnode' => ?_, fun id b hb => ?_⟩
    · obtain ⟨node, hnode, hshell⟩ := node?_of_shells shells.symm hnode'
      rw [← isRegular_of_shell hshell]
      exact hg.here id node hnode
    · obtain ⟨a, ha⟩ := inner?_of_shells shells.symm hb
      exact ih id a b ha hb (hg.inside ha)

theorem regular_replaceInner (hg : g.Regular) (hh : h.Regular) : (g.replaceInner id h).Regular := by
  refine Everywhere.replaceInner hg hh fun m node' hnode' => ?_
  rw [node?_replaceInner, Option.map_eq_some_iff] at hnode'
  obtain ⟨node, hnode, rfl⟩ := hnode'
  have hregular := hg.here m node hnode
  split
  · rw [isRegular_of_shell (shell_withInner node.kind h)]
    exact hregular
  · exact hregular

theorem sameNodes_congr {ms ms' : List (Node Operator)}
    (h : Forall₂ (fun m m' => ∀ n, sameNode m' n = sameNode m n) ms ms')
    (ns : List (Node Operator)) :
    sameNodes ms' ns = sameNodes ms ns := by
  induction h generalizing ns with
  | nil => rfl
  | cons hm _ ih => cases ns <;> simp only [sameNodes, hm, ih]

/-- **Annotations do not matter for equality.** -/
theorem Alike.same_left (hg : g.Numbered) (hgh : Alike g g') (k : Dag) : g'.same k = g.same k := by
  induction hg generalizing g' k with
  | @intro g hascending _ ih =>
    have hascending' : g'.ids.Pairwise (· < ·) := hgh.ids ▸ hascending
    have hshells : Forall₂ (fun n n' => (n.id, n.kind.shell) = (n'.id, n'.kind.shell))
        g.nodes g'.nodes := by
      have heq := hgh.shells
      rw [Graph.shells, Graph.shells, ← forall₂_eq_eq_eq, forall₂_map_left_iff,
        forall₂_map_right_iff] at heq
      exact heq
    have hnodes : Forall₂ (fun n n' => ∀ m, sameNode n' m = sameNode n m) g.nodes g'.nodes := by
      refine forall₂_iff_get.2 ⟨hshells.length_eq, fun i hi hi' m => ?_⟩
      have heq := hshells.get hi hi'
      have hnode := node?_of_mem hascending (List.get_mem g.nodes ⟨i, hi⟩)
      have hnode' := node?_of_mem hascending' (List.get_mem g'.nodes ⟨i, hi'⟩)
      generalize g.nodes.get ⟨i, hi⟩ = n at heq hnode
      generalize g'.nodes.get ⟨i, hi'⟩ = n' at heq hnode'
      obtain ⟨id, kind, note⟩ := n
      obtain ⟨id', kind', note'⟩ := n'
      obtain ⟨rfl, hshell⟩ := Prod.mk.inj heq
      rw [sameNode, sameNode]
      refine congrArg (id == m.id && ·) ?_
      cases kind with
      | primitive p =>
        obtain rfl : kind' = .primitive p := shell_eq_inl_iff.1 hshell.symm
        rfl
      | pipeline n a =>
        obtain ⟨b, rfl⟩ : ∃ b, kind' = .pipeline n b := shell_eq_inr_iff.1 hshell.symm
        have ha := inner?_eq_some_iff.2 ⟨_, n, hnode, rfl⟩
        have hb := inner?_eq_some_iff.2 ⟨_, n, hnode', rfl⟩
        cases m.kind with
        | primitive q => rw [sameOperator, sameOperator] <;> simp
        | pipeline n' c => rw [sameOperator, sameOperator, ih id a ha (hgh.inside ha hb)]
    rw [same_eq, same_eq, ← hgh.sink, ← hgh.edges, sameNodes_congr hnodes]

end Graph

end Dataflow
