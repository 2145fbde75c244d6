/-
**Building a graph.**

A graph is built by adding its operators and then its edges, one at a time.  Operators that are
added in any order end up in ascending order of their numbers.  An edge is refused if its slot is
taken or if it closes a cycle; along a rank that grows from the source to the target of every edge
there is no cycle to close, so edges with different slots can be added in any order.

Main results:

* `Graph.path_of_searches` — a search succeeds only along a path;
* `Graph.foldlM_addAt` — **operators under different numbers can be added** in any order;
* `Graph.foldlM_connect` — **edges along a rank can be added** in any order.
-/

import Dataflow.Proofs.Graph.Validity
import Mathlib.Data.List.Perm.Basic
import Mathlib.Logic.Relation

namespace Dataflow.Graph

open List Outcome

/-! ### Searching -/

/-- One of the edges leads from one node to another. -/
def Joined (edges : List Edge) (source target : Nat) : Prop :=
  ∃ e ∈ edges, e.source = source ∧ e.target = target

theorem Joined.mono {edges edges' : List Edge} (h : edges ⊆ edges') {source target : Nat}
    (hjoined : Joined edges source target) : Joined edges' source target := by
  obtain ⟨e, he, hends⟩ := hjoined
  exact ⟨e, h he, hends⟩

variable {edges : List Edge} {κ : Type} {g : Dag} {rank : Nat → Nat}

theorem Joined.of_dropSource {id source target : Nat}
    (h : Joined (dropSource edges id) source target) : Joined edges source target :=
  h.mono (filter_subset_self _)

theorem path_of_searches {goal : Nat} {waiting : List Nat}
    (h : searches goal edges waiting = true) :
    ∃ id ∈ waiting, Relation.ReflTransGen (Joined edges) id goal := by
  induction edges, waiting using searches.induct with
  | case1 edges =>
    rw [searches] at h
    cases h
  | case2 edges id rest ih =>
    rw [searches, Bool.or_eq_true, beq_iff_eq] at h
    obtain rfl | h := h
    · exact ⟨id, mem_cons_self, .refl⟩
    · obtain ⟨next, hnext, hpath⟩ := ih h
      have hpath' := Relation.ReflTransGen.mono (fun _ _ => Joined.of_dropSource) _ _ hpath
      obtain hnext | hnext := mem_append.1 hnext
      · -- The path goes on from a target of the node that was looked at.
        obtain ⟨e, he, rfl⟩ := List.mem_map.1 hnext
        rw [mem_filter, beq_iff_eq] at he
        exact ⟨id, mem_cons_self, .head ⟨e, he.1, he.2, rfl⟩ hpath'⟩
      · exact ⟨next, mem_cons_of_mem _ hnext, hpath'⟩

theorem rank_le_of_path (hrank : ∀ e ∈ edges, rank e.source < rank e.target) {source goal : Nat}
    (h : Relation.ReflTransGen (Joined edges) source goal) : rank source ≤ rank goal := by
  induction h with
  | refl => exact Nat.le_refl _
  | tail _ hjoined ih =>
    obtain ⟨e, he, rfl, rfl⟩ := hjoined
    exact Nat.le_trans ih (Nat.le_of_lt (hrank e he))

/-! ### Adding operators -/

theorem exists_insertNode (node : Node κ) (nodes : List (Node κ)) :
    ∃ before after, nodes = before ++ after ∧ insertNode node nodes = before ++ node :: after := by
  induction nodes with
  | nil => exact ⟨[], [], rfl, rfl⟩
  | cons n nodes ih =>
    rw [insertNode]
    split
    · exact ⟨[], n :: nodes, rfl, rfl⟩
    · obtain ⟨before, after, rfl, hinsert⟩ := ih
      exact ⟨n :: before, after, rfl, by rw [hinsert]; rfl⟩

theorem perm_insertNode (node : Node κ) (nodes : List (Node κ)) :
    (insertNode node nodes).Perm (node :: nodes) := by
  obtain ⟨before, after, rfl, hinsert⟩ := exists_insertNode node nodes
  rw [hinsert]
  exact perm_middle

theorem pairwise_insertNode {node : Node κ} {nodes : List (Node κ)}
    (h : (nodes.map (·.id)).Pairwise (· < ·)) (hnew : node.id ∉ nodes.map (·.id)) :
    ((insertNode node nodes).map (·.id)).Pairwise (· < ·) := by
  induction nodes with
  | nil => simp [insertNode]
  | cons n nodes ih =>
    rw [map_cons, pairwise_cons] at h
    rw [map_cons, mem_cons, not_or] at hnew
    rw [insertNode]
    split
    · next hlt =>
      rw [map_cons, map_cons, pairwise_cons, pairwise_cons]
      refine ⟨fun m hm => ?_, h⟩
      obtain rfl | hm := mem_cons.1 hm
      · exact hlt
      · exact Nat.lt_trans hlt (h.1 m hm)
    · next hge =>
      rw [map_cons, pairwise_cons]
      refine ⟨fun m hm => ?_, ih h.2 hnew.2⟩
      rw [((perm_insertNode node nodes).map (·.id)).mem_iff, map_cons] at hm
      obtain rfl | hm := mem_cons.1 hm
      · omega
      · exact h.1 m hm

/-- **Operators under different new numbers can be added** in any order. -/
theorem foldlM_addAt {α : Type} (id : α → Nat) (op : α → Operator) (items : List α)
    (hg : g.ids.Pairwise (· < ·)) (hnew : (g.ids ++ items.map id).Nodup) :
    ∃ g', items.foldlM (fun g a => g.addAt (id a) (op a)) g = .ok g' ∧ g'.ids.Pairwise (· < ·) ∧
      g'.nodes.Perm (g.nodes ++ items.map fun a => ⟨id a, op a, {}⟩) ∧ g'.edges = g.edges := by
  induction items generalizing g with
  | nil => exact ⟨g, rfl, hg, by simp, rfl⟩
  | cons a items ih =>
    have hfresh : id a ∉ g.ids := by
      rw [map_cons, nodup_append'] at hnew
      exact fun hmem => hnew.2.2 hmem mem_cons_self
    have hperm : (g.insert (id a) (op a)).nodes.Perm (⟨id a, op a, {}⟩ :: g.nodes) :=
      perm_insertNode _ _
    have hids : (g.insert (id a) (op a)).ids.Perm (id a :: g.ids) := hperm.map Node.id
    obtain ⟨g', hg', hascending, hnodes, hedges⟩ :=
      ih (g := g.insert (id a) (op a)) (pairwise_insertNode hg hfresh) (by
        refine ((hids.append_right _).trans ?_).nodup_iff.2 hnew
        exact perm_middle.symm)
    refine ⟨g', ?_, hascending, hnodes.trans ?_, hedges⟩
    · rw [foldlM_cons, addAt, if_neg (by rwa [contains_iff_mem_ids]), ok_bind]
      exact hg'
    · exact (hperm.append_right _).trans perm_middle.symm

/-! ### Adding edges -/

/-- An edge can be added if it joins slots that there are, its slot is free, and it goes upwards
along a rank, as all edges of the graph do. -/
theorem connect_of_rank {e : Edge} (hslots : g.checkSlots e = .ok ())
    (hfree : e.port ∉ g.edges.map Edge.port) (hedges : ∀ f ∈ g.edges, rank f.source < rank f.target)
    (he : rank e.source < rank e.target) : g.connect e = .ok (g.connectUnchecked e) := by
  simp only [connect, bind_eq_ok_iff, guard_eq_ok_iff]
  refine ⟨(), hslots, ?_, ?_, rfl⟩
  · rw [isSome_producer?_iff]
    rintro ⟨f, hf, hport⟩
    exact hfree (List.mem_map.2 ⟨f, hf, hport⟩)
  · rintro (heq | hreaches)
    · rw [heq] at he
      exact Nat.lt_irrefl _ he
    · obtain ⟨id, hid, hpath⟩ := path_of_searches hreaches
      obtain rfl := mem_singleton.1 hid
      exact Nat.not_lt_of_le (rank_le_of_path hedges hpath) he

/-- **Edges with different slots that go upwards along a rank can be added** in any order. -/
theorem foldlM_connect (rank : Nat → Nat) (hslots : ∀ e ∈ edges, g.checkSlots e = .ok ())
    (honce : ((g.edges ++ edges).map Edge.port).Nodup)
    (hrank : ∀ e ∈ g.edges ++ edges, rank e.source < rank e.target) :
    edges.foldlM connect g = .ok { g with edges := g.edges ++ edges } := by
  induction edges generalizing g with
  | nil =>
    rw [append_nil]
    rfl
  | cons e edges ih =>
    have hfree : e.port ∉ g.edges.map Edge.port := by
      rw [map_append, map_cons, nodup_append'] at honce
      exact fun hmem => honce.2.2 hmem mem_cons_self
    have hmiddle : g.edges ++ e :: edges = (g.connectUnchecked e).edges ++ edges := by
      simp [connectUnchecked]
    rw [foldlM_cons, connect_of_rank (hslots e mem_cons_self) hfree
      (fun f hf => hrank f (mem_append_left _ hf)) (hrank e (by simp)), ok_bind]
    rw [hmiddle] at honce hrank ⊢
    -- An edge more does not change the operators, which are all that the check of slots looks at.
    exact ih (fun f hf => hslots f (mem_cons_of_mem _ hf)) honce hrank

end Dataflow.Graph
