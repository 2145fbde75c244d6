/-
**The least order, and what has none.**

Scheduling places a node as soon as all its producers are placed, the smallest number first.  Of all
the orders of the nodes in which every edge leads forwards this is the least one, told by the first
number in which two orders differ.  A node is never placed if it lies on a cycle or behind one, and
no other node is left.  The edges are arbitrary: there may be several between two nodes, and some
from a node to itself.

Main results:

* `Graph.not_lex_schedule` — **no order comes before the one of scheduling**;
* `Graph.sublist_schedule` — the nodes that cannot be placed are left in their order;
* `Graph.mem_schedule_iff` — **they are those on a cycle or behind one**.
-/

import Dataflow.Proofs.Graph.Reach

namespace Dataflow.Graph

open List Relation

variable {id : Nat} {edges : List Edge} {ids order other : List Nat}

/-! ### The least order -/

/-- An order of some nodes in which every edge leads forwards. -/
structure Arranges (edges : List Edge) (ids order : List Nat) : Prop where
  perm : order.Perm ids
  forwards : ∀ e ∈ edges, order.idxOf e.source < order.idxOf e.target

theorem ready?_le {id other : Nat} (hids : ids.Pairwise (· < ·)) (h : ready? edges ids = some id)
    (hother : other ∈ ids) (henters : ∀ e ∈ edges, e.target ≠ other) : id ≤ other := by
  obtain ⟨-, before, after, rfl, hbefore⟩ := find?_eq_some_iff_append.1 h
  rcases mem_append.1 hother with hmem | hmem
  · have hentered := hbefore other hmem
    simp only [Bool.not_not, List.any_eq_true, beq_iff_eq] at hentered
    obtain ⟨e, he, htarget⟩ := hentered
    exact absurd htarget (henters e he)
  · rcases mem_cons.1 hmem with rfl | hmem
    · exact Nat.le_refl _
    · exact Nat.le_of_lt ((pairwise_cons.1 (pairwise_append.1 hids).2.1).1 other hmem)

theorem Arranges.tail {first : Nat} (h : Arranges edges ids (first :: order)) :
    Arranges (dropSource edges first) (ids.erase first) order := by
  refine ⟨(cons_perm_iff_perm_erase.1 h.perm).2, fun e he => ?_⟩
  obtain ⟨he, hsource⟩ := mem_filter.1 he
  have hforwards := h.forwards e he
  have htarget : first ≠ e.target := by
    rintro rfl
    rw [idxOf_cons_self] at hforwards
    exact Nat.not_lt_zero _ hforwards
  rw [idxOf_cons_ne _ (bne_iff_ne.1 hsource).symm, idxOf_cons_ne _ htarget] at hforwards
  exact Nat.lt_of_succ_lt_succ hforwards

/-- **No order comes before the one of scheduling**: it starts with the least node that can be
first, and goes on with the least order of the others. -/
theorem not_lex_schedule (hids : ids.Pairwise (· < ·)) (h : Arranges edges ids other) :
    ¬List.Lex (· < ·) other (schedule edges ids).1 := by
  induction edges, ids using schedule.induct generalizing other with
  | case1 edges ids hnone =>
    rw [schedule, hnone]
    exact not_lex_nil
  | case2 edges ids first hfirst placed stuck _ ih =>
    rw [schedule, hfirst]
    cases other with
    | nil => exact absurd (h.perm.mem_iff.2 (mem_of_find?_eq_some hfirst)) not_mem_nil
    | cons head other =>
      have henters : ∀ e ∈ edges, e.target ≠ head := by
        rintro e he rfl
        have hforwards := h.forwards e he
        rw [idxOf_cons_self] at hforwards
        exact Nat.not_lt_zero _ hforwards
      have hle := ready?_le hids hfirst (h.perm.mem_iff.1 mem_cons_self) henters
      intro hbefore
      cases hbefore with
      | rel hlt => exact Nat.not_lt.2 hle hlt
      | cons hrest => exact ih (hids.sublist erase_sublist) h.tail hrest

/-! ### Nodes that cannot be placed -/

/-- A node on a cycle, or one to which a path leads from a cycle. -/
def AfterCycle (edges : List Edge) (id : Nat) : Prop :=
  ∃ on, TransGen (Joined edges) on on ∧ ReflTransGen (Joined edges) on id

theorem AfterCycle.tail {source target : Nat} (h : AfterCycle edges source)
    (hjoined : Joined edges source target) :
    AfterCycle edges target := by
  obtain ⟨on, hcycle, hpath⟩ := h
  exact ⟨on, hcycle, hpath.tail hjoined⟩

/-- An edge enters every node on a cycle or behind one. -/
theorem AfterCycle.exists_joined (h : AfterCycle edges id) : ∃ source, Joined edges source id := by
  obtain ⟨on, hcycle, hpath⟩ := h
  obtain ⟨source, -, hjoined⟩ := TransGen.tail'_iff.1 (hcycle.trans_left hpath)
  exact ⟨source, hjoined⟩

theorem sublist_schedule (edges : List Edge) (ids : List Nat) :
    (schedule edges ids).2.Sublist ids := by
  induction edges, ids using schedule.induct with
  | case1 edges ids hnone => rw [schedule, hnone]
  | case2 edges ids first hfirst placed stuck _ ih =>
    rw [schedule, hfirst]
    exact ih.trans erase_sublist

/-- A node that cannot be placed has a producer that cannot be placed. -/
theorem exists_source_of_mem_schedule (hsources : ∀ e ∈ edges, e.source ∈ ids)
    (h : id ∈ (schedule edges ids).2) : ∃ source, Joined edges source id ∧
      source ∈ (schedule edges ids).2 := by
  induction edges, ids using schedule.induct with
  | case1 edges ids hnone =>
    rw [schedule, hnone] at h ⊢
    exact exists_source_of_ready?_eq_none hsources hnone id h
  | case2 edges ids first hfirst placed stuck _ ih =>
    rw [schedule, hfirst] at h ⊢
    have hrest : ∀ e ∈ dropSource edges first, e.source ∈ ids.erase first := by
      intro e he
      obtain ⟨he, hne⟩ := mem_filter.1 he
      exact (mem_erase_of_ne (bne_iff_ne.1 hne)).2 (hsources e he)
    obtain ⟨source, hjoined, hsource⟩ := ih hrest h
    exact ⟨source, hjoined.of_dropSource, hsource⟩

/-- Nodes of which each has a producer among them are on a cycle or behind one. -/
theorem afterCycle_of_sources (h : ∀ id ∈ ids, ∃ source, Joined edges source id ∧ source ∈ ids) :
    ∀ id ∈ ids, AfterCycle edges id := by
  classical
  -- The edges that lead to no cycle have none, so a rank grows along them.
  have hacyclic : ∀ id,
      ¬TransGen (Joined (edges.filter fun e => ¬AfterCycle edges e.target)) id id := by
    intro id hcycle
    obtain ⟨_, -, e, he, -, rfl⟩ := TransGen.tail'_iff.1 hcycle
    have hnot : ¬AfterCycle edges e.target := by simpa using (mem_filter.1 he).2
    have hcycle' := TransGen.mono (fun _ _ => Joined.mono (filter_subset_self _)) _ _ hcycle
    exact hnot ⟨e.target, hcycle', .refl⟩
  obtain ⟨rank, hrank⟩ := exists_rank_of_not_cycle hacyclic
  have hnil : (ids.filter fun id => ¬AfterCycle edges id) = [] := by
    refine eq_nil_of_sources hrank fun id hid => ?_
    obtain ⟨hid, hnot⟩ := mem_filter.1 hid
    rw [decide_eq_true_eq] at hnot
    obtain ⟨_, ⟨e, he, rfl, rfl⟩, hsource⟩ := h id hid
    have hbefore : ¬AfterCycle edges e.source := fun hafter => hnot (hafter.tail ⟨e, he, rfl, rfl⟩)
    exact ⟨e.source, ⟨e, mem_filter.2 ⟨he, decide_eq_true hnot⟩, rfl, rfl⟩,
      mem_filter.2 ⟨hsource, decide_eq_true hbefore⟩⟩
  intro id hid
  simpa using filter_eq_nil_iff.1 hnil id hid

/-- What leads to a node that is placed is placed before it. -/
theorem idxOf_lt_of_path {source target : Nat} (hpath : TransGen (Joined edges) source target)
    (htarget : target ∈ (schedule edges ids).1) :
    (schedule edges ids).1.idxOf source < (schedule edges ids).1.idxOf target := by
  induction hpath with
  | single hjoined =>
    obtain ⟨e, he, rfl, rfl⟩ := hjoined
    exact idxOf_lt_of_schedule he htarget
  | tail _ hjoined ih =>
    obtain ⟨e, he, rfl, rfl⟩ := hjoined
    have hlt := idxOf_lt_of_schedule he htarget
    have hmem := idxOf_lt_length_iff.1 (Nat.lt_trans hlt (idxOf_lt_length_of_mem htarget))
    exact Nat.lt_trans (ih hmem) hlt

theorem not_afterCycle_of_placed (h : id ∈ (schedule edges ids).1) : ¬AfterCycle edges id := by
  rintro ⟨on, hcycle, hpath⟩
  have hlt := idxOf_lt_of_path (hcycle.trans_left hpath) h
  have hmem := idxOf_lt_length_iff.1 (Nat.lt_trans hlt (idxOf_lt_length_of_mem h))
  exact Nat.lt_irrefl _ (idxOf_lt_of_path hcycle hmem)

/-- **The nodes that cannot be placed are those on a cycle or behind one.** -/
theorem mem_schedule_iff (hsources : ∀ e ∈ edges, e.source ∈ ids) :
    id ∈ (schedule edges ids).2 ↔ id ∈ ids ∧ AfterCycle edges id := by
  constructor
  · intro h
    exact ⟨(sublist_schedule edges ids).subset h,
      afterCycle_of_sources (fun _ => exists_source_of_mem_schedule hsources) id h⟩
  · rintro ⟨hid, hafter⟩
    have hmem := (perm_schedule edges ids).mem_iff.2 hid
    exact (mem_append.1 hmem).resolve_left fun hplaced => not_afterCycle_of_placed hplaced hafter

/-! ### Graphs -/

variable {κ : Type} {g : Graph κ}

/-- The order of a graph by what scheduling leaves. -/
theorem order_eq_ite (g : Graph κ) : g.order =
    if (schedule g.innerEdges g.ids).2 = [] then .ok (schedule g.innerEdges g.ids).1
    else .error (.cyclicGraph (.stuck (schedule g.innerEdges g.ids).2)) := by
  unfold Graph.order
  split
  · next placed h => rw [h, if_pos rfl]
  · next placed stuck hstuck h =>
    rw [h, if_neg]
    rintro rfl
    exact hstuck rfl

theorem arranges_of_order (h : g.order = .ok order) : Arranges g.innerEdges g.ids order :=
  ⟨perm_order h, fun _ => idxOf_lt_of_order h⟩

theorem not_lex_order (hids : g.ids.Pairwise (· < ·)) (h : g.order = .ok order)
    (hother : Arranges g.innerEdges g.ids other) : ¬List.Lex (· < ·) other order := by
  have hleast := not_lex_schedule hids hother
  rwa [order_eq_ok_iff.1 h] at hleast

/-- What is reported if there is no order: the operators on a cycle or behind one, ascending. -/
theorem stuck_of_order {failure : Failure} (hids : g.ids.Pairwise (· < ·))
    (h : g.order = .error failure) :
    ∃ stuck : List Nat, failure = .cyclicGraph (.stuck stuck) ∧ stuck.Pairwise (· < ·) ∧
      ∀ id, id ∈ stuck ↔ AfterCycle g.innerEdges id := by
  rw [order_eq_ite] at h
  split at h
  · cases h
  · refine ⟨_, (Except.error.inj h).symm, hids.sublist (sublist_schedule _ _), fun id => ?_⟩
    rw [mem_schedule_iff fun e he => (mem_innerEdges.1 he).2.1, and_iff_right_iff_imp]
    intro hafter
    obtain ⟨_, e, he, -, rfl⟩ := hafter.exists_joined
    exact (mem_innerEdges.1 he).2.2

end Dataflow.Graph
