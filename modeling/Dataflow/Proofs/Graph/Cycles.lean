/-
**Cycles, one edge at a time and all at once.**

An edge is refused if a search finds a path back from its target to its source; a graph is refused
if its operators have no order.  The search follows all edges, the order only those between
operators that there are.  So an edge that would take the order from a graph is always refused, and
an edge that is refused leaves the graph with an order only if every path back goes through an
operator that is missing.

Main results:

* `Graph.searchSeen_eq`, `Graph.searchSeen_reaches` — **a search with a memory ends and finds the
  same**;
* `Graph.exists_cycle_append_iff` — when an edge closes a cycle;
* `Graph.connect_cyclic_iff` — when an edge is refused;
* `Graph.path_innerEdges` — a path between operators, or one through an operator that is missing;
* `Graph.connect_cyclic_iff_order` — **the two ways to find a cycle compared**.
-/

import Dataflow.Proofs.Graph.Counting

namespace Dataflow.Graph

open List Relation

variable {edges : List Edge} {goal : Nat}

/-! ### Searching with a memory -/

/-- Whether the goal is on the stack or can be reached from there.  A node that was seen before is
not looked at again.  The turns are limited. -/
def searchSeen (goal : Nat) (edges : List Edge) : Nat → List Nat → NatSet → Option Bool
  | _, [], _ => some false
  | 0, _ :: _, _ => none
  | turns + 1, id :: stack, seen =>
    if id = goal then some true
    else if id ∈ seen then searchSeen goal edges turns stack seen
    else searchSeen goal edges turns ((targetsOf edges id).reverse ++ stack) (NatSet.insert id seen)

/-- The edges that leave none of some nodes. -/
def unseen (edges : List Edge) (seen : NatSet) : List Edge := edges.filter (·.source ∉ seen)

theorem dropSource_unseen (edges : List Edge) (seen : NatSet) (id : Nat) :
    dropSource (unseen edges seen) id = unseen edges (NatSet.insert id seen) := by
  rw [dropSource, unseen, unseen, List.filter_filter]
  refine filter_congr fun e _ => ?_
  rw [Bool.eq_iff_iff, Bool.and_eq_true, bne_iff_ne, decide_eq_true_eq, decide_eq_true_eq,
    NatSet.mem_insert, not_or]

variable {seen : NatSet} {e : Edge} {id : Nat}

theorem targetsOf_unseen (h : id ∉ seen) : targetsOf (unseen edges seen) id = targetsOf edges id :=
  targetsOf_filter (p := (· ∉ seen)) (decide_eq_true h)

theorem unseen_of_mem (edges : List Edge) (h : id ∈ seen) :
    dropSource (unseen edges seen) id = unseen edges seen ∧
      targetsOf (unseen edges seen) id = [] := by
  have hnot : ∀ e ∈ unseen edges seen, e.source ≠ id := by
    rintro e he rfl
    simp only [unseen, mem_filter, decide_eq_true_eq] at he
    exact he.2 h
  exact ⟨filter_eq_self.2 fun e he => bne_iff_ne.2 (hnot e he),
    by simpa [targetsOf, filter_eq_nil_iff] using hnot⟩

theorem length_dropSource (edges : List Edge) (id : Nat) :
    edges.length = (targetsOf edges id).length + (dropSource edges id).length := by
  rw [targetsOf, List.length_map, dropSource]
  exact length_eq_length_filter_add _

/-- A search depends on where it starts, not in which order. -/
theorem searches_congr {waiting waiting' : List Nat} (h : ∀ id, id ∈ waiting ↔ id ∈ waiting') :
    searches goal edges waiting = searches goal edges waiting' := by
  rw [Bool.eq_iff_iff, searches_iff, searches_iff]
  simp only [h]

/-- **A search with a memory ends, and finds the same** as one that uses up its edges: the edges
that are left are those that leave no node that was seen. -/
theorem searchSeen_eq {turns : Nat} {stack : List Nat}
    (hturns : (unseen edges seen).length + stack.length ≤ turns) :
    searchSeen goal edges turns stack seen = some (searches goal (unseen edges seen) stack) := by
  induction turns generalizing stack seen with
  | zero =>
    obtain rfl : stack = [] := List.length_eq_zero_iff.1 (by omega)
    rw [searchSeen, searches]
  | succ turns ih =>
    cases stack with
    | nil => rw [searchSeen, searches]
    | cons id stack =>
      rw [length_cons] at hturns
      rw [searchSeen, searches]
      by_cases hgoal : id = goal
      · simp [hgoal]
      rw [if_neg hgoal, beq_false_of_ne hgoal, Bool.false_or]
      by_cases hseen : id ∈ seen
      · -- The edges of this node are used up, so the other search drops none and waits for none.
        obtain ⟨hdrop, htargets⟩ := unseen_of_mem edges hseen
        rw [if_pos hseen, ih (by omega), hdrop, htargets, nil_append]
      · -- The turns pay for every edge once: what is pushed here is no longer unseen.
        have hlength := length_dropSource (unseen edges seen) id
        rw [targetsOf_unseen hseen, dropSource_unseen] at hlength
        rw [if_neg hseen, ih (by simp only [List.length_append, length_reverse]; omega),
          targetsOf_unseen hseen, dropSource_unseen]
        refine congrArg some (searches_congr fun m => ?_)
        simp only [mem_append, mem_reverse]

variable {κ : Type} {g : Graph κ}

/-- A turn for every edge and one for the start are enough. -/
theorem searchSeen_reaches (g : Graph κ) (source goal : Nat) :
    searchSeen goal g.edges (g.edges.length + 1) [source] [] = some (g.reaches source goal) := by
  have hunseen : unseen g.edges [] = g.edges := filter_eq_self.2 (by simp)
  rw [searchSeen_eq (by rw [hunseen]; rfl), hunseen, reaches]

/-! ### One edge more -/

/-- **An edge closes a cycle exactly if a path leads back** from its target to its source. -/
theorem exists_cycle_append_iff (hnone : ∀ id, ¬TransGen (Joined edges) id id) :
    (∃ id, TransGen (Joined (edges ++ [e])) id id) ↔
      ReflTransGen (Joined edges) e.target e.source := by
  constructor
  · rintro ⟨id, hcycle⟩
    by_contra hback
    obtain ⟨rank, hrank⟩ := exists_rank_of_not_cycle hnone
    obtain ⟨rank', hrank'⟩ := exists_rank_append hrank hback
    exact not_cycle_of_rank hrank' id hcycle
  · intro hback
    exact ⟨e.source, cycle_append hback⟩

theorem exists_failure_iff : (∃ failure, g.order = .error failure) ↔ g.Cyclic := by
  rw [← not_iff_not, ← exists_order_iff]
  cases g.order <;> simp

/-- An edge between operators that keeps or takes the order. -/
theorem order_connectUnchecked_iff {g : Dag} (hnone : ¬g.Cyclic) (hsource : e.source ∈ g.ids)
    (htarget : e.target ∈ g.ids) : (∃ failure, (g.connectUnchecked e).order = .error failure) ↔
      ReflTransGen (Joined g.innerEdges) e.target e.source := by
  have hinner : (g.connectUnchecked e).innerEdges = g.innerEdges ++ [e] := by
    have hends : (g.contains e.source && g.contains e.target) = true :=
      Bool.and_eq_true_iff.2 ⟨(contains_iff_mem_ids _ _).2 hsource,
        (contains_iff_mem_ids _ _).2 htarget⟩
    rw [connectUnchecked, innerEdges, filter_append]
    exact congrArg _ (filter_cons_of_pos hends)
  rw [exists_failure_iff, Cyclic, hinner]
  exact exists_cycle_append_iff fun id hcycle => hnone ⟨id, hcycle⟩

/-- **When an edge is refused because of a cycle**, if it passes the other checks. -/
theorem connect_cyclic_iff {g : Dag} (hslots : g.checkSlots e = .ok ())
    (hfree : g.producer? e.target e.targetSlot = none) :
    (∃ fault, g.connect e = .error (.cyclicGraph fault)) ↔
      ReflTransGen (Joined g.edges) e.target e.source := by
  have hconnect : g.connect e = if e.source = e.target ∨ g.reaches e.target e.source then
      .error (.cyclicGraph (.closing e.source e.target)) else .ok (g.connectUnchecked e) := by
    simp only [connect, hslots, hfree]
    rfl
  have hpath : (e.source = e.target ∨ g.reaches e.target e.source) ↔
      ReflTransGen (Joined g.edges) e.target e.source := by
    rw [reaches_iff, or_iff_right_iff_imp]
    intro heq
    rw [heq]
  by_cases hback : ReflTransGen (Joined g.edges) e.target e.source
  · rw [hconnect, if_pos (hpath.2 hback)]
    exact iff_of_true ⟨_, rfl⟩ hback
  · rw [hconnect, if_neg (mt hpath.1 hback)]
    exact iff_of_false (by rintro ⟨_, ⟨⟩⟩) hback

theorem innerEdges_eq (h : ∀ e ∈ g.edges, e.source ∈ g.ids ∧ e.target ∈ g.ids) :
    g.innerEdges = g.edges := by
  refine filter_eq_self.2 fun e he => ?_
  rw [Bool.and_eq_true, contains_iff_mem_ids, contains_iff_mem_ids]
  exact h e he

/-- A path leads along edges between operators, or through an operator that is missing. -/
theorem path_innerEdges {source : Nat} (h : ReflTransGen (Joined g.edges) source goal) :
    ReflTransGen (Joined g.innerEdges) source goal ∨ ∃ missing ∉ g.ids,
      ReflTransGen (Joined g.edges) source missing ∧
      ReflTransGen (Joined g.edges) missing goal := by
  induction h with
  | refl => exact .inl .refl
  | @tail middle goal hpath hjoined ih =>
    rcases ih with hinner | ⟨missing, hmissing, hbefore, hafter⟩
    · by_cases hmiddle : middle ∈ g.ids
      · by_cases hgoal : goal ∈ g.ids
        · obtain ⟨e, he, rfl, rfl⟩ := hjoined
          exact .inl (hinner.tail ⟨e, mem_innerEdges.2 ⟨he, hmiddle, hgoal⟩, rfl, rfl⟩)
        · exact .inr ⟨goal, hgoal, hpath.tail hjoined, .refl⟩
      · exact .inr ⟨middle, hmiddle, hpath, .single hjoined⟩
    · exact .inr ⟨missing, hmissing, hbefore, hafter.tail hjoined⟩

/-- **The two ways to find a cycle compared.**  A search ends and finds exactly the paths.  If a
graph has an order, and an edge passes the checks of its slots, then it is refused because of a
cycle exactly if the order is lost with it, or a path back from its target to its source goes
through an operator that is missing.  In a graph whose edges join operators that there are, it is
refused exactly if the order is lost. -/
theorem connect_cyclic_iff_order (g : Dag) :
    (∀ source goal, searchSeen goal g.edges (g.edges.length + 1) [source] [] =
      some (g.reaches source goal) ∧
      (g.reaches source goal = true ↔ ReflTransGen (Joined g.edges) source goal)) ∧
    ∀ e : Edge, ¬g.Cyclic → g.checkSlots e = .ok () → g.producer? e.target e.targetSlot = none →
      ((∃ fault, g.connect e = .error (.cyclicGraph fault)) ↔
        (∃ failure, (g.connectUnchecked e).order = .error failure) ∨
          ∃ missing ∉ g.ids, ReflTransGen (Joined g.edges) e.target missing ∧
            ReflTransGen (Joined g.edges) missing e.source) ∧
      ((∀ f ∈ g.edges, f.source ∈ g.ids ∧ f.target ∈ g.ids) →
        ((∃ fault, g.connect e = .error (.cyclicGraph fault)) ↔
          ∃ failure, (g.connectUnchecked e).order = .error failure)) := by
  refine ⟨fun source goal => ⟨searchSeen_reaches g source goal, reaches_iff⟩, ?_⟩
  intro e hnone hslots hfree
  obtain ⟨source, target, hsource, htarget, -, -⟩ := checkSlots_eq_ok_iff.1 hslots
  rw [connect_cyclic_iff hslots hfree,
    order_connectUnchecked_iff hnone (mem_ids_of_node? hsource) (mem_ids_of_node? htarget)]
  constructor
  · constructor
    · exact path_innerEdges
    · rintro (hinner | ⟨missing, -, hbefore, hafter⟩)
      · exact ReflTransGen.mono (fun _ _ => Joined.mono (filter_subset_self _)) _ _ hinner
      · exact hbefore.trans hafter
  · intro hends
    rw [innerEdges_eq hends]

/-- Two operators, and edges from the first through one that there is not to the second. -/
def detour : Dag where
  nodes := [⟨0, .primitive .ensureSingleTuple, {}⟩, ⟨1, .primitive .ensureSingleTuple, {}⟩]
  edges := [⟨0, 0, 5, 0⟩, ⟨5, 0, 1, 0⟩]

/-- An edge back is refused here, although the operators have an order with it. -/
theorem detour_refused : ¬detour.Cyclic ∧ detour.checkSlots ⟨1, 0, 0, 0⟩ = .ok () ∧
    detour.producer? 0 0 = none ∧
      (∃ fault, detour.connect ⟨1, 0, 0, 0⟩ = .error (.cyclicGraph fault)) ∧
    (detour.connectUnchecked ⟨1, 0, 0, 0⟩).order = .ok [1, 0] := by
  have hids : detour.ids.Pairwise (· < ·) := by decide
  have hnone : ¬detour.Cyclic := exists_order_iff.1 ⟨[0, 1], order_of_counted hids rfl⟩
  have hback : detour.reaches 0 1 = true :=
    Option.some.inj ((searchSeen_reaches detour 0 1).symm.trans rfl)
  have horder : (detour.connectUnchecked ⟨1, 0, 0, 0⟩).order = .ok [1, 0] :=
    order_of_counted (g := detour.connectUnchecked _) hids rfl
  exact ⟨hnone, rfl, rfl, (connect_cyclic_iff rfl rfl).2 (reaches_iff.1 hback), horder⟩

/-- Three operators in a row, the first edge twice. -/
def row : Dag where
  nodes := [0, 1, 2].map fun id => ⟨id, .primitive .ensureSingleTuple, {}⟩
  edges := [⟨0, 0, 1, 0⟩, ⟨0, 0, 1, 0⟩, ⟨1, 0, 2, 0⟩]

/-- An edge back from the last to the first is refused, and takes the order. -/
theorem row_refused : ¬row.Cyclic ∧ row.checkSlots ⟨2, 0, 0, 0⟩ = .ok () ∧
      row.producer? 0 0 = none ∧
    (∀ f ∈ row.edges, f.source ∈ row.ids ∧ f.target ∈ row.ids) ∧
    (∃ failure, (row.connectUnchecked ⟨2, 0, 0, 0⟩).order = .error failure) ∧
    ∃ fault, row.connect ⟨2, 0, 0, 0⟩ = .error (.cyclicGraph fault) := by
  have hids : row.ids.Pairwise (· < ·) := by decide
  have hnone : ¬row.Cyclic := exists_order_iff.1 ⟨[0, 1, 2], order_of_counted hids rfl⟩
  have hends : ∀ f ∈ row.edges, f.source ∈ row.ids ∧ f.target ∈ row.ids := by decide
  have hlost : ∃ failure, (row.connectUnchecked ⟨2, 0, 0, 0⟩).order = .error failure :=
    ⟨.cyclicGraph (.stuck [0, 1, 2]), order_of_counted (g := row.connectUnchecked _) hids rfl⟩
  obtain ⟨-, hrefused⟩ := (connect_cyclic_iff_order row).2 ⟨2, 0, 0, 0⟩ hnone rfl rfl
  exact ⟨hnone, rfl, rfl, hends, hlost, (hrefused hends).2 hlost⟩

end Dataflow.Graph
