/-
**Paths and cycles.**

A search along edges finds every node to which a path leads, because the edges of a node that was
looked at are needed once only: what a path does after it has left that node for the last time is a
path without them.  A graph has no cycle if some rank grows along all edges; a new edge keeps this
if no path leads back, and then there is an order of the operators.

Main results:

* `Graph.searches_iff`, `Graph.reaches_iff` — **a search succeeds exactly along paths**;
* `Graph.connect_eq_ok_iff` — when an edge can be added;
* `Graph.exists_rank_append` — an edge that no path leads back from closes no cycle;
* `Graph.not_cycle_of_rank`, `Graph.exists_rank_of_not_cycle` — there is no cycle exactly along a
  rank;
* `Graph.eq_nil_of_sources` — along a rank some node has no producer;
* `Graph.exists_order`, `Graph.exists_order_iff` — **a graph has an order exactly if it has no
  cycle**.
-/

import Dataflow.Proofs.Graph.Building
import Mathlib.Data.List.Induction

namespace Dataflow.Graph

open List Outcome Relation

variable {edges : List Edge} {goal id source : Nat} {rank : Nat → Nat}

/-! ### Searching -/

/-- A path to a node, without the edges that leave some node `id`: either the whole path, or what is
left of it after the last visit to `id`. -/
theorem path_dropSource {start : Nat} (id : Nat) (h : ReflTransGen (Joined edges) start goal) :
    ReflTransGen (Joined (dropSource edges id)) start goal ∨
      ∃ next ∈ targetsOf edges id, ReflTransGen (Joined (dropSource edges id)) next goal := by
  induction h using ReflTransGen.head_induction_on with
  | refl => exact .inl .refl
  | head hjoined _ ih =>
    obtain ⟨e, he, rfl, rfl⟩ := hjoined
    rcases ih with hpath | hleft
    · by_cases hsource : e.source = id
      · exact .inr ⟨e.target,
          List.mem_map.2 ⟨e, mem_filter.2 ⟨he, by simpa using hsource⟩, rfl⟩, hpath⟩
      · exact .inl (hpath.head ⟨e, mem_filter.2 ⟨he, by simpa using hsource⟩, rfl, rfl⟩)
    · exact .inr hleft

/-- **A search succeeds exactly along paths** from the nodes that it starts with. -/
theorem searches_iff {waiting : List Nat} : searches goal edges waiting = true ↔
    ∃ start ∈ waiting, ReflTransGen (Joined edges) start goal := by
  refine ⟨path_of_searches, fun h => ?_⟩
  induction edges, waiting using searches.induct with
  | case1 edges => simp at h
  | case2 edges id rest ih =>
    rw [searches, Bool.or_eq_true, beq_iff_eq]
    by_cases hgoal : id = goal
    · exact .inl hgoal
    · refine .inr (ih ?_)
      obtain ⟨start, hstart, hpath⟩ := h
      rcases path_dropSource id hpath with hdropped | ⟨next, hnext, hdropped⟩
      · rcases mem_cons.1 hstart with rfl | hrest
        · -- No edge leaves the node any more, so it would have to be the goal.
          rcases hdropped.cases_head with heq | ⟨_, ⟨e, he, hsource, -⟩, -⟩
          · exact absurd heq hgoal
          · rw [dropSource, mem_filter, hsource] at he
            simp at he
        · exact ⟨start, mem_append_right _ hrest, hdropped⟩
      · exact ⟨next, mem_append_left _ hnext, hdropped⟩

theorem reaches_iff {κ : Type} {g : Graph κ} : g.reaches source goal = true ↔
    ReflTransGen (Joined g.edges) source goal := by
  simp [reaches, searches_iff]

variable {e : Edge} {ids : List Nat}

/-- **When an edge can be added**: it joins slots that there are, its slot is free, and no path
leads back from its target to its source. -/
theorem connect_eq_ok_iff {g g' : Dag} : g.connect e = .ok g' ↔
    g.checkSlots e = .ok () ∧ g.producer? e.target e.targetSlot = none ∧
      ¬ReflTransGen (Joined g.edges) e.target e.source ∧ g' = g.connectUnchecked e := by
  simp only [connect, bind_eq_ok_iff, guard_eq_ok_iff, pure_eq_ok, Except.ok.injEq,
    Option.not_isSome_iff_eq_none, reaches_iff, not_or]
  constructor
  · rintro ⟨_, hslots, hfree, ⟨-, hpath⟩, rfl⟩
    exact ⟨hslots, hfree, hpath, rfl⟩
  · rintro ⟨hslots, hfree, hpath, rfl⟩
    exact ⟨(), hslots, hfree, ⟨fun heq => hpath (heq ▸ .refl), hpath⟩, rfl⟩

/-! ### Ranks -/

section

variable (hrank : ∀ f ∈ edges, rank f.source < rank f.target)
include hrank

/-- **An edge that no path leads back from closes no cycle**: what its target leads to moves up. -/
theorem exists_rank_append (hback : ¬ReflTransGen (Joined edges) e.target e.source) :
    ∃ rank' : Nat → Nat, ∀ f ∈ edges ++ [e], rank' f.source < rank' f.target := by
  classical
  refine ⟨fun id => if ReflTransGen (Joined edges) e.target id then rank id + rank e.source + 1
    else rank id, fun f hf => ?_⟩
  rcases mem_append.1 hf with hf | hf
  · have hlt := hrank f hf
    have hstep : ReflTransGen (Joined edges) e.target f.source →
        ReflTransGen (Joined edges) e.target f.target := fun h => h.tail ⟨f, hf, rfl, rfl⟩
    grind
  · obtain rfl := mem_singleton.1 hf
    have hrefl : ReflTransGen (Joined edges) f.target f.target := .refl
    simp only [if_neg hback, if_pos hrefl]
    omega

theorem rank_lt_of_path (h : TransGen (Joined edges) source goal) : rank source < rank goal := by
  obtain ⟨middle, ⟨e, he, rfl, rfl⟩, hpath⟩ := TransGen.head'_iff.1 h
  exact Nat.lt_of_lt_of_le (hrank e he) (rank_le_of_path hrank hpath)

theorem not_cycle_of_rank (id : Nat) : ¬TransGen (Joined edges) id id :=
  fun h => Nat.lt_irrefl _ (rank_lt_of_path hrank h)

end

theorem cycle_append (hback : ReflTransGen (Joined edges) e.target e.source) :
    TransGen (Joined (edges ++ [e])) e.source e.source := by
  have hedge : Joined (edges ++ [e]) e.source e.target :=
    ⟨e, mem_append_right _ (mem_singleton_self e), rfl, rfl⟩
  exact TransGen.head' hedge
    (ReflTransGen.mono (fun _ _ => Joined.mono (subset_append_left _ _)) _ _ hback)

/-- **Edges without a cycle have a rank**: adding them one by one, each finds no path back. -/
theorem exists_rank_of_not_cycle (h : ∀ id, ¬TransGen (Joined edges) id id) :
    ∃ rank : Nat → Nat, ∀ e ∈ edges, rank e.source < rank e.target := by
  induction edges using reverseRecOn with
  | nil => exact ⟨id, nofun⟩
  | append_singleton edges e ih =>
    have hmono : ∀ a b, Joined edges a b → Joined (edges ++ [e]) a b :=
      fun _ _ => Joined.mono (subset_append_left _ _)
    obtain ⟨rank, hrank⟩ := ih fun id hcycle => h id (TransGen.mono hmono _ _ hcycle)
    exact exists_rank_append hrank fun hback => h e.source (cycle_append hback)

/-! ### Orders -/

/-- Along a rank there are no nodes of which each has a producer among them: one of least rank has
none. -/
theorem eq_nil_of_sources (hrank : ∀ f ∈ edges, rank f.source < rank f.target)
    (h : ∀ id ∈ ids, ∃ source, Joined edges source id ∧ source ∈ ids) : ids = [] := by
  have hnot : ∀ n id, rank id = n → id ∉ ids := by
    intro n
    induction n using Nat.strongRecOn with
    | ind n ih =>
      intro id hn hid
      obtain ⟨_, ⟨f, hf, rfl, rfl⟩, hsource⟩ := h id hid
      exact ih _ (hn ▸ hrank f hf) f.source rfl hsource
  exact eq_nil_iff_forall_not_mem.2 fun id => hnot (rank id) id rfl

/-- If no node is ready, each has a producer among them, provided that the edges come from these
nodes. -/
theorem exists_source_of_ready?_eq_none (hsources : ∀ f ∈ edges, f.source ∈ ids)
    (hnone : ready? edges ids = none) :
    ∀ id ∈ ids, ∃ source, Joined edges source id ∧ source ∈ ids := by
  intro id hid
  rw [ready?, find?_eq_none] at hnone
  have hentered := hnone id hid
  simp only [Bool.not_eq_true, Bool.not_eq_false', List.any_eq_true, beq_iff_eq] at hentered
  obtain ⟨f, hf, htarget⟩ := hentered
  exact ⟨f.source, ⟨f, hf, rfl, htarget⟩, hsources f hf⟩

/-- Scheduling places every node, if the edges come from these nodes and go upwards along a rank. -/
theorem schedule_of_rank (hrank : ∀ f ∈ edges, rank f.source < rank f.target)
    (hsources : ∀ f ∈ edges, f.source ∈ ids) : (schedule edges ids).2 = [] := by
  induction edges, ids using schedule.induct with
  | case1 edges ids hnone =>
    rw [schedule, hnone]
    exact eq_nil_of_sources hrank (exists_source_of_ready?_eq_none hsources hnone)
  | case2 edges ids id hid placed stuck _ ih =>
    rw [schedule, hid]
    refine ih (fun f hf => hrank f (mem_filter.1 hf).1) fun f hf => ?_
    obtain ⟨hf, hsource⟩ := mem_filter.1 hf
    exact (mem_erase_of_ne (by simpa using hsource)).2 (hsources f hf)

variable {κ : Type} {g : Graph κ} {order : List Nat}

/-- A graph whose operators are joined upwards along a rank has an order, whatever its other
edges. -/
theorem exists_order_of_innerEdges (hrank : ∀ f ∈ g.innerEdges, rank f.source < rank f.target) :
    ∃ order, g.order = .ok order := by
  refine ⟨(schedule g.innerEdges g.ids).1, order_eq_ok_iff.2 (Prod.ext rfl ?_)⟩
  exact schedule_of_rank hrank fun f hf => (mem_innerEdges.1 hf).2.1

/-- **A graph without cycles has an order.** -/
theorem exists_order (hrank : ∀ f ∈ g.edges, rank f.source < rank f.target) :
    ∃ order, g.order = .ok order :=
  exists_order_of_innerEdges fun f hf => hrank f (mem_innerEdges.1 hf).1

theorem idxOf_lt_of_order (h : g.order = .ok order) (he : e ∈ g.innerEdges) :
    order.idxOf e.source < order.idxOf e.target := by
  obtain ⟨he, hsource, htarget⟩ := mem_innerEdges.1 he
  exact ranks_of_order h _ htarget _ (mem_producers.2 ⟨e, he, rfl, rfl⟩) hsource

/-- Some path along the edges between the operators of a graph comes back to where it started. -/
def Cyclic (g : Graph κ) : Prop := ∃ id, TransGen (Joined g.innerEdges) id id

/-- **A graph has an order exactly if it has no cycle.** -/
theorem exists_order_iff : (∃ order, g.order = .ok order) ↔ ¬g.Cyclic := by
  constructor
  · rintro ⟨order, horder⟩ ⟨id, hcycle⟩
    exact @not_cycle_of_rank _ (order.idxOf ·) (fun _ => idxOf_lt_of_order horder) id hcycle
  · intro hnot
    obtain ⟨rank, hrank⟩ := exists_rank_of_not_cycle fun id hcycle => hnot ⟨id, hcycle⟩
    exact exists_order_of_innerEdges hrank

/-- A graph that has no order has a cycle, and that is what is reported. -/
theorem order_eq_error {failure : Failure} (h : g.order = .error failure) :
    ∃ fault, failure = .cyclicGraph fault := by
  unfold Graph.order at h
  split at h
  · cases h
  · cases h
    exact ⟨_, rfl⟩

end Dataflow.Graph
