/-
**Rules come to an end.**

Every move of a filter makes the potential of a graph smaller: whatever leads to an operator after
the move led to it before, and the operator that the filter moved before does not lead to the filter
any more.  Every fusion removes a projection.  Both numbers are told by the edges and by the
operators apart from the graphs inside them, so a change inside a pipeline makes the sum over all
levels smaller, and annotations do not matter.

Main results:

* `Graph.total_replaceInner_lt` — what gets smaller inside a pipeline gets smaller in the graph
  around it;
* `Graph.Moved.reaches` — a move adds no paths, except around the filter;
* `Graph.Moved.pushPotential_lt` — **every move makes the potential smaller**;
* `Graph.Fused.projectionCount_lt` — **every fusion makes the number of projections smaller**.
-/

import Dataflow.Proofs.Graph.Reach
import Dataflow.Proofs.Optimization.Preservation
import Mathlib.Algebra.Order.BigOperators.Group.List

namespace Dataflow.Graph

open List Relation

variable {g g' h h' : Dag} {id : Nat} {count : Dag → Nat}

/-! ### Sums over all levels -/

theorem foldr_total (inner : Table Nat) (n : Nat) :
    inner.foldr (fun (_, n) sum => n + sum) n = n + (inner.map (·.2)).sum := by
  induction inner with
  | nil => rfl
  | cons e inner ih =>
    obtain ⟨_, k⟩ := e
    simp only [foldr_cons, ih, map_cons, sum_cons]
    omega

theorem total_eq (count : Dag → Nat) (hascending : g.ids.Pairwise (· < ·)) : g.total count =
    count g + (g.ids.map fun id => ((g.inner? id).map (total count)).getD 0).sum := by
  have hinner : g.nodes.map (fun n => ((g.inner? n.id).map (total count)).getD 0) =
      g.nodes.map fun n => (n.kind.inner?.map (total count)).getD 0 := by
    refine map_congr_left fun n hn => ?_
    rw [inner?, node?_of_mem hascending hn, Option.bind_some]
  have hsum : ∀ nodes : List (Node Operator),
      ((nodes.filterMap fun n => n.kind.inner?.map (n.id, ·)).map fun e => e.2.total count).sum =
        (nodes.map fun n => (n.kind.inner?.map (total count)).getD 0).sum := by
    intro nodes
    induction nodes with
    | nil => rfl
    | cons n nodes ih => cases hn : n.kind.inner? <;> simp [hn, ih]
  rw [total, fold_eq, foldr_total, ids, List.map_map, List.map_map]
  refine congrArg (count g + ·) ((hsum g.nodes).trans ?_)
  exact congrArg List.sum hinner.symm

/-- The numbers of a graph that are told by its edges and by its operators apart from the graphs
inside them. -/
def Shallow (count : Dag → Nat) : Prop :=
  ∀ g g' : Dag, g.ids.Pairwise (· < ·) → g'.edges = g.edges →
    g'.shells = g.shells → count g' = count g

/-- What gets smaller inside a pipeline gets smaller in the graph around it. -/
theorem total_replaceInner_lt (hcount : Shallow count) (hascending : g.ids.Pairwise (· < ·))
    (hid : g.inner? id = some h) (hlt : h'.total count < h.total count) :
    (g.replaceInner id h').total count < g.total count := by
  have hsame : count (g.replaceInner id h') = count g :=
    hcount _ _ hascending rfl (shells_replaceInner g id h')
  obtain ⟨node, n, hnode, -⟩ := inner?_eq_some_iff.1 hid
  rw [total_eq count (ids_replaceInner g id h' ▸ hascending), total_eq count hascending,
    hsame, ids_replaceInner]
  refine Nat.add_lt_add_left (sum_lt_sum _ _ (fun m _ => ?_) ⟨id, mem_ids_of_node? hnode, ?_⟩) _
  · rw [inner?_replaceInner]
    by_cases hm : m = id
    · rw [if_pos hm, hm, hid]
      exact Nat.le_of_lt hlt
    · rw [if_neg hm]
  · rw [inner?_replaceInner, if_pos rfl, hid]
    exact hlt

/-- What gets smaller at one level gets smaller over all levels, if no graph inside is added. -/
theorem total_lt_of_sublist (hascending : g.ids.Pairwise (· < ·)) (hsub : g'.ids.Sublist g.ids)
    (hinner : ∀ id ∈ g'.ids, g'.inner? id = g.inner? id) (hlt : count g' < count g) :
    g'.total count < g.total count := by
  have hsum : (g'.ids.map fun id => ((g'.inner? id).map (total count)).getD 0).sum ≤
      (g.ids.map fun id => ((g.inner? id).map (total count)).getD 0).sum := by
    rw [map_congr_left fun id hid => by rw [hinner id hid]]
    exact (hsub.map _).sum_le_sum fun _ _ => Nat.zero_le _
  rw [total_eq count (hascending.sublist hsub), total_eq count hascending]
  omega

/-- Annotations do not matter for numbers that do not look inside pipelines, summed over all
levels. -/
theorem Alike.total_eq (hcount : Shallow count) (hg : g.Numbered) (hgh : Alike g g') :
    g'.total count = g.total count := by
  induction hg generalizing g' with
  | @intro g hascending _ ih =>
    rw [Graph.total_eq count (hgh.ids ▸ hascending), Graph.total_eq count hascending,
      hcount g g' hascending hgh.edges.symm hgh.shells.symm, ← hgh.ids]
    refine congrArg (count g + List.sum ·) (map_congr_left fun id _ => ?_)
    cases ha : g.inner? id with
    | none =>
      cases hb : g'.inner? id with
      | none => rfl
      | some b =>
        obtain ⟨a, ha'⟩ := inner?_of_shells hgh.shells.symm hb
        rw [ha] at ha'
        cases ha'
    | some a =>
      obtain ⟨b, hb⟩ := inner?_of_shells hgh.shells ha
      rw [hb, Option.map_some, Option.map_some, ih id a ha (hgh.inside ha hb)]

/-! ### Operators of a sort -/

/-- Whether there is an operator of a sort under a number. -/
def hasSort (g : Dag) (p : Operator → Bool) (id : Nat) : Bool := (g.node? id).any fun n => p n.kind

variable {p : Operator → Bool} {n : Node Operator}

theorem hasSort_of_mem (hascending : g.ids.Pairwise (· < ·)) (hn : n ∈ g.nodes) :
    g.hasSort p n.id = p n.kind := by
  rw [hasSort, node?_of_mem hascending hn, Option.any_some]

theorem hasSort_eq (hn : g.node? id = some n) : g.hasSort p id = p n.kind := by
  rw [hasSort, hn, Option.any_some]

theorem hasSort_of_shells (hp : ∀ op op' : Operator, op.shell = op'.shell → p op = p op')
    (hshells : g'.shells = g.shells) (id : Nat) : g'.hasSort p id = g.hasSort p id := by
  cases hn : g.node? id with
  | some n =>
    obtain ⟨m, hm, hshell⟩ := node?_of_shells hshells.symm hn
    rw [hasSort_eq hm, hasSort_eq hn, hp _ _ hshell]
  | none =>
    cases hm : g'.node? id with
    | none => rw [hasSort, hasSort, hn, hm]
    | some m =>
      obtain ⟨n, hn', -⟩ := node?_of_shells hshells hm
      rw [hn] at hn'
      cases hn'

theorem countP_lt_countP {α : Type} {p q : α → Bool} {xs : List α} {a : α} (ha : a ∈ xs)
    (himp : ∀ x ∈ xs, p x = true → q x = true) (hp : p a = false) (hq : q a = true) :
    xs.countP p < xs.countP q := by
  induction xs with
  | nil => cases ha
  | cons x xs ih =>
    rw [forall_mem_cons] at himp
    have hle : xs.countP p ≤ xs.countP q := countP_mono_left himp.2
    rw [countP_cons, countP_cons]
    rcases mem_cons.1 ha with rfl | ha
    · simp only [hp, hq, Bool.false_eq_true, if_false, if_true]
      omega
    · have hlt := ih ha himp.2
      have hx := himp.1
      by_cases hpx : p x = true
      · simp only [hpx, hx hpx, if_true]
        omega
      · simp only [hpx, if_false, Bool.false_eq_true]
        omega

/-! ### Moves -/

theorem pushPotential_eq (hascending : g.ids.Pairwise (· < ·)) : g.pushPotential =
    ((g.ids.filter (g.hasSort (·.filter?.isSome))).map fun f =>
      g.ids.countP fun n => g.hasSort admitsFilters n && g.reaches n f).sum := by
  have hfilter : g.ids.filter (g.hasSort (·.filter?.isSome)) =
      (g.nodes.filter (·.kind.filter?.isSome)).map (·.id) := by
    rw [ids, List.filter_map]
    refine congrArg (List.map _) (filter_congr fun n hn => ?_)
    exact hasSort_of_mem hascending hn
  have hcount : ∀ f, (g.ids.countP fun n => g.hasSort admitsFilters n && g.reaches n f) =
      g.nodes.countP fun n => admitsFilters n.kind && g.reaches n.id f := by
    intro f
    rw [ids, countP_map]
    refine countP_congr fun n hn => ?_
    rw [Function.comp_apply, hasSort_of_mem hascending hn]
  simp only [hcount]
  rw [pushPotential, hfilter, List.map_map, sum_eq_foldr, foldr_map]
  rfl

theorem shallow_pushPotential : Shallow pushPotential := by
  intro g g' hascending hedges hshells
  have hids := ids_eq_of_shells hshells
  rw [pushPotential_eq hascending, pushPotential_eq (hids ▸ hascending), hids]
  have hfilter : ∀ op op' : Operator, op.shell = op'.shell →
      op.filter?.isSome = op'.filter?.isSome := by
    intro op op' h
    cases op <;> cases op' <;> simp_all [Operator.shell, Operator.filter?]
  have hadmits : ∀ op op' : Operator, op.shell = op'.shell →
      admitsFilters op = admitsFilters op' := by
    intro op op' h
    cases op <;> cases op' <;> simp_all [Operator.shell, admitsFilters]
  simp only [funext (hasSort_of_shells hfilter hshells),
    hasSort_of_shells hadmits hshells, reaches, hedges]

theorem Wired.joined_iff (hg : g.Wired) {source target : Nat} : Joined g.edges source target ↔
    ∃ slot, g.producer? target slot = some source := by
  simp only [producer?_eq_some_iff hg.once, Joined, Edge.port, Prod.mk.injEq]
  constructor
  · rintro ⟨e, he, hsource, htarget⟩
    exact ⟨e.targetSlot, e, he, ⟨htarget, rfl⟩, hsource⟩
  · rintro ⟨_, e, he, ⟨htarget, -⟩, hsource⟩
    exact ⟨e, he, hsource, htarget⟩

namespace Moved

variable {filter below slot source : Nat} {e e' : Expr}
variable (hm : Moved g g' filter below slot source e e')

include hm

/-- **A move adds no paths**, except that the filter is reached through the source: whatever leads
to an operator after the move led to it before. -/
theorem reaches (hg : g.Wired) {n m : Nat} (hn : n ≠ filter)
    (hpath : ReflTransGen (Joined g'.edges) n m) :
    ReflTransGen (Joined g.edges) n (if m = filter then source else m) := by
  have hjoin : ∀ {id s q : Nat}, g.producer? id s = some q → Joined g.edges q id :=
    fun h => hg.joined_iff.2 ⟨_, h⟩
  induction hpath with
  | refl => rw [if_neg hn]
  | @tail y x _ hstep ih =>
    obtain ⟨s, hs⟩ := (hm.wired_here hg).joined_iff.1 hstep
    have hx : ∀ {q}, g.producer? x s = some q → ¬(x = filter ∧ s = 0) → x ≠ filter := by
      rintro q hq hne rfl
      exact hne ⟨rfl, hm.slot_of_filter hg hq⟩
    rcases hm.producer?_cases hs with ⟨rfl, -, rfl⟩ | ⟨rfl, -, rfl⟩ | ⟨hs, hne, rfl⟩ | ⟨hs, hne, hy⟩
    · rw [if_neg (hm.ne_of_feeds hg hm.feeds).2] at ih
      rwa [if_pos rfl]
    · rw [if_pos rfl] at ih
      rw [if_neg (hm.below_ne_filter hg)]
      exact ih.tail (hjoin hm.feeds)
    · -- What read the filter reads the operator, and did so through the filter.
      rw [if_neg (hm.below_ne_filter hg)] at ih
      rw [if_neg (hx hs hne)]
      exact (ih.tail (hjoin hm.reads)).tail (hjoin hs)
    · rw [if_neg hy] at ih
      rw [if_neg (hx hs hne)]
      exact ih.tail (hjoin hs)

theorem not_reaches (hg : g.Wired) : ¬ReflTransGen (Joined g'.edges) below filter := by
  obtain ⟨rank, hrank⟩ := hg.acyclic
  intro hpath
  have hback := hm.reaches hg (hm.below_ne_filter hg) hpath
  rw [if_pos rfl] at hback
  have hedges : ∀ e ∈ g.edges, rank e.source < rank e.target := fun e he =>
    hrank _ _ _ ((producer?_eq_some_iff hg.once).2 ⟨e, he, rfl, rfl⟩)
  exact Nat.not_lt.2 (rank_le_of_path hedges hback) (hm.ranked hrank).1

theorem hasSort (p : Operator → Bool)
    (hp : p (.primitive (.filter e')) = p (.primitive (.filter e))) (id : Nat) :
    g'.hasSort p id = g.hasSort p id := by
  rw [Graph.hasSort, Graph.hasSort, hm.node?]
  by_cases hid : id = filter
  · obtain ⟨node, hnode, hkind⟩ := hm.isFilter
    rw [hid, hnode]
    simpa [hkind] using hp
  · cases g.node? id <;> simp [hid]

theorem pushPotential_here_lt (hg : g.Wired) (hadmits : g.hasSort admitsFilters below = true) :
    g'.pushPotential < g.pushPotential := by
  obtain ⟨node, hnode, hkind⟩ := hm.isFilter
  have hsource := hg.feeds _ _ _ hm.feeds
  have hne : ∀ n, g.hasSort admitsFilters n = true → n ≠ filter := by
    rintro n hn rfl
    rw [hasSort_eq hnode, hkind] at hn
    cases hn
  -- A filter is reached from fewer operators, and the moved one not from the operator it moved
  -- before.
  have himp : ∀ f n, (g'.hasSort admitsFilters n && g'.reaches n f) = true →
      (g.hasSort admitsFilters n && g.reaches n f) = true := by
    intro f n h
    rw [Bool.and_eq_true, hm.hasSort _ rfl, reaches_iff] at h
    obtain ⟨hn, hpath⟩ := h
    have hback := hm.reaches hg (hne n hn) hpath
    rw [Bool.and_eq_true, reaches_iff]
    refine ⟨hn, ?_⟩
    by_cases hf : f = filter
    · rw [if_pos hf] at hback
      rw [hf]
      exact (hback.tail (hg.joined_iff.2 ⟨_, hm.feeds⟩)).tail (hg.joined_iff.2 ⟨_, hm.reads⟩)
    · rwa [if_neg hf] at hback
  rw [pushPotential_eq hg.ascending, pushPotential_eq (hm.ids ▸ hg.ascending), hm.ids,
    funext (hm.hasSort (·.filter?.isSome) rfl)]
  refine sum_lt_sum _ _ (fun f _ => countP_mono_left fun n _ => himp f n)
    ⟨filter, mem_filter.2 ⟨mem_ids_of_node? hnode, ?_⟩, ?_⟩
  · rw [hasSort_eq hnode, hkind]
    rfl
  · refine countP_lt_countP hsource.1 (fun n _ => himp filter n) ?_ ?_
    · rw [Bool.and_eq_false_iff, ← Bool.not_eq_true (g'.reaches below filter), reaches_iff]
      exact .inr (hm.not_reaches hg)
    · rw [Bool.and_eq_true, reaches_iff]
      exact ⟨hadmits, .single (hg.joined_iff.2 ⟨_, hm.reads⟩)⟩

/-- **Every move makes the potential smaller.** -/
theorem pushPotential_lt (hg : g.Wired) (hadmits : g.hasSort admitsFilters below = true) :
    g'.total Graph.pushPotential < g.total Graph.pushPotential :=
  total_lt_of_sublist hg.ascending (hm.ids ▸ .refl _) (fun id _ => hm.inner? id)
    (hm.pushPotential_here_lt hg hadmits)

end Moved

/-! ### Fusions -/

theorem projectionCount_eq (hascending : g.ids.Pairwise (· < ·)) :
    g.projectionCount = g.ids.countP (g.hasSort (·.projection?.isSome)) := by
  rw [projectionCount, ids, countP_map]
  exact countP_congr fun n hn => by rw [Function.comp_apply, hasSort_of_mem hascending hn]

theorem shallow_projectionCount : Shallow projectionCount := by
  intro g g' hascending _ hshells
  have hids := ids_eq_of_shells hshells
  rw [projectionCount_eq hascending, projectionCount_eq (hids ▸ hascending), hids]
  have hprojection : ∀ op op' : Operator, op.shell = op'.shell →
      op.projection?.isSome = op'.projection?.isSome := by
    intro op op' h
    cases op <;> cases op' <;> simp_all [Operator.shell, Operator.projection?]
  rw [funext (hasSort_of_shells hprojection hshells)]

namespace Fused

variable {outer inner source : Nat} {selected fields positions : List Nat}
variable (hf : Fused g g' outer inner source selected fields positions)

include hf

theorem projectionCount_here_lt (hg : g.Wired) : g'.projectionCount < g.projectionCount := by
  obtain ⟨node, hnode, hkind⟩ := hf.isInner
  rw [projectionCount_eq hg.ascending, projectionCount_eq (hf.wired_here hg).ascending,
    hf.ids, countP_filter]
  refine countP_lt_countP (mem_ids_of_node? hnode) (fun id _ h => ?_) (by simp) ?_
  · rw [Bool.and_eq_true, bne_iff_ne, Graph.hasSort, hf.node?, if_neg (by simp_all)] at h
    by_cases hid : id = outer
    · obtain ⟨node', hnode', hkind'⟩ := hf.isOuter
      rw [hid, hasSort_eq hnode', hkind']
      rfl
    · simpa [hasSort, hid] using h.1
  · rw [hasSort_eq hnode, hkind]
    rfl

/-- **Every fusion makes the number of projections smaller.** -/
theorem projectionCount_lt (hg : g.Wired) :
    g'.total Graph.projectionCount < g.total Graph.projectionCount := by
  refine total_lt_of_sublist hg.ascending (hf.ids ▸ filter_sublist) (fun id hid => ?_)
    (hf.projectionCount_here_lt hg)
  rw [hf.ids, mem_filter, bne_iff_ne] at hid
  rw [Graph.inner?, Graph.inner?, hf.node?, if_neg hid.2]
  by_cases hout : id = outer
  · obtain ⟨node, hnode, hkind⟩ := hf.isOuter
    rw [hout, hnode]
    simp [hkind, Operator.inner?]
  · cases g.node? id <;> simp [hout]

end Fused

end Dataflow.Graph
