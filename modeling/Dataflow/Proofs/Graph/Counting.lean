/-
**Scheduling with counters.**

An order can be found without going through all edges again for every node.  Each node has a counter
of the edges that enter it and whose source is not placed yet.  The smallest node with a counter at
zero is placed, and every edge that leaves it is counted off at its target.  Along every graph this
places the nodes as scheduling does, and no counter at zero is ever counted down: a counter is exact
at every turn, whatever edges there are.

Main definitions:

* `Table.tabulate` — the table of a function on some numbers;
* `Graph.Counting` — the counters, and the nodes that are ready to be placed;
* `Graph.Counting.countOff`, `Graph.Counting.run` — an edge is counted off, and turn after turn;
* `Graph.countedOrder` — the order that the counters give;
* `Graph.Counting.Tracks` — the counters are those of the edges from the nodes that are left.

Main results:

* `Graph.Counting.exists_countOff` — what counting off the edges of a node does;
* `Graph.Counting.Tracks.step` — **a turn keeps the counters exact**;
* `Graph.Counting.Tracks.run` — all turns together schedule the nodes;
* `Graph.countedOrder_eq` — **the counters give the order**;
* `Graph.least_order_or_stuck` — **the least order, or the nodes on a cycle or behind one**.
-/

import Dataflow.Proofs.Graph.Scheduling
import Mathlib.Data.List.Sort

namespace Dataflow

open List Option

variable {id : Nat}

/-! ### Tables of a function -/

namespace Table

variable {α : Type} {ids : List Nat}

/-- The table of a function on some numbers. -/
def tabulate (ids : List Nat) (f : Nat → α) : Table α := ids.map fun id => (id, f id)

theorem get?_tabulate (ids : List Nat) (f : Nat → α) (n : Nat) :
    (tabulate ids f).get? n = if n ∈ ids then some (f n) else none := by
  induction ids with
  | nil => rfl
  | cons id ids ih =>
    simp only [tabulate, map_cons, get?_cons, mem_cons] at ih ⊢
    grind

theorem tabulate_congr {f f' : Nat → α} (h : ∀ id ∈ ids, f id = f' id) :
    tabulate ids f = tabulate ids f' :=
  map_congr_left fun id hid => by rw [h id hid]

theorem put_tabulate (hids : ids.Pairwise (· < ·)) {n : Nat} (hn : n ∈ ids) (f : Nat → α) (a : α) :
    put n a (tabulate ids f) = tabulate ids (Function.update f n a) := by
  induction ids with
  | nil => exact absurd hn not_mem_nil
  | cons id ids ih =>
    obtain ⟨hfirst, hids⟩ := pairwise_cons.1 hids
    simp only [tabulate, map_cons, put] at ih ⊢
    rcases mem_cons.1 hn with rfl | hn
    · have hrest : tabulate ids (Function.update f n a) = tabulate ids f :=
        tabulate_congr fun id hid => Function.update_of_ne (Nat.ne_of_gt (hfirst id hid)) a f
      rw [if_neg (Nat.lt_irrefl n), if_pos rfl, Function.update_self]
      exact congrArg _ hrest.symm
    · have hlt := hfirst n hn
      rw [if_neg (Nat.lt_asymm hlt), if_neg (Nat.ne_of_gt hlt), ih hids hn,
        Function.update_of_ne (Nat.ne_of_lt hlt)]

theorem map_filter_tabulate (ids : List Nat) (f : Nat → α) (p : α → Bool) :
    ((tabulate ids f).filter fun entry => p entry.2).map (·.1) = ids.filter fun id => p (f id) := by
  rw [tabulate, List.filter_map, List.map_map]
  exact List.map_id _

end Table

namespace Graph

/-! ### The algorithm -/

/-- How many edges from nodes that are not placed enter each node, and the nodes that are ready:
those that none enters, and that are not placed. -/
structure Counting where
  entering : Table Nat
  ready : NatSet

namespace Counting

/-- Counts off an edge to a node, which is ready if that was the last one.  A node without a counter
is passed over.  A counter at zero cannot be counted down. -/
def countOff (c : Counting) (target : Nat) : Option Counting :=
  match c.entering.get? target with
  | none => some c
  | some 0 => none
  | some (n + 1) =>
    some ⟨c.entering.put target n, if n = 0 then NatSet.insert target c.ready else c.ready⟩

/-- Places the first node that is ready and counts off the edges that leave it, until none is ready:
the nodes that were placed, and the counters at the end.  The turns are limited. -/
def run (edges : List Edge) : Nat → Counting → Option (List Nat × Table Nat)
  | _, ⟨entering, []⟩ => some ([], entering)
  | 0, _ => none
  | turns + 1, ⟨entering, id :: ready⟩ => do
    let c ← (targetsOf edges id).foldlM countOff ⟨entering, ready⟩
    let (placed, left) ← run edges turns c
    pure (id :: placed, left)

end Counting

variable {κ : Type}

/-- Counts an edge at its target, if both of its ends are there. -/
def countIn (g : Graph κ) (table : Table Nat) (e : Edge) : Table Nat :=
  if g.contains e.source then
    match table.get? e.target with
    | none => table
    | some n => table.put e.target (n + 1)
  else table

/-- The counters of a graph before any node is placed. -/
def entering (g : Graph κ) : Table Nat := g.edges.foldl g.countIn (Table.tabulate g.ids fun _ => 0)

/-- The order that the counters give, with a turn for every node; nothing if a counter at zero would
be counted down.  Without an order, the nodes are reported whose counters are not at zero. -/
def countedOrder (g : Graph κ) : Option (Outcome (List Nat)) := do
  let ready := (g.entering.filter (·.2 == 0)).map (·.1)
  let (placed, left) ← Counting.run g.edges g.size ⟨g.entering, ready⟩
  if placed.length = left.length then pure (.ok placed)
  else pure (.error (.cyclicGraph (.stuck ((left.filter (0 < ·.2)).map (·.1)))))

/-! ### Counting edges -/

variable {edges : List Edge} {ids : List Nat}

/-- The number of edges that enter a node. -/
def entries (edges : List Edge) (id : Nat) : Nat := edges.countP (·.target == id)

theorem entries_eq_zero : entries edges id = 0 ↔ ∀ e ∈ edges, e.target ≠ id := by
  simp only [entries, countP_eq_zero, beq_iff_eq, ne_eq]

theorem entries_dropSource (edges : List Edge) (source id : Nat) :
    entries edges id = (targetsOf edges source).count id +
      entries (dropSource edges source) id := by
  rw [targetsOf, count_eq_countP, countP_map, entries, entries, dropSource]
  exact countP_eq_countP_filter_add edges (·.target == id) (·.source == source)

/-- Where the edges of a node lead, if only edges of other nodes are left out. -/
theorem targetsOf_filter {p : Nat → Bool} (h : p id = true) :
    targetsOf (edges.filter fun e => p e.source) id = targetsOf edges id := by
  rw [targetsOf, targetsOf, List.filter_filter]
  refine congrArg _ (filter_congr fun e _ => ?_)
  by_cases hid : e.source = id
  · rw [hid, h, Bool.and_true]
  · rw [beq_false_of_ne hid, Bool.false_and]

theorem count_targetsOf (edges : List Edge) (source id : Nat) :
    (targetsOf edges source).count id = edges.countP fun e => e.target == id &&
      e.source == source := by
  rw [targetsOf, count_eq_countP, countP_map, countP_filter]
  rfl

/-- The node that is ready is the first one that no edge enters. -/
theorem ready?_eq_head? (edges : List Edge) (ids : List Nat) :
    ready? edges ids = (ids.filter (entries edges · == 0)).head? := by
  rw [head?_filter, ready?]
  congr 1
  funext id
  rw [Bool.eq_iff_iff, beq_iff_eq, entries_eq_zero]
  simp only [Bool.not_eq_true', List.any_eq_false, beq_iff_eq, ne_eq]

theorem mem_filter_entries : id ∈ ids.filter (entries edges · == 0) ↔ id ∈ ids ∧
      entries edges id = 0 := by
  rw [mem_filter, beq_iff_eq]

/-! ### One turn -/

namespace Counting

open Table

/-- **What counting off the edges of a node does**: if the counters of the targets count these
edges, no counter fails, each loses as many as there are edges, and the targets at zero become
ready. -/
theorem exists_countOff (hids : ids.Pairwise (· < ·)) (targets : List Nat)
    (f : Nat → Nat) {ready : NatSet} (hready : ready.Pairwise (· < ·)) :
    ∃ ready' : NatSet,
      targets.foldlM countOff ⟨tabulate ids fun id => targets.count id + f id, ready⟩ =
        some ⟨tabulate ids f, ready'⟩ ∧ ready'.Pairwise (· < ·) ∧
      ∀ id, id ∈ ready' ↔ id ∈ ready ∨ id ∈ ids ∧ id ∈ targets ∧ f id = 0 := by
  induction targets generalizing ready with
  | nil => exact ⟨ready, by simp, hready, by simp⟩
  | cons target targets ih =>
    by_cases htarget : target ∈ ids
    · have hcount : (target :: targets).count target + f target =
          targets.count target + f target + 1 := by
        rw [count_cons_self]
        omega
      have hput : put target (targets.count target + f target)
          (tabulate ids fun id => (target :: targets).count id + f id) =
          tabulate ids fun id => targets.count id + f id := by
        rw [put_tabulate hids htarget]
        refine tabulate_congr fun id _ => ?_
        by_cases hid : id = target
        · rw [hid, Function.update_self]
        · rw [Function.update_of_ne hid, count_cons_of_ne (Ne.symm hid)]
      have hnext : (if targets.count target + f target = 0 then NatSet.insert target ready
          else ready).Pairwise (· < ·) := by
        split
        · exact NatSet.pairwise_insert hready target
        · exact hready
      obtain ⟨ready', hfold, hascending, hmem⟩ := ih hnext
      refine ⟨ready', ?_, hascending, fun id => ?_⟩
      · rw [foldlM_cons, countOff, get?_tabulate, if_pos htarget, hcount]
        simpa only [hput, bind_eq_bind, bind_some] using hfold
      · rw [hmem]
        -- The target is ready now, or later if another edge to it follows.
        have hlater : 0 < targets.count target ↔ target ∈ targets := count_pos_iff
        split <;> grind [NatSet.mem_insert]
    · have hsame : (tabulate ids fun id => (target :: targets).count id + f id) =
          tabulate ids fun id => targets.count id + f id :=
        tabulate_congr fun id hid => by
          rw [count_cons_of_ne (fun heq : target = id => htarget (heq ▸ hid))]
      obtain ⟨ready', hfold, hascending, hmem⟩ := ih hready
      refine ⟨ready', ?_, hascending, fun id => ?_⟩
      · rw [foldlM_cons, countOff, get?_tabulate, if_neg htarget, hsame]
        exact hfold
      · rw [hmem]
        grind

/-- The counters of the nodes `all` of a graph with edges `whole`, when the nodes `ids` are left,
and `edges` are the edges between nodes of which the source is left. -/
structure Tracks (whole : List Edge) (all : List Nat) (c : Counting) (edges : List Edge)
    (ids : List Nat) : Prop where
  entering : c.entering = tabulate all (entries edges)
  ready : c.ready = ids.filter (entries edges · == 0)
  left : ids.Sublist all
  placed : ∀ id ∈ all, id ∉ ids → entries edges id = 0
  leaving : ∀ source ∈ ids, ∀ target ∈ all,
    (targetsOf whole source).count target = (targetsOf edges source).count target

variable {whole : List Edge} {all : List Nat} {c : Counting}

/-- The edges from a node that is left are among those of the whole graph that are counted. -/
theorem Tracks.entries_eq (h : Tracks whole all c edges ids) {id m : Nat}
    (hid : id ∈ ids) (hm : m ∈ all) :
    entries edges m = (targetsOf whole id).count m + entries (dropSource edges id) m := by
  rw [h.leaving id hid m hm, entries_dropSource edges id m]

/-- **A turn keeps the counters exact**: the node that is placed is the one of scheduling, and
counting off its edges does not fail. -/
theorem Tracks.step (hall : all.Pairwise (· < ·)) (h : Tracks whole all c edges ids)
    (hid : ready? edges ids = some id) : ∃ ready c', c.ready = id :: ready ∧
      (targetsOf whole id).foldlM countOff ⟨c.entering, ready⟩ = some c' ∧
      Tracks whole all c' (dropSource edges id) (ids.erase id) := by
  have hascending := hall.sublist h.left
  rw [ready?_eq_head?, ← h.ready] at hid
  obtain ⟨ready, hready⟩ := head?_eq_some_iff.1 hid
  have hfilter := h.ready.symm.trans hready
  obtain ⟨hfirst, hzero⟩ := mem_filter_entries.1 (hfilter ▸ mem_cons_self)
  have hcounters := h.entering.trans (tabulate_congr fun m => h.entries_eq hfirst)
  have hsorted : (id :: ready).Pairwise (· < ·) := hfilter ▸ hascending.sublist filter_sublist
  obtain ⟨ready', hfold, hascending', hmem⟩ :=
    exists_countOff hall (targetsOf whole id) (entries (dropSource edges id))
      (pairwise_cons.1 hsorted).2
  refine ⟨ready, ⟨_, ready'⟩, hready, hcounters ▸ hfold, rfl, ?_,
    erase_sublist.trans h.left, ?_, ?_⟩
  · -- Ready are the nodes that were, and those whose last edge was counted off.
    refine hascending'.eq_of_mem_iff ((hascending.sublist erase_sublist).sublist filter_sublist)
      fun m => ?_
    have hrest : m ∈ ready ↔ m ≠ id ∧ m ∈ ids ∧ entries edges m = 0 := by
      have hnew : id ∉ ready := (nodup_cons.1 hsorted.nodup).1
      rw [← mem_filter_entries, hfilter, mem_cons]
      grind
    have hcount : 0 < (targetsOf whole id).count m ↔ m ∈ targetsOf whole id := count_pos_iff
    have hentries := fun hm : m ∈ all => h.entries_eq hfirst hm
    have hplaced := h.placed m
    have hleft : m ∈ ids → m ∈ all := fun hm => h.left.subset hm
    rw [hmem m, hrest, mem_filter_entries, hascending.nodup.mem_erase_iff]
    grind
  · intro m hm hnot
    have hentries := h.entries_eq hfirst hm
    have hnone : entries edges m = 0 := by
      by_cases hmids : m ∈ ids
      · obtain rfl : m = id :=
          by_contra fun hne => hnot (hascending.nodup.mem_erase_iff.2 ⟨hne, hmids⟩)
        exact hzero
      · exact h.placed m hm hmids
    omega
  · intro source hsource target htarget
    obtain ⟨hne, hsource⟩ := hascending.nodup.mem_erase_iff.1 hsource
    rw [dropSource, targetsOf_filter (p := (· != id)) (bne_iff_ne.2 hne)]
    exact h.leaving source hsource target htarget

/-- What is left when no node is ready: the nodes whose counters are not at zero. -/
theorem Tracks.stuck (hall : all.Pairwise (· < ·)) (h : Tracks whole all c edges ids)
    (hnone : ready? edges ids = none) :
    c.ready = [] ∧ (c.entering.filter (0 < ·.2)).map (·.1) = ids := by
  rw [ready?_eq_head?, ← h.ready, head?_eq_none_iff] at hnone
  refine ⟨hnone, ?_⟩
  rw [h.entering, map_filter_tabulate all (entries edges) (0 < ·)]
  refine (hall.sublist filter_sublist).eq_of_mem_iff (hall.sublist h.left) fun m => ?_
  have hentered : m ∈ ids → entries edges m ≠ 0 := by
    intro hm hzero
    have hready := mem_filter_entries.2 ⟨hm, hzero⟩
    rw [← h.ready, hnone] at hready
    exact absurd hready not_mem_nil
  have hplaced := h.placed m
  have hleft : m ∈ ids → m ∈ all := fun hm => h.left.subset hm
  rw [mem_filter, decide_eq_true_eq]
  grind

/-- **All turns together schedule the nodes**, and a turn for each is enough. -/
theorem Tracks.run (hall : all.Pairwise (· < ·)) (h : Tracks whole all c edges ids) {turns : Nat}
    (hturns : ids.length ≤ turns) :
    ∃ left, Counting.run whole turns c = some ((schedule edges ids).1, left) ∧
      left.length = all.length ∧ (left.filter (0 < ·.2)).map (·.1) = (schedule edges ids).2 := by
  induction edges, ids using schedule.induct generalizing c turns with
  | case1 edges ids hnone =>
    obtain ⟨entering, ready⟩ := c
    obtain ⟨rfl, hstuck⟩ := h.stuck hall hnone
    obtain rfl := h.entering
    rw [schedule, hnone]
    exact ⟨_, by cases turns <;> rfl, List.length_map _, hstuck⟩
  | case2 edges ids id hid placed stuck _ ih =>
    obtain ⟨entering, ready⟩ := c
    obtain ⟨rest, c', rfl, hfold, hnext⟩ := h.step hall hid
    have hmem := mem_of_find?_eq_some hid
    have hlength := length_erase_of_mem hmem
    have hpos := length_pos_of_mem hmem
    cases turns with
    | zero => omega
    | succ turns =>
      have hturns' : (ids.erase id).length ≤ turns := by omega
      obtain ⟨left, hrun, hleft⟩ := ih hnext hturns'
      rw [schedule, hid]
      refine ⟨left, ?_, hleft⟩
      rw [Counting.run, hfold]
      simp only [bind_eq_bind, bind_some, hrun]
      rfl

end Counting

/-! ### Graphs -/

open Table

variable {g : Graph κ}

section

variable (hids : g.ids.Pairwise (· < ·))
include hids

theorem countIn_tabulate (f : Nat → Nat) (e : Edge) :
    g.countIn (tabulate g.ids f) e = tabulate g.ids fun id =>
      f id + if e.target == id && (g.contains e.source && g.contains e.target) then 1 else 0 := by
  rw [countIn, get?_tabulate]
  by_cases htarget : e.target ∈ g.ids
  · by_cases hsource : g.contains e.source
    · rw [if_pos hsource, if_pos htarget]
      simp only [put_tabulate hids htarget]
      refine tabulate_congr fun id _ => ?_
      by_cases hid : id = e.target
      · simp [hid, hsource, (contains_iff_mem_ids g e.target).2 htarget]
      · simp [Function.update_of_ne hid, Ne.symm hid]
    · simp [hsource]
  · have hnot : g.contains e.target = false := by
      rwa [← Bool.not_eq_true, contains_iff_mem_ids]
    simp [htarget, hnot]

/-- The counters of a graph count the edges between its nodes. -/
theorem entering_eq : g.entering = tabulate g.ids (entries g.innerEdges) := by
  have hfold : ∀ (edges : List Edge) (f : Nat → Nat), edges.foldl g.countIn (tabulate g.ids f) =
      tabulate g.ids fun id => f id +
        edges.countP fun e => e.target == id && (g.contains e.source && g.contains e.target) := by
    intro edges
    induction edges with
    | nil => exact fun f => rfl
    | cons e edges ih =>
      intro f
      rw [foldl_cons, countIn_tabulate hids, ih]
      refine tabulate_congr fun id _ => ?_
      rw [countP_cons]
      omega
  rw [entering, hfold]
  refine tabulate_congr fun id _ => ?_
  rw [Nat.zero_add, entries, innerEdges, countP_filter]

theorem tracks_entering :
    Counting.Tracks g.edges g.ids ⟨g.entering, (g.entering.filter (·.2 == 0)).map (·.1)⟩
      g.innerEdges g.ids where
  entering := entering_eq hids
  ready := by
    rw [entering_eq hids]
    exact map_filter_tabulate g.ids (entries g.innerEdges) (· == 0)
  left := .refl _
  placed := fun id hid hnot => absurd hid hnot
  leaving := by
    intro source hsource target htarget
    rw [count_targetsOf, count_targetsOf, innerEdges, countP_filter]
    refine countP_congr fun e _ => ?_
    simp only [Bool.and_eq_true, beq_iff_eq, contains_iff_mem_ids]
    grind

/-- **The counters give the order**, and none of them at zero is counted down. -/
theorem countedOrder_eq : g.countedOrder = some g.order := by
  have hturns : g.ids.length ≤ g.size := Nat.le_of_eq (List.length_map _)
  obtain ⟨left, hrun, hlength, hstuck⟩ := (tracks_entering hids).run hids hturns
  have hperm := (perm_schedule g.innerEdges g.ids).length_eq
  rw [List.length_append] at hperm
  have hall : (schedule g.innerEdges g.ids).1.length = left.length ↔
      (schedule g.innerEdges g.ids).2 = [] := by
    rw [← List.length_eq_zero_iff]
    omega
  simp only [countedOrder, hrun, hstuck, hall, bind_eq_bind, bind_some, order_eq_ite]
  split <;> rfl

/-- The order of a graph, computed by its counters. -/
theorem order_of_counted {result : Outcome (List Nat)} (h : g.countedOrder = some result) :
    g.order = result :=
  mem_unique (countedOrder_eq hids) h

end

/-- **The order of a graph, or why it has none.**  There is an order exactly if no path along edges
between operators returns to where it started.  It lists the operators, the source of every such
edge before its target, and no other list that does so comes before it.  Otherwise the operators on
a cycle or behind one are reported, ascending.  The counters find the same, so none of them falls
below zero. -/
theorem least_order_or_stuck (hids : g.ids.Pairwise (· < ·)) :
    ((∃ order, g.order = .ok order) ↔ ¬g.Cyclic) ∧
    (∀ order, g.order = .ok order → Arranges g.innerEdges g.ids order ∧
      ∀ other, Arranges g.innerEdges g.ids other → ¬List.Lex (· < ·) other order) ∧
    (∀ failure, g.order = .error failure →
      ∃ stuck : List Nat, failure = .cyclicGraph (.stuck stuck) ∧ stuck.Pairwise (· < ·) ∧
        ∀ id, id ∈ stuck ↔ AfterCycle g.innerEdges id) ∧
    g.countedOrder = some g.order := by
  refine ⟨exists_order_iff, fun order horder => ?_, fun failure => stuck_of_order hids,
    countedOrder_eq hids⟩
  exact ⟨arranges_of_order horder, fun other => not_lex_order hids horder⟩

/-- Five operators: one edge stands there twice, another comes from an operator that there is not,
and a third leads to one. -/
def woven : Dag where
  nodes := [0, 1, 2, 3, 4].map fun id => ⟨id, .primitive .ensureSingleTuple, {}⟩
  edges := [⟨3, 0, 1, 0⟩, ⟨3, 0, 1, 0⟩, ⟨7, 0, 1, 0⟩, ⟨1, 0, 9, 0⟩, ⟨2, 0, 4, 0⟩, ⟨4, 0, 0, 0⟩]

/-- The same operators, of which one feeds itself. -/
def knotted : Dag := woven.connectUnchecked ⟨2, 0, 2, 0⟩

/-- The least order of these operators, and what has none if one feeds itself. -/
theorem woven_order_knotted_stuck :
    woven.ids.Pairwise (· < ·) ∧ woven.order = .ok [2, 3, 1, 4, 0] ∧
    (∀ other, Arranges woven.innerEdges woven.ids other → ¬List.Lex (· < ·) other [2, 3, 1, 4, 0]) ∧
    knotted.ids.Pairwise (· < ·) ∧ knotted.order = .error (.cyclicGraph (.stuck [0, 2, 4])) ∧
    ∀ id, id ∈ [0, 2, 4] ↔ AfterCycle knotted.innerEdges id := by
  have hids : woven.ids.Pairwise (· < ·) := by decide
  obtain ⟨-, hleast, -, hcounted⟩ := least_order_or_stuck hids
  obtain ⟨-, -, hstuck, hcounted'⟩ := least_order_or_stuck (g := knotted) hids
  have horder : woven.order = .ok [2, 3, 1, 4, 0] := some.inj (hcounted.symm.trans rfl)
  have horder' : knotted.order = .error (.cyclicGraph (.stuck [0, 2, 4])) :=
    some.inj (hcounted'.symm.trans rfl)
  obtain ⟨stuck, heq, -, hmem⟩ := hstuck _ horder'
  cases heq
  exact ⟨hids, horder, (hleast _ horder).2, hids, horder', hmem⟩

end Graph

end Dataflow
