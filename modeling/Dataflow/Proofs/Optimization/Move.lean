/-
**A filter moved before its producer.**

A filter that alone reads an operator changes places with it: it reads what the operator read at one
of its slots, the operator reads the filter there, and what read the filter reads the operator.  The
graph stays wired, and a model of the one graph is one of the other up to the values of the two
operators, whatever operators are interpreted by.

Main results:

* `Graph.Moved.wired` — the graph stays wired, at every level;
* `Graph.Moved.models_forth`, `Graph.Moved.models_back` — **a model of the graph before the move
  makes one of the graph after it, and conversely**, if the two operators make the value of the
  filter in either order.
-/

import Dataflow.Proofs.Meaning.Rewriting

namespace Dataflow.Graph

open List Option Interpretation

variable {node n : Node Operator}

/-- A graph before and after the filter `filter` was moved before its producer `below`, to the slot
`slot`, which `source` feeds; its predicate was `e` and is `e'` then. -/
structure Moved (g g' : Dag) (filter below slot source : Nat) (e e' : Expr) : Prop where
  isFilter : ∃ node, g.node? filter = some node ∧ node.kind = .primitive (.filter e)
  reads : g.producer? filter 0 = some below
  alone : ∀ id s, g.producer? id s = some below → id = filter ∧ s = 0
  feeds : g.producer? below slot = some source
  node? : ∀ id, g'.node? id = (g.node? id).map fun n =>
    if id = filter then { n with kind := .primitive (.filter e') } else n
  ids : g'.ids = g.ids
  once : (g'.edges.map Edge.port).Nodup
  producer? : ∀ id s, g'.producer? id s =
    if id = filter ∧ s = 0 then some source
    else if id = below ∧ s = slot then some filter
    else if g.producer? id s = some filter then some below
    else g.producer? id s
  sink : g'.sink = g.sink.map fun s => if s = filter then below else s

namespace Moved

variable {g g' : Dag} {filter below slot source id : Nat} {e e' : Expr}
  (hm : Moved g g' filter below slot source e e')

include hm

theorem isSome_producer? (id s : Nat) : (g'.producer? id s).isSome = (g.producer? id s).isSome := by
  rw [hm.producer?]
  split
  · next h => rw [h.1, h.2, hm.reads, isSome_some, isSome_some]
  · split
    · next h => rw [h.1, h.2, hm.feeds, isSome_some, isSome_some]
    · split
      · next h => rw [h, isSome_some, isSome_some]
      · rfl

theorem producer?_cases {s q : Nat} (hq : g'.producer? id s = some q) :
    (id = filter ∧ s = 0 ∧ q = source) ∨ (id = below ∧ s = slot ∧ q = filter) ∨
      (g.producer? id s = some filter ∧ ¬(id = filter ∧ s = 0) ∧ q = below) ∨
    g.producer? id s = some q ∧ ¬(id = filter ∧ s = 0) ∧ q ≠ filter := by
  rw [hm.producer?] at hq
  grind

theorem ranked {rank : Nat → Nat} (hrank : ∀ id s q, g.producer? id s = some q → rank q < rank id) :
    rank source < rank below ∧ rank below < rank filter :=
  ⟨hrank below slot source hm.feeds, hrank filter 0 below hm.reads⟩

theorem inner? (id : Nat) : g'.inner? id = g.inner? id := by
  rw [Graph.inner?, Graph.inner?, hm.node?]
  cases hnode : g.node? id with
  | none => rfl
  | some node =>
    by_cases heq : id = filter
    · obtain ⟨node₀, hnode₀, hkind⟩ := hm.isFilter
      rw [← heq, hnode, some.injEq] at hnode₀
      simp [heq, hnode₀, hkind, Operator.inner?]
    · simp [heq]

variable (hg : g.Wired)
include hg

theorem below_ne_filter : below ≠ filter := by
  obtain ⟨rank, hrank⟩ := hg.acyclic
  obtain ⟨-, hlt⟩ := hm.ranked hrank
  exact fun heq => absurd hlt (by rw [heq]; exact Nat.lt_irrefl _)

theorem ne_of_feeds {s q : Nat} (hq : g.producer? below s = some q) : q ≠ below ∧ q ≠ filter := by
  obtain ⟨rank, hrank⟩ := hg.acyclic
  obtain ⟨-, hlt⟩ := hm.ranked hrank
  have hqlt := hrank below s q hq
  constructor
  · rintro rfl
    omega
  · rintro rfl
    omega

theorem slot_of_filter {s q : Nat} (hq : g.producer? filter s = some q) : s = 0 := by
  obtain ⟨node, hnode, hkind⟩ := hm.isFilter
  have hlt : s < node.kind.inputs := (hg.fed filter node hnode s).1 (by rw [hq]; rfl)
  rw [hkind] at hlt
  exact Nat.lt_one_iff.1 hlt

theorem wired_here : g'.Wired where
  ascending := hm.ids ▸ hg.ascending
  once := hm.once
  fed := by
    intro id node' hnode' s
    rw [hm.node?, map_eq_some_iff] at hnode'
    obtain ⟨node, hnode, rfl⟩ := hnode'
    rw [hm.isSome_producer?, hg.fed id node hnode s]
    split
    · next heq =>
      obtain ⟨node₀, hnode₀, hkind⟩ := hm.isFilter
      rw [← heq, hnode, some.injEq] at hnode₀
      rw [hnode₀, hkind]
      rfl
    · rfl
  feeds := by
    intro id s q hq
    rw [hm.ids]
    have hfilter := hg.feeds filter 0 below hm.reads
    have hbelow := hg.feeds below slot source hm.feeds
    rcases hm.producer?_cases hq with ⟨rfl, -, rfl⟩ | ⟨rfl, -, rfl⟩ | ⟨hq, -, rfl⟩ | ⟨hq, -⟩
    · exact ⟨hfilter.1, hbelow.2⟩
    · exact ⟨hbelow.1, hfilter.1⟩
    · exact ⟨(hg.feeds id s filter hq).1, hfilter.2⟩
    · exact hg.feeds id s q hq
  acyclic := by
    obtain ⟨rank, hrank⟩ := hg.acyclic
    obtain ⟨hsource, hbelow⟩ := hm.ranked hrank
    -- The filter takes the rank of the operator, and the operator that of the filter.
    refine ⟨fun id => if id = filter then rank below else if id =
      below then rank filter else rank id, fun id s q hq => ?_⟩
    rcases hm.producer?_cases hq with ⟨rfl, -, rfl⟩ | ⟨rfl, -, rfl⟩ | ⟨hq, -, rfl⟩ | ⟨hq, hid, -⟩
    · grind
    · grind
    · have := hrank id s filter hq
      grind
    · have := hrank id s q hq
      have hne := hm.alone id s
      have hslot : id = filter → s = 0 := fun heq => hm.slot_of_filter hg (heq ▸ hq)
      grind
  sink := by
    intro sink hsink
    rw [hm.sink, map_eq_some_iff] at hsink
    obtain ⟨sink, hsink, rfl⟩ := hsink
    rw [hm.ids]
    split
    · exact (hg.feeds filter 0 below hm.reads).2
    · exact hg.sink sink hsink

omit hg in
/-- **The graph stays wired**, at every level. -/
theorem wired (hg : g.Everywhere Wired) : g'.Everywhere Wired :=
  ⟨hm.wired_here hg.here, fun id _ hid => hg.inside (hm.inner? id ▸ hid)⟩

/-! ### Producers after the move -/

theorem producers_filter : g.producers filter = [below] ∧ g'.producers filter = [source] := by
  obtain ⟨node, hnode, hkind⟩ := hm.isFilter
  have hnode' : g'.node? filter = some { node with kind := .primitive (.filter e') } := by
    rw [hm.node?, hnode, map_some, if_pos rfl]
  refine ⟨hg.producers_eq_singleton hnode (by rw [hkind]; rfl) hm.reads, ?_⟩
  refine (hm.wired_here hg).producers_eq_singleton hnode' rfl ?_
  rw [hm.producer?, if_pos ⟨rfl, rfl⟩]

theorem producers_below : g'.producers below = (g.producers below).set slot filter := by
  have hbelow := (hg.feeds below slot source hm.feeds).1
  refine ext_getElem? fun s => ?_
  rw [(hm.wired_here hg).getElem?_producers (hm.ids ▸ hbelow), getElem?_set,
    hg.getElem?_producers hbelow, hm.producer?, if_neg fun h => hm.below_ne_filter hg h.1]
  by_cases hs : slot = s
  · subst hs
    have hsource : (g.producers below)[slot]? = some source := by
      rw [hg.getElem?_producers hbelow, hm.feeds]
    have hlt := (List.getElem?_eq_some_iff.1 hsource).1
    rw [if_pos ⟨rfl, rfl⟩, if_pos rfl, if_pos hlt]
  · rw [if_neg fun h => hs h.2.symm, if_neg hs, if_neg fun h => (hm.ne_of_feeds hg h).2 rfl]

theorem producers_other (hid : id ∈ g.ids) (hfilter : id ≠ filter) (hbelow : id ≠ below) :
    g'.producers id = (g.producers id).map fun q => if q = filter then below else q := by
  refine ext_getElem? fun s => ?_
  rw [(hm.wired_here hg).getElem?_producers (hm.ids ▸ hid), getElem?_map,
    hg.getElem?_producers hid, hm.producer?, if_neg fun h => hfilter h.1,
    if_neg fun h => hbelow h.1]
  cases hq : g.producer? id s with
  | none => rfl
  | some q => by_cases h : q = filter <;> simp [h]

/-! ### Models -/

variable {α C : Type} {I : Interpretation α C} {c : C} {v w : Nat → α}

/-- What feeds the operator keeps its value when only the filter and the operator change theirs. -/
theorem map_producers_below (hw : ∀ q, q ≠ below → q ≠ filter → w q = v q) :
    (g.producers below).map w = (g.producers below).map v := by
  refine map_congr_left fun q hq => ?_
  obtain ⟨s, hs⟩ := hg.mem_producers_iff.1 hq
  exact hw q (hm.ne_of_feeds hg hs).1 (hm.ne_of_feeds hg hs).2

section

variable {w : Nat → α} (hw : ∀ q, q ≠ below → w (if q = filter then below else q) = v q)
include hw

/-- Other operators make after the move what they made before it, if what read the filter finds its
value. -/
theorem makes_other_iff (hn : g.node? id = some n) (hid : id ≠ filter) (hid' : id ≠ below) :
    I.Makes c n.kind ((g'.producers id).map w) (w id) ↔
      I.Makes c n.kind ((g.producers id).map v) (v id) := by
  have hmap : (g.producers id).map (w ∘ fun q => if q = filter then below else q) =
      (g.producers id).map v := by
    refine map_congr_left fun q hq => hw q fun heq => hid ?_
    obtain ⟨s, hs⟩ := hg.mem_producers_iff.1 hq
    exact (hm.alone id s (heq ▸ hs)).1
  have hsame := hw id hid'
  rw [if_neg hid] at hsame
  rw [hm.producers_other hg (mem_ids_of_node? hn) hid hid', List.map_map, hmap, hsame]

omit hg in
/-- The sink has the value that it had, if the operator was not the sink. -/
theorem sink_eq (hsink : g.sink ≠ some below) : g'.sink.map w = g.sink.map v := by
  rw [hm.sink, Option.map_map]
  cases hs : g.sink with
  | none => rfl
  | some s => exact congrArg some (hw s fun heq => hsink (heq ▸ hs))

end

theorem agrees_forth (a : α) (q : Nat) (hq : q ≠ below) :
    (fun id => if id = filter then a else if id = below then
    v filter else v id) (if q = filter then below else q) = v q := by
  by_cases hfilter : q = filter
  · simp [hfilter, hm.below_ne_filter hg]
  · simp [hfilter, hq]

omit hm hg in
theorem agrees_back (a : α) (q : Nat) (hq : q ≠ below) : v (if q = filter then below else q) =
    if q = filter then v below else if q = below then a else v q := by
  by_cases hfilter : q = filter <;> simp [hfilter, hq]

/-- **A model of the graph before the move makes one of the graph after it**, if the operator makes
the value of the filter of what the filter makes of the source. -/
theorem models_forth (hv : I.Models g c v) (hnode : g.node? below = some node)
    {a : α} (hfilter : I.primitive c (.filter e') [v source] a)
    (hbelow : I.Makes c node.kind (((g.producers below).map v).set slot a) (v filter)) :
    I.Models g' c fun id => if id = filter then a else if id = below then v filter else v id := by
  rw [models_iff] at hv ⊢
  intro id node' hnode'
  rw [hm.node?, map_eq_some_iff] at hnode'
  obtain ⟨n, hn, rfl⟩ := hnode'
  have hsource := hm.ne_of_feeds hg hm.feeds
  by_cases hid : id = filter
  · subst hid
    rw [(hm.producers_filter hg).2]
    simpa [hsource.1, hsource.2, Interpretation.Makes] using hfilter
  · rw [if_neg hid]
    by_cases hid' : id = below
    · subst hid'
      obtain rfl : node = n := mem_unique hnode hn
      rw [hm.producers_below hg, map_set, if_neg hid, if_pos rfl, if_pos rfl,
        hm.map_producers_below hg fun q hne hne' => by rw [if_neg hne', if_neg hne]]
      exact hbelow
    · exact (hm.makes_other_iff hg (hm.agrees_forth hg a) hn hid hid').2 (hv id n hn)

/-- **A model of the graph after the move makes one of the graph before it**, if the filter makes
the value of the operator of what the operator makes of the source. -/
theorem models_back (hv : I.Models g' c v) (hnode : g.node? below = some node) {a : α}
    (hbelow : I.Makes c node.kind ((g.producers below).map v) a)
    (hfilter : I.primitive c (.filter e) [a] (v below)) :
    I.Models g c fun id => if id = filter then v below else if id = below then a else v id := by
  rw [models_iff] at hv ⊢
  intro id n hn
  by_cases hid : id = filter
  · subst hid
    obtain ⟨node₀, hnode₀, hkind⟩ := hm.isFilter
    obtain rfl : n = node₀ := mem_unique hn hnode₀
    rw [(hm.producers_filter hg).1, hkind, if_pos rfl]
    simpa [hm.below_ne_filter hg, Interpretation.Makes] using hfilter
  · by_cases hid' : id = below
    · subst hid'
      obtain rfl : node = n := mem_unique hnode hn
      rw [hm.map_producers_below hg fun q hne hne' => by rw [if_neg hne', if_neg hne],
        if_neg hid, if_pos rfl]
      exact hbelow
    · have hmake := hv id n (by rw [hm.node?, hn, map_some, if_neg hid])
      exact (hm.makes_other_iff hg (agrees_back a) hn hid hid').1 hmake

/-- What the filter and the operator make in a model of the graph after the move. -/
theorem makes_of_models (hv : I.Models g' c v)
    (hnode : g.node? below = some node) : I.primitive c (.filter e') [v source] (v filter) ∧
      I.Makes c node.kind (((g.producers below).map v).set slot (v filter)) (v below) := by
  rw [models_iff] at hv
  constructor
  · obtain ⟨node₀, hnode₀, -⟩ := hm.isFilter
    have hmake := hv filter _ (by rw [hm.node?, hnode₀, map_some, if_pos rfl])
    rw [(hm.producers_filter hg).2] at hmake
    exact hmake
  · have hmake := hv below node (by rw [hm.node?, hnode, map_some, if_neg (hm.below_ne_filter hg)])
    rwa [hm.producers_below hg, map_set] at hmake

end Moved

end Dataflow.Graph
