/-
**Pushing filters is sound.**

A filter is moved to the side of a join or product that carries the columns of its predicate.  The
columns of the pairs are those of the left tuples and then those of the right ones without the keys,
so a column that the pairs carry once leads back to the field that it came from, with one exception:
on the right side it may lead to a key, which the pairs do not have from there.

Main results:

* `Graph.moved_of_applyPush` — what a move does to the graph;
* `Graph.positions_of_sidePredicate?` — where a predicate on pairs reads on the side that it is told
  on;
* `Graph.movable_of_push?` — a move that is chosen and keeps rows is one of a movable filter;
* `Graph.Movable.carries_back`, `Graph.Movable.carries_forth` — **moving a filter keeps the rows**
  of the sink.
-/

import Dataflow.Optimization.Pushdown
import Dataflow.Proofs.Optimization.Commutation
import Dataflow.Proofs.Optimization.Move

namespace Dataflow.Graph

open List Option Interpretation Outcome

variable {g g' : Dag} {push : Push}

/-! ### The graph after a move -/

variable {e : Expr} {node : Node Operator} {p : Primitive} {keys product slot index q : Nat}
  {t left : TupleType} {α : Type}

theorem filter?_eq_some_iff {op : Operator} :
    op.filter? = some e ↔ op = .primitive (.filter e) := by
  cases op with
  | pipeline n h => simp [Operator.filter?]
  | primitive p => cases p <;> simp [Operator.filter?]

/-- The choice of a move: a filter whose producer feeds nothing else, and a predicate on what that
producer reads at a slot. -/
theorem push?_eq_some (h : g.push? node = some push) :
    ∃ e below, node.kind = .primitive (.filter e) ∧ push.filter = node.id ∧
      g.producer? push.filter 0 = some push.below ∧ (g.outFlows push.below).length = 1 ∧
      g.node? push.below = some below ∧
      ((∃ positions, below.kind = .primitive (.projection positions) ∧ push.slot = 0 ∧
          e.remap (fun arg index => return (arg, ← positions[index]?)) = some push.predicate) ∨
        ∃ p keys, below.kind = .primitive p ∧ p.pairKeys? = some keys ∧
          g.sidePredicate? push.below e = some (push.slot, push.predicate)) := by
  simp only [push?, bind_eq_bind, bind_eq_some_iff, filter?_eq_some_iff] at h
  obtain ⟨e, he, below, hbelow, h⟩ := h
  split at h
  · cases h
  · next hlength =>
    rw [bind_eq_some_iff] at h
    obtain ⟨n, hn, h⟩ := h
    split at h
    · next positions hkind =>
      obtain ⟨_, hmap, h⟩ := bind_eq_some_iff.1 h
      obtain ⟨e', he', rfl⟩ := map_eq_some_iff.1 hmap
      cases h
      exact ⟨e, n, he, rfl, hbelow, not_not.1 hlength, hn, .inl ⟨positions, hkind, rfl, he'⟩⟩
    · next keys hkind =>
      obtain ⟨⟨slot, e'⟩, hside, h⟩ := bind_eq_some_iff.1 h
      cases h
      exact ⟨e, n, he, rfl, hbelow, not_not.1 hlength, hn, .inr ⟨_, keys, hkind, rfl, hside⟩⟩
    · next hkind =>
      obtain ⟨⟨slot, e'⟩, hside, h⟩ := bind_eq_some_iff.1 h
      cases h
      exact ⟨e, n, he, rfl, hbelow, not_not.1 hlength, hn, .inr ⟨_, 0, hkind, rfl, hside⟩⟩
    · cases h

/-- What feeds the slots when the filter has changed places with the operator before it: what read
the filter is disconnected and connected to the operator again. -/
theorem rewired_of_push (hg : g.Wired) {filter below source : Nat} {g₁ g₂ g₃ : Dag}
    (hreads : g.producer? filter 0 = some below) (hsource : g.producer? below slot = some source)
    (hg₁ : ((((g.outFlows filter).foldl (fun g c => g.disconnect c.operator c.slot) g).disconnect
      filter 0).disconnect below slot).connect ⟨source, 0, filter, 0⟩ = .ok g₁)
    (hg₂ : g₁.connect ⟨filter, 0, below, slot⟩ = .ok g₂)
    (hg₃ : (g.outFlows filter).foldlM (fun g c => g.connect ⟨below, 0, c.operator, c.slot⟩) g₂ =
      .ok g₃) :
    Rewired g g₃ fun id s =>
      if id = filter ∧ s = 0 then some source
      else if id = below ∧ s = slot then some filter
      else if g.producer? id s = some filter then some below
      else g.producer? id s := by
  have hrewired := (((((Rewired.refl hg.once).disconnectAll (g.outFlows filter)).disconnect
    filter 0).disconnect below slot).connect hg₁).connect hg₂ |>.connectAll hg₃
  obtain ⟨rank, hrank⟩ := hg.acyclic
  have hbelow := hrank _ _ _ hreads
  have hfeeds := hrank _ _ _ hsource
  refine ⟨hrewired.nodes, hrewired.sink, hrewired.once, fun id s => ?_⟩
  rw [hrewired.producer?]
  simp only [mem_outFlows hg.once]
  by_cases h₁ : id = filter ∧ s = 0
  · obtain ⟨rfl, rfl⟩ := h₁
    have hne : below ≠ id := fun heq => by rw [heq] at hbelow; omega
    simp [hreads, hne, hne.symm]
  · by_cases h₂ : id = below ∧ s = slot
    · obtain ⟨rfl, rfl⟩ := h₂
      have hne : source ≠ filter := fun heq => by rw [heq] at hfeeds; omega
      simp [hsource, hne, h₁]
    · by_cases h₃ : g.producer? id s = some filter <;> simp [h₁, h₂, h₃]

/-- **What a move does to the graph.** -/
theorem moved_of_applyPush (hg : g.Wired) (hnode : g.node? push.filter = some node)
    (hkind : node.kind = .primitive (.filter e))
    (hreads : g.producer? push.filter 0 = some push.below)
    (hlength : (g.outFlows push.below).length = 1) (h : g.applyPush push = .ok g') :
    ∃ source, Moved g g' push.filter push.below push.slot source e push.predicate := by
  simp only [applyPush, bind_eq_ok_iff, ofOption_eq_ok_iff] at h
  obtain ⟨source, hsource, g₁, hg₁, g₂, hg₂, g₃, hg₃, h⟩ := h
  have hrewired := rewired_of_push hg hreads hsource hg₁ hg₂ hg₃
  have hmoved : ∀ g₄ : Dag, g₄.nodes = g₃.nodes → g₄.edges = g₃.edges →
      g₄.sink = g.sink.map (fun s => if s = push.filter then push.below else s) →
      g' = g₄.setKind push.filter (.primitive (.filter push.predicate)) →
      Moved g g' push.filter push.below push.slot source e push.predicate := by
    rintro g₄ hnodes hedges hsink rfl
    have hnodes' : g₄.nodes = g.nodes := hnodes.trans hrewired.nodes
    refine ⟨⟨node, hnode, hkind⟩, hreads, ?_, hsource, ?_, ?_, ?_, ?_, hsink⟩
    · intro id s hid
      exact eq_of_length_outFlows hg.once hlength hid hreads
    · intro id
      have hfind : g₄.node? id = g.node? id := by rw [node?, node?, hnodes']
      rw [setKind, node?_modify, hfind]
      cases hid : g.node? id with
      | none => rfl
      | some n => rw [map_some, map_some, id_eq_of_node? hid]
    · rw [setKind, ids_modify, ids, ids, hnodes']
    · rw [setKind, edges_modify, hedges]
      exact hrewired.once
    · intro id s
      rw [← hrewired.producer? id s, producer?, producer?, setKind, edges_modify, hedges]
  refine ⟨source, ?_⟩
  split at h
  · next hsink =>
    simp only [setSink, bind_eq_ok_iff] at h
    obtain ⟨g₄, ⟨_, -, hg₄⟩, h⟩ := h
    cases hg₄
    cases h
    refine hmoved { g₃ with sink := some push.below } rfl rfl ?_ rfl
    rw [hrewired.sink] at hsink
    show some push.below = _
    rw [hsink, map_some, if_pos rfl]
  · next hsink =>
    cases h
    refine hmoved g₃ rfl rfl ?_ rfl
    rw [hrewired.sink] at hsink ⊢
    cases hs : g.sink with
    | none => rfl
    | some s =>
      have hne : s ≠ push.filter := fun heq => hsink (heq ▸ hs)
      rw [map_some, if_neg hne]

/-! ### Columns -/

theorem eq_of_count_eq_one [BEq α] [LawfulBEq α] {x : α} {xs : List α}
    (h : xs.count x = 1) {i j : Nat} (hi : xs[i]? = some x) (hj : xs[j]? = some x) : i = j := by
  induction xs generalizing i j with
  | nil => simp at hi
  | cons y xs ih =>
    by_cases hy : y = x
    · subst hy
      have hnot : y ∉ xs := count_eq_zero.1 (by simpa using h)
      have hzero : ∀ k, (y :: xs)[k]? = some y → k = 0 := by
        intro k hk
        cases k with
        | zero => rfl
        | succ k => exact absurd (mem_of_getElem? (getElem?_cons_succ ▸ hk)) hnot
      rw [hzero i hi, hzero j hj]
    · rw [count_cons_of_ne hy] at h
      cases i with
      | zero => exact absurd (some.inj hi) hy
      | succ i =>
        cases j with
        | zero => exact absurd (some.inj hj) hy
        | succ j => rw [ih h hi hj]

theorem sidePosition?_eq_some {columns side : List (Option Column)}
    (h : sidePosition? columns side index = some q) :
    ∃ column, columns.count (some column) = 1 ∧ columns[index]? = some (some column) ∧
      side[q]? = some (some column) := by
  simp only [sidePosition?, bind_eq_bind, bind_eq_some_iff] at h
  obtain ⟨_, hcolumn, column, rfl, h⟩ := h
  split at h
  · next hcount =>
    rw [idxOf?_eq_some_iff] at h
    obtain ⟨hlt, hq, -⟩ := h
    exact ⟨column, hcount, hcolumn, List.getElem?_eq_some_iff.2 ⟨hlt, by simpa using hq⟩⟩
  · cases h

/-- On the left side a column leads to the field at the same place. -/
theorem position_of_left {left right : List (Option Column)}
    (h : sidePosition? (left ++ right) left index = some q) : q = index ∧ index < left.length := by
  obtain ⟨column, hcount, hindex, hq⟩ := sidePosition?_eq_some h
  have hlt := (List.getElem?_eq_some_iff.1 hq).1
  have hq' : (left ++ right)[q]? = some (some column) := by rw [getElem?_append_left hlt, hq]
  obtain rfl := eq_of_count_eq_one hcount hq' hindex
  exact ⟨rfl, hlt⟩

/-- On the right side a column leads to a key, or to the field that it came from. -/
theorem position_of_right {left right : List (Option Column)}
    (h : sidePosition? (left ++ right.drop keys) right index = some q) (hkeys : keys ≤ q) :
    index = left.length + (q - keys) := by
  obtain ⟨column, hcount, hindex, hq⟩ := sidePosition?_eq_some h
  refine eq_of_count_eq_one hcount hindex ?_
  rw [getElem?_append_right (by omega), getElem?_drop, ← hq]
  congr 1
  omega

theorem columnsOf_eq {id : Nat} (hid : id ∈ g.ids) :
    g.columnsOf id = some ((g.fieldsAt id).map (·.column)) := by
  obtain ⟨node, hnode⟩ := node?_of_mem_ids hid
  rw [columnsOf, fieldsAt_eq hnode, hnode, map_some]

theorem sidePredicate?_eq_some {e e' : Expr} (h : g.sidePredicate? product e = some (slot, e')) :
    (slot = 0 ∨ slot = 1) ∧ ∃ columns source side, g.columnsOf product = some columns ∧
      g.producer? product slot = some source ∧ g.columnsOf source = some side ∧
      e.remap (fun arg index => return (arg, ← sidePosition? columns side index)) = some e' := by
  simp only [sidePredicate?, bind_eq_bind, bind_eq_some_iff] at h
  obtain ⟨columns, hcolumns, first, ⟨source, hsource, side, hside, hfirst⟩, h⟩ := h
  cases first with
  | some e₀ =>
    cases h
    exact ⟨.inl rfl, columns, source, side, hcolumns, hsource, hside, some.inj hfirst⟩
  | none =>
    simp only [bind_eq_some_iff] at h
    obtain ⟨second, ⟨source, hsource, side, hside, hsecond⟩, e₁, rfl, h⟩ := h
    cases h
    exact ⟨.inr rfl, columns, source, side, hcolumns, hsource, hside, some.inj hsecond⟩

theorem inputs_of_pairKeys (hp : p.pairKeys? = some keys) : p.inputs = 2 := by
  cases p <;> first | rfl | cases hp

/-- **Where a predicate on pairs reads on the side that it is told on**: on the left at the same
places, on the right at the places that its fields came from, unless it reads a key there. -/
theorem positions_of_sidePredicate? {l r : Nat} {e e' : Expr} (hg : g.Wired)
    (hnode : g.node? product = some node) (hkind : node.kind = .primitive p)
    (hp : p.pairKeys? = some keys) (hpair : g.producers product = [l, r])
    (hnoted : g.NotedAt product t) (hleft : g.NotedAt l left)
    (hside : g.sidePredicate? product e = some (slot, e')) :
    ∃ f : Nat → Option Nat, e.remap (fun arg index => return (arg, ← f index)) = some e' ∧
      ((slot = 0 ∧ ∀ index q, f index = some q → q = index ∧ index < left.length) ∨
        (slot = 1 ∧ ∀ index q, f index = some q → keys ≤ q →
      index = left.length + (q - keys))) := by
  obtain ⟨hslot, columns, source, side, hcolumns, hfeeds, hsides, hremap⟩ :=
    sidePredicate?_eq_some hside
  rw [columnsOf_eq (mem_ids_of_node? hnode), some.injEq] at hcolumns
  rw [columnsOf_eq (hg.feeds _ _ _ hfeeds).2, some.injEq] at hsides
  subst hcolumns hsides
  rw [hnoted.pairs node p keys l r hnode hkind hp hpair] at hremap
  rw [← hg.getElem?_producers (mem_ids_of_node? hnode), hpair] at hfeeds
  have hlength : ((g.fieldsAt l).map (·.column)).length = left.length := by
    rw [List.length_map, hleft.length_eq]
  refine ⟨_, hremap, ?_⟩
  rcases hslot with rfl | rfl
  · obtain rfl : l = source := some.inj hfeeds
    exact .inl ⟨rfl, fun index q hq => hlength ▸ position_of_left hq⟩
  · obtain rfl : r = source := some.inj hfeeds
    exact .inr ⟨rfl, fun index q hq hkeys => hlength ▸ position_of_right hq hkeys⟩

/-- A filter of pairs whose predicate is told on one side can change places, if every key that the
predicate reads on the right stands for the left key at the same place, which is not floating. -/
theorem commutes_of_sidePredicate? {c : EvaluationContext} {l r : Nat} {e e' : Expr}
    {u : FieldType} {left right : Stream} (hg : g.Wired) (hnode : g.node? product = some node)
    (hkind : node.kind = .primitive p) (hp : p.pairKeys? = some keys)
    (hpair : g.producers product = [l, r]) (hnoted : g.NotedAt product t)
    (hnotedleft : g.NotedAt l left.type) (hleft : left.Held) (hright : right.Held)
    (ht : p.outputType [left.type, right.type] c.bound = .ok t) (hinfer : e.infer [t] = .ok u)
    (hside : g.sidePredicate? product e = some (slot, e'))
    (hkeys : slot = 1 → ∀ index q, (index, q) ∈ e.positions.zip e'.positions → q < keys →
      index = q ∧ ∀ type, t.type? index = some type → type.isFloat = false) :
    (slot = 0 ∧ Commutes c p 0 e e' [left, right]
      left t fun rows => pairRows p keys rows right.rows) ∨
      (slot = 1 ∧ Commutes c p 1 e e' [left, right]
      right t fun rows => pairRows p keys left.rows rows) := by
  obtain ⟨f, hremap, ⟨rfl, hf⟩ | ⟨rfl, hf⟩⟩ :=
    positions_of_sidePredicate? hg hnode hkind hp hpair hnoted hnotedleft hside
  · exact .inl ⟨rfl, commutes_left hp hleft hright ht hremap hinfer fun index _ => hf index⟩
  · refine .inr ⟨rfl, commutes_right hp hleft hright ht hremap hinfer fun index hindex q hq => ?_⟩
    by_cases hle : keys ≤ q
    · exact .inl ⟨hle, hf index q hq hle⟩
    · have hlt : q < keys := by omega
      exact .inr ⟨hlt, hkeys rfl index q (mem_zip_positions hremap hindex hq) hlt⟩

/-! ### Moves that keep rows -/

/-- The positions of the fields that the predicate of a move reads, before and after the move. -/
def movedFields (g : Dag) (push : Push) : List (Nat × Nat) :=
  match (g.node? push.filter).bind (·.kind.filter?) with
  | some e => e.positions.zip push.predicate.positions
  | none => []

/-- The number of key fields that the pairs of an operator leave out on the right. -/
def keysOf (g : Dag) (id : Nat) : Nat :=
  match g.node? id with
  | some ⟨_, .primitive p, _⟩ => p.pairKeys?.getD 0
  | _ => 0

/-- Whether a move keeps the rows of the sink: the operator that the filter moves before is not the
sink, and a key that the predicate reads on the right side is read for the left key at the same
place, which is not floating. -/
def keeps (g : Dag) (push : Push) : Bool :=
  g.sink != some push.below && (push.slot == 0 || (g.movedFields push).all fun (before, after) =>
    g.keysOf push.below ≤ after ||
      (before == after && !(g.fieldsAt push.below)[before]?.any (·.type.isFloat)))

/-- A move of the filter with predicate `e` before the operator `p`, to a slot that `source` feeds,
in a graph of types `τ`: the filter can change places with the operator whatever rows there are. -/
structure Movable (g : Dag) (bound : Option (List TupleType)) (τ : Nat → TupleType)
    (push : Push) (e : Expr) (p : Primitive) (source : Nat) : Prop where
  filter : ∃ node, g.node? push.filter = some node ∧ node.kind = .primitive (.filter e)
  below : ∃ node, g.node? push.below = some node ∧ node.kind = .primitive p
  reads : g.producer? push.filter 0 = some push.below
  alone : (g.outFlows push.below).length = 1
  feeds : g.producer? push.below push.slot = some source
  commutes : ∀ (c : EvaluationContext) (v : Nat → Stream), c.bound = bound →
    (∀ q ∈ g.producers push.below, (v q).type = τ q ∧ (v q).Held) →
    ∃ make, Commutes c p push.slot e push.predicate ((g.producers push.below).map v)
    (v source) (τ push.below) make

/-- A key that the predicate of a move that keeps rows reads on the right stands for a left key. -/
theorem keys_of_keeps {node below : Node Operator} (hnoted : g.NotedAt push.below t)
    (hkeeps : g.keeps push = true) (hnode : g.node? push.filter = some node)
    (hkind : node.kind = .primitive (.filter e)) (hbelow : g.node? push.below = some below)
    (hbelowkind : below.kind = .primitive p) (hp : p.pairKeys? = some keys)
    (hslot : push.slot = 1) :
    ∀ index q, (index, q) ∈ e.positions.zip push.predicate.positions → q < keys →
      index = q ∧ ∀ type, t.type? index = some type → type.isFloat = false := by
  intro index q hmem hlt
  have hkeys : g.keysOf push.below = keys := by
    obtain ⟨_, _, _⟩ := below
    simp only at hbelowkind
    rw [keysOf, hbelow]
    simp [hbelowkind, hp]
  have hmoved : g.movedFields push = e.positions.zip push.predicate.positions := by
    rw [movedFields, hnode, bind_some, hkind]
    rfl
  rw [keeps, hslot, hkeys, hmoved, Bool.and_eq_true] at hkeeps
  have hall : ∀ before after, (before, after) ∈ e.positions.zip push.predicate.positions →
      keys ≤ after ∨
        before = after ∧ (g.fieldsAt push.below)[before]?.any (·.type.isFloat) = false := by
    simpa using hkeeps.2
  obtain ⟨heq, hfloat⟩ := (hall index q hmem).resolve_left (by omega)
  refine ⟨heq, fun type htype => ?_⟩
  have htype' : (g.fieldsAt push.below)[index]?.map (·.type) = some type := by
    rw [← htype, ← hnoted.named, TupleType.type?, getElem?_map, Option.map_map]
    rfl
  obtain ⟨field, hfield, rfl⟩ := map_eq_some_iff.1 htype'
  rwa [hfield, any_some] at hfloat

/-- **A move that keeps rows is one of a filter that can change places.** -/
theorem movable_of_push? {demands : Demands} {bound : Option (List TupleType)}
    {τ : Nat → TupleType} (hg : g.Wired) (hnoted : ∀ id ∈ g.ids, g.NotedAt id (τ id))
    (hτ : (typing demands).Models g bound τ) (hnode : g.node? node.id = some node)
    (hpush : g.push? node = some push) (hkeeps : g.keeps push = true) :
    ∃ e p source, g.Movable bound τ push e p source := by
  obtain ⟨e, below, hkind, hfilter, hreads, halone, hbelow, hcase⟩ := push?_eq_some hpush
  rw [← hfilter] at hnode
  rw [models_iff] at hτ
  have hinfer : e.infer [τ push.below] = .ok (.atomic .bool) := by
    obtain ⟨q, hq, hq'⟩ := hg.producers_of_inputs_one hnode (by rw [hkind]; rfl)
    obtain rfl := mem_unique hreads hq'
    have hmake := hτ push.filter node hnode
    rw [hkind, hq] at hmake
    exact (outputType_filter_iff.1 hmake.1).1
  have hmake := hτ push.below below hbelow
  rcases hcase with ⟨positions, hbelowkind, hslot, hremap⟩ | ⟨p, keys, hbelowkind, hp, hside⟩
  · obtain ⟨source, hsource, hfeeds⟩ := hg.producers_of_inputs_one hbelow (by rw [hbelowkind]; rfl)
    refine ⟨e, _, source, ⟨node, hnode, hkind⟩, ⟨below, hbelow, hbelowkind⟩, hreads,
      halone, hslot ▸ hfeeds, fun c v hc hv => ?_⟩
    obtain ⟨htype, hheld⟩ := hv source (by simp [hsource])
    rw [hbelowkind, hsource] at hmake
    rw [hsource, hslot]
    exact ⟨_, commutes_projection hheld (htype ▸ hmake.1) hremap hinfer⟩
  · obtain ⟨l, r, hpair, hl, hr⟩ :=
      hg.producers_of_inputs_two hbelow (by rw [hbelowkind]; exact inputs_of_pairKeys hp)
    obtain ⟨-, -, source, -, -, hfeeds, -⟩ := sidePredicate?_eq_some hside
    refine ⟨e, p, source, ⟨node, hnode, hkind⟩, ⟨below, hbelow, hbelowkind⟩, hreads, halone, hfeeds,
      fun c v hc hv => ?_⟩
    have hnotedbelow := hnoted push.below (mem_ids_of_node? hbelow)
    obtain ⟨hltype, hlheld⟩ := hv l (by simp [hpair])
    obtain ⟨hrtype, hrheld⟩ := hv r (by simp [hpair])
    have hnotedleft : g.NotedAt l (v l).type := hltype ▸ hnoted l (hg.feeds _ _ _ hl).2
    have ht : p.outputType [(v l).type, (v r).type] c.bound = .ok (τ push.below) := by
      rw [hbelowkind, hpair] at hmake
      rw [hltype, hrtype, hc]
      exact hmake.1
    rw [hpair]
    rcases commutes_of_sidePredicate? hg hbelow hbelowkind hp hpair hnotedbelow
      hnotedleft hlheld hrheld ht hinfer hside
      (keys_of_keeps hnotedbelow hkeeps hnode hkind hbelow hbelowkind hp) with
      ⟨hslot, hcommutes⟩ | ⟨hslot, hcommutes⟩
    · obtain rfl : l = source := mem_unique hl (hslot ▸ hfeeds)
      rw [hslot]
      exact ⟨_, hcommutes⟩
    · obtain rfl : r = source := mem_unique hr (hslot ▸ hfeeds)
      rw [hslot]
      exact ⟨_, hcommutes⟩

/-! ### Models before and after a move -/

/-- Whether the predicate of a move decides on every row of the type of what feeds it, if it moves
before a join or product. -/
def decides (g : Dag) (push : Push) : Prop :=
  ∀ below p keys source, g.node? push.below = some below → below.kind = .primitive p →
    p.pairKeys? = some keys → g.producer? push.below push.slot = some source →
    ∀ row, TupleType.admits ((g.fieldsAt source).map Field.named) row = true →
      ∃ b, passes push.predicate ((g.fieldsAt source).map Field.named) row = .ok b

namespace Movable

variable {bound : Option (List TupleType)} {τ : Nat → TupleType} {e : Expr}
  {p : Primitive} {source : Nat} {parameters : List Rows} (hmov : g.Movable bound τ push e p source)
include hmov

theorem set_source (hg : g.Wired) (v : Nat → α) :
    ((g.producers push.below).map v).set push.slot (v source) = (g.producers push.below).map v :=
  hg.set_producer hmov.feeds v

variable (hm : Moved g g' push.filter push.below push.slot source e push.predicate)
  (hτ : (typing (soundly parameters)).Models g bound τ)
include hm hτ

/-- **A move keeps the types**: the filter gets the type of the source. -/
theorem typed (hg : g.Wired) : (typing (soundly parameters)).Models g' bound fun id =>
      if id = push.filter then τ source else if id = push.below then τ push.filter else τ id := by
  obtain ⟨below, hbelow, -⟩ := hmov.below
  obtain ⟨node, hnode, hkind⟩ := hmov.filter
  have hfilter := models_iff.1 hτ push.filter node hnode
  rw [hkind, (hm.producers_filter hg).1] at hfilter
  obtain ⟨hinfer, htype⟩ := outputType_filter_iff.1 hfilter.1
  -- What is known about all rows is used for streams without rows, which have a type still.
  obtain ⟨make, hcommutes⟩ :=
    hmov.commutes ⟨bound, []⟩ (fun id => ⟨τ id, []⟩) rfl fun q _ => ⟨rfl, nofun⟩
  refine hm.models_forth hg hτ hbelow ⟨?_, rfl, nofun⟩ ?_
  · exact outputType_filter_iff.2 ⟨hcommutes.infer.trans hinfer, rfl⟩
  · rw [hmov.set_source hg, htype]
    exact models_iff.1 hτ push.below below hbelow

variable {c : EvaluationContext} (hg : g.Everywhere Wired) (hc : Supplies parameters bound c)
include hg hc

theorem held {v : Nat → Stream} (hv : evaluation.Models g c v ∨ evaluation.Models g' c v) :
    ∀ q ∈ g.producers push.below, (v q).type = τ q ∧ (v q).Held := by
  intro q hq
  obtain ⟨slot, hslot⟩ := hg.here.mem_producers_iff.1 hq
  have hmem := (hg.here.feeds push.below slot q hslot).2
  have hall : (τ q).HoldsAll (v q) := by
    rcases hv with hv | hv
    · exact holds_of_models (hg.imp fun _ => Wired.founded) hc hτ hv q hmem
    · obtain ⟨hne, hne'⟩ := hm.ne_of_feeds hg.here hslot
      have hholds := holds_of_models ((hm.wired hg).imp fun _ => Wired.founded) hc
        (hmov.typed hm hτ hg.here) hv q (hm.ids ▸ hmem)
      rwa [if_neg hne', if_neg hne] at hholds
  exact ⟨hall.1, fun row hrow => hall.1 ▸ hall.2 row hrow⟩

/-- **The rows after a move are those before it.** -/
theorem carries_back (hsink : g.sink ≠ some push.below) : evaluation.Carries c g' g := by
  intro v hv
  have hheld := hmov.held hm hτ hg hc (.inr hv)
  obtain ⟨make, hcommutes⟩ := hmov.commutes c v hc.1 hheld
  obtain ⟨below, hbelow, hkind⟩ := hmov.below
  obtain ⟨hfilter, hmake⟩ := hm.makes_of_models hg.here hv hbelow
  rw [hkind] at hmake
  obtain ⟨b, hb, hb'⟩ :=
    hcommutes.back (hheld source (hg.here.mem_producers_iff.2 ⟨_, hmov.feeds⟩)).2
      (hmov.set_source hg.here v) hfilter hmake
  exact ⟨_, hm.models_back hg.here hv hbelow (by rw [hkind]; exact hb) hb',
    (hm.sink_eq (Moved.agrees_back b) hsink).symm⟩

/-- **The rows before a move are those after it**, if the predicate decides where it moves. -/
theorem carries_forth (hsink : g.sink ≠ some push.below)
    (hnoted : ∀ id ∈ g.ids, g.NotedAt id (τ id)) (hdecides : g.decides push) :
    evaluation.Carries c g g' := by
  intro v hv
  have hheld := hmov.held hm hτ hg hc (.inl hv)
  obtain ⟨make, hcommutes⟩ := hmov.commutes c v hc.1 hheld
  obtain ⟨below, hbelow, hkind⟩ := hmov.below
  obtain ⟨node, hnode, hfilterkind⟩ := hmov.filter
  obtain ⟨htype, hrows⟩ := hheld source (hg.here.mem_producers_iff.2 ⟨_, hmov.feeds⟩)
  have hmake := models_iff.1 hv push.below below hbelow
  have hfilter := models_iff.1 hv push.filter node hnode
  rw [hkind] at hmake
  rw [hfilterkind, (hm.producers_filter hg.here).1] at hfilter
  obtain ⟨a, ha, hout⟩ :=
    hcommutes.forth hrows (hmov.set_source hg.here v) hmake hfilter fun keys hp row hrow => by
      have hnamed := (hnoted source (hg.here.feeds _ _ _ hmov.feeds).2).named
      have hdecided := hdecides below p keys source hbelow hkind hp hmov.feeds row
      rw [hnamed, ← htype] at hdecided
      exact hdecided (hrows row hrow).admits
  exact ⟨_, hm.models_forth hg.here hv hbelow ha (by rw [hkind]; exact hout),
    hm.sink_eq (hm.agrees_forth hg.here a) hsink⟩

end Movable

end Dataflow.Graph
