/-
**Columns have one owner.**

An operator originates the fields that pass no input field on, and owns their columns.  When it is
annotated again, it keeps the columns that it owned, if the types of their fields are the same, and
takes new ones for the others.  Which fields an operator originates does not depend on what it
reads, so a column that was given out is never owned by two operators, or twice by one, however the
graph around was changed in between.

Main results:

* `Assignment.Apart.foldl` — **the columns that are written down for an operator are different**;
* `Graph.Owned.annotateNode` — annotating one operator gives no column a second owner;
* `Graph.owned_of_annotateWith` — **annotation keeps one owner for every column**, at every level.
-/

import Dataflow.Proofs.Columns
import Dataflow.Proofs.Graph.Edits
import Dataflow.Proofs.Liveness

namespace Dataflow

open List Option Operator

variable {a : Assignment} {c : Column} {fields : List Field} {f : Field}

/-! ### What an operator originates -/

namespace Operator

/-- Whether an operator originates the field at a position: it passes no input field on there. -/
def originates (op : Operator) (k : Nat) : Bool := (op.origin? 0 k).isNone

/-- How many fields the left input has tells which field is passed on, not whether one is. -/
theorem isNone_origin? (op : Operator) (left k : Nat) :
    (op.origin? left k).isNone = op.originates k := by
  cases op with
  | pipeline n h => rfl
  | primitive p =>
    cases p with
    | map function =>
      cases function with
      | field arg index => cases arg <;> rfl
      | _ => rfl
    | _ => rfl

theorem originates_of_shell {op op' : Operator} (h : op.shell = op'.shell) :
    op.originates = op'.originates := by
  cases op with
  | primitive p => rw [shell_eq_inl_iff.1 h.symm]
  | pipeline n a =>
    obtain ⟨b, rfl⟩ := shell_eq_inr_iff.1 h.symm
    rfl

/-- The columns of the fields that an operator originates. -/
def ownColumns (op : Operator) (fields : List Field) : List (Option Column) :=
  (fields.filter fun f => op.originates f.position).map (·.column)

theorem ownColumns_append (op : Operator) (fields : List Field) (f : Field) :
    op.ownColumns (fields ++ [f]) =
      op.ownColumns fields ++ if op.originates f.position then [f.column] else [] := by
  rw [ownColumns, filter_append, map_append]
  by_cases hf : op.originates f.position = true <;> simp [hf, ownColumns]

end Operator

/-- A node owns a column through the field at a position. -/
def Node.Owns (n : Node Operator) (k : Nat) (c : Column) : Prop :=
  n.kind.originates k = true ∧ ∃ f, n.note.fields[k]? = some f ∧ f.column = some c

/-! ### Columns that are written down -/

namespace Assignment

variable {op : Operator} {inputs : List (List Field)} {previous : List Field} {n : Nat}

/-- An assignment under way, over fields from before and a number of columns that were given out
then: a field that the operator originates has the column of the field that was there before, or a
new one, and the columns of these fields are written down, each once. -/
structure Apart (op : Operator) (previous : List Field) (n : Nat) (a : Assignment) : Prop where
  allocated : n ≤ a.allocated
  own : ∀ f ∈ a.fields, op.originates f.position = true → ∃ c, f.column = some c ∧
    ((∃ old, previous[f.position]? = some old ∧ old.column = some c) ∨ n ≤ c ∧ c < a.allocated)
  writes : (a.writes.map some).Perm (op.ownColumns a.fields)
  nodup : a.writes.Nodup

theorem positions_extend (a : Assignment) (field : Field) :
    (extend op inputs previous a field).fields.map (·.position) =
      a.fields.map (·.position) ++ [field.position] := by
  rw [extend]
  split <;> simp

theorem positions_foldl (fields : List Field) (a : Assignment) :
    (fields.foldl (extend op inputs previous) a).fields.map (·.position) =
      a.fields.map (·.position) ++ fields.map (·.position) := by
  induction fields generalizing a with
  | nil => simp
  | cons field fields ih => rw [foldl_cons, ih, positions_extend, List.append_assoc]; rfl

/-- The column of a field that the operator originates is written down, if it was not before. -/
theorem Apart.push {m : Nat} (ha : Apart op previous n a)
    (horiginates : op.originates f.position = true) (hcolumn : f.column = some c)
    (hm : a.allocated ≤ m) (hnew : c ∉ a.writes)
    (hc : (∃ old, previous[f.position]? = some old ∧ old.column = some c) ∨ n ≤ c ∧ c < m) :
    Apart op previous n ⟨a.fields ++ [f], NatSet.insert c a.writes, m⟩ where
  allocated := Nat.le_trans ha.allocated hm
  own := by
    intro f' hf' horiginates'
    rcases mem_append.1 hf' with hf' | hf'
    · obtain ⟨c', hc', hcases⟩ := ha.own f' hf' horiginates'
      exact ⟨c', hc', hcases.imp_right fun h => ⟨h.1, Nat.lt_of_lt_of_le h.2 hm⟩⟩
    · rw [mem_singleton.1 hf']
      exact ⟨c, hcolumn, hc⟩
  writes := by
    rw [ownColumns_append, if_pos horiginates, hcolumn]
    calc (NatSet.insert c a.writes).map some
        _ |>.Perm ((c :: a.writes).map some) := (NatSet.perm_insert hnew).map some
        _ |>.Perm (some c :: op.ownColumns a.fields) := ha.writes.cons (some c)
        _ |>.Perm (op.ownColumns a.fields ++ [some c]) := (perm_append_singleton _ _).symm
  nodup := (NatSet.perm_insert hnew).nodup_iff.2 (nodup_cons.2 ⟨hnew, ha.nodup⟩)

/-- A column that was written down belongs to a field that the operator originates. -/
theorem Apart.exists_field (ha : Apart op previous n a) (hc : c ∈ a.writes) :
    ∃ f ∈ a.fields, op.originates f.position = true ∧
      ((∃ old, previous[f.position]? = some old ∧ old.column = some c) ∨ n ≤ c ∧
      c < a.allocated) := by
  have hmem := ha.writes.mem_iff.1 (List.mem_map_of_mem (f := some) hc)
  simp only [ownColumns, List.mem_map, mem_filter] at hmem
  obtain ⟨f, ⟨hf, horiginates⟩, hcolumn⟩ := hmem
  obtain ⟨c', hc', hcases⟩ := ha.own f hf horiginates
  obtain rfl : c' = c := mem_unique hc' hcolumn
  exact ⟨f, hf, horiginates, hcases⟩

/-- The columns that the fields from before have, and those of them that the operator owned. -/
structure Distinct (op : Operator) (previous : List Field) (n : Nat) : Prop where
  below : ∀ f ∈ previous, ∀ c, f.column = some c → c < n
  sole : ∀ k k' f f' c, op.originates k = true → op.originates k' = true → previous[k]? = some f →
    previous[k']? = some f' → f.column = some c → f'.column = some c → k = k'

/-- **One more field gets a column that no field before it owns.** -/
theorem Apart.extend {field : Field} (ha : Apart op previous n a)
    (hprevious : Distinct op previous n) (hlater : ∀ f ∈ a.fields, f.position < field.position)
    (hsource : op.originates field.position = true ↔ op.source? inputs field.position = none) :
    Apart op previous n (extend op inputs previous a field) := by
  cases hs : op.source? inputs field.position with
  | some source =>
    have hpasses : ¬op.originates field.position = true := by
      rw [hsource, hs]
      exact nofun
    simp only [Assignment.extend, hs]
    refine ⟨ha.allocated, fun f hf horiginates => ?_, ?_, ha.nodup⟩
    · rcases mem_append.1 hf with hf | hf
      · exact ha.own f hf horiginates
      · rw [mem_singleton.1 hf] at horiginates
        exact absurd horiginates hpasses
    · rw [ownColumns_append, if_neg hpasses, append_nil]
      exact ha.writes
  | none =>
    have horiginates := hsource.2 hs
    simp only [Assignment.extend, hs]
    cases hold : (previous[field.position]?.filter (·.type = field.type)).bind (·.column) with
    | some c =>
      obtain ⟨old, hfilter, hcolumn⟩ := bind_eq_some_iff.1 hold
      obtain ⟨hget, -⟩ := filter_eq_some_iff.1 hfilter
      refine ha.push horiginates rfl (Nat.le_refl _) (fun hmem => ?_) (.inl ⟨old, hget, hcolumn⟩)
      -- A field before it with this column would have owned it before, or got it anew.
      obtain ⟨f, hf, hf', hcases⟩ := ha.exists_field hmem
      have hlt := hlater f hf
      have hbelow := hprevious.below old (mem_of_getElem? hget) c hcolumn
      rcases hcases with ⟨old', hget', hcolumn'⟩ | hfresh
      · have heq := hprevious.sole _ _ old' old c hf' horiginates hget' hget hcolumn' hcolumn
        omega
      · exact absurd hbelow (Nat.not_lt.2 hfresh.1)
    | none =>
      have hle := ha.allocated
      refine ha.push horiginates rfl (Nat.le_succ _) (fun hmem => ?_)
        (.inr ⟨hle, Nat.lt_succ_self _⟩)
      obtain ⟨f, hf, hf', hcases⟩ := ha.exists_field hmem
      rcases hcases with ⟨old, hget, hcolumn⟩ | hfresh
      · exact absurd hle (Nat.not_le.2 (hprevious.below old (mem_of_getElem? hget) _ hcolumn))
      · exact Nat.lt_irrefl _ hfresh.2

/-- **The columns that are written down for an operator are different.** -/
theorem Apart.foldl (ha : Apart op previous n a)
    (hprevious : Distinct op previous n) (hascending : (fields.map (·.position)).Pairwise (· < ·))
    (hlater : ∀ f ∈ a.fields, ∀ field ∈ fields, f.position < field.position)
    (hsource : ∀ field ∈ fields,
      (op.originates field.position = true ↔ op.source? inputs field.position = none)) :
    Apart op previous n (fields.foldl (Assignment.extend op inputs previous) a) := by
  induction fields generalizing a with
  | nil => exact ha
  | cons field fields ih =>
    rw [map_cons, pairwise_cons] at hascending
    refine ih (ha.extend hprevious (fun f hf => hlater f hf field mem_cons_self)
      (hsource field mem_cons_self)) hascending.2 (fun f hf next hnext => ?_)
      fun field' hfield' => hsource field' (mem_cons_of_mem _ hfield')
    have hposition := List.mem_map_of_mem (f := Field.position) hf
    rw [positions_extend, mem_append, mem_singleton] at hposition
    rcases hposition with hposition | hposition
    · obtain ⟨f', hf', heq⟩ := List.mem_map.1 hposition
      rw [← heq]
      exact hlater f' hf' next (mem_cons_of_mem _ hnext)
    · rw [hposition]
      exact hascending.1 next.position (List.mem_map_of_mem hnext)

end Assignment

/-! ### What is passed on -/

/-- In a typed graph whose operators before are annotated, a field that an operator does not
originate is found with its column. -/
theorem Operator.originates_iff {op : Operator} {inputs : List (List Field)} {t : TupleType}
    {bound : Option (List TupleType)} {k : Nat} (hk : k < t.length)
    (htype : ∀ p, op = .primitive p →
      p.outputType (inputs.map (List.map Field.named)) bound = .ok t)
    (hcolumns : ∀ fields ∈ inputs, ∀ f ∈ fields, f.column.isSome = true) :
    op.originates k = true ↔ op.source? inputs k = none := by
  rw [← op.isNone_origin? (inputs.head?.getD []).length]
  cases horigin : op.origin? (inputs.head?.getD []).length k with
  | none => simp [source?, horigin]
  | some origin =>
    obtain ⟨i, j⟩ := origin
    suffices hfound : ∃ s, op.source? inputs k = some s by
      obtain ⟨s, hs⟩ := hfound
      simp [hs]
    cases op with
    | pipeline n h => cases horigin
    | primitive p =>
      have hhead : (inputs.head?.getD []).length =
          ((inputs.map (List.map Field.named)).head?.getD []).length := by
        cases inputs <;> simp
      obtain ⟨type, hat⟩ : ∃ type, t.type? k = some type := by
        simp [TupleType.type?, getElem?_eq_getElem hk]
      obtain ⟨input, source, hinput, hsource, -⟩ :=
        Primitive.passes_of_origin (htype p rfl) (hhead ▸ horigin) hat
      rw [getElem?_map, map_eq_some_iff] at hinput
      obtain ⟨fields, hfields, rfl⟩ := hinput
      rw [TupleType.type?, getElem?_map, Option.map_map, map_eq_some_iff] at hsource
      obtain ⟨f, hf, -⟩ := hsource
      have hcolumn := hcolumns fields (mem_of_getElem? hfields) f (mem_of_getElem? hf)
      refine ⟨f, ?_⟩
      simp [source?, horigin, hfields, hf, Option.filter, hcolumn]

namespace Graph

open GraphTypes

variable {g g' : Dag} {id : Nat} {bound : Option (List TupleType)} {types : GraphTypes}

/-! ### Owners -/

/-- An intact graph in which every column that a field carries was given out, and no column is owned
through two fields. -/
structure Owned (g : Dag) : Prop extends Intact g where
  given : ∀ id, ∀ f ∈ g.fieldsAt id, ∀ c, f.column = some c → c < g.allocated
  sole : ∀ id id' node node' k k' c, g.node? id = some node →
    g.node? id' = some node' → node.Owns k c → node'.Owns k' c → id = id' ∧ k = k'

/-- An operator whose fields are numbered, and whose noted columns are those that it owns, each
once. -/
structure SettledAt (g : Dag) (id : Nat) : Prop where
  positions : ∀ node, g.node? id = some node →
    node.note.fields.map (·.position) = List.range node.note.fields.length
  writes : ∀ node, g.node? id = some node →
    (node.note.writes.map some).Perm (node.kind.ownColumns node.note.fields)
  nodup : ∀ node, g.node? id = some node → node.note.writes.Nodup

variable {node : Node Operator} {k : Nat} {done ids : List Nat} {reached : Dag} {output : TupleType}

theorem Owned.given_of_owns (hg : g.Owned) (hnode : g.node? id = some node)
    (howns : node.Owns k c) : c < g.allocated := by
  obtain ⟨-, f, hf, hcolumn⟩ := howns
  exact hg.given id f (fieldsAt_eq hnode ▸ mem_of_getElem? hf) c hcolumn

/-- A graph with the same edges, between operators under the same numbers and with as many inputs,
is intact as well. -/
theorem Intact.of_kinds (hg : g.Intact) (hedges : g'.edges = g.edges) (hsink : g'.sink = g.sink)
    (hids : g'.ids = g.ids) (hnext : g'.nextId = g.nextId)
    (hkinds : ∀ id node, g.node? id = some node →
      ∃ node', g'.node? id = some node' ∧ node'.kind.inputs = node.kind.inputs) : g'.Intact := by
  obtain ⟨rank, hrank⟩ := hg.acyclic
  refine ⟨hids ▸ hg.ascending, fun id hid => ?_, fun e he => ?_, hedges ▸ hg.once,
    ⟨rank, hedges ▸ hrank⟩, fun id hid => ?_⟩
  · rw [hnext]
    exact hg.below id (hids ▸ hid)
  · obtain ⟨source, target, hsource, htarget, hslot, hslot'⟩ := hg.slots e (hedges ▸ he)
    obtain ⟨source', hsource', -⟩ := hkinds _ _ hsource
    obtain ⟨target', htarget', hinputs⟩ := hkinds _ _ htarget
    exact ⟨source', target', hsource', htarget', hslot, hinputs ▸ hslot'⟩
  · rw [hids]
    exact hg.sink id (hsink ▸ hid)

theorem Intact.of_shells (hg : g.Intact) (hedges : g'.edges = g.edges) (hsink : g'.sink = g.sink)
    (hshells : g'.shells = g.shells) (hnext : g'.nextId = g.nextId) : g'.Intact := by
  refine hg.of_kinds hedges hsink (ids_eq_of_shells hshells) hnext fun id node hnode => ?_
  obtain ⟨node', hnode', hshell⟩ := node?_of_shells hshells.symm hnode
  exact ⟨node', hnode', inputs_eq_of_shell hshell⟩

/-- What is settled depends on the fields, on what is noted as written, and on what the operator
originates. -/
theorem SettledAt.of_node (h : g.SettledAt id)
    (hnode : ∀ node', g'.node? id = some node' → ∃ node, g.node? id = some node ∧
      node'.kind.originates = node.kind.originates ∧ node'.note.fields = node.note.fields ∧
      node'.note.writes = node.note.writes) : g'.SettledAt id where
  positions := by
    intro node' hnode'
    obtain ⟨node, hfound, -, hfields, -⟩ := hnode node' hnode'
    rw [hfields]
    exact h.positions node hfound
  writes := by
    intro node' hnode'
    obtain ⟨node, hfound, horiginates, hfields, hwrites⟩ := hnode node' hnode'
    rw [hwrites, hfields, ownColumns, horiginates]
    exact h.writes node hfound
  nodup := by
    intro node' hnode'
    obtain ⟨node, hfound, -, -, hwrites⟩ := hnode node' hnode'
    rw [hwrites]
    exact h.nodup node hfound

/-! ### Annotating one operator -/

theorem Owned.distinct (hg : g.Owned) (hnode : g.node? id = some node) :
    Assignment.Distinct node.kind node.note.fields g.allocated where
  below := fun f hf c hc => hg.given id f (fieldsAt_eq hnode ▸ hf) c hc
  sole := by
    intro k k' f f' c hk hk' hf hf' hc hc'
    exact (hg.sole id id node node k k' c hnode hnode ⟨hk, f, hf, hc⟩ ⟨hk', f', hf', hc'⟩).2

theorem getElem?_position {n k : Nat}
    (hpositions : fields.map (·.position) = List.range n) (hf : fields[k]? = some f) :
    f.position = k := by
  have hk := congrArg (·[k]?) hpositions
  simp only [getElem?_map, hf, map_some] at hk
  obtain ⟨_, heq⟩ := List.getElem?_eq_some_iff.1 hk.symm
  rw [← heq, getElem_range]

/-- What an operator that is annotated owns then: what it owned before, or a new column; nothing
twice. -/
theorem owns_of_apart {node node' : Node Operator} {n m : Nat}
    (hapart : a.Apart node.kind node.note.fields n)
    (hpositions : a.fields.map (·.position) = List.range m)
    (hkind : node'.kind.originates = node.kind.originates) (hfields : node'.note.fields = a.fields)
    (howns : node'.Owns k c) : (node.Owns k c ∨ n ≤ c ∧ c < a.allocated) ∧
      ∀ k', node'.Owns k' c → k = k' := by
  have hfound : ∀ k, node'.Owns k c → ∃ f ∈ a.fields.filter fun f =>
    node.kind.originates f.position,
      f.position = k ∧ f.column = some c := by
    rintro k ⟨horiginates, f, hf, hcolumn⟩
    rw [hkind] at horiginates
    rw [hfields] at hf
    have hk := getElem?_position hpositions hf
    exact ⟨f, mem_filter.2 ⟨mem_of_getElem? hf, hk ▸ horiginates⟩, hk, hcolumn⟩
  obtain ⟨f, hmem, rfl, hcolumn⟩ := hfound k howns
  obtain ⟨hf, horiginates⟩ := mem_filter.1 hmem
  constructor
  · obtain ⟨c', hc', hcases⟩ := hapart.own f hf horiginates
    obtain rfl : c' = c := mem_unique hc' hcolumn
    exact hcases.imp_left fun hold => ⟨horiginates, hold⟩
  · intro k' howns'
    obtain ⟨f', hmem', rfl, hcolumn'⟩ := hfound k' howns'
    have hnodup : (node.kind.ownColumns a.fields).Nodup :=
      hapart.writes.nodup_iff.1 (hapart.nodup.map (some_injective _))
    rw [inj_on_of_nodup_map hnodup hmem hmem' (hcolumn.trans hcolumn'.symm)]

section

variable (hprogress : g.Progress types done reached) (htypes : g.typesWithin bound = .ok types)
  (hfresh : id ∉ done) (hproducers : ∀ q ∈ g.producers id, q ∈ done)
  (hnode : reached.node? id = some node) (houtput : types.outputs.get? id = some output)

include hprogress htypes hfresh hproducers hnode houtput

theorem Progress.originates_iff (hk : k < output.length) :
    node.kind.originates k = true ↔ node.kind.source? (reached.inputFields id) k = none := by
  obtain ⟨node₀, inputs, hnode₀, hinputs, hfollows⟩ :=
    (closed_of_typesWithin htypes).1.follows id output houtput
  obtain rfl : node = node₀ := by
    rw [hprogress.untouched id hfresh] at hnode
    exact mem_unique hnode hnode₀
  have hfields : reached.inputFields id = (g.producers id).map reached.fieldsAt := by
    rw [inputFields, producers_of_edges hprogress.edges]
    rfl
  have hnamed : (reached.inputFields id).map (List.map Field.named) = inputs := by
    rw [inputTypes_eq hinputs, hfields, List.map_map]
    exact map_congr_left fun q hq => (hprogress.noted q (hproducers q hq)).named
  have htype : ∀ p, node.kind = .primitive p →
      p.outputType ((reached.inputFields id).map (List.map Field.named)) bound = .ok output := by
    intro p hkind
    rw [hkind] at hfollows
    rw [hnamed]
    exact hfollows
  refine Operator.originates_iff hk htype fun fields hmem f hf => ?_
  rw [hfields] at hmem
  obtain ⟨q, hq, rfl⟩ := List.mem_map.1 hmem
  exact (hprogress.noted q (hproducers q hq)).columns f hf

theorem Owned.apart_assignedAt (howned : reached.Owned) :
    (reached.assignedAt id node output).Apart node.kind node.note.fields reached.allocated ∧
      (reached.assignedAt id node output).fields.map (·.position) = List.range output.length := by
  have hpositions := positions_ofTuple output
  refine ⟨Assignment.Apart.foldl ⟨Nat.le_refl _, nofun, .refl _, .nil⟩
    (howned.distinct hnode) ?_ nofun ?_, ?_⟩
  · rw [hpositions]
    exact pairwise_lt_range
  · intro field hfield
    have hmem := List.mem_map_of_mem (f := Field.position) hfield
    rw [hpositions, mem_range] at hmem
    exact hprogress.originates_iff htypes hfresh hproducers hnode houtput hmem
  · rw [assignedAt, Assignment.positions_foldl, hpositions]
    rfl

/-- The columns that are written down for an operator are given out: it passes them on, owned them
before, or got them anew. -/
theorem Owned.given_assignedAt (howned : reached.Owned) :
    ∀ f ∈ (reached.assignedAt id node output).fields, ∀ c, f.column = some c →
      c < (reached.assignedAt id node output).allocated := by
  intro f hf c hc
  obtain ⟨hapart, hpositions⟩ :=
    howned.apart_assignedAt hprogress htypes hfresh hproducers hnode houtput
  obtain ⟨k, hk⟩ := mem_iff_getElem?.1 hf
  have hposition := getElem?_position hpositions hk
  have hlt : k < output.length := by
    have hmem := List.mem_map_of_mem (f := Field.position) hf
    rwa [hpositions, mem_range, hposition] at hmem
  have hassigned := forall₂_getElem? (forall₂_assignedAt reached id node output)
    (by rw [getElem?_ofTuple, getElem?_eq_getElem hlt]; rfl) hk
  cases hs : node.kind.source? (reached.inputFields id) k with
  | some s =>
    obtain ⟨q, -, hq⟩ := exists_producer_of_source? hs
    have hgiven := howned.given q s hq c (hassigned.source s hs ▸ hc)
    exact Nat.lt_of_lt_of_le hgiven hapart.allocated
  | none =>
    have horiginates := (hprogress.originates_iff htypes hfresh hproducers hnode houtput hlt).2 hs
    obtain ⟨c', hc', hown⟩ := hapart.own f hf (hposition ▸ horiginates)
    obtain rfl : c' = c := mem_unique hc' hc
    rcases hown with ⟨old, hget, hcolumn⟩ | ⟨-, hnew⟩
    · have hold := howned.given id old (fieldsAt_eq hnode ▸ mem_of_getElem? hget) c' hcolumn
      exact Nat.lt_of_lt_of_le hold hapart.allocated
    · exact hnew

omit hnode houtput

/-- **Annotating one operator gives no column a second owner**, and settles the operator. -/
theorem Owned.annotateNode {inner : Table (GraphTypes → Except Interruption Dag)}
    (howned : reached.Owned) (h : Graph.annotateNode types inner reached id = .ok g') :
    g'.Owned ∧ g'.SettledAt id := by
  obtain ⟨node, node', output, ha⟩ := annotates_of_annotateNode h
  have hnode := ha.found
  have hnode' := ha.placed
  have hothers := ha.others
  obtain ⟨hapart, hpositions⟩ :=
    howned.apart_assignedAt hprogress htypes hfresh hproducers hnode ha.typed
  have hkind : node'.kind.originates = node.kind.originates := originates_of_shell ha.shell
  have hle : reached.allocated ≤ g'.allocated := ha.allocated ▸ hapart.allocated
  have hgiven : ∀ f ∈ node'.note.fields, ∀ c, f.column = some c → c < g'.allocated := by
    rw [ha.fields, ha.allocated]
    exact howned.given_assignedAt hprogress htypes hfresh hproducers hnode ha.typed
  -- A column that another operator owns was given out before, so the operator owned it before.
  have hkept : ∀ m node₁ k k' c, m ≠ id → g'.node? m = some node₁ →
    node₁.Owns k c → node'.Owns k' c →
      id = m ∧ k' = k := by
    intro m node₁ k k' c hm hnode₁ howns howns'
    rw [hothers m hm] at hnode₁
    rcases (owns_of_apart hapart hpositions hkind ha.fields howns').1 with hold | ⟨hnew, -⟩
    · exact howned.sole id m node node₁ k' k c hnode hnode₁ hold howns
    · exact absurd (howned.given_of_owns hnode₁ howns) (Nat.not_lt.2 hnew)
  refine ⟨⟨howned.toIntact.of_shells ha.edges ha.sink ha.shells ha.nextId, ?_, ?_⟩, ?_⟩
  · intro m f hf c hc
    by_cases hm : m = id
    · subst hm
      exact hgiven f (fieldsAt_eq hnode' ▸ hf) c hc
    · rw [fieldsAt, hothers m hm] at hf
      exact Nat.lt_of_lt_of_le (howned.given m f hf c hc) hle
  · intro m m' node₁ node₂ k k' c hnode₁ hnode₂ howns howns'
    by_cases hm : m = id
    · by_cases hm' : m' = id
      · subst hm hm'
        obtain rfl := mem_unique hnode' hnode₁
        obtain rfl := mem_unique hnode' hnode₂
        exact ⟨rfl, (owns_of_apart hapart hpositions hkind ha.fields howns).2 k' howns'⟩
      · subst hm
        obtain rfl := mem_unique hnode' hnode₁
        exact hkept m' node₂ k' k c hm' hnode₂ howns' howns
    · by_cases hm' : m' = id
      · subst hm'
        obtain rfl := mem_unique hnode' hnode₂
        obtain ⟨heq, heq'⟩ := hkept m node₁ k k' c hm hnode₁ howns howns'
        exact ⟨heq.symm, heq'.symm⟩
      · rw [hothers m hm] at hnode₁
        rw [hothers m' hm'] at hnode₂
        exact howned.sole m m' node₁ node₂ k k' c hnode₁ hnode₂ howns howns'
  · refine ⟨fun node₁ hnode₁ => ?_, fun node₁ hnode₁ => ?_, fun node₁ hnode₁ => ?_⟩
    · obtain rfl := mem_unique hnode' hnode₁
      have hlength := congrArg List.length hpositions
      rw [List.length_map, length_range] at hlength
      rw [ha.fields, hpositions, hlength]
    · obtain rfl := mem_unique hnode' hnode₁
      rw [ha.writes, ha.fields, ownColumns, hkind]
      exact hapart.writes
    · obtain rfl := mem_unique hnode' hnode₁
      rw [ha.writes]
      exact hapart.nodup

end

/-! ### Annotating a graph -/

/-- A graph with other dead columns: what fields carry and operators own is the same. -/
structure Remarked (g g' : Dag) : Prop where
  nextId : g'.nextId = g.nextId
  allocated : g'.allocated = g.allocated
  node? : ∀ id node', g'.node? id = some node' → ∃ node, g.node? id = some node ∧
    node'.kind = node.kind ∧ node'.note.fields = node.note.fields ∧
    node'.note.writes = node.note.writes

theorem Remarked.trans {k : Dag} (h : Remarked g g') (h' : Remarked g' k) : Remarked g k where
  nextId := h'.nextId.trans h.nextId
  allocated := h'.allocated.trans h.allocated
  node? := by
    intro id node'' hnode''
    obtain ⟨node', hnode', hkind', hfields', hwrites'⟩ := h'.node? id node'' hnode''
    obtain ⟨node, hnode, hkind, hfields, hwrites⟩ := h.node? id node' hnode'
    exact ⟨node, hnode, hkind'.trans hkind, hfields'.trans hfields, hwrites'.trans hwrites⟩

theorem remarked_of_markNode {l l' : Liveness} (h : markNode l id = .ok l') :
    Remarked l.graph l'.graph := by
  simp only [markNode] at h
  split at h
  · cases h
  · cases h
    refine ⟨rfl, rfl, fun m node' hnode' => ?_⟩
    rw [node?_modify, map_eq_some_iff] at hnode'
    obtain ⟨node, hnode, rfl⟩ := hnode'
    refine ⟨node, hnode, ?_⟩
    split <;> exact ⟨rfl, rfl, rfl⟩

theorem remarked_of_markNodes {l l' : Liveness} (h : ids.foldlM markNode l = .ok l') :
    Remarked l.graph l'.graph :=
  Outcome.foldlM_ok_induction (P := fun l' : Liveness => Remarked l.graph l'.graph)
    (fun _ _ _ _ hl hstep => hl.trans (remarked_of_markNode hstep))
    ⟨rfl, rfl, fun _ node hnode => ⟨node, hnode, rfl, rfl, rfl⟩⟩ h

/-- A change under which operators keep their fields and originate what they did, or lose their
fields, gives no column a second owner. -/
theorem Owned.of_fields (hg : g.Owned) (hintact : g'.Intact)
    (hallocated : g.allocated ≤ g'.allocated) (hsame : ∀ id node, g'.node? id = some node →
      node.note.fields = [] ∨ ∃ node₁, g.node? id = some node₁ ∧
      node₁.note.fields = node.note.fields ∧
      node₁.kind.originates = node.kind.originates) : g'.Owned := by
  refine ⟨hintact, fun id f hf c hc => ?_,
    fun id id' node node' k k' c hnode hnode' howns howns' => ?_⟩
  · cases hnode : g'.node? id with
    | none => simp [fieldsAt, hnode] at hf
    | some node =>
      rw [fieldsAt_eq hnode] at hf
      rcases hsame id node hnode with hnone | ⟨node₁, hnode₁, hfields, -⟩
      · rw [hnone] at hf
        cases hf
      · rw [← hfields, ← fieldsAt_eq hnode₁] at hf
        exact Nat.lt_of_lt_of_le (hg.given id f hf c hc) hallocated
  · have howned : ∀ id node k, g'.node? id = some node → node.Owns k c →
        ∃ node₁, g.node? id = some node₁ ∧ node₁.Owns k c := by
      rintro id node k hnode ⟨horiginates, f, hf, hc⟩
      rcases hsame id node hnode with hnone | ⟨node₁, hnode₁, hfields, hkind⟩
      · rw [hnone] at hf
        cases hf
      · exact ⟨node₁, hnode₁, hkind ▸ horiginates, f, hfields ▸ hf, hc⟩
    obtain ⟨node₁, hnode₁, howns₁⟩ := howned id node k hnode howns
    obtain ⟨node₂, hnode₂, howns₂⟩ := howned id' node' k' hnode' howns'
    exact hg.sole id id' node₁ node₂ k k' c hnode₁ hnode₂ howns₁ howns₂

theorem Owned.of_remarked (hg : g.Owned) (hremarked : Remarked g g')
    (hintact : g'.Intact) : g'.Owned := by
  refine hg.of_fields hintact hremarked.allocated.ge fun id node hnode => .inr ?_
  obtain ⟨node₁, hnode₁, hkind, hfields, -⟩ := hremarked.node? id node hnode
  exact ⟨node₁, hnode₁, hfields.symm, by rw [hkind]⟩

/-- **Annotation keeps one owner for every column**, at every level, and settles all operators. -/
theorem owned_of_annotateWith (hg : g.Everywhere Owned) (htypes : g.typesWithin bound = .ok types)
    (h : g.annotateWith types = .ok g') :
    g'.Everywhere fun k => k.Owned ∧ ∀ id, k.SettledAt id := by
  induction hg generalizing bound types g' with
  | @intro g howned _ ih =>
    have hnodup : g.ids.Nodup := howned.ascending.imp fun h => Nat.ne_of_lt h
    obtain ⟨order, noted, marked, horder, hprogress, ⟨hnotedOwned, hsettled⟩, hmarked, rfl⟩ :=
      annotateWith_induction hnodup htypes (P := fun done reached => reached.Owned ∧
        ∀ id ∈ done, reached.SettledAt id)
        (fun done id reached next _ hfresh hproducers hprogress hreached hnext => by
          obtain ⟨hnextOwned, hhere⟩ :=
            hreached.1.annotateNode hprogress htypes hfresh hproducers hnext
          refine ⟨hnextOwned, fun m hm => ?_⟩
          rcases mem_append.1 hm with hm | hm
          · obtain ⟨_, _, _, ha⟩ := annotates_of_annotateNode hnext
            refine (hreached.2 m hm).of_node fun node hnode => ?_
            rw [ha.others m fun heq => hfresh (heq ▸ hm)] at hnode
            exact ⟨node, hnode, rfl, rfl, rfl⟩
          · rw [mem_singleton.1 hm]
            exact hhere) ⟨howned, nofun⟩ h
    obtain ⟨hedges, hsink, -, houtline⟩ := markNodes_eq_ok hmarked
    have hremarked := remarked_of_markNodes hmarked
    have hintact : marked.graph.Intact :=
      hnotedOwned.toIntact.of_shells hedges hsink (shells_of_outline houtline) hremarked.nextId
    refine ⟨⟨hnotedOwned.of_remarked hremarked hintact, fun id => ?_⟩, fun id b hb => ?_⟩
    · by_cases hid : id ∈ order
      · refine (hsettled id hid).of_node fun node' hnode' => ?_
        obtain ⟨node, hnode, hkind, hfields, hwrites⟩ := hremarked.node? id node' hnode'
        exact ⟨node, hnode, congrArg originates hkind, hfields, hwrites⟩
      · have hnone : ∀ node, marked.graph.node? id ≠ some node := by
          intro node hnode
          have hmem := mem_ids_of_node? hnode
          rw [ids_eq_of_shells ((shells_of_outline houtline).trans hprogress.shells)] at hmem
          exact hid ((mem_order_iff horder).2 hmem)
        exact ⟨fun node hnode => absurd hnode (hnone node),
          fun node hnode => absurd hnode (hnone node), fun node hnode => absurd hnode (hnone node)⟩
    · obtain ⟨a, inner, ha, -, hinner, hannotated⟩ :=
        (progress_of_annotateWith hnodup htypes h).exists_inside htypes hb
      exact ih id a ha hinner hannotated

end Graph

end Dataflow
