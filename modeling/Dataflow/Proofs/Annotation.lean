/-
**What annotation notes.**

Annotation writes the fields of every operator down once, after those of its producers.  The fields
have the types of the operator's output, every field has a column, and the columns of pairs are the
columns of the left tuples and then those of the right ones, without the keys.  Nothing but
annotations changes, at any level.

Main results:

* `Assignment.forall₂_written` — the fields that are written down, one by one;
* `Graph.annotateNode_progress` — annotating one operator notes it and leaves all others alone;
* `Graph.annotateWith_induction` — what annotating every operator preserves, annotating a graph
  preserves;
* `Graph.annotated_of_annotate` — **an annotated graph is alike, and its notes agree with its
  types**.
-/

import Dataflow.Optimization.Rule
import Dataflow.Proofs.Graph.Validity
import Dataflow.Proofs.Meaning.Rewriting
import Dataflow.Proofs.Meaning.Typing

namespace Dataflow

open List Option Outcome Operator

/-- A field as part of a tuple type. -/
def Field.named (f : Field) : Named FieldType := ⟨f.name, f.type⟩

/-- The number of key fields that the pairs of an operator leave out on the right; none for an
operator that does not make pairs. -/
def Primitive.pairKeys? : Primitive → Option Nat
  | join keys => some keys
  | cartesian => some 0
  | _ => none

/-! ### Fields -/

/-- A field as it is written down: its name and type stay, it gets a column, and one that passes an
input field on gets the column of that. -/
structure Assigned (op : Operator) (inputs : List (List Field)) (field noted : Field) : Prop where
  named : noted.named = field.named
  column : noted.column.isSome = true
  source : ∀ s, op.source? inputs field.position = some s → noted.column = s.column

/-- A field as it is written down over the fields from before: one that passes nothing on keeps the
column that it had, if its type is the same. -/
structure Written (op : Operator) (inputs : List (List Field)) (previous : List Field)
    (field noted : Field) : Prop extends Assigned op inputs field noted where
  kept : op.source? inputs field.position = none → ∀ old c, previous[field.position]? = some old →
    old.type = field.type → old.column = some c → noted.column = some c

theorem Operator.source?_of_shell {op op' : Operator} (h : op.shell = op'.shell) :
    op.source? = op'.source? := by
  cases op with
  | primitive p => rw [shell_eq_inl_iff.1 h.symm]
  | pipeline n a =>
    obtain ⟨b, rfl⟩ := shell_eq_inr_iff.1 h.symm
    rfl

variable {inputs : List (List Field)} {t : TupleType}

theorem Assigned.of_shell {op op' : Operator} {field noted : Field}
    (h : op.shell = op'.shell) (hassigned : Assigned op inputs field noted) :
    Assigned op' inputs field noted :=
  ⟨hassigned.named, hassigned.column, source?_of_shell h ▸ hassigned.source⟩

namespace Assignment

variable (op : Operator) (inputs : List (List Field)) (previous : List Field)

theorem fields_extend (a : Assignment) (field : Field) :
    ∃ noted, (extend op inputs previous a field).fields = a.fields ++ [noted] ∧
      Written op inputs previous field noted := by
  cases hsource : op.source? inputs field.position with
  | some source =>
    simp only [extend, hsource]
    refine ⟨_, rfl, ⟨rfl, ?_, ?_⟩, fun hnone => nomatch hsource.symm.trans hnone⟩
    · simp only [source?, bind_eq_bind, bind_eq_some_iff, filter_eq_some_iff] at hsource
      obtain ⟨_, -, -, hcolumn⟩ := hsource
      exact hcolumn
    · intro s hs
      rw [mem_unique hsource hs]
  | none =>
    simp only [extend, hsource]
    refine ⟨_, rfl, ⟨rfl, rfl, fun s hs => nomatch hsource.symm.trans hs⟩, ?_⟩
    intro _ old c hold htype hcolumn
    simp [hold, Option.filter, htype, hcolumn]

/-- What is true of every field that is written down is true of them all, one by one. -/
theorem forall₂_foldl {R : Field → Field → Prop}
    (hextend : ∀ a field, ∃ noted, (extend op inputs previous a field).fields =
      a.fields ++ [noted] ∧ R field noted)
    (fields : List Field) (a : Assignment) :
    ∃ noted, (fields.foldl (extend op inputs previous) a).fields = a.fields ++ noted ∧
      Forall₂ R fields noted := by
  induction fields generalizing a with
  | nil => exact ⟨[], by simp, .nil⟩
  | cons field fields ih =>
    obtain ⟨first, hfirst, hR⟩ := hextend a field
    obtain ⟨noted, hnoted, hrest⟩ := ih (extend op inputs previous a field)
    exact ⟨first :: noted, by rw [foldl_cons, hnoted, hfirst, List.append_assoc]; rfl,
      .cons hR hrest⟩

/-- **The fields that are written down, one by one.** -/
theorem forall₂_written (fields : List Field) (a : Assignment) :
    ∃ noted, (fields.foldl (extend op inputs previous) a).fields = a.fields ++ noted ∧
      Forall₂ (Written op inputs previous) fields noted :=
  forall₂_foldl op inputs previous (fields_extend op inputs previous) fields a

end Assignment

theorem getElem?_ofTuple (t : TupleType) (k : Nat) :
    (Field.ofTuple t)[k]? = t[k]?.map fun f =>
      { position := k, name := f.name, type := f.type } := by
  simp [Field.ofTuple, getElem?_mapIdx]

theorem positions_ofTuple (t : TupleType) :
    (Field.ofTuple t).map (·.position) = List.range t.length := by
  refine ext_getElem? fun k => ?_
  rw [getElem?_map, getElem?_ofTuple, Option.map_map]
  by_cases hk : k < t.length <;> simp [hk]

theorem map_named_of_assigned {op : Operator} {noted : List Field}
    (h : Forall₂ (Assigned op inputs) (Field.ofTuple t) noted) : noted.map Field.named = t := by
  have hmap : noted.map Field.named = (Field.ofTuple t).map Field.named := by
    generalize Field.ofTuple t = fields at h
    induction h with
    | nil => rfl
    | cons hnoted _ ih => rw [map_cons, map_cons, hnoted.named, ih]
  rw [hmap]
  refine ext_getElem? fun k => ?_
  rw [getElem?_map, getElem?_ofTuple, Option.map_map]
  exact Option.map_id'

variable {p : Primitive} {keys : Nat}

/-- The fields of a pair pass the fields of the left tuple on, and then those of the right one
behind the keys. -/
theorem source?_of_pairKeys (hp : p.pairKeys? = some keys) (left right : List Field) (k : Nat) :
    (primitive p).source? [left, right] k =
      (if k < left.length then left[k]? else right[k - left.length + keys]?).filter
      (·.column.isSome) := by
  cases p with
  | join | cartesian =>
    obtain rfl := some.inj hp
    by_cases hk : k < left.length <;>
      simp [source?, origin?, hk]
  | _ => cases hp

/-- The columns of pairs are those of the left tuples and then those of the right ones, without the
keys. -/
theorem columns_of_pairKeys (hp : p.pairKeys? = some keys) {left right noted : List Field}
    (hleft : ∀ f ∈ left, f.column.isSome = true) (hright : ∀ f ∈ right, f.column.isSome = true)
    (hlength : t.length = left.length + (right.length - keys))
    (h : Forall₂ (Assigned (.primitive p) [left, right]) (Field.ofTuple t) noted) :
    noted.map (·.column) = left.map (·.column) ++ (right.map (·.column)).drop keys := by
  have hnoted : noted.length = t.length := by rw [← h.length_eq, Field.length_ofTuple]
  refine ext_getElem? fun k => ?_
  by_cases hk : k < t.length
  · have hsource : ∃ s, (primitive p).source? [left, right] k = some s ∧
        (left.map (·.column) ++ (right.map (·.column)).drop keys)[k]? = some s.column := by
      rw [source?_of_pairKeys hp]
      by_cases hk' : k < left.length
      · refine ⟨left[k], ?_, ?_⟩
        · rw [if_pos hk', getElem?_eq_getElem hk']
          exact filter_eq_some_iff.2 ⟨rfl, hleft _ (getElem_mem hk')⟩
        · rw [getElem?_append_left (by simpa using hk')]
          simp [hk']
      · have hk'' : k - left.length + keys < right.length := by omega
        refine ⟨right[k - left.length + keys], ?_, ?_⟩
        · rw [if_neg hk', getElem?_eq_getElem hk'']
          exact filter_eq_some_iff.2 ⟨rfl, hright _ (getElem_mem hk'')⟩
        · rw [getElem?_append_right (by simpa using hk'), getElem?_drop,
            List.length_map, Nat.add_comm keys]
          simp [hk'']
    obtain ⟨s, hs, hcolumn⟩ := hsource
    obtain ⟨field, hfield⟩ : ∃ field, t[k]? = some field := ⟨_, getElem?_eq_getElem hk⟩
    obtain ⟨n, hn⟩ : ∃ n, noted[k]? = some n := ⟨_, getElem?_eq_getElem (hnoted ▸ hk)⟩
    have hassigned := forall₂_getElem? h (by rw [getElem?_ofTuple, hfield]; rfl) hn
    rw [hcolumn, getElem?_map, hn, map_some, hassigned.source s hs]
  · rw [getElem?_eq_none (by simp; omega), getElem?_eq_none (by simp; omega)]

/-- The fields of a pair have the types of the left fields and of the right fields behind the
keys. -/
theorem types_of_pairKeys (hp : p.pairKeys? = some keys) {left right : TupleType}
    {bound : Option (List TupleType)} (h : p.outputType [left, right] bound = .ok t) :
    keys ≤ left.length ∧ keys ≤ right.length ∧ t.types = left.types ++ right.types.drop keys := by
  cases Primitive.outputType_eq_ok_iff.1 h with
  | join leftKeys rightKeys =>
    cases hp
    exact ⟨leftKeys, rightKeys, TupleType.types_positional _⟩
  | cartesian =>
    cases hp
    exact ⟨Nat.zero_le _, Nat.zero_le _, TupleType.types_concat left right⟩

namespace Graph

open GraphTypes

variable {g g' h : Dag} {id : Nat} {t : TupleType} {bound : Option (List TupleType)}
  {types : GraphTypes}

/-! ### Notes of operators -/

/-- The fields that an operator is annotated with. -/
def fieldsAt (g : Dag) (id : Nat) : List Field := ((g.node? id).map (·.note.fields)).getD []

variable {node : Node Operator} {f : Node Operator → Node Operator}
  {inner : Table (GraphTypes → Except Interruption Dag)} {done ids : List Nat}
  {reached : Dag} {m : Nat}

theorem fieldsAt_eq (h : g.node? id = some node) : g.fieldsAt id = node.note.fields := by
  rw [fieldsAt, h, map_some, getD_some]

/-- An operator whose fields are noted as its type says: they are written down as they should be
after those of the producers, so they have its types, each of them has a column, and the columns of
pairs are those of the left tuples and then those of the right ones, without the keys. -/
structure NotedAt (g : Dag) (id : Nat) (t : TupleType) : Prop where
  assigned : ∀ node, g.node? id = some node →
    Forall₂ (Assigned node.kind ((g.producers id).map g.fieldsAt)) (Field.ofTuple t) (g.fieldsAt id)
  named : (g.fieldsAt id).map Field.named = t
  columns : ∀ f ∈ g.fieldsAt id, f.column.isSome = true
  pairs : ∀ node p keys l r, g.node? id = some node → node.kind = .primitive p →
    p.pairKeys? = some keys → g.producers id = [l, r] → (g.fieldsAt id).map (·.column) =
      (g.fieldsAt l).map (·.column) ++ ((g.fieldsAt r).map (·.column)).drop keys

theorem producers_of_edges (hedges : g'.edges = g.edges) (id : Nat) :
    g'.producers id = g.producers id := by
  rw [producers, producers, inFlows, inFlows, hedges]

theorem NotedAt.length_eq (hnoted : g.NotedAt id t) : (g.fieldsAt id).length = t.length := by
  rw [← hnoted.named, List.length_map]

theorem NotedAt.type?_eq (hnoted : g.NotedAt id t) {k : Nat} {f : Field}
    (hk : (g.fieldsAt id)[k]? = some f) :
    t.type? k = some f.type := by
  rw [← hnoted.named, TupleType.type?, getElem?_map, hk]
  rfl

theorem NotedAt.of_node (hnoted : g.NotedAt id t)
    (hnode : ∀ node', g'.node? id = some node' → ∃ node, g.node? id = some node ∧
      node.kind.shell = node'.kind.shell)
    (hproducers : g'.producers id = g.producers id) (hfields : g'.fieldsAt id = g.fieldsAt id)
    (hinputs : ∀ q ∈ g.producers id, g'.fieldsAt q = g.fieldsAt q) : g'.NotedAt id t where
  assigned := by
    intro node' hnode'
    obtain ⟨node, hnode, hshell⟩ := hnode node' hnode'
    rw [hfields, hproducers, map_congr_left hinputs]
    exact (hnoted.assigned node hnode).imp fun _ _ => Assigned.of_shell hshell
  named := hfields ▸ hnoted.named
  columns := hfields ▸ hnoted.columns
  pairs := by
    intro node' p keys l r hnode' hkind' hp hpair
    obtain ⟨node, hnode, hshell⟩ := hnode node' hnode'
    rw [hkind', shell, shell_eq_inl_iff] at hshell
    rw [hproducers] at hpair
    rw [hfields, hinputs l (by simp [hpair]), hinputs r (by simp [hpair])]
    exact hnoted.pairs node p keys l r hnode hshell hp hpair

theorem NotedAt.congr (hnoted : g.NotedAt id t) (hedges : g'.edges = g.edges)
    (hshells : g'.shells = g.shells) (hfields : g'.fieldsAt id = g.fieldsAt id)
    (hproducers : ∀ q ∈ g.producers id, g'.fieldsAt q = g.fieldsAt q) : g'.NotedAt id t :=
  hnoted.of_node (fun _ hnode' => node?_of_shells hshells hnode')
    (producers_of_edges hedges id) hfields hproducers

/-- The graphs that are annotated by their types, at every level. -/
inductive Annotated : Option (List TupleType) → Dag → Prop
  | intro {bound : Option (List TupleType)} {g : Dag} (τ : Nat → TupleType)
      (typed : (typing fun _ _ _ _ => True).Models g bound τ)
      (noted : ∀ id ∈ g.ids, g.NotedAt id (τ id)) (inside : ∀ id h, g.inner? id = some h →
      Annotated (some ((g.producers id).map τ)) h) : Annotated bound g

/-! ### Annotating one operator -/

theorem shells_modify (hf : ∀ n, (f n).kind.shell = n.kind.shell) :
    (g.modify id f).shells = g.shells := by
  simp only [shells, modify, List.map_map]
  refine map_congr_left fun n _ => ?_
  simp only [Function.comp_apply]
  split
  · rw [hf]
  · rfl

theorem shells_replaceInner (g : Dag) (id : Nat) (h : Dag) :
    (g.replaceInner id h).shells = g.shells :=
  shells_modify fun n => shell_withInner n.kind h

theorem fieldsAt_replaceInner (g : Dag) (id : Nat) (h : Dag) (m : Nat) :
    (g.replaceInner id h).fieldsAt m = g.fieldsAt m := by
  rw [fieldsAt, fieldsAt, node?_replaceInner]
  cases g.node? m with
  | none => rfl
  | some n => by_cases hm : m = id <;> simp [hm]

theorem node?_modify_of_ne (hne : m ≠ id) : (g.modify id f).node? m = g.node? m := by
  rw [node?_modify]
  cases hm : g.node? m with
  | none => rfl
  | some n => rw [map_some, id_eq_of_node? hm, if_neg hne]

theorem node?_modify_self
    (hnode : g.node? id = some node) :
    (g.modify id f).node? id = some { f node with id := id } := by
  rw [node?_modify, hnode, map_some, id_eq_of_node? hnode, if_pos rfl]

/-- What annotating an operator of a type writes down: its fields, and the number of columns that
were given out then. -/
def assignedAt (g : Dag) (id : Nat) (node : Node Operator) (output : TupleType) : Assignment :=
  (Field.ofTuple output).foldl (Assignment.extend node.kind (g.inputFields id) node.note.fields)
    ⟨[], [], g.allocated⟩

theorem forall₂_assignedAt (g : Dag) (id : Nat) (node : Node Operator) (output : TupleType) :
    Forall₂ (Written node.kind (g.inputFields id) node.note.fields) (Field.ofTuple output)
      (g.assignedAt id node output).fields := by
  obtain ⟨noted, hnoted, hwritten⟩ := Assignment.forall₂_written node.kind (g.inputFields id)
    node.note.fields (Field.ofTuple output) ⟨[], [], g.allocated⟩
  rw [assignedAt, hnoted]
  exact hwritten

/-- What annotating one operator of a graph does: it writes the note of the operator down, annotates
the graph inside it, and leaves all else alone. -/
structure Annotates (types : GraphTypes) (inner : Table (GraphTypes → Except Interruption Dag))
    (g : Dag) (id : Nat) (g' : Dag) (node node' : Node Operator) (output : TupleType) : Prop where
  found : g.node? id = some node
  typed : types.outputs.get? id = some output
  edges : g'.edges = g.edges
  sink : g'.sink = g.sink
  nextId : g'.nextId = g.nextId
  shells : g'.shells = g.shells
  others : ∀ m, m ≠ id → g'.node? m = g.node? m
  placed : g'.node? id = some node'
  fields : node'.note.fields = (g.assignedAt id node output).fields
  reads : node'.note.reads = node.kind.reads (g.inputFields id)
  writes : node'.note.writes = (g.assignedAt id node output).writes
  allocated : g'.allocated = (g.assignedAt id node output).allocated
  inside : ∀ n a annotate innerTypes, node.kind = .pipeline n a → inner.get? id = some annotate →
    Table.get? types.inner id = some innerTypes → ∃ b, annotate innerTypes = .ok b ∧
    node'.kind = .pipeline n b

theorem annotates_of_annotateNode (h : annotateNode types inner g id = .ok g') :
    ∃ node node' output, Annotates types inner g id g' node node' output := by
  unfold annotateNode at h
  split at h
  · next node output hnode houtput =>
    simp only at h
    split at h
    · next annotate innerTypes hannotate hinner =>
      split at h
      · next b hb =>
        cases h
        refine ⟨node, _, output, hnode, houtput, rfl, rfl, rfl, ?_, fun m hne => ?_,
          node?_modify_self (node?_modify_self hnode), rfl, rfl, rfl, rfl, ?_⟩
        · rw [shells_modify fun n => shell_withInner n.kind b]
          exact shells_modify fun n => rfl
        · rw [node?_modify_of_ne hne]
          exact node?_modify_of_ne hne
        · intro n a annotate' innerTypes' hkind hannotate' hinner'
          obtain rfl := mem_unique hannotate hannotate'
          obtain rfl := mem_unique hinner hinner'
          exact ⟨b, hb, by rw [hkind]; rfl⟩
      · cases h
    · next hnone =>
      cases h
      refine ⟨node, _, output, hnode, houtput, rfl, rfl, rfl, shells_modify fun n => rfl,
        fun m hne => node?_modify_of_ne hne, node?_modify_self hnode, rfl, rfl, rfl, rfl, ?_⟩
      intro n a annotate innerTypes _ hannotate hinner
      exact absurd hinner (hnone annotate innerTypes hannotate)
  · cases h

section

variable {inner : Table (GraphTypes → Except Interruption Dag)} {node node' : Node Operator}
  {output : TupleType}

theorem Annotates.shell (h : Annotates types inner g id g' node node' output) :
    node'.kind.shell = node.kind.shell := by
  obtain ⟨node₁, hnode₁, hshell⟩ := node?_of_shells h.shells h.placed
  obtain rfl := mem_unique h.found hnode₁
  exact hshell.symm

theorem Annotates.fieldsAt_of_ne (h : Annotates types inner g id g' node node' output)
    (hm : m ≠ id) :
    g'.fieldsAt m = g.fieldsAt m := by
  rw [fieldsAt, fieldsAt, h.others m hm]

end

/-! ### Annotating a graph -/

/-- What is left of a graph when the operators `done` are annotated: those are noted as their types
say, the graphs inside them are annotated, and all else is as it was. -/
structure Progress (g : Dag) (types : GraphTypes) (done : List Nat) (reached : Dag) : Prop where
  edges : reached.edges = g.edges
  sink : reached.sink = g.sink
  shells : reached.shells = g.shells
  untouched : ∀ id, id ∉ done → reached.node? id = g.node? id
  closed : ∀ id ∈ done, ∀ q ∈ g.producers id, q ∈ done
  noted : ∀ id ∈ done, reached.NotedAt id (types.type id)
  inside : ∀ id ∈ done, ∀ a innerTypes, g.inner? id = some a →
    Table.get? types.inner id = some innerTypes → ∃ b, reached.inner? id = some b ∧
    a.annotateWith innerTypes = .ok b

/-- Fields that are assigned from those of noted producers are noted as their type says. -/
theorem notedAt_of_assigned {op : Operator} {τ : Nat → TupleType} (hnode : g.node? id = some node)
    (hop : op.shell = node.kind.shell)
    (hassigned : Forall₂ (Assigned op ((g.producers id).map g.fieldsAt))
      (Field.ofTuple t) node.note.fields)
    (hnoted : ∀ q ∈ g.producers id, g.NotedAt q (τ q))
    (hout : ∀ p, op = .primitive p → p.outputType ((g.producers id).map τ) bound = .ok t) :
      g.NotedAt id t where
  assigned := by
    intro node' hnode'
    obtain rfl := mem_unique hnode hnode'
    rw [fieldsAt_eq hnode]
    exact hassigned.imp fun _ _ => Assigned.of_shell hop
  named := by
    rw [fieldsAt_eq hnode]
    exact map_named_of_assigned hassigned
  columns := by
    rw [fieldsAt_eq hnode]
    intro f hf
    obtain ⟨k, hk⟩ := mem_iff_getElem?.1 hf
    have hlt : k < (Field.ofTuple t).length := by
      rw [hassigned.length_eq]
      exact (List.getElem?_eq_some_iff.1 hk).1
    exact (forall₂_getElem? hassigned (getElem?_eq_getElem hlt) hk).column
  pairs := by
    intro node' p keys l r hnode' hkind hp hpair
    obtain rfl := mem_unique hnode hnode'
    rw [hkind, shell, shell_eq_inl_iff] at hop
    subst hop
    have hl := hnoted l (by simp [hpair])
    have hr := hnoted r (by simp [hpair])
    have htype := hout p rfl
    rw [hpair] at hassigned htype
    obtain ⟨-, hkeys, htypes⟩ := types_of_pairKeys hp htype
    have hlength := congrArg List.length htypes
    simp only [List.length_append, length_drop, TupleType.length_types] at hlength
    rw [fieldsAt_eq hnode]
    refine columns_of_pairKeys hp hl.columns hr.columns ?_ hassigned
    rw [hl.length_eq, hr.length_eq, hlength]

theorem Progress.notedAt_done (hprogress : g.Progress types done reached) (hfresh : id ∉ done)
    (h : annotateNode types inner reached id = .ok g') (hm : m ∈ done) :
    g'.fieldsAt m = reached.fieldsAt m ∧ g'.NotedAt m (types.type m) := by
  obtain ⟨_, _, _, ha⟩ := annotates_of_annotateNode h
  have hfields : ∀ m ∈ done, g'.fieldsAt m = reached.fieldsAt m :=
    fun m hm => ha.fieldsAt_of_ne fun heq => hfresh (heq ▸ hm)
  refine ⟨hfields m hm,
    (hprogress.noted m hm).congr ha.edges ha.shells (hfields m hm) fun q hq => ?_⟩
  rw [producers_of_edges hprogress.edges] at hq
  exact hfields q (hprogress.closed m hm q hq)

theorem Progress.notedAt_here (htypes : g.typesWithin bound = .ok types)
    (hprogress : g.Progress types done reached) (hfresh : id ∉ done)
    (hproducers : ∀ q ∈ g.producers id, q ∈ done)
    (h : annotateNode types inner reached id = .ok g') : g'.NotedAt id (types.type id) := by
  obtain ⟨node, node', output, ha⟩ := annotates_of_annotateNode h
  have hassigned :=
    ha.fields ▸ (forall₂_assignedAt reached id node output).imp fun _ _ => Written.toAssigned
  obtain ⟨node₀, inputs, hnode₀, hinputs, hfollows⟩ :=
    (closed_of_typesWithin htypes).1.follows id output ha.typed
  obtain rfl : node = node₀ := mem_unique (hprogress.untouched id hfresh ▸ ha.found) hnode₀
  have hproducers' : g'.producers id = g.producers id :=
    producers_of_edges (ha.edges.trans hprogress.edges) id
  have hinput : reached.inputFields id = (g'.producers id).map g'.fieldsAt := by
    rw [inputFields, producers_of_edges hprogress.edges, hproducers']
    exact map_congr_left fun q hq => (hprogress.notedAt_done hfresh h (hproducers q hq)).1.symm
  have hout : ∀ p, node.kind = .primitive p →
      p.outputType ((g'.producers id).map types.type) bound = .ok output := by
    intro p hkind
    rw [hkind, inputTypes_eq hinputs, ← hproducers'] at hfollows
    exact hfollows
  rw [hinput] at hassigned
  rw [type, ha.typed, getD_some]
  exact notedAt_of_assigned ha.placed ha.shell.symm hassigned
    (fun q hq => (hprogress.notedAt_done hfresh h (hproducers q (hproducers' ▸ hq))).2) hout

/-- **Annotating one operator notes it and leaves all others alone.** -/
theorem annotateNode_progress (htypes : g.typesWithin bound = .ok types)
    (hprogress : g.Progress types done reached) (hfresh : id ∉ done)
    (hproducers : ∀ q ∈ g.producers id, q ∈ done)
    (h : annotateNode types (g.inner.map fun e => (e.1, e.2.annotateWith)) reached id = .ok g') :
    g.Progress types (done ++ [id]) g' := by
  obtain ⟨node, node', _, ha⟩ := annotates_of_annotateNode h
  refine ⟨ha.edges.trans hprogress.edges, ha.sink.trans hprogress.sink,
    ha.shells.trans hprogress.shells, ?_, ?_, ?_, ?_⟩
  · intro m hm
    rw [mem_append, mem_singleton, not_or] at hm
    rw [ha.others m hm.2, hprogress.untouched m hm.1]
  · intro m hm q hq
    rw [mem_append, mem_singleton] at hm
    rcases hm with hm | rfl
    · exact mem_append_left _ (hprogress.closed m hm q hq)
    · exact mem_append_left _ (hproducers q hq)
  · intro m hm
    rw [mem_append, mem_singleton] at hm
    rcases hm with hm | rfl
    · exact (hprogress.notedAt_done hfresh h hm).2
    · exact hprogress.notedAt_here htypes hfresh hproducers h
  · intro m hm a innerTypes hin hinner
    rw [mem_append, mem_singleton] at hm
    rcases hm with hm | rfl
    · obtain ⟨b, hb, hannotated⟩ := hprogress.inside m hm a innerTypes hin hinner
      exact ⟨b, by rw [inner?, ha.others m fun heq => hfresh (heq ▸ hm)]; exact hb, hannotated⟩
    · obtain ⟨node₁, n, hnode₁, hkind⟩ := inner?_eq_some_iff.1 hin
      obtain rfl := mem_unique (hprogress.untouched m hfresh ▸ ha.found) hnode₁
      obtain ⟨b, hb, hkind'⟩ := ha.inside n a a.annotateWith innerTypes hkind
        (by rw [Table.get?_map, get?_inner hin, map_some]) hinner
      exact ⟨b, inner?_eq_some_iff.2 ⟨node', n, ha.placed, hkind'⟩, hb⟩

/-- The operators of a graph and the fields that they are annotated with. -/
def outline (g : Dag) : List (Nat × Operator × List Field) :=
  g.nodes.map fun n => (n.id, n.kind, n.note.fields)

theorem find?_outline (g : Dag) (id : Nat) : g.outline.find? (·.1 == id) =
    (g.node? id).map fun n => (n.id, n.kind, n.note.fields) := by
  rw [outline, find?_map]
  rfl

theorem fieldsAt_of_outline (h : g'.outline = g.outline) (id : Nat) :
    g'.fieldsAt id = g.fieldsAt id := by
  have hfind : ∀ g : Dag, g.fieldsAt id = ((g.outline.find? (·.1 == id)).map (·.2.2)).getD [] := by
    intro g
    rw [find?_outline, Option.map_map]
    rfl
  rw [hfind, hfind, h]

theorem inner?_of_outline (h : g'.outline = g.outline) (id : Nat) : g'.inner? id = g.inner? id := by
  have hfind : ∀ g : Dag, g.inner? id = (g.outline.find? (·.1 == id)).bind (·.2.1.inner?) := by
    intro g
    rw [find?_outline, bind_map]
    rfl
  rw [hfind, hfind, h]

theorem shells_of_outline (h : g'.outline = g.outline) : g'.shells = g.shells := by
  have hmap : ∀ g : Dag, g.shells = g.outline.map fun e => (e.1, e.2.1.shell) := by
    intro g
    simp [shells, outline]
  rw [hmap, hmap, h]

theorem markNode_eq_ok {l l' : Liveness} (h : markNode l id = .ok l') :
    l'.graph.edges = l.graph.edges ∧ l'.graph.sink = l.graph.sink ∧
      l'.graph.allocated = l.graph.allocated ∧ l'.graph.outline = l.graph.outline := by
  simp only [markNode] at h
  split at h
  · cases h
  · cases h
    refine ⟨rfl, rfl, rfl, ?_⟩
    simp only [outline, modify, List.map_map]
    refine map_congr_left fun n _ => ?_
    simp only [Function.comp_apply]
    split <;> rfl

theorem markNodes_eq_ok {l l' : Liveness} (h : ids.foldlM markNode l = .ok l') :
    l'.graph.edges = l.graph.edges ∧ l'.graph.sink = l.graph.sink ∧
      l'.graph.allocated = l.graph.allocated ∧ l'.graph.outline = l.graph.outline := by
  refine foldlM_ok_induction (P := fun l' : Liveness => l'.graph.edges = l.graph.edges ∧
    l'.graph.sink = l.graph.sink ∧ l'.graph.allocated = l.graph.allocated ∧
    l'.graph.outline = l.graph.outline) ?_ ⟨rfl, rfl, rfl, rfl⟩ h
  intro l' id l'' _ hl hstep
  obtain ⟨he, hs, ha, ho⟩ := markNode_eq_ok hstep
  exact ⟨he.trans hl.1, hs.trans hl.2.1, ha.trans hl.2.2.1, ho.trans hl.2.2.2⟩

theorem annotateWith_eq (g : Dag) (types : GraphTypes) : g.annotateWith types =
    match g.order with
    | .error failure => .error ⟨failure, g⟩
    | .ok order => do
      let g ← order.foldlM (annotateNode types (g.inner.map fun e => (e.1, e.2.annotateWith))) g
      let marked ← order.reverse.foldlM markNode ⟨g, []⟩
      return marked.graph :=
  congrFun (fold_eq _ g) types

/-- What annotating a graph does: it annotates its operators in order, and then marks dead
columns. -/
theorem annotateWith_eq_ok (h : g.annotateWith types = .ok g') :
    ∃ order noted marked, g.order = .ok order ∧
      order.foldlM (annotateNode types (g.inner.map fun e => (e.1, e.2.annotateWith))) g =
      .ok noted ∧ order.reverse.foldlM markNode ⟨noted, []⟩ = .ok marked ∧ marked.graph = g' := by
  rw [annotateWith_eq] at h
  split at h
  · cases h
  · next order horder =>
    simp only [bind, Except.bind] at h
    split at h
    · cases h
    · next noted hnoted =>
      split at h
      · cases h
      · next marked hmarked =>
        cases h
        exact ⟨order, noted, marked, horder, hnoted, hmarked, rfl⟩

/-- **What annotating every operator preserves, annotating a graph preserves**, up to the marks of
dead columns. Annotating an operator may use that its producers are annotated, and what was reached
by then. -/
theorem annotateWith_induction {P : List Nat → Dag → Prop} (hnodup : g.ids.Nodup)
    (htypes : g.typesWithin bound = .ok types)
    (step : ∀ done id reached next, id ∈ g.ids → id ∉ done → (∀ q ∈ g.producers id, q ∈ done) →
      g.Progress types done reached → P done reached →
      annotateNode types (g.inner.map fun e => (e.1, e.2.annotateWith)) reached id = .ok next →
      P (done ++ [id]) next)
    (start : P [] g) (h : g.annotateWith types = .ok g') :
    ∃ order noted marked, g.order = .ok order ∧ g.Progress types order noted ∧ P order noted ∧
      order.reverse.foldlM markNode ⟨noted, []⟩ = .ok marked ∧ marked.graph = g' := by
  obtain ⟨rank, hrank⟩ := (founded_of_typesWithin htypes).here
  obtain ⟨order, noted, marked, horder, hnoted, hmarked, rfl⟩ := annotateWith_eq_ok h
  obtain ⟨hprogress, hP⟩ := foldlM_order_induction horder hnodup
    (P := fun done reached => g.Progress types done reached ∧ P done reached)
    (fun done id reached next hid hfresh hproducers hreached hnext => by
      have hbefore := fun q hq => hproducers q hq (hrank id hid q hq).1
      exact ⟨annotateNode_progress htypes hreached.1 hfresh hbefore hnext,
        step done id reached next hid hfresh hbefore hreached.1 hreached.2 hnext⟩)
    ⟨⟨rfl, rfl, rfl, fun _ _ => rfl, nofun, nofun, nofun⟩, start⟩ hnoted
  exact ⟨order, noted, marked, horder, hprogress, hP, hmarked, rfl⟩

/-- An annotated graph differs from the graph in notes only, and all of its operators are noted. -/
theorem progress_of_annotateWith (hnodup : g.ids.Nodup) (htypes : g.typesWithin bound = .ok types)
    (h : g.annotateWith types = .ok g') : g.Progress types g.ids g' := by
  obtain ⟨order, noted, marked, horder, hprogress, -, hmarked, rfl⟩ :=
    annotateWith_induction (P := fun _ _ => True)
      hnodup htypes (fun _ _ _ _ _ _ _ _ _ _ => trivial) trivial h
  obtain ⟨hedges, hsink, -, houtline⟩ := markNodes_eq_ok hmarked
  have hshells := shells_of_outline houtline
  have hmem : ∀ id, id ∈ g.ids ↔ id ∈ order := fun id => (mem_order_iff horder).symm
  refine ⟨hedges.trans hprogress.edges, hsink.trans hprogress.sink,
    hshells.trans hprogress.shells, ?_, ?_, ?_, ?_⟩
  · intro id hid
    have hnone : ∀ h : Dag, h.ids = g.ids → h.node? id = none := by
      intro h hids
      rw [← hids, ← contains_iff_mem_ids, contains, not_isSome_iff_eq_none] at hid
      exact hid
    rw [hnone g rfl, hnone _ (ids_eq_of_shells (hshells.trans hprogress.shells))]
  · intro id hid q hq
    exact (hmem q).2 (hprogress.closed id ((hmem id).1 hid) q hq)
  · intro id hid
    exact (hprogress.noted id ((hmem id).1 hid)).congr hedges hshells
      (fieldsAt_of_outline houtline id) fun q _ => fieldsAt_of_outline houtline q
  · intro id hid a innerTypes ha hinner
    rw [inner?_of_outline houtline]
    exact hprogress.inside id ((hmem id).1 hid) a innerTypes ha hinner

theorem inner_of_typesWithin (htypes : g.typesWithin bound = .ok types) {a : Dag}
    (ha : g.inner? id = some a) : ∃ inner, Table.get? types.inner id = some inner ∧
      a.typesWithin (some ((g.producers id).map types.type)) = .ok inner := by
  obtain ⟨hclosed, hall⟩ := closed_of_typesWithin htypes
  obtain ⟨node, n, hnode, hkind⟩ := inner?_eq_some_iff.1 ha
  obtain ⟨t, ht⟩ := hall id (mem_ids_of_node? hnode)
  obtain ⟨node', inputs, hnode', hinputs, hfollows⟩ := hclosed.follows id t ht
  obtain rfl := mem_unique hnode hnode'
  rw [hkind] at hfollows
  obtain ⟨-, inner, -, hinner, hget, -⟩ := hfollows
  exact ⟨inner, hget, inputTypes_eq hinputs ▸ hinner⟩

/-- A graph inside an annotated graph is what annotating the graph that was there has left. -/
theorem Progress.exists_inside (hprogress : g.Progress types g.ids g')
    (htypes : g.typesWithin bound = .ok types)
    {b : Dag} (hb : g'.inner? id = some b) : ∃ a inner, g.inner? id = some a ∧
      Table.get? types.inner id = some inner ∧
      a.typesWithin (some ((g.producers id).map types.type)) = .ok inner ∧
      a.annotateWith inner = .ok b := by
  obtain ⟨a, ha⟩ := inner?_of_shells hprogress.shells hb
  obtain ⟨node, -, hnode, -⟩ := inner?_eq_some_iff.1 ha
  obtain ⟨inner, hget, hinner⟩ := inner_of_typesWithin htypes ha
  obtain ⟨b', hb', hannotated⟩ := hprogress.inside id (mem_ids_of_node? hnode) a inner ha hget
  obtain rfl := mem_unique hb hb'
  exact ⟨a, inner, ha, hget, hinner, hannotated⟩

theorem annotated_of_annotateWith (hg : g.Numbered) (htypes : g.typesWithin bound = .ok types)
    (h : g.annotateWith types = .ok g') : Alike g g' ∧ Annotated bound g' := by
  induction hg generalizing bound types g' with
  | @intro g hascending _ ih =>
    have hprogress := progress_of_annotateWith (hascending.imp fun h => Nat.ne_of_lt h) htypes h
    -- The graphs inside are reached through the pipelines of the graph before and after.
    have hinside : ∀ id a b, g.inner? id = some a → g'.inner? id = some b →
        Alike a b ∧ Annotated (some ((g.producers id).map types.type)) b := by
      intro id a b ha hb
      obtain ⟨a', inner, ha', -, hinner, hannotated⟩ := hprogress.exists_inside htypes hb
      obtain rfl := mem_unique ha ha'
      exact ih id a ha hinner hannotated
    have halike : Alike g g' := ⟨hprogress.edges.symm, hprogress.sink.symm, hprogress.shells.symm,
      fun id a b ha hb => (hinside id a b ha hb).1⟩
    refine ⟨halike, types.type, halike.models ?_, ?_, ?_⟩
    · exact typed_of_typesWithin htypes
    · intro id hid
      exact hprogress.noted id (halike.ids ▸ hid)
    · intro id b hb
      obtain ⟨a, ha⟩ := inner?_of_shells hprogress.shells hb
      rw [halike.producers]
      exact (hinside id a b ha hb).2

/-- **An annotated graph is alike, and its notes agree with its types.** -/
theorem annotated_of_annotate (hg : g.Numbered) (h : g.annotated = .ok g') :
    Alike g g' ∧ Annotated none g' := by
  rw [annotated, mapError_eq_ok_iff, annotate] at h
  split at h
  · cases h
  · next types htypes => exact annotated_of_annotateWith hg htypes h

/-! ### The types of an annotated graph -/

theorem Alike.contains (hgh : Alike g g') (id : Nat) : g'.contains id = g.contains id := by
  rw [Bool.eq_iff_iff, contains_iff_mem_ids, contains_iff_mem_ids, hgh.ids]

theorem Alike.order (hgh : Alike g g') : g'.order = g.order := by
  have hinner : g'.innerEdges = g.innerEdges := by
    simp only [innerEdges, hgh.edges, hgh.contains]
  rw [Graph.order, Graph.order, hinner, hgh.ids]

theorem Alike.typesWithin_eq (hgh : Alike g g') (bound : Option (List TupleType)) :
    g'.typesWithin bound = g.typesWithin bound := by
  induction hgh generalizing bound with
  | @intro g g' edges sink shells inside ih =>
    have hgh : Alike g g' := ⟨edges, sink, shells, inside⟩
    rw [Graph.typesWithin_eq, Graph.typesWithin_eq, hgh.order]
    refine bind_congr fun order => congrArg (fun f => order.foldlM f ({} : GraphTypes)) ?_
    funext types id
    rw [typeNode, typeNode, get, get]
    cases hn : g.node? id with
    | none =>
      have hnone : g'.node? id = none := by
        rw [← not_isSome_iff_eq_none, isSome_iff_exists]
        rintro ⟨m, hm⟩
        obtain ⟨n, hn', -⟩ := node?_of_shells shells.symm hm
        rw [hn] at hn'
        cases hn'
      rw [hnone]
      rfl
    | some n =>
      obtain ⟨m, hm, hshell⟩ := node?_of_shells shells hn
      rw [hm, ofOption_some, ofOption_some, ok_bind, ok_bind, inputTypes, inputTypes, hgh.producers]
      have hid : m.id = n.id := (id_eq_of_node? hm).trans (id_eq_of_node? hn).symm
      refine bind_congr fun inputs => ?_
      obtain ⟨nid, nkind, nnote⟩ := n
      obtain ⟨mid, mkind, mnote⟩ := m
      cases nkind with
      | primitive p =>
        obtain rfl : mkind = .primitive p := shell_eq_inl_iff.1 hshell
        obtain rfl : mid = nid := hid
        rfl
      | pipeline k a =>
        obtain ⟨b, rfl⟩ : ∃ b, mkind = .pipeline k b := shell_eq_inr_iff.1 hshell
        obtain rfl : mid = nid := hid
        have ha := inner?_eq_some_iff.2 ⟨_, k, hn, rfl⟩
        have hb := inner?_eq_some_iff.2 ⟨_, k, hm, rfl⟩
        simp only [Table.get?_map, get?_inner ha, get?_inner hb, map_some, ofOption_some, ok_bind,
          ih id a b ha hb, (inside id a b ha hb).sink]
        rfl

theorem types_of_annotated (hg : g.Numbered) (h : g.annotated = .ok g') :
    ∃ types, g'.types = .ok types := by
  have halike := (annotated_of_annotate hg h).1
  rw [annotated, mapError_eq_ok_iff, annotate] at h
  split at h
  · cases h
  · next types htypes => exact ⟨types, (halike.typesWithin_eq none).trans htypes⟩

end Graph

end Dataflow
