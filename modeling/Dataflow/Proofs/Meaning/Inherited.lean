/-
**Properties that types inherit.**

Typing makes types in few ways.  It takes fields out of tuples and items out of arrays, puts tuples
into arrays, and puts types side by side in a tuple whose fields are named by position.  The only
other types are atomic, or are declared by a look-up outside all pipelines.  So a property that is
kept on these ways holds of all types of a graph exactly if it holds of the declared ones.

Main definitions:

* `FieldType.tuples` — the tuple types in a type, at all depths;
* `FieldType.Inherited` — a property that is kept on all ways in which types are made;
* `GraphTypes.All` — a property of the types of the operators at all levels;
* `Graph.Declares` — a property of the types that outer look-ups declare.

Main results:

* `FieldType.inherited_of_positional` — what all tuple types in a type are like is inherited, if
  tuples named by position are like that;
* `Expr.inherited_infer`, `Primitive.inherited_outputType` — one expression, and one operator;
* `Graph.all_of_typesWithin` — all types of a graph, by induction over its levels and its order;
* `Graph.all_types_iff` — **all types of a graph have an inherited property exactly if the declared
  ones have it**.
-/

import Dataflow.Proofs.Columns

namespace Dataflow

open List Outcome TupleType

theorem TupleType.mem_names_positionalFrom {i : Nat} {types : List FieldType} {name : String}
    (h : name ∈ (positionalFrom i types).names) : ∃ k, i ≤ k ∧ name = "v" ++ toString k := by
  induction types generalizing i with
  | nil => cases h
  | cons type types ih =>
    rcases mem_cons.1 h with rfl | h
    · exact ⟨i, Nat.le_refl i, rfl⟩
    · obtain ⟨k, hk, rfl⟩ := ih h
      exact ⟨k, by omega, rfl⟩

/-- A property of types that arrays share with their items, that fields have if their tuple has it,
and that tuples named by position have if all their fields have it. -/
structure FieldType.Inherited (P : FieldType → Prop) : Prop where
  atomic : ∀ kind, P (.atomic kind)
  array : ∀ element, P (.array element) ↔ P element
  field : ∀ fields : TupleType, P (.tuple fields) → ∀ t ∈ fields.types, P t
  positional : ∀ types, (∀ t ∈ types, P t) → P (.tuple (positional types))

namespace FieldType.Inherited

variable {P : FieldType → Prop} {t s : TupleType} {type : FieldType}

section

variable (hP : Inherited P)
include hP

theorem type? (ht : P (.tuple t)) {index : Nat} (h : t.type? index = some type) : P type := by
  rw [type?_eq_getElem?] at h
  exact hP.field t ht type (mem_of_getElem? h)

theorem row (h : P type) : P (.tuple type.row) := by
  cases type with
  | tuple fields => exact h
  | atomic | array => exact hP.positional _ fun t ht => mem_singleton.1 ht ▸ h

theorem concat (hs : P (.tuple s)) (ht : P (.tuple t)) : P (.tuple (s.concat t)) := by
  refine hP.positional _ fun type htype => ?_
  rcases mem_append.1 htype with hleft | hright
  · exact hP.field s hs type hleft
  · exact hP.field t ht type hright

theorem scalar (kind : Kind) : P (.tuple (scalar kind)) :=
  hP.positional _ fun _ ht => mem_singleton.1 ht ▸ hP.atomic kind

theorem vectorOf (ht : P (.tuple t)) : P (.tuple t.vectorOf) :=
  hP.positional _ fun _ h => mem_singleton.1 h ▸ (hP.array _).2 ht

theorem rowVector? (ht : P (.tuple t)) (h : t.rowVector? = some type) : P type := by
  unfold TupleType.rowVector? at h
  split at h
  · next name element =>
    cases h
    exact (hP.array _).1 (hP.field _ ht _ (mem_singleton_self _))
  · cases h

end

end FieldType.Inherited

namespace FieldType

mutual

/-- The tuple types in a type, at all depths. -/
def tuples : FieldType → List TupleType
  | atomic _ => []
  | array element => element.tuples
  | tuple fields => fields :: fieldTuples fields

/-- The tuple types in the types of some fields. -/
def fieldTuples : List (Named FieldType) → List TupleType
  | [] => []
  | ⟨_, type⟩ :: rest => type.tuples ++ fieldTuples rest

end

theorem mem_fieldTuples {fields : TupleType} {s : TupleType} :
    s ∈ fieldTuples fields ↔ ∃ t ∈ fields.types, s ∈ t.tuples := by
  induction fields with
  | nil => simp [fieldTuples, types]
  | cons field fields ih =>
    obtain ⟨name, type⟩ := field
    rw [fieldTuples, mem_append, ih]
    exact (exists_mem_cons_iff (s ∈ ·.tuples) type (types fields)).symm

variable {Q : TupleType → Prop}

/-- What all tuple types in a type are like is inherited, if the tuples named by position are like
that. -/
theorem inherited_of_positional (hQ : ∀ types, Q (positional types)) :
    Inherited fun t => ∀ s ∈ t.tuples, Q s where
  atomic kind := by simp [tuples]
  array element := by rw [tuples]
  field fields h t ht s hs := h s (mem_cons_of_mem _ (mem_fieldTuples.2 ⟨t, ht, hs⟩))
  positional types h := by
    intro s hs
    rw [tuples, mem_cons] at hs
    rcases hs with rfl | hs
    · exact hQ types
    · obtain ⟨t, ht, hs⟩ := mem_fieldTuples.1 hs
      rw [types_positional] at ht
      exact h t ht s hs

end FieldType

open FieldType

variable {P : FieldType → Prop}

/-- The type of an expression is taken from its arguments, atomic, or a tuple named by position. -/
theorem Expr.inherited_infer (hP : Inherited P) {args : List TupleType}
    (hargs : ∀ t ∈ args, P (.tuple t)) {e : Expr} {type : FieldType} (h : e.infer args = .ok type) :
    P type := by
  induction e, type, h using infer_induction with
  | field arg index type t _ ht htype => exact hP.type? (hargs t (mem_of_getElem? ht)) htype
  | literal | binary | unary => exact hP.atomic _
  | tuple items types _ htypes ih =>
    refine hP.positional types fun t ht => ?_
    obtain ⟨item, hitem, hinfer⟩ := mem_of_mapM (mapM_eq_ok_iff.2 htypes) ht
    exact ih item hitem t hinfer

namespace Primitive

variable {p : Primitive} {t input : TupleType}

/-- The type of an operator has an inherited property if the types of its inputs have it, and for a
look-up, those that it is given or declares. -/
theorem inherited_outputType (hP : Inherited P) {inputs : List TupleType}
    {bound : Option (List TupleType)} (hinputs : ∀ s ∈ inputs, P (.tuple s))
    (hbound : ∀ given, bound = some given → ∀ s ∈ given, P (.tuple s))
    (hdeclared : bound = none → ∀ n declared, p = .parameterLookup n (some declared) →
      P (.tuple declared))
    (h : p.outputType inputs bound = .ok t) : P (.tuple t) := by
  cases outputType_eq_ok_iff.1 h with
  | range => exact hP.scalar _
  | constantTuple =>
    refine hP.positional _ fun type htype => ?_
    obtain ⟨value, -, rfl⟩ := List.mem_map.1 htype
    exact hP.atomic _
  | parameterLookup lookup =>
    cases bound with
    | some given => exact hbound given rfl t (mem_of_getElem? (bound_of_lookupType lookup))
    | none => exact hdeclared rfl _ t (by rw [declared_of_lookupType lookup])
  | filter | reduce | reduceByKey | ensureSingleTuple => exact hinputs t mem_cons_self
  | rowScan array =>
    have hrow := hP.row ((hP.array _).1 (hP.type? (hinputs _ mem_cons_self) array))
    split
    · exact hP.concat (hP.scalar _) hrow
    · exact hrow
  | map infers => exact hP.row (Expr.inherited_infer hP hinputs infers)
  | projection selects =>
    refine hP.positional _ fun type htype => ?_
    obtain ⟨i, hi⟩ := mem_iff_getElem?.1 htype
    obtain ⟨position, -, hposition⟩ := exists_of_forall₂ selects.flip hi
    exact hP.type? (hinputs _ mem_cons_self) hposition
  | groupBy hkeys haggregates =>
    refine hP.positional _ fun type htype => ?_
    rcases mem_append.1 htype with hkey | haggregate
    · obtain ⟨i, hi⟩ := mem_iff_getElem?.1 hkey
      obtain ⟨key, -, hkey⟩ := exists_of_forall₂ hkeys.flip hi
      exact hP.type? (hinputs _ mem_cons_self) hkey.1
    · obtain ⟨a, -, ha⟩ := mem_of_mapM (mapM_eq_ok_iff.2 haggregates) haggregate
      by_cases hfn : a.fn = .count
      · rw [Aggregate.type, if_pos hfn] at ha
        cases ha
        exact hP.atomic _
      · obtain ⟨-, field, -, hfield⟩ := Aggregate.type_eq_ok ha hfn
        exact hP.type? (hinputs _ mem_cons_self) hfield
  | partition => exact hP.concat (hP.scalar _) (hinputs _ mem_cons_self)
  | materializeRowVector => exact hP.vectorOf (hinputs _ mem_cons_self)
  | join =>
    refine hP.positional _ fun type htype => ?_
    rcases mem_append.1 htype with hleft | hright
    · exact hP.field _ (hinputs _ mem_cons_self) type hleft
    · exact hP.field _ (hinputs _ (by simp)) type (mem_of_mem_drop hright)
  | cartesian => exact hP.concat (hinputs _ mem_cons_self) (hinputs _ (by simp))

end Primitive

/-! ### Graphs -/

namespace GraphTypes

/-- The types of the graph that some pipelines lead to. -/
def at? (types : GraphTypes) : (path : List Nat) → Option GraphTypes
  | [] => some types
  | id :: path => (Table.get? types.inner id).bind (·.at? path)

/-- The types of the operators of a graph, and of those of the graphs inside it, have a property. -/
def All (Q : TupleType → Prop) (types : GraphTypes) : Prop :=
  ∀ path inner, types.at? path = some inner → ∀ id t, inner.outputs.get? id = some t → Q t

variable {Q : TupleType → Prop} {types : GraphTypes}

theorem all_iff : All Q types ↔ (∀ id t, types.outputs.get? id = some t → Q t) ∧
    ∀ id inner, Table.get? types.inner id = some inner → All Q inner := by
  constructor
  · refine fun h => ⟨h [] types rfl, fun id inner hinner path deep hdeep => ?_⟩
    refine h (id :: path) deep ?_
    rw [at?, hinner]
    exact hdeep
  · rintro ⟨hhere, hinside⟩ path inner hpath
    cases path with
    | nil =>
      cases hpath
      exact hhere
    | cons id path =>
      obtain ⟨next, hnext, hpath⟩ := Option.bind_eq_some_iff.1 hpath
      exact hinside id next hnext path inner hpath

end GraphTypes

namespace Graph

open GraphTypes

variable {g : Dag} {bound : Option (List TupleType)} {types more : GraphTypes} {id : Nat}

/-- The types that the look-ups of a graph declare have a property. -/
def Declares (Q : TupleType → Prop) (g : Dag) : Prop :=
  ∀ id node n t, g.node? id = some node → node.kind = .primitive (.parameterLookup n (some t)) → Q t

/-- Typing one operator keeps an inherited property, if typing the graphs inside does. -/
theorem all_of_typeNode (hP : Inherited P)
    (ih : ∀ id h, g.inner? id = some h → ∀ inputs inner, (∀ s ∈ inputs, P (.tuple s)) →
      h.typesWithin (some inputs) = .ok inner → inner.All fun t => P (.tuple t))
    (hbound : ∀ given, bound = some given → ∀ s ∈ given, P (.tuple s))
    (hdeclares : bound = none → g.Declares fun t => P (.tuple t))
    (htypes : types.All fun t => P (.tuple t))
    (h : g.typeNode (g.inner.map fun e => (e.1, e.2.typesWithin)) bound types id = .ok more) :
    more.All fun t => P (.tuple t) := by
  obtain ⟨node, inputs, t, hnode, hinputs, hcases⟩ := typeNode_cases h
  obtain ⟨houtputs, hinner⟩ := all_iff.1 htypes
  have hinputs : ∀ s ∈ inputs, P (.tuple s) := by
    intro s hs
    obtain ⟨q, -, hq⟩ := mem_of_mapM hinputs hs
    exact houtputs q s (output_eq_ok_iff.1 hq)
  rcases hcases with ⟨p, hkind, ht, rfl⟩ | ⟨n, inside, innerTypes, sink, hkind, -,
    hinside, -, ht, rfl⟩
  · refine all_iff.2 ⟨fun k u hu => ?_, hinner⟩
    rw [Table.get?_put] at hu
    split at hu
    · cases hu
      refine p.inherited_outputType hP hinputs hbound (fun hnone n declared hp => ?_) ht
      exact hdeclares hnone id node n declared hnode (hkind.trans (congrArg _ hp))
    · exact houtputs k u hu
  · have hall := ih id inside (inner?_eq_some_iff.2 ⟨node, n, hnode, hkind⟩)
      inputs innerTypes hinputs hinside
    refine all_iff.2 ⟨fun k u hu => ?_, fun k u hu => ?_⟩
    · rw [Table.get?_put] at hu
      split at hu
      · cases hu
        exact (all_iff.1 hall).1 sink _ ht
      · exact houtputs k u hu
    · rw [Table.get?_put] at hu
      split at hu
      · cases hu
        exact hall
      · exact hinner k u hu

/-- **All types of a graph have an inherited property** if the types that it is given have it, or,
outside all pipelines, those that its look-ups declare. -/
theorem all_of_typesWithin (hP : Inherited P)
    (hbound : ∀ given, bound = some given → ∀ s ∈ given, P (.tuple s))
    (hdeclares : bound = none → g.Declares fun t => P (.tuple t))
    (h : g.typesWithin bound = .ok types) :
    types.All fun t => P (.tuple t) := by
  induction g using levelInduction generalizing bound types with
  | step g ih =>
    rw [typesWithin_eq, bind_eq_ok_iff] at h
    obtain ⟨order, -, h⟩ := h
    have hempty : GraphTypes.All (fun t => P (.tuple t)) {} := all_iff.2 ⟨by simp, by simp⟩
    refine foldlM_ok_induction (fun types id more _ htypes hmore => ?_) hempty h
    refine all_of_typeNode hP (fun id inside hid inputs inner hinputs hinner => ?_)
      hbound hdeclares htypes hmore
    have hgiven : ∀ given, some inputs = some given → ∀ s ∈ given, P (.tuple s) := by
      rintro _ ⟨⟩
      exact hinputs
    exact ih id inside hid hgiven nofun hinner

theorem declares_of_all (h : g.types = .ok types) (hall : types.All Q) : g.Declares Q := by
  obtain ⟨hclosed, hids⟩ := closed_of_typesWithin h
  intro id node n declared hnode hkind
  obtain ⟨t, ht⟩ := hids id (mem_ids_of_node? hnode)
  obtain ⟨node', inputs, hnode', -, hfollows⟩ := hclosed.follows id t ht
  obtain rfl : node = node' := Option.mem_unique hnode hnode'
  rw [hkind] at hfollows
  cases declared_of_lookupType (outputType_parameterLookup hfollows)
  exact (all_iff.1 hall).1 id _ ht

/-- **All types of a graph have an inherited property exactly if the types that its outer look-ups
declare have it.** -/
theorem all_types_iff (hP : Inherited P) (h : g.types = .ok types) :
    (types.All fun t => P (.tuple t)) ↔ g.Declares fun t => P (.tuple t) := by
  refine ⟨declares_of_all h, fun hdeclares => all_of_typesWithin hP ?_ (fun _ => hdeclares) h⟩
  intro given hgiven
  cases hgiven

end Graph

end Dataflow
