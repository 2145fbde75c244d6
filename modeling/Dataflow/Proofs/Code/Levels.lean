/-
**Emission of graphs, level by level.**

The variable of an operator is named by the numbers on the way to it: those of the pipelines around
it, from the outside in, and its own.  Numbers are separated by a character that no number has, so
two operators never share a name, wherever they are.  A scope knows the variables of its operators
that were emitted and those that a pipeline takes from outside; all of them were made before, which
emission keeps: it takes only variables that the innermost scope knows, and makes one that there was
not.

When an operator is entered, its producers have variables of their types; when a pipeline is left,
so has its sink.  So the only thing that stops emission is a partition, and the first one that is
entered does.

Names of fields are written as they are.  If they are identifiers, no other variable stands in a
call.

Main definitions:

* `Statement.introduced?`, `Statement.Known` — the variable that a statement makes, and that it
  refers to some variables only;
* `Scoped` — statements that make every variable once and refer to those made before;
* `variableAt` — the name of the variable of the operator at a path;
* `Emitter.Consistent` — the invariant of emission;
* `Emission.Emits` — acting on some events, which only partitions stop;
* `Emission.Extends` — what emission of some operators of a graph does.

Main results:

* `variableAt_injective` — the name tells the path;
* `Emission.emits_eventsAt` — what emission of one operator does;
* `Emission.emits_trace` — what emission of a graph does, by induction over its levels;
* `Graph.emits_start` — the same for the graph of a program.
-/

import Dataflow.Proofs.Code.Calls
import Dataflow.Proofs.Graph.Traversal

namespace Dataflow

open List Option Outcome Dataflow.Graph

variable {path : List Nat} {s : Statement} {named : Prop}

/-! ### Statements -/

/-- If `named`, the names of the fields in a type are identifiers, at all depths. -/
def FieldType.NamedIf (named : Prop) (t : FieldType) : Prop :=
  ∀ s ∈ t.tuples, ∀ name ∈ TupleType.names s, named → Identifier name

theorem FieldType.inherited_namedIf : Inherited (NamedIf named) :=
  inherited_of_positional fun _ _ h _ => TupleType.identifier_positional h

namespace Statement

/-- The variable that a statement makes. -/
def introduced? : Statement → Option String
  | declare name _ => some name
  | reference name _ => some name
  | comment _ | line _ => none

/-- A statement that refers to some variables only: a call takes inputs among them, and, if `named`,
no other variable stands in it and no parameter but those of its function; an alias is one of
them. -/
def Known (named : Prop) (made : List String) : Statement → Prop
  | declare _ value => ∃ p found, Emission.Call (FieldType.NamedIf named) found p value ∧
      (∀ b ∈ found, b.name ∈ made) ∧ (named → Closed made p.parameters value)
  | reference _ target => target ∈ made
  | comment _ | line _ => True

end Statement

/-- The variables that some statements make. -/
def introduced (body : List Statement) : List String := body.filterMap Statement.introduced?

/-- Statements that make every variable once, and refer to variables that were made before. -/
structure Scoped (named : Prop) (body : List Statement) : Prop where
  distinct : (introduced body).Nodup
  before : ∀ done s rest, body = done ++ s :: rest → s.Known named (introduced done)

variable {body idle : List Statement} {s : Statement} {v : String} {made : List String}

theorem introduced_push (body : List Statement) (s : Statement) :
    introduced (body ++ [s]) = introduced body ++ s.introduced?.toList := by
  rw [introduced, filterMap_append]
  cases h : s.introduced? <;> simp [introduced, h]

theorem introduced_comment (body : List Statement) (text : String) :
    introduced (body ++ [.comment text]) = introduced body := by
  rw [introduced_push]
  exact append_nil _

theorem scoped_nil : Scoped named [] where
  distinct := nodup_nil
  before := by simp

/-- A statement more that makes a new variable, if any, from variables that there are. -/
theorem Scoped.push (h : Scoped named body) (hknown : s.Known named (introduced body))
    (hfresh : ∀ v, s.introduced? = some v → v ∉ introduced body) : Scoped named (body ++ [s]) where
  distinct := by
    rw [introduced_push, nodup_append]
    refine ⟨h.distinct, ?_, ?_⟩
    · cases s.introduced? <;> simp
    · rintro v hv w hw rfl
      exact hfresh v (by simpa using hw) hv
  before := by
    intro done t rest hsplit
    rcases eq_nil_or_concat rest with rfl | ⟨rest', last, rfl⟩
    · obtain ⟨rfl, hlast⟩ := append_inj' hsplit rfl
      cases hlast
      exact hknown
    · rw [concat_eq_append, ← cons_append, ← List.append_assoc] at hsplit
      exact h.before done t rest' (append_inj' hsplit rfl).1

/-- Statements more that neither make variables nor refer to any. -/
theorem Scoped.append_idle (h : Scoped named body)
    (hidle : ∀ s ∈ idle, (∀ made, s.Known named made) ∧ s.introduced? = none) :
    Scoped named (body ++ idle) := by
  induction idle generalizing body with
  | nil => rwa [append_nil]
  | cons s idle ih =>
    obtain ⟨hknown, hnone⟩ := hidle s mem_cons_self
    rw [append_cons]
    refine ih (h.push (hknown _) (by simp [hnone])) fun t ht => ?_
    exact hidle t (mem_cons_of_mem _ ht)

theorem Scoped.comment (h : Scoped named body) (text : String) :
    Scoped named (body ++ [.comment text]) :=
  h.append_idle fun _ ht => mem_singleton.1 ht ▸ ⟨fun _ => trivial, rfl⟩

/-- A comment and a statement more. -/
theorem Scoped.define (h : Scoped named body) (text : String) (hnew : s.introduced? = some v)
    (hknown : s.Known named (introduced body)) (hfresh : v ∉ introduced body) :
    Scoped named (body ++ [.comment text, s]) ∧
      introduced (body ++ [.comment text, s]) = introduced body ++ [v] := by
  rw [append_cons, introduced_push, introduced_comment, hnew]
  refine ⟨(h.comment text).push ?_ fun w hw => ?_, rfl⟩
  · rwa [introduced_comment]
  · rw [hnew] at hw
    cases hw
    rwa [introduced_comment]

/-! ### Names -/

/-- The name of the variable of the operator at a path. -/
def variableAt (path : List Nat) : String := "op_" ++ "_".intercalate (path.map toString)

/-- A path is spelled with digits and underscores. -/
theorem isDigit_or_of_mem_intercalate {c : Char}
    (h : c ∈ ("_".intercalate (path.map toString)).toList) : c.isDigit = true ∨ c = '_' := by
  induction path with
  | nil => simp at h
  | cons n path ih =>
    cases path with
    | nil =>
      rw [map_singleton, String.intercalate_singleton] at h
      exact .inl (Number.isDigit_of_mem_toString h)
    | cons m path =>
      rw [map_cons, map_cons, String.intercalate_cons_cons, String.toList_append,
        String.toList_append, mem_append, mem_append] at h
      rcases h with (hdigit | hseparator) | hrest
      · exact .inl (Number.isDigit_of_mem_toString hdigit)
      · exact .inr (by simpa using hseparator)
      · exact ih (by rwa [map_cons])

/-- The name of a variable is a word, and that of no parameter. -/
theorem word_variableAt (path : List Nat) : Word (variableAt path) ∧
    (variableAt path).toList ≠ [] ∧ isParameter (variableAt path) = false := by
  refine ⟨Word.append (by decide) fun c hc => ?_, by simp [variableAt], ?_⟩
  · rcases isDigit_or_of_mem_intercalate hc with hdigit | rfl
    · simp [isWord, Char.isAlphanum, hdigit]
    · rfl
  · simp [isParameter, variableAt]

/-- **The name of a variable tells the path.** -/
theorem variableAt_injective {p q : List Nat} (hp : p ≠ []) (hq : q ≠ [])
    (h : variableAt p = variableAt q) : p = q := by
  have hsplit : ∀ path : List Nat, path ≠ [] →
      (("_".intercalate (path.map toString)).split '_').toList.map (·.copy) =
      path.map toString := by
    intro path hne
    have hdigits : ∀ text ∈ path.map toString, '_' ∉ text.toList := by
      intro text htext hmem
      obtain ⟨n, -, rfl⟩ := List.mem_map.1 htext
      simpa using Number.isDigit_of_mem_toString hmem
    have htexts := String.toList_split_intercalate hdigits
    rwa [if_neg (by simpa using hne)] at htexts
  have htexts : p.map toString = q.map toString := by
    rw [← hsplit p hp, (String.append_right_inj _).1 h, hsplit q hq]
  exact map_injective_iff.2 (fun _ _ => Number.toString_nat_injective) htexts

theorem variableAt_ne_result (path : List Nat) : variableAt path ≠ "op_result" := by
  intro h
  have hresult : "_".intercalate (path.map toString) = "result" :=
    (String.append_right_inj "op_").1 h
  have hmem : 'r' ∈ ("_".intercalate (path.map toString)).toList := by simp [hresult]
  simpa using isDigit_or_of_mem_intercalate hmem

/-! ### The invariant of emission -/

/-- A variable that a scope knows: one of its own or an input of the pipeline. -/
def Scope.Knows (s : Scope) (v : String) : Prop :=
  v ∈ s.inputs ∨ ∃ id b, s.bindings.get? id = some b ∧ b.name = v

/-- The scope of the graph at a path. -/
def Scope.At (s : Scope) (path : List Nat) : Prop :=
  ∀ id, s.variableOf id = variableAt (path ++ [id])

theorem Scope.at_inside {s : Scope} (hs : s.At path) (id : Nat) (types : GraphTypes)
    (inputs : List String) : Scope.At { stem := s.variableOf id ++ "_", types, inputs }
    (path ++ [id]) := by
  intro k
  have houter : ((path ++ [id]).map toString) ≠ [] := by simp
  have hinner : ([k].map toString) ≠ [] := by simp
  have hname := String.intercalate_append_of_ne_nil (s := "_") houter hinner
  rw [← map_append, map_singleton, String.intercalate_singleton] at hname
  rw [Scope.variableOf, hs id, variableAt, variableAt, hname]
  simp only [String.append_assoc]

/-- The invariant of emission: the statements are well scoped, the variables that scopes know were
made, and all are named by paths. -/
structure Emitter.Consistent (named : Prop) (e : Emitter) : Prop where
  within : e.Within (FieldType.NamedIf named)
  ordered : Scoped named e.unit.body
  known : ∀ s ∈ e.scopes, ∀ v, s.Knows v → v ∈ introduced e.unit.body
  paths : ∀ v ∈ introduced e.unit.body, ∃ path ≠ [], v = variableAt path
  unfinished : ∀ text, .line text ∉ e.unit.body

namespace Emission

open FieldType

variable {e e' e₁ e₂ : Emitter} {g : Dag} {node : Node Operator} {sc : Scope} {rest : List Scope}
  {p : Primitive} {text name value : String} {b : Binding} {id : Nat} {found : List Binding}

/-- **A call with inputs that were made refers to these only.** -/
theorem Call.known (h : Call (NamedIf named) found p value) (name : String)
    (hfound : ∀ b ∈ found, b.name ∈ made) (hpaths : ∀ v ∈ made, ∃ path ≠ [], v = variableAt path) :
    (Statement.declare name value).Known named made := by
  have hwords : ∀ b ∈ found, Word b.name ∧ b.name.toList ≠ [] ∧ isParameter b.name = false := by
    intro b hb
    obtain ⟨path, -, hname⟩ := hpaths _ (hfound b hb)
    exact hname ▸ word_variableAt path
  refine ⟨p, found, h, hfound,
    fun hnamed => (h.closed (fun t ht name hname => ?_) hwords).of_subset ?_⟩
  · exact ht t mem_cons_self name hname hnamed
  · intro v hv
    obtain ⟨b, hb, rfl⟩ := List.mem_map.1 hv
    exact hfound b hb

theorem Made.known (h : Made (NamedIf named) sc name p s) (hsc : ∀ v, sc.Knows v → v ∈ made)
    (hpaths : ∀ v ∈ made, ∃ path ≠ [], v = variableAt path) :
    s.introduced? = some name ∧ s.Known named made := by
  cases h with
  | input given => exact ⟨rfl, hsc _ (.inl given)⟩
  | call known call =>
    refine ⟨rfl, call.known name (fun b hb => ?_) hpaths⟩
    obtain ⟨id, hid⟩ := known b hb
    exact hsc _ (.inr ⟨id, b, hid, rfl⟩)

/-- **A new variable of a scope keeps the invariant**, if it is made from variables that there
are. -/
theorem Defines.consistent (h : Defines (NamedIf named) sc rest text s id b e e')
    (he : e.Consistent named) (hscopes : ∀ s ∈ sc :: rest, s ∈ e.scopes) (hat : sc.At path)
    (hfresh : variableAt (path ++ [id]) ∉ introduced e.unit.body)
    (hs : s.introduced? = some (sc.variableOf id) ∧ s.Known named (introduced e.unit.body)) :
    e'.Consistent named ∧
      introduced e'.unit.body = introduced e.unit.body ++ [variableAt (path ++ [id])] := by
  rw [hat id] at hs
  obtain ⟨hordered, hintroduced⟩ := he.ordered.define text hs.1 hs.2 hfresh
  rw [← h.body] at hordered hintroduced
  refine ⟨⟨h.within he.within hscopes, hordered, ?_, ?_, ?_⟩, hintroduced⟩
  · rw [h.scopes, hintroduced, forall_mem_cons]
    obtain ⟨hsc, hrest⟩ := forall_mem_cons.1 hscopes
    refine ⟨fun v hv => ?_, fun s hs v hv => mem_append_left _ (he.known s (hrest s hs) v hv)⟩
    rcases hv with hinput | ⟨k, c, hget, rfl⟩
    · exact mem_append_left _ (he.known sc hsc v (.inl hinput))
    · rw [Table.get?_put] at hget
      split at hget
      · cases hget
        exact mem_append_right _ (mem_singleton.2 (h.named.trans (hat id)))
      · exact mem_append_left _ (he.known sc hsc _ (.inr ⟨k, c, hget, rfl⟩))
  · intro v hv
    rw [hintroduced, mem_append, mem_singleton] at hv
    rcases hv with hv | rfl
    · exact he.paths v hv
    · exact ⟨_, by simp, rfl⟩
  · intro line hline
    rw [h.body, mem_append, mem_pair] at hline
    rcases hline with hline | hline | rfl
    · exact he.unfinished line hline
    · cases hline
    · cases hs.1

/-- Entering a pipeline keeps it: the inputs that the graph inside knows are known outside. -/
theorem consistent_enter {types : GraphTypes} {inputs : List String} {stem : String}
    (he : e.Consistent named) (hwithin : e'.Within (NamedIf named))
    (hscopes : e.scopes = sc :: rest)
    (hinputs : ∀ v ∈ inputs, ∃ id b, sc.bindings.get? id = some b ∧ b.name = v)
    (hscopes' : e'.scopes = { stem, types, inputs } :: sc :: rest)
    (hbody : e'.unit.body = e.unit.body ++ [.comment text]) :
    e'.Consistent named ∧ introduced e'.unit.body = introduced e.unit.body := by
  have hintroduced : introduced e'.unit.body = introduced e.unit.body := by
    rw [hbody, introduced_comment]
  refine ⟨⟨hwithin, ?_, ?_, hintroduced ▸ he.paths, ?_⟩, hintroduced⟩
  · rw [hbody]
    exact he.ordered.comment text
  · rw [hscopes', hintroduced, ← hscopes, forall_mem_cons]
    refine ⟨fun v hv => ?_, he.known⟩
    rcases hv with hinput | ⟨_, _, hget, -⟩
    · exact he.known sc (hscopes ▸ mem_cons_self) v (.inr (hinputs v hinput))
    · cases hget
  · intro line hline
    rw [hbody, mem_append, mem_singleton] at hline
    rcases hline with hline | hline
    · exact he.unfinished line hline
    · cases hline

end Emission

/-! ### Levels -/

/-- The operator at a path: inside the pipelines of all numbers but the last. -/
def Graph.operatorAt? : Dag → List Nat → Option Operator
  | _, [] => none
  | g, [id] => (g.node? id).map (·.kind)
  | g, id :: k :: path => (g.inner? id).bind (·.operatorAt? (k :: path))

theorem Graph.mem_ids_of_operatorAt? {g : Dag} {id : Nat} {kind : Operator}
    (h : g.operatorAt? (id :: path) = some kind) : id ∈ g.ids := by
  cases path with
  | nil =>
    obtain ⟨node, hnode, -⟩ := map_eq_some_iff.1 h
    exact mem_ids_of_node? hnode
  | cons =>
    obtain ⟨inner, hinner, -⟩ := bind_eq_some_iff.1 h
    obtain ⟨node, -, hnode, -⟩ := inner?_eq_some_iff.1 hinner
    exact mem_ids_of_node? hnode

namespace Emission

open FieldType

variable {e e' e₁ e₂ : Emitter} {g : Dag} {sc : Scope} {rest : List Scope} {ids more way : List Nat}
  {bindings : Table Binding} {event : Event} {events xs ys : List Event} {P Q : Emitter → Prop}
  {bound : Option (List TupleType)} {id : Nat} {node : Node Operator}

/-- The failures of acting on some events: the first partition that is entered is refused. -/
def Refuses (events : List Event) (failure : Failure) : Prop :=
  ∃ event, events.find? Event.entersPartition = some event ∧
    failure = .unsupportedOperator event.node.id Tag.partition.name

/-- What becomes of acting on some events: the first partition that is entered is refused; if there
is none, all is emitted, and the emitter has a property then. -/
def Emits (events : List Event) (e : Emitter) (Q : Emitter → Prop) : Prop :=
  Ensures (Refuses events) (events.forM visit) e fun _ e' =>
    events.find? Event.entersPartition = none ∧ Q e'

theorem Emits.append (hxs : Emits xs e P) (hys : ∀ e', P e' → Emits ys e' Q) :
    Emits (xs ++ ys) e Q := by
  have hsplit : (xs ++ ys).forM visit = (do xs.forM visit; ys.forM visit) := forM_append
  rw [Emits, hsplit]
  refine (hxs.mono ?_ fun _ _ => id).bind fun _ e' ⟨hnone, he'⟩ => (hys e' he').mono ?_ ?_
  · rintro failure ⟨event, hevent, hfailure⟩
    exact ⟨event, by rw [find?_append, hevent, some_or], hfailure⟩
  · rintro failure ⟨event, hevent, hfailure⟩
    exact ⟨event, by rw [find?_append, hnone, none_or, hevent], hfailure⟩
  · rintro _ e'' ⟨hnone', he''⟩
    exact ⟨by rw [find?_append, hnone, none_or, hnone'], he''⟩

/-- A step is no entry of a partition. -/
theorem Step.supported {P : FieldType → Prop} (h : Step P event e e') :
    event.entersPartition = false := by
  cases h with
  | emit kind _ made =>
    cases made with
    | input => simp [Event.entersPartition, kind, Operator.tag, Primitive.tag]
    | call _ call => simp [Event.entersPartition, kind, Operator.tag, call.supported]
  | pass | leave => rfl
  | enter kind => simp [Event.entersPartition, kind, Operator.tag]

theorem emits_step (he : e.Consistent named) (hready : Ready event e) :
    Emits [event] e fun e' => Step (NamedIf named) event e e' ∧ e'.Within (NamedIf named) := by
  refine (ensures_visit inherited_namedIf he.within event (.inr hready) fun hpartition =>
    ⟨event, find?_cons_of_pos hpartition, rfl⟩).bind fun _ e' hstep => .pure ⟨?_, hstep, ?_⟩
  · rw [find?_cons_of_neg (by simp [hstep.supported]), find?_nil]
  · exact hstep.within he.within

/-- A scope for graphs with inputs of the given types, or for outer graphs. -/
def Suits (sc : Scope) : (bound : Option (List TupleType)) → Prop
  | none => sc.isOuter = true
  | some inputs => sc.inputs.length = inputs.length

/-- An operator that becomes bound to a variable of its type, while others stay bound. -/
theorem binds_put {b : Binding} (hb : sc.types.outputs.get? id = some b.type) (k : Nat)
    (hk : k ∈ [id] ∨ sc.Binds k) :
    Scope.Binds { sc with bindings := sc.bindings.put id b } k := by
  by_cases hsame : k = id
  · subst hsame
    exact ⟨b, Table.get?_put_self _ _ _, hb⟩
  · obtain ⟨c, hc, htype⟩ := hk.resolve_left (by simpa using hsame)
    refine ⟨c, ?_, htype⟩
    rwa [Table.get?_put, if_neg (Ne.symm hsame)]

/-- Statements among which the variable of the operator on a way from a path is made by a call, if
it is no look-up. -/
def Makes (named : Prop) (g : Dag) (path way : List Nat) (body : List Statement) : Prop :=
  ∀ p, g.operatorAt? way = some (.primitive p) → p.tag ≠ .parameterLookup → ∃ found value,
    .declare (variableAt (path ++ way)) value ∈ body ∧ Call (NamedIf named) found p value

theorem Makes.mono {body body' : List Statement} (h : Makes named g path way body)
    (hkept : body <+: body') : Makes named g path way body' := by
  intro p hp htag
  obtain ⟨found, value, hmem, hcall⟩ := h p hp htag
  exact ⟨found, value, hkept.subset hmem, hcall⟩

theorem makes_pipeline {n : Nat} {inner : Dag} {body : List Statement}
    (hnode : g.node? node.id = some node) (hkind : node.kind = .pipeline n inner)
    (h : ∀ k ∈ inner.ids, ∀ way, Makes named inner (path ++ [node.id]) (k :: way) body)
    (way : List Nat) : Makes named g path (node.id :: way) body := by
  intro p hp htag
  cases way with
  | nil =>
    rw [operatorAt?, hnode, map_some, hkind] at hp
    cases hp
  | cons k way =>
    rw [operatorAt?, inner?_eq_some_iff.2 ⟨node, n, hnode, hkind⟩, bind_some] at hp
    rw [append_cons]
    exact h k (mem_ids_of_operatorAt? hp) way p hp htag

/-- What emission of some operators of a graph does: it keeps the invariant and the statements that
there are, it changes nothing but the bindings of the innermost scope, where these operators become
bound, and it makes variables of these operators and of operators inside them, and no others. -/
structure Extends (named : Prop) (g : Dag) (path ids : List Nat) (sc : Scope) (rest : List Scope)
    (e e' : Emitter) : Prop where
  consistent : e'.Consistent named
  scopes : ∃ bindings, e'.scopes = { sc with bindings } :: rest ∧
    ∀ id, id ∈ ids ∨ sc.Binds id → Scope.Binds { sc with bindings } id
  kept : e.unit.body <+: e'.unit.body
  added : ∀ v ∈ introduced e'.unit.body, v ∈ introduced e.unit.body ∨
    ∃ id ∈ ids, ∃ inside, v = variableAt (path ++ id :: inside)
  made : ∀ id ∈ ids, ∀ inside, Makes named g path (id :: inside) e'.unit.body

/-- No operator of some, nor any inside them, has a variable yet. -/
def Free (path ids : List Nat) (e : Emitter) : Prop :=
  ∀ id ∈ ids, ∀ inside, variableAt (path ++ id :: inside) ∉ introduced e.unit.body

theorem Extends.trans (h₁ : Extends named g path ids sc rest e e₁)
    (hbinds : ∀ id, id ∈ ids ∨ sc.Binds id → Scope.Binds { sc with bindings } id)
    (h₂ : Extends named g path more { sc with bindings } rest e₁ e₂) :
    Extends named g path (ids ++ more) sc rest e e₂ where
  consistent := h₂.consistent
  scopes := by
    obtain ⟨bindings₂, hscopes, hbinds₂⟩ := h₂.scopes
    refine ⟨bindings₂, hscopes, fun id hid => hbinds₂ id ?_⟩
    rw [mem_append, or_right_comm] at hid
    exact hid.symm.imp_right (hbinds id)
  kept := h₁.kept.trans h₂.kept
  added := by
    intro v hv
    rcases h₂.added v hv with hold | ⟨id, hid, hname⟩
    · rcases h₁.added v hold with hold | ⟨id, hid, hname⟩
      · exact .inl hold
      · exact .inr ⟨id, mem_append_left _ hid, hname⟩
    · exact .inr ⟨id, mem_append_right _ hid, hname⟩
  made := by
    intro id hid inside
    rcases mem_append.1 hid with hid | hid
    · exact (h₁.made id hid inside).mono h₂.kept
    · exact h₂.made id hid inside

theorem Extends.free (h : Extends named g path ids sc rest e e₁) (hfree : Free path more e)
    (hdisjoint : ∀ id ∈ more, id ∉ ids) : Free path more e₁ := by
  intro id hid inside hmem
  rcases h.added _ hmem with hold | ⟨k, hk, inside', hname⟩
  · exact hfree id hid inside hold
  · have hpath := variableAt_injective (by simp) (by simp) hname
    rw [append_cancel_left_eq, cons.injEq] at hpath
    exact hdisjoint id hid (hpath.1 ▸ hk)

/-- What is shown of the graphs inside before it is shown of a graph. -/
def Extending (named : Prop) (g : Dag) : Prop :=
  ∀ {path : List Nat} {bound : Option (List TupleType)} {events : List Event} {sc : Scope}
    {rest : List Scope} {e : Emitter}, g.Numbered → g.trace .forward = .ok events →
    e.Consistent named → e.scopes = sc :: rest → sc.At path → g.typesWithin bound = .ok sc.types →
    Suits sc bound → Free path g.ids e → Emits events e (Extends named g path g.ids sc rest e)

section

variable (hnode : g.node? node.id = some node) (he : e.Consistent named)
  (hscopes : e.scopes = sc :: rest) (hat : sc.At path)
  (hbinds : ∀ q ∈ g.producers node.id, sc.Binds q)
include hnode he hscopes hat hbinds

/-- **What the events at a primitive operator do**: they make its variable. -/
theorem emits_primitive {p : Primitive} {t : TupleType} (hkind : node.kind = .primitive p)
    (ht : sc.types.outputs.get? node.id = some t)
    (hp : p.outputType ((g.producers node.id).map sc.types.type) bound = .ok t)
    (hsuits : Suits sc bound)
    (hfresh : variableAt (path ++ [node.id]) ∉ introduced e.unit.body) :
    Emits ([⟨.enter, node, g⟩] ++ [⟨.exit, node, g⟩]) e
      (Extends named g path [node.id] sc rest e) := by
  refine (emits_step he ⟨sc, rest, hscopes, ?_⟩).append ?_
  · simp only [hkind]
    refine ⟨hbinds, ⟨bound, t, ht, hp⟩, ?_⟩
    rintro n declared rfl houter
    cases bound with
    | none => rw [show sc.isOuter = true from hsuits] at houter; cases houter
    | some inputs =>
      have hlookup := bound_of_lookupType (outputType_parameterLookup hp)
      exact (show sc.inputs.length = inputs.length from hsuits)
        ▸ (List.getElem?_eq_some_iff.1 hlookup).1
  rintro e₁ ⟨hstep, -⟩
  cases hstep with
  | enter hkind' => cases hkind.symm.trans hkind'
  | emit hkind' hscopes' hmade htyped hdefines =>
    cases hkind.symm.trans hkind'
    obtain ⟨rfl, rfl⟩ := cons.inj (hscopes.symm.trans hscopes')
    have hs := hmade.known (he.known sc (hscopes ▸ mem_cons_self)) he.paths
    obtain ⟨he₁, hintroduced⟩ := hdefines.consistent he (fun s hs => hscopes ▸ hs) hat hfresh hs
    have hextends : Extends named g path [node.id] sc rest e e₁ := by
      refine ⟨he₁, ⟨_, hdefines.scopes, binds_put htyped⟩, hdefines.body ▸ prefix_append _ _,
        fun v hv => ?_, ?_⟩
      · rw [hintroduced, mem_append, mem_singleton] at hv
        exact hv.imp_right fun hself => ⟨node.id, mem_cons_self, [], hself⟩
      · intro id hid inside q hq htag
        cases mem_singleton.1 hid
        cases inside with
        | nil =>
          rw [operatorAt?, hnode, map_some, hkind] at hq
          cases hq
          cases hmade with
          | input => exact absurd rfl htag
          | call _ hcall =>
            refine ⟨_, _, ?_, hcall⟩
            rw [hdefines.body, hat node.id]
            simp
        | cons k way =>
          have hnone : g.inner? node.id = none := by
            rw [inner?, hnode, bind_some, hkind]
            rfl
          rw [operatorAt?, hnone] at hq
          cases hq
    refine (emits_step he₁ ⟨_, _, hdefines.scopes, by simp only [hkind]⟩).mono (fun _ => id) ?_
    rintro _ e' ⟨hnone, hstep', -⟩
    cases hstep' with
    | pass => exact ⟨hnone, hextends⟩
    | leave hkind' => cases hkind.symm.trans hkind'

/-- **What the events at a pipeline do**: they make the variables of the operators inside, and then
another name for that of the sink inside. -/
theorem emits_pipeline {n sink : Nat} {inner : Dag} {types : GraphTypes} {inputs : List TupleType}
    (ih : Extending named inner) (hinner : inner.Numbered)
    (htrace : inner.trace .forward = .ok events) (hkind : node.kind = .pipeline n inner)
    (htypes : inner.typesWithin (some inputs) = .ok types)
    (hinputs : inputs.length = (g.producers node.id).length)
    (hinside : Table.get? sc.types.inner node.id = some types) (hsink : inner.sink = some sink)
    (hresult : types.outputs.get? sink = sc.types.outputs.get? node.id)
    (hmem : sink ∈ inner.ids) (hfree : Free path [node.id] e) :
    Emits ([⟨.enter, node, g⟩] ++ (events ++ [⟨.exit, node, g⟩])) e
      (Extends named g path [node.id] sc rest e) := by
  refine (emits_step he ⟨sc, rest, hscopes, ?_⟩).append ?_
  · simp only [hkind]
    exact ⟨hbinds, types, hinside⟩
  rintro e₁ ⟨hstep, hwithin⟩
  cases hstep with
  | emit hkind' => cases hkind.symm.trans hkind'
  | enter hkind' hscopes' hknown hcount htypes' _ hscopes₁ hbody₁ =>
    obtain ⟨rfl, rfl⟩ := cons.inj (hscopes.symm.trans hscopes')
    cases hinside.symm.trans htypes'
    obtain ⟨he₁, hintroduced₁⟩ := consistent_enter he hwithin hscopes hknown hscopes₁ hbody₁
    -- A path inside the pipeline goes through the pipeline, so it is as free as the pipeline is.
    have hpath : ∀ k way, path ++ [node.id] ++ k :: way = path ++ node.id :: k :: way := by simp
    have hfree₁ : Free (path ++ [node.id]) inner.ids e₁ := by
      intro k _ way
      rw [hintroduced₁, hpath]
      exact hfree node.id mem_cons_self (k :: way)
    refine (ih hinner htrace he₁ hscopes₁ (Scope.at_inside hat node.id _ _) htypes
      (hcount.trans hinputs.symm) hfree₁).append fun e₂ he₂ => ?_
    obtain ⟨bindings, hscopes₂, hbinds₂⟩ := he₂.scopes
    refine (emits_step he₂.consistent ⟨_, _, hscopes₂, ?_⟩).mono (fun _ => id) ?_
    · simp only [hkind]
      exact ⟨cons_ne_nil _ _, sink, hsink, hbinds₂ sink (.inl hmem)⟩
    rintro _ e' ⟨hnone, hstep', -⟩
    refine ⟨hnone, ?_⟩
    cases hstep' with
    | pass hkind' => cases hkind.symm.trans hkind'
    | leave hkind' hscopes' hsink' hfound hdefines =>
      cases hkind.symm.trans hkind'
      cases hsink.symm.trans hsink'
      obtain ⟨rfl, hrest⟩ := cons.inj (hscopes₂.symm.trans hscopes')
      obtain ⟨rfl, rfl⟩ := cons.inj hrest
      have hfresh : variableAt (path ++ [node.id]) ∉ introduced e₂.unit.body := by
        intro hmem
        rcases he₂.added _ hmem with hold | ⟨k, -, way, hname⟩
        · exact hfree node.id mem_cons_self [] (hintroduced₁ ▸ hold)
        · have hsame := variableAt_injective (by simp) (by simp) hname
          simp at hsame
      have hmade := he₂.consistent.known _ (hscopes₂ ▸ mem_cons_self) _ (.inr ⟨_, _, hfound, rfl⟩)
      obtain ⟨he', hintroduced'⟩ := hdefines.consistent he₂.consistent
        (fun s hs => hscopes₂ ▸ mem_cons_of_mem _ hs) hat hfresh ⟨rfl, hmade⟩
      have hkept : e₂.unit.body <+: e'.unit.body := hdefines.body ▸ prefix_append _ _
      have hkept₁ : e.unit.body <+: e₁.unit.body := hbody₁ ▸ prefix_append _ _
      obtain ⟨b, hb, htype⟩ := hbinds₂ sink (.inl hmem)
      cases hfound.symm.trans hb
      refine ⟨he', ⟨_, hdefines.scopes, binds_put (hresult.symm.trans htype)⟩,
        hkept₁.trans (he₂.kept.trans hkept), fun v hv => ?_, ?_⟩
      · rw [hintroduced', mem_append, mem_singleton] at hv
        rcases hv with hv | rfl
        · rcases he₂.added v hv with hold | ⟨k, -, way, rfl⟩
          · exact .inl (hintroduced₁ ▸ hold)
          · exact .inr ⟨node.id, mem_cons_self, k :: way, by rw [hpath]⟩
        · exact .inr ⟨node.id, mem_cons_self, [], rfl⟩
      · intro id hid way
        cases mem_singleton.1 hid
        exact makes_pipeline hnode hkind (fun k hk way => (he₂.made k hk way).mono hkept) way

end

/-- **What the events at one operator do**, after its producers have variables: they make its
variable, and before that those of the operators inside it, unless a partition is entered. -/
theorem emits_eventsAt {inner : Table (List Event)}
    (ih : ∀ id h, g.inner? id = some h → Extending named h) (hg : g.Numbered)
    (hinner : ∀ id, (g.inner? id).map (trace .forward) = (inner.get? id).map Except.ok)
    (hid : id ∈ g.ids) (he : e.Consistent named) (hscopes : e.scopes = sc :: rest)
    (hat : sc.At path) (htypes : g.typesWithin bound = .ok sc.types) (hsuits : Suits sc bound)
    (hbinds : ∀ q ∈ g.producers id, sc.Binds q) (hfree : Free path [id] e) :
    Emits (g.eventsAt inner id) e (Extends named g path [id] sc rest e) := by
  obtain ⟨hclosed, hall⟩ := closed_of_typesWithin htypes
  obtain ⟨t, ht⟩ := hall id hid
  obtain ⟨node, inputs, hnode, hinputs, hfollows⟩ := hclosed.follows id t ht
  obtain rfl : node.id = id := id_eq_of_node? hnode
  replace hinputs := GraphTypes.inputTypes_eq hinputs
  rw [eventsAt_eq hnode]
  cases hkind : node.kind with
  | primitive p =>
    have hnone : g.inner? node.id = none := by
      rw [inner?, hnode, bind_some, hkind]
      rfl
    rw [hkind] at hfollows
    rcases getD_of_traces hinner node.id with ⟨-, hnil⟩ | ⟨h, hsome, -⟩
    · rw [hnil, nil_append]
      exact emits_primitive hnode he hscopes hat hbinds hkind ht (hinputs ▸ hfollows) hsuits
        (hfree node.id mem_cons_self [])
    · cases hnone.symm.trans hsome
  | pipeline n inside =>
    rw [hkind] at hfollows
    obtain ⟨-, types, sink, hinside, hget, hsink, houtput⟩ := hfollows
    have hsome := inner?_eq_some_iff.2 ⟨node, n, hnode, hkind⟩
    rcases getD_of_traces hinner node.id with ⟨hnone, -⟩ | ⟨h, hsome', htrace⟩
    · cases hnone.symm.trans hsome
    · obtain rfl := mem_unique hsome hsome'
      refine emits_pipeline hnode he hscopes hat hbinds (ih node.id inside hsome) (hg.inside hsome)
        htrace hkind hinside ?_ hget hsink (houtput.trans ht.symm) ?_ hfree
      · rw [hinputs, List.length_map]
      · exact (closed_of_typesWithin hinside).1.mem_ids houtput

/-- **What emission of a graph does**: it makes the variables of the operators at all levels, each
from variables made before, unless a partition is entered. -/
theorem emits_trace (g : Dag) : Extending named g := by
  induction g using levelInduction with
  | step g ih =>
    intro path bound events sc rest e hg htrace he hscopes hat htypes hsuits hfree
    obtain ⟨order, inner, horder, rfl, hinner⟩ := trace_eq_ok hg.here htrace
    obtain ⟨rank, hrank⟩ := (founded_of_typesWithin htypes).here
    have hperm := perm_order horder
    have hnodup : order.Nodup := hperm.nodup_iff.2 hg.here.nodup
    -- By induction on what is left of the order, with what is done as the part before it.
    have hrun : ∀ left done e', order = done ++ left → Extends named g path done sc rest e e' →
        Emits (left.flatMap (g.eventsAt inner)) e' (Extends named g path order sc rest e) := by
      intro left
      induction left with
      | nil =>
        intro done e' hsplit he'
        rw [hsplit, append_nil]
        exact .pure ⟨rfl, he'⟩
      | cons id left ihleft =>
        intro done e' hsplit he'
        have hid : id ∈ g.ids := hperm.mem_iff.1 (by simp [hsplit])
        have hnew : id ∉ done := by
          intro hmem
          rw [hsplit, nodup_append] at hnodup
          exact hnodup.2.2 id hmem id mem_cons_self rfl
        have hfree' : Free path [id] e' := he'.free
          (fun k hk => hfree k (mem_singleton.1 hk ▸ hid)) (by simpa using hnew)
        obtain ⟨bindings, hscopes', hbinds⟩ := he'.scopes
        have hproducers : ∀ q ∈ g.producers id, Scope.Binds { sc with bindings } q := fun q hq =>
          hbinds q (.inl (source_mem_of_order horder hsplit hq (hrank id hid q hq).1))
        have hsuits' : Suits { sc with bindings } bound := by cases bound <;> exact hsuits
        rw [flatMap_cons]
        refine (emits_eventsAt ih hg hinner hid he'.consistent hscopes' hat htypes hsuits'
          hproducers hfree').append fun e'' he'' => ?_
        exact ihleft (done ++ [id]) e'' (by rw [hsplit, List.append_assoc]; rfl)
          (he'.trans hbinds he'')
    refine (hrun order [] e rfl ⟨he, ⟨sc.bindings, hscopes, by simp⟩, prefix_rfl,
      fun v hv => .inl hv, nofun⟩).mono (fun _ => id) ?_
    rintro _ e' ⟨hnone, hextends⟩
    obtain ⟨bindings, hscopes', hbinds⟩ := hextends.scopes
    refine ⟨hnone, hextends.consistent, ⟨bindings, hscopes', fun id hid => hbinds id ?_⟩,
      hextends.kept, fun v hv => ?_, fun id hid => ?_⟩
    · exact hid.imp_left hperm.mem_iff.2
    · refine (hextends.added v hv).imp_right ?_
      rintro ⟨id, hid, hname⟩
      exact ⟨id, hperm.mem_iff.1 hid, hname⟩
    · exact hextends.made id (hperm.mem_iff.2 hid)

end Emission

namespace Graph

open FieldType

variable {g : Dag} {types : GraphTypes} {events : List Event}

theorem consistent_start (comments : Bool)
    (htypes : types.All fun t => NamedIf named (.tuple t)) :
    (Emitter.start types comments).Consistent named where
  within := within_start comments htypes
  ordered := scoped_nil
  known := by
    intro s hs v hv
    cases mem_singleton.1 hs
    rcases hv with hinput | ⟨_, _, hget, -⟩
    · cases hinput
    · cases hget
  paths := nofun
  unfinished := nofun

theorem declares_unnamed (g : Dag) : g.Declares (NamedIf False <| .tuple ·) :=
  fun _ _ _ _ _ _ _ _ _ _ => nofun

/-- **What emission of an outer graph does**, from the start of a program. -/
theorem emits_start (hg : g.Numbered) (hdeclares : g.Declares (NamedIf named <| .tuple ·))
    (htypes : g.types = .ok types) (htrace : g.trace .forward = .ok events) (comments : Bool) :
    Emission.Emits events (Emitter.start types comments) (Emission.Extends named g [] g.ids
      { stem := "op_", types } [] (Emitter.start types comments)) := by
  have hstart := consistent_start comments ((all_types_iff inherited_namedIf htypes).2 hdeclares)
  have hat : Scope.At { stem := "op_", types } [] := fun _ => rfl
  have hsuits : Emission.Suits { stem := "op_", types } none := rfl
  exact Emission.emits_trace g hg htrace hstart rfl hat htypes hsuits fun _ _ _ => not_mem_nil

end Graph

end Dataflow
