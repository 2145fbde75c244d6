/-
**Histories of a graph.**

A graph starts empty or is read from a document.  Then it is edited, annotated, cleared of
annotations and rewritten, in any order and with whatever success, and so are the graphs inside its
pipelines.  Whatever was done, every column that was given out has at most one owner.  So after the
graph is annotated, the columns that operators are noted to write are those of the fields that they
originate, and no two operators share one.

Main results:

* `Graph.Owned.edit`, `Graph.owned_clearNotes` — edits and clearing annotations give no column a
  second owner;
* `Graph.owned_pushAll`, `Graph.owned_fuseAll` — nor do the rules, at any level;
* `Graph.owned_of_reachable` — **whatever was done to a graph, every column has one owner**;
* `Graph.ownsColumns_of_annotate` — **annotation notes the owners of all columns**.
-/

import Dataflow.Proofs.Document.Acceptance
import Dataflow.Proofs.Graph.Traversal
import Dataflow.Proofs.Optimization.Evolution
import Dataflow.Proofs.Ownership

namespace Dataflow.Graph

open List Option GraphTypes Outcome Operator

variable {node : Node Operator} {g g' h : Dag} {id : Nat} {bound : Option (List TupleType)}

/-! ### Histories -/

/-- The graph that annotating leaves, whether it succeeds or fails. -/
def afterAnnotate (g : Dag) : Dag :=
  match g.annotate with
  | .ok g' => g'
  | .error stop => stop.reached

/-- The graphs that have a history: the empty one, those that are read from documents, and what
becomes of them by edits, which may add a pipeline around another such graph, by annotating, by
clearing annotations, and by the rules.  A rule that fails has made some of its changes and some
edits.  The graphs inside pipelines have histories of their own. -/
inductive Reachable : Dag → Prop
  | empty : Reachable empty
  | read {g : Dag} {catalog : Catalog} {document : Json} (h : ofJson catalog document = .ok g) :
      Reachable g
  | edit {g : Dag} {edit : Edit} (hg : Reachable g)
      (hinner : ∀ n h, edit.operator? = some (.pipeline n h) → Reachable h) :
      Reachable (edit.apply g)
  | annotate {g : Dag} (hg : Reachable g) : Reachable g.afterAnnotate
  | clearNotes {g : Dag} (hg : Reachable g) : Reachable g.clearNotes
  | rule {g g' : Dag} {rule : Rule} (hg : Reachable g) (hrule : rule = .pushdown ∨ rule = .fusion)
      (h : rule.apply g = .ok (some g')) : Reachable g'
  | change {g g' : Dag} (hg : Reachable g)
      (h : g.pushHere = .ok (some g') ∨ g.fuseHere = .ok (some g')) : Reachable g'
  | inside {g h : Dag} {id : Nat} (hg : Reachable g) (hid : g.inner? id = some h) : Reachable h
  | replaceInner {g h : Dag} {id : Nat} (hg : Reachable g) (hh : Reachable h) :
      Reachable (g.replaceInner id h)

/-! ### Operators that keep their annotations -/

/-- A change under which operators keep their annotations, and originate what they did, gives no
column a second owner. -/
theorem Owned.of_nodes (hg : g.Owned) (hintact : g'.Intact)
    (hallocated : g.allocated ≤ g'.allocated)
    (hnodes : ∀ n ∈ g'.nodes, n.note.fields = [] ∨ ∃ m ∈ g.nodes, m.id = n.id ∧
      m.note.fields = n.note.fields ∧ m.kind.originates = n.kind.originates) : g'.Owned := by
  refine hg.of_fields hintact hallocated fun id node hnode =>
    (hnodes node (mem_of_node? hnode)).imp_right ?_
  rintro ⟨m, hm, hid, hsame⟩
  have hfound := node?_of_mem hg.ascending hm
  rw [hid, id_eq_of_node? hnode] at hfound
  exact ⟨m, hfound, hsame⟩

theorem Intact.owned_of_unnoted (hg : g.Intact) (hnotes : ∀ n ∈ g.nodes, n.note = {}) :
    g.Owned := by
  have hfields : ∀ id node, g.node? id = some node → node.note.fields = [] := by
    intro id node hnode
    rw [hnotes node (mem_of_node? hnode)]
  refine ⟨hg, fun id f hf => ?_, fun id _ node _ k _ c hnode _ howns => ?_⟩
  · cases hnode : g.node? id with
    | none => simp [fieldsAt, hnode] at hf
    | some node =>
      rw [fieldsAt_eq hnode, hfields id node hnode] at hf
      cases hf
  · obtain ⟨-, f, hf, -⟩ := howns
    rw [hfields id node hnode] at hf
    cases hf

/-- A graph that was read has no owners yet, at any level. -/
theorem owned_of_ofJson {catalog : Catalog} {document : Json}
    (h : ofJson catalog document = .ok g) :
    g.Everywhere Owned := by
  rw [describes_iff] at h
  induction h with
  | @intro document records entries g dag each inside wirable sink builds ih =>
    have hread := describes_iff.2 (.intro dag each inside wirable sink builds)
    refine ⟨(intact_of_ofJson hread).owned_of_unnoted fun n hn => ?_, fun id h hid => ?_⟩
    · obtain ⟨entry, -, rfl⟩ := List.mem_map.1 (builds.nodes.mem_iff.1 hn)
      rfl
    · obtain ⟨node, n, hnode, hkind⟩ := inner?_eq_some_iff.1 hid
      obtain ⟨r, entry, tag, hr, rfl, hconf⟩ := builds.exists_record each hnode
      have hop : entry.operator = .pipeline n h := hkind
      rw [hop] at hconf
      obtain ⟨-, -, inner, hinner⟩ := hconf
      exact ih r entry hr n h hop inner hinner

/-! ### Edits -/

/-- **An edit gives no column a second owner**, whether it succeeds or fails. -/
theorem Owned.edit (hg : g.Owned) (edit : Edit) : (edit.apply g).Owned := by
  obtain ⟨hallocated, hnodes⟩ := nodes_edit g edit
  refine hg.of_nodes (hg.toIntact.edit edit) hallocated.ge fun n hn => ?_
  rcases hnodes n hn with hn | ⟨hnote, -⟩
  · exact .inr ⟨n, hn, rfl, rfl, rfl⟩
  · exact .inl (by rw [hnote])

theorem owned_edit (hg : g.Everywhere Owned) {edit : Edit}
    (hinner : ∀ n h, edit.operator? = some (.pipeline n h) → h.Everywhere Owned) :
    (edit.apply g).Everywhere Owned := by
  refine ⟨hg.here.edit edit, fun id h hid => ?_⟩
  obtain ⟨node, n, hnode, hkind⟩ := inner?_eq_some_iff.1 hid
  rcases (nodes_edit g edit).2 node (mem_of_node? hnode) with hmem | ⟨-, hop⟩
  · have hfound := node?_of_mem hg.here.ascending hmem
    exact hg.inside (inner?_eq_some_iff.2 ⟨node, n, hfound, hkind⟩)
  · exact hinner n h (hkind ▸ hop)

/-! ### Annotations -/

/-- Annotating a graph fails only if it has no types, and then leaves it as it was. -/
theorem afterAnnotate_cases (hg : g.Everywhere Owned) :
    g.afterAnnotate = g ∨ g.annotate = .ok g.afterAnnotate := by
  rw [afterAnnotate, annotate]
  cases htypes : g.types with
  | error failure => exact .inl rfl
  | ok types =>
    have hends : g.Everywhere fun h => ∀ e ∈ h.edges, e.target ∈ h.ids := hg.imp fun h hh e he => by
        obtain ⟨_, _, -, htarget, -⟩ := hh.slots e he
        exact mem_ids_of_node? htarget
    obtain ⟨g', hg'⟩ := exists_annotateWith_of_ends (hg.imp fun _ hh => hh.ascending) hends htypes
    simp only [hg']
    exact .inr trivial

theorem owned_annotate (hg : g.Everywhere Owned) (h : g.annotate = .ok g') :
    g'.Everywhere Owned := by
  obtain ⟨types, htypes, hannotate⟩ := exists_types_of_annotate h
  exact (owned_of_annotateWith hg htypes hannotate).imp fun _ hk => hk.1

theorem clearNotes_eq (g : Dag) :
    g.clearNotes = { g.withInner (g.inner.map fun e => (e.1, e.2.clearNotes)) with
    nodes := (g.withInner (g.inner.map fun e => (e.1, e.2.clearNotes))).nodes.map fun n =>
      { n with note := {} } } :=
  fold_eq _ g

theorem node?_clearNotes (hascending : g.ids.Pairwise (· < ·)) (id : Nat) :
    g.clearNotes.node? id = (g.node? id).map fun n =>
      { n with kind := (g.inner? id).elim n.kind fun h => n.kind.withInner h.clearNotes, note :=
        {} } := by
  rw [clearNotes_eq, withInner, node?, List.map_map, find?_map]
  have hfind : ∀ p : Node Operator → Bool, (∀ n, p n = (n.id == id)) →
    g.nodes.find? p = g.node? id :=
    fun p hp => congrArg (fun q => g.nodes.find? q) (funext hp)
  rw [hfind _ fun n => by
    simp only [Function.comp_apply]
    split <;> rfl]
  refine Option.map_congr fun n hn => ?_
  obtain rfl := id_eq_of_node? hn
  simp only [Function.comp_apply, Table.get?_map, get?_inner_eq hascending]
  cases g.inner? n.id <;> rfl

theorem ids_clearNotes (g : Dag) : g.clearNotes.ids = g.ids := by
  rw [clearNotes_eq, ids, ids, withInner, List.map_map, List.map_map]
  refine map_congr_left fun n _ => ?_
  simp only [Function.comp_apply]
  split <;> rfl

theorem owned_clearNotes (hg : g.Everywhere Owned) : g.clearNotes.Everywhere Owned := by
  induction hg with
  | @intro g howned _ ih =>
    have hnode? := node?_clearNotes howned.ascending
    have hedges : g.clearNotes.edges = g.edges ∧ g.clearNotes.sink = g.sink ∧
        g.clearNotes.nextId = g.nextId := by
      rw [clearNotes_eq]
      exact ⟨rfl, rfl, rfl⟩
    have hintact : g.clearNotes.Intact := by
      refine howned.toIntact.of_kinds hedges.1 hedges.2.1 (ids_clearNotes g)
        hedges.2.2 fun id node hnode => ?_
      refine ⟨_, by rw [hnode?, hnode]; rfl, ?_⟩
      cases g.inner? id with
      | none => rfl
      | some h =>
        exact inputs_eq_of_shell (shell_withInner node.kind h.clearNotes)
    refine ⟨hintact.owned_of_unnoted fun n hn => ?_, fun id h hid => ?_⟩
    · have hfound := node?_of_mem hintact.ascending hn
      rw [hnode?, map_eq_some_iff] at hfound
      obtain ⟨m, -, heq⟩ := hfound
      rw [← heq]
    · obtain ⟨node, n, hnode, hkind⟩ := inner?_eq_some_iff.1 hid
      rw [hnode?, map_eq_some_iff] at hnode
      obtain ⟨m, hm, rfl⟩ := hnode
      cases hinner : g.inner? id with
      | none =>
        rw [hinner] at hkind
        have hpipeline := inner?_eq_some_iff.2 ⟨m, n, hm, hkind⟩
        rw [hinner] at hpipeline
        cases hpipeline
      | some k =>
        obtain ⟨m', n', hm', hkind'⟩ := inner?_eq_some_iff.1 hinner
        obtain rfl := mem_unique hm hm'
        rw [hinner, hkind'] at hkind
        cases hkind
        exact ih id k hinner

/-! ### Rules -/

/-- An intact graph with the operators and columns of another one, whatever its edges and its sink
are. -/
structure Rearranged (g g' : Dag) : Prop where
  intact : g'.Intact
  nodes : g'.nodes = g.nodes
  allocated : g'.allocated = g.allocated

namespace Rearranged

variable {g₀ : Dag}

section

variable (hg : Rearranged g₀ g)
include hg

theorem disconnect (target slot : Nat) : Rearranged g₀ (g.disconnect target slot) :=
  ⟨hg.intact.disconnect target slot, hg.nodes, hg.allocated⟩

theorem connect {e : Edge} (h : g.connect e = .ok g') : Rearranged g₀ g' := by
  have hintact := hg.intact.connect h
  obtain ⟨rfl, -⟩ := connect_eq_ok h
  exact ⟨hintact, hg.nodes, hg.allocated⟩

theorem setSink (h : g.setSink id = .ok g') : Rearranged g₀ g' := by
  simp only [Graph.setSink, bind_eq_ok_iff, pure_eq_ok, Except.ok.injEq] at h
  obtain ⟨node, hnode, rfl⟩ := h
  exact ⟨hg.intact.setSink (mem_ids_of_node? (ofOption_eq_ok_iff.1 hnode)), hg.nodes, hg.allocated⟩

theorem disconnectAll (flows : List Flow) :
    Rearranged g₀ (flows.foldl (fun g f => g.disconnect f.operator f.slot) g) := by
  induction flows generalizing g with
  | nil => exact hg
  | cons f flows ih => exact ih (hg.disconnect f.operator f.slot)

theorem connectAll {source : Nat} {flows : List Flow}
    (h : flows.foldlM (fun g f => g.connect ⟨source, 0, f.operator, f.slot⟩) g = .ok g') :
    Rearranged g₀ g' :=
  foldlM_ok_induction (P := Rearranged g₀) (fun _ _ _ _ hg h => hg.connect h) hg h

end

/-- The same operators own the same columns, and the same graphs are inside. -/
theorem owned (h : Rearranged g g') (hg : g.Everywhere Owned) : g'.Everywhere Owned := by
  refine ⟨hg.here.of_nodes h.intact h.allocated.ge fun n hn => ?_, fun id k hid => ?_⟩
  · exact .inr ⟨n, h.nodes ▸ hn, rfl, rfl, rfl⟩
  · rw [inner?, node?, h.nodes] at hid
    exact hg.inside hid

end Rearranged

section

variable (hg : g.Everywhere Owned) {changed : Bool}
include hg

theorem owned_setKind {p : Primitive} (hnode : g.node? id = some node)
    (hinputs : p.inputs = node.kind.inputs)
    (horiginates : (primitive p).originates = node.kind.originates) :
    (g.setKind id (.primitive p)).Everywhere Owned := by
  have hintact : (g.setKind id (.primitive p)).Intact := by
    refine hg.here.toIntact.of_kinds rfl rfl (ids_modify g id _) rfl fun m node' hnode' => ?_
    by_cases hm : m = id
    · subst hm
      obtain rfl := mem_unique hnode hnode'
      exact ⟨_, node?_modify_self hnode, hinputs⟩
    · exact ⟨node', (node?_modify_of_ne hm).trans hnode', rfl⟩
  refine ⟨hg.here.of_nodes hintact (Nat.le_refl _) fun n hn => .inr ?_, fun m k hk => ?_⟩
  · have hfound := node?_of_mem hintact.ascending hn
    by_cases hm : n.id = id
    · rw [hm, setKind, node?_modify_self hnode, some.injEq] at hfound
      rw [← hfound]
      exact ⟨node, mem_of_node? hnode, id_eq_of_node? hnode, rfl, horiginates.symm⟩
    · rw [setKind, node?_modify_of_ne hm] at hfound
      exact ⟨n, mem_of_node? hfound, rfl, rfl, rfl⟩
  · obtain ⟨node', n, hnode', hkind⟩ := inner?_eq_some_iff.1 hk
    by_cases hm : m = id
    · subst hm
      rw [setKind, node?_modify_self hnode, some.injEq] at hnode'
      rw [← hnode'] at hkind
      cases hkind
    · rw [setKind, node?_modify_of_ne hm] at hnode'
      exact hg.inside (inner?_eq_some_iff.2 ⟨node', n, hnode', hkind⟩)

/-- **A move of a filter gives no column a second owner.** -/
theorem owned_pushHere (h : g.pushHere = .ok (some g')) : g'.Everywhere Owned := by
  rw [pushHere] at h
  split at h
  · next push hpush =>
    obtain ⟨_, happly, heq⟩ := map_eq_ok_iff.1 h
    cases heq
    obtain ⟨node, hmem, hnode⟩ := exists_of_findSome?_eq_some hpush
    obtain ⟨e, _, hkind, hfilter, -⟩ := push?_eq_some hnode
    obtain ⟨filter, below, slot, predicate⟩ := push
    simp only at hfilter
    subst hfilter
    simp only [applyPush, bind_eq_ok_iff] at happly
    obtain ⟨source, -, g₁, h₁, g₂, h₂, g₃, h₃, happly⟩ := happly
    have hstart : Rearranged g g := ⟨hg.here.toIntact, rfl, rfl⟩
    have hconnected : Rearranged g g₃ :=
      (((((hstart.disconnectAll _).disconnect _ _).disconnect _ _).connect h₁).connect
        h₂).connectAll h₃
    obtain ⟨g₄, hmoved, rfl⟩ :
        ∃ g₄, Rearranged g g₄ ∧ g₄.setKind node.id (.primitive (.filter predicate)) = g' := by
      split at happly
      · obtain ⟨g₄, hsink, heq⟩ := bind_eq_ok_iff.1 happly
        exact ⟨g₄, hconnected.setSink hsink, Except.ok.inj heq⟩
      · exact ⟨g₃, hconnected, Except.ok.inj happly⟩
    have hfound : g₄.node? node.id = some node := by
      rw [node?, hmoved.nodes]
      exact node?_of_mem hg.here.ascending hmem
    exact owned_setKind (hmoved.owned hg) hfound (by rw [hkind]; rfl) (by rw [hkind]; rfl)
  · cases h

/-- **A fusion of projections gives no column a second owner.** -/
theorem owned_fuseHere (h : g.fuseHere = .ok (some g')) : g'.Everywhere Owned := by
  rw [fuseHere] at h
  split at h
  · next fusion hfusion =>
    obtain ⟨_, happly, heq⟩ := map_eq_ok_iff.1 h
    cases heq
    obtain ⟨node, hmem, hnode⟩ := exists_of_findSome?_eq_some hfusion
    obtain ⟨selected, fields, _, hkind, houter, hreads, -, -, -, -, hcompose⟩ :=
      fusion?_eq_some hnode
    obtain ⟨outer, inner, positions⟩ := fusion
    simp only at houter hcompose
    subst houter
    simp only [applyFusion, bind_eq_ok_iff, pure_eq_ok, Except.ok.injEq] at happly
    obtain ⟨source, -, ⟨removed, g₁⟩, h₁, g₂, h₂, rfl⟩ := happly
    -- The projection below is removed by an edit, which leaves the one that is read through it.
    have hstart : Rearranged g g := ⟨hg.here.toIntact, rfl, rfl⟩
    have hfreed : Rearranged g ((g.disconnect node.id 0).disconnect inner 0) :=
      (hstart.disconnect _ _).disconnect _ _
    have hremoved : g₁.Everywhere Owned := by
      have hedit : ((Edit.remove inner).apply
        ((g.disconnect node.id 0).disconnect inner 0)).Everywhere Owned :=
        owned_edit (hfreed.owned hg) (by rintro _ _ ⟨⟩)
      rw [Edit.apply, h₁] at hedit
      exact hedit
    have hconnected : Rearranged g₁ g₂ := Rearranged.connect ⟨hremoved.here.toIntact, rfl, rfl⟩ h₂
    have hne : node.id ≠ inner := by
      intro heq
      obtain ⟨rank, hrank⟩ := hg.here.acyclic
      obtain ⟨e, he, hport, hsource⟩ := (producer?_eq_some_iff hg.here.once).1 hreads
      have hlt := hrank e he
      rw [hsource, (Prod.mk.inj hport).1] at hlt
      exact Nat.lt_irrefl _ (heq ▸ hlt)
    have hfound : g₂.node? node.id = some node := by
      simp only [remove, bind_eq_ok_iff, guard_eq_ok_iff, pure_eq_ok, Except.ok.injEq,
        Prod.mk.injEq] at h₁
      obtain ⟨-, _, -, -, rfl⟩ := h₁
      rw [node?, hconnected.nodes]
      refine (node?_erase _ inner node.id).trans ?_
      rw [if_neg hne]
      exact node?_of_mem hg.here.ascending hmem
    have hlength : positions.length = selected.length := (forall₂_compose hcompose).length_eq.symm
    refine owned_setKind (hconnected.owned hremoved) hfound (by rw [hkind]; rfl) ?_
    rw [hkind]
    funext k
    rw [Bool.eq_iff_iff]
    simp only [originates, origin?, isNone_map, isNone_iff_eq_none,
      List.getElem?_eq_none_iff, hlength]
  · cases h

theorem owned_replaceInner (hh : h.Everywhere Owned) : (g.replaceInner id h).Everywhere Owned := by
  have hintact : (g.replaceInner id h).Intact :=
    hg.here.toIntact.of_shells rfl rfl (shells_replaceInner g id h) rfl
  refine hg.replaceInner hh (hg.here.of_nodes hintact (Nat.le_refl _) fun n hn => .inr ?_)
  have hfound := node?_of_mem hintact.ascending hn
  rw [node?_replaceInner, map_eq_some_iff] at hfound
  obtain ⟨m, hm, heq⟩ := hfound
  refine ⟨m, mem_of_node? hm, id_eq_of_node? hm, ?_⟩
  rw [← heq]
  split
  · exact ⟨rfl, (originates_of_shell (shell_withInner m.kind h)).symm⟩
  · exact ⟨rfl, rfl⟩

/-- What changes at one level keep, the first change at any level keeps. -/
theorem owned_firstChange {step : Dag → Outcome (Option Dag)}
    (hstep : ∀ g g' : Dag, g.Everywhere Owned → step g = .ok (some g') → g'.Everywhere Owned)
    (h : g.firstChange step = .ok (some g')) : g'.Everywhere Owned := by
  induction hg generalizing g' with
  | @intro g howned hinside ih =>
    have hg : g.Everywhere Owned := .intro howned hinside
    rcases firstChange_eq_some h with hhere | ⟨-, before, id, k, k', after, hinner, -, hk, rfl⟩
    · exact hstep g g' hg hhere
    · have hid : g.inner? id = some k := inner?_of_mem_inner howned.ascending (by simp [hinner])
      exact owned_replaceInner hg (ih id k hid hk)

/-- **Moving filters gives no column a second owner.** -/
theorem owned_pushAll {moves : Nat} (h : g.pushAll moves = .ok (changed, g')) :
    g'.Everywhere Owned := by
  induction moves generalizing g changed with
  | zero =>
    simp only [pushAll, bind_eq_ok_iff, annotated, mapError_eq_ok_iff, pure_eq_ok,
      Except.ok.injEq, Prod.mk.injEq] at h
    obtain ⟨noted, hannotate, -, rfl⟩ := h
    exact owned_annotate hg hannotate
  | succ moves ih =>
    simp only [pushAll, bind_eq_ok_iff, annotated, mapError_eq_ok_iff] at h
    obtain ⟨noted, hannotate, result, hresult, h⟩ := h
    have hnoted := owned_annotate hg hannotate
    cases result with
    | none =>
      cases h
      exact hnoted
    | some next =>
      simp only [bind_eq_ok_iff] at h
      obtain ⟨⟨_, g₁⟩, hrest, h⟩ := h
      cases h
      exact ih (owned_firstChange hnoted (fun _ _ => owned_pushHere) hresult) hrest

/-- **Fusing projections gives no column a second owner.** -/
theorem owned_fuseAll {fusions : Nat} (h : g.fuseAll fusions = .ok (changed, g')) :
    g'.Everywhere Owned := by
  induction fusions generalizing g changed with
  | zero =>
    cases h
    exact hg
  | succ fusions ih =>
    simp only [fuseAll, bind_eq_ok_iff] at h
    obtain ⟨result, hresult, h⟩ := h
    cases result with
    | none =>
      cases h
      exact hg
    | some next =>
      simp only [bind_eq_ok_iff] at h
      obtain ⟨⟨_, g₁⟩, hrest, h⟩ := h
      cases h
      exact ih (owned_firstChange hg (fun _ _ => owned_fuseHere) hresult) hrest

theorem owned_rule {rule : Rule} (hrule : rule = .pushdown ∨ rule = .fusion)
    (h : rule.apply g = .ok (some g')) : g'.Everywhere Owned := by
  rcases hrule with rfl | rfl
  · simp only [Rule.pushdown, bind_eq_ok_iff, pure_eq_ok, Except.ok.injEq] at h
    obtain ⟨⟨changed, g₁⟩, hpush, h⟩ := h
    split at h
    · cases h
      exact owned_pushAll hg hpush
    · cases h
  · simp only [Rule.fusion, bind_eq_ok_iff, pure_eq_ok, Except.ok.injEq] at h
    obtain ⟨⟨changed, g₁⟩, hfuse, h⟩ := h
    split at h
    · cases h
      exact owned_fuseAll hg hfuse
    · cases h

end

/-! ### Whatever was done -/

theorem Reachable.edits {edits : List Edit} (hg : g.Reachable)
    (hinner : ∀ edit ∈ edits, ∀ n h, edit.operator? = some (.pipeline n h) → h.Reachable) :
    (edits.foldl Edit.apply g).Reachable := by
  induction edits generalizing g with
  | nil => exact hg
  | cons edit edits ih =>
    rw [forall_mem_cons] at hinner
    exact ih (hg.edit hinner.1) hinner.2

theorem Reachable.of_annotate (hg : g.Reachable) (h : g.annotate = .ok g') : g'.Reachable := by
  have hreachable := hg.annotate
  rwa [afterAnnotate, h] at hreachable

/-- **Whatever was done to a graph, every column has one owner**, at every level. -/
theorem owned_of_reachable (hg : g.Reachable) : g.Everywhere Owned := by
  induction hg with
  | empty =>
    refine ⟨intact_empty.owned_of_unnoted fun n hn => absurd hn not_mem_nil, fun id h hid => ?_⟩
    cases hid
  | read h => exact owned_of_ofJson h
  | edit _ _ ih ihinner => exact owned_edit ih ihinner
  | annotate _ ih =>
    rcases afterAnnotate_cases ih with heq | hok
    · rw [heq]
      exact ih
    · exact owned_annotate ih hok
  | clearNotes _ ih => exact owned_clearNotes ih
  | rule _ hrule h ih => exact owned_rule ih hrule h
  | change _ h ih =>
    rcases h with hpush | hfuse
    · exact owned_pushHere ih hpush
    · exact owned_fuseHere ih hfuse
  | inside _ hid ih => exact ih.inside hid
  | replaceInner _ _ ih ihinner => exact owned_replaceInner ih ihinner

/-- The fields of a graph carry columns of one owner each: every field has a column that was given
out, which its operator is noted to write or a field of a producer carries; no two operators are
noted to write the same column; and an operator is noted to write the columns of the fields that it
originates, each once. -/
structure OwnsColumns (g : Dag) : Prop where
  columns : ∀ id node, g.node? id = some node → ∀ f ∈ node.note.fields, ∃ c, f.column = some c ∧
    c < g.allocated ∧
    (c ∈ node.note.writes ∨ ∃ q ∈ g.producers id, ∃ s ∈ g.fieldsAt q, s.column = some c)
  disjoint : ∀ id id' node node', g.node? id = some node → g.node? id' = some node' → id ≠ id' →
    node.note.writes.Disjoint node'.note.writes
  writes : ∀ id node, g.node? id = some node → node.note.writes.Nodup ∧
    (node.note.writes.map some).Perm
    ((node.note.fields.filter fun f => node.kind.originates f.position).map (·.column))

/-- A column that a settled operator is noted to write is one that it owns. -/
theorem SettledAt.owns (hsettled : g.SettledAt id) {c : Column} (hnode : g.node? id = some node)
    (hc : c ∈ node.note.writes) : ∃ k, node.Owns k c := by
  have hmem := (hsettled.writes node hnode).mem_iff.1 (List.mem_map_of_mem (f := some) hc)
  simp only [ownColumns, List.mem_map, mem_filter] at hmem
  obtain ⟨f, ⟨hf, horiginates⟩, hcolumn⟩ := hmem
  obtain ⟨k, hk⟩ := mem_iff_getElem?.1 hf
  have hposition := getElem?_position (hsettled.positions node hnode) hk
  exact ⟨k, hposition ▸ horiginates, f, hk, hcolumn⟩

/-- In an annotated graph, a field that its operator does not originate carries the column of the
field that it passes on. -/
theorem Intact.exists_source {τ : Nat → TupleType} {f : Field} {k : Nat}
    (hg : g.Intact) (typed : (typing fun _ _ _ _ => True).Models g bound τ)
    (noted : ∀ id ∈ g.ids, g.NotedAt id (τ id))
    (hnode : g.node? id = some node) (hk : (g.fieldsAt id)[k]? = some f)
    (hpasses : ¬node.kind.originates k = true) :
    ∃ p s, node.kind = .primitive p ∧ (primitive p).source? (g.inputFields id) k = some s ∧
      s.column = f.column ∧ p.Passes s.type f.type := by
  have hnoted := noted id (mem_ids_of_node? hnode)
  have hlt : k < (τ id).length := hnoted.length_eq ▸ (List.getElem?_eq_some_iff.1 hk).1
  have hproducers : ∀ q ∈ g.producers id, g.NotedAt q (τ q) := by
    intro q hq
    obtain ⟨e, he, -, rfl⟩ := mem_producers.1 hq
    obtain ⟨_, _, hsource, -⟩ := hg.slots e he
    exact noted e.source (mem_ids_of_node? hsource)
  have hnamed : ((g.producers id).map g.fieldsAt).map (List.map Field.named) =
      (g.producers id).map τ := by
    rw [List.map_map]
    exact map_congr_left fun q hq => (hproducers q hq).named
  have htype : ∀ p, node.kind = .primitive p →
      p.outputType (((g.producers id).map g.fieldsAt).map (List.map Field.named))
      bound = .ok (τ id) := by
    intro p hkind
    have hmakes := Interpretation.models_iff.1 typed id node hnode
    rw [hkind] at hmakes
    exact hnamed ▸ hmakes.1
  rw [originates_iff hlt htype fun fields hmem s hs => by
    obtain ⟨q, hq, rfl⟩ := List.mem_map.1 hmem
    exact (hproducers q hq).columns s hs, ← ne_eq, ne_none_iff_exists'] at hpasses
  obtain ⟨s, hs⟩ := hpasses
  have hassigned := forall₂_getElem? (hnoted.assigned node hnode)
    (by rw [getElem?_ofTuple, getElem?_eq_getElem hlt]; rfl) hk
  have hcolumn := (hassigned.source s hs).symm
  cases hkind : node.kind with
  | pipeline n h =>
    rw [hkind] at hs
    cases hs
  | primitive p =>
    rw [hkind] at hs
    exact ⟨p, s, rfl, hs, hcolumn, Primitive.passes_of_source? (htype p hkind)
      hs (hnoted.type?_eq hk)⟩

theorem ownsColumns_of_settled (hannotated : Annotated bound g)
    (hsettled : g.Everywhere fun k => k.Owned ∧ ∀ id, k.SettledAt id) :
    g.Everywhere OwnsColumns := by
  induction hannotated with
  | @intro bound g τ typed noted _ ih =>
    obtain ⟨howned, hsettledAt⟩ := hsettled.here
    refine ⟨⟨fun id node hnode f hf => ?_, fun id id' node node' hnode hnode' hne => ?_,
      fun id node hnode => ?_⟩, fun id h hid => ih id h hid (hsettled.inside hid)⟩
    · have hid := mem_ids_of_node? hnode
      have hfields := fieldsAt_eq hnode
      obtain ⟨c, hc⟩ := isSome_iff_exists.1 ((noted id hid).columns f (hfields ▸ hf))
      refine ⟨c, hc, howned.given id f (hfields ▸ hf) c hc, ?_⟩
      obtain ⟨k, hk⟩ := mem_iff_getElem?.1 hf
      have hposition := getElem?_position ((hsettledAt id).positions node hnode) hk
      by_cases horiginates : node.kind.originates k = true
      · left
        have hmem : some c ∈ node.kind.ownColumns node.note.fields :=
          List.mem_map.2 ⟨f, mem_filter.2 ⟨hf, hposition.symm ▸ horiginates⟩, hc⟩
        rw [← ((hsettledAt id).writes node hnode).mem_iff] at hmem
        simpa using hmem
      · right
        obtain ⟨_, s, -, hs, hcolumn, -⟩ :=
          howned.exists_source typed noted hnode (hfields ▸ hk) horiginates
        obtain ⟨q, hq, hmem⟩ := exists_producer_of_source? hs
        exact ⟨q, hq, s, hmem, hcolumn.trans hc⟩
    · intro c hc hc'
      obtain ⟨k, howns⟩ := (hsettledAt id).owns hnode hc
      obtain ⟨k', howns'⟩ := (hsettledAt id').owns hnode' hc'
      exact hne (howned.sole id id' node node' k k' c hnode hnode' howns howns').1
    · exact ⟨(hsettledAt id).nodup node hnode, (hsettledAt id).writes node hnode⟩

/-- **Annotation notes the owners of all columns**, whatever was done to a graph before: its notes
agree with its types, and its fields carry columns of one owner each, at every level. -/
theorem ownsColumns_of_annotate (hg : g.Reachable) (h : g.annotate = .ok g') :
    Annotated none g' ∧ g'.Everywhere OwnsColumns := by
  have howned := owned_of_reachable hg
  obtain ⟨types, htypes, hannotate⟩ := exists_types_of_annotate h
  have hsettled := owned_of_annotateWith howned htypes hannotate
  have hannotated :=
    (annotated_of_annotateWith (howned.imp fun _ hh => hh.ascending) htypes hannotate).2
  exact ⟨hannotated, ownsColumns_of_settled hannotated hsettled⟩

/-- The pairs of a range, of which a filter keeps the large ones, and their sums. -/
def sumsOfLarge : List Edit :=
  [.add (.primitive (.range ⟨0, 9, 2⟩)), .add (.primitive (.projection [0, 0])),
    .connect ⟨0, 0, 1, 0⟩,
    .add (.primitive (.filter (.binary .gt (.field 0 1) (.literal (.int 3))))),
    .connect ⟨1, 0, 2, 0⟩,
    .add (.primitive (.map (.tuple [.binary .add (.field 0 0) (.field 0 1), .field 0 1]))),
    .connect ⟨2, 0, 3, 0⟩, .setSink 3]

/-- A pipeline that swaps the fields of pairs and negates one. -/
def swapped : List Edit := [.add (.primitive (.parameterLookup 0 none)),
    .add (.primitive (.map (.tuple [.field 0 1, .unary .neg (.field 0 0)]))),
      .connect ⟨0, 0, 1, 0⟩, .setSink 1]

/-- The pipeline is put before the sums. -/
def swapFirst : List Edit :=
  [.add (.pipeline 1 (swapped.foldl Edit.apply empty)), .connect ⟨1, 0, 4, 0⟩, .rewire ⟨4, 0, 3, 0⟩]

theorem reachable_swapFirst {g : Dag} (hg : g.Reachable) :
    (swapFirst.foldl Edit.apply g).Reachable := by
  have hswapped : (swapped.foldl Edit.apply empty).Reachable := by
    refine Reachable.empty.edits fun edit hedit n h hop => ?_
    simp only [swapped, mem_cons, not_mem_nil, or_false] at hedit
    rcases hedit with rfl | rfl | rfl | rfl <;> cases hop
  refine hg.edits fun edit hedit n h hop => ?_
  simp only [swapFirst, mem_cons, not_mem_nil, or_false] at hedit
  rcases hedit with rfl | rfl | rfl
  · cases hop
    exact hswapped
  · cases hop
  · cases hop

theorem reachable_sumsOfLarge : (sumsOfLarge.foldl Edit.apply empty).Reachable := by
  refine Reachable.empty.edits fun edit hedit n h hop => ?_
  simp only [sumsOfLarge, mem_cons, not_mem_nil, or_false] at hedit
  rcases hedit with rfl | rfl | rfl | rfl | rfl | rfl | rfl | rfl <;> cases hop

/-- A graph that is built, annotated, rewritten, edited and annotated again: the sums keep their
column. -/
theorem sumsOfLarge_ownsColumns :
    ∃ g₁ g₂ g₃, (sumsOfLarge.foldl Edit.apply empty).annotate = .ok g₁ ∧
    Rule.pushdown.apply g₁ = .ok (some g₂) ∧ (swapFirst.foldl Edit.apply g₂).annotate = .ok g₃ ∧
    (swapFirst.foldl Edit.apply g₂).Reachable ∧
    g₃.nodes.map (fun n => (n.id, n.note.writes)) =
      [(0, [0]), (1, []), (2, []), (3, [1]), (4, [2, 3])] ∧
    Annotated none g₃ ∧ g₃.Everywhere OwnsColumns := by
  obtain ⟨g₁, h₁, g₂, h₂, g₃, h₃, hwrites⟩ :
    ∃ g₁, (sumsOfLarge.foldl Edit.apply empty).annotate = .ok g₁ ∧
      ∃ g₂, Rule.pushdown.apply g₁ = .ok (some g₂) ∧
      ∃ g₃, (swapFirst.foldl Edit.apply g₂).annotate = .ok g₃ ∧
      g₃.nodes.map (fun n => (n.id, n.note.writes)) =
      [(0, [0]), (1, []), (2, []), (3, [1]), (4, [2, 3])] :=
    ⟨_, by cbv, _, by cbv, _, by cbv, by cbv⟩
  have hreachable : (swapFirst.foldl Edit.apply g₂).Reachable :=
    reachable_swapFirst ((reachable_sumsOfLarge.of_annotate h₁).rule (.inl rfl) h₂)
  exact ⟨g₁, g₂, g₃, h₁, h₂, h₃, hreachable, hwrites, ownsColumns_of_annotate hreachable h₃⟩

end Dataflow.Graph
