/-
**What validation checks.**

Validation goes through edges, operators, order and sink, and stops at the first fault.  That it
finds none can be said without that order, as a list of properties of one level, of which validity
inside the pipelines is one.  So a change of a graph keeps it valid if it keeps these properties.

Main results:

* `Graph.validateWithin_eq_ok_iff` — **a graph is valid exactly if it has these properties**;
* `Graph.Checked.of_kinds` — other wiring and other sound operators keep a graph valid;
* `Graph.Alike.validateWithin` — annotations do not matter for validity;
* `Graph.validateWithin_replaceInner` — a valid graph inside a pipeline may take the place of
  another one.
-/

import Dataflow.Proofs.Meaning.Inference
import Dataflow.Proofs.Meaning.Rewriting

namespace Dataflow.Graph

open Outcome Operator

/-- The properties of a level that validation checks, in a graph with `inputs` inputs if it is that
of a pipeline: it is wired, through the one output slot that operators have; there is a sink;
configurations are sound; look-ups read inputs that there are; and the graphs inside pipelines are
valid. -/
structure Checked (inputs : Option Nat) (g : Dag) : Prop where
  wired : g.Wired
  slots : ∀ e ∈ g.edges, e.sourceSlot = 0
  sink : g.sink.isSome = true
  sound : ∀ id node, g.node? id = some node → node.kind.check = .ok ()
  lookups : ∀ id node n declared k, g.node? id = some node →
    node.kind = .primitive (.parameterLookup n declared) → inputs = some k → n < k
  inside : ∀ id node n h, g.node? id = some node → node.kind = .pipeline n h →
    h.validateWithin (some n) = .ok ()

variable {g g' h h' : Dag} {inputs : Option Nat} {id : Nat}

theorem Checked.checkSlots (hg : Checked inputs g) {e : Edge} (he : e ∈ g.edges) :
    g.checkSlots e = .ok () := by
  obtain ⟨source, hsource⟩ := node?_of_mem_ids (hg.wired.ends he).1
  obtain ⟨target, htarget⟩ := node?_of_mem_ids (hg.wired.ends he).2
  have hfed := hg.wired.fed e.target target htarget e.targetSlot
  rw [isSome_producer?_iff] at hfed
  refine checkSlots_eq_ok_iff.2 ⟨source, target, hsource, htarget, ?_, hfed.1 ⟨e, he, rfl⟩⟩
  rw [hg.slots e he]
  exact Nat.zero_lt_one

/-- **A graph is valid exactly if it has the properties that are checked.** -/
theorem validateWithin_eq_ok_iff (hg : g.Numbered) : g.validateWithin inputs = .ok () ↔
      Checked inputs g := by
  constructor
  · intro hvalid
    have hwired := (wired_of_checkOpenWithin hg (checkOpenWithin_of_validateWithin hg hvalid)).here
    simp only [validateWithin_eq, bind_eq_ok_iff] at hvalid
    obtain ⟨_, hedges, _, hnodes, _, -, hsink⟩ := hvalid
    rw [forM_eq_ok_iff] at hnodes
    have hnode : ∀ id node, g.node? id = some node → _ := fun id node hnode =>
      (checkNode_eq_ok_iff validateWithin hnode).1 (hnodes node (mem_of_node? hnode))
    refine ⟨hwired, fun e he => ?_, ?_, fun id node h => (hnode id node h).2.1,
      fun id node n declared k h => (hnode id node h).2.2.1 n declared k,
      fun id node n inner h => (hnode id node h).2.2.2 n inner⟩
    · obtain ⟨source, -, -, -, hout, -⟩ :=
        checkSlots_eq_ok_iff.1 ((checkEdges_eq_ok_iff.1 hedges).1 e he)
      exact Nat.lt_one_iff.1 hout
    · rw [checkSink] at hsink
      cases hs : g.sink with
      | none =>
        rw [hs] at hsink
        cases hsink
      | some sink => rfl
  · intro hchecked
    obtain ⟨order, horder⟩ := hchecked.wired.exists_order
    obtain ⟨sink, hsink⟩ := Option.isSome_iff_exists.1 hchecked.sink
    simp only [validateWithin_eq, bind_eq_ok_iff]
    refine ⟨(), checkEdges_eq_ok_iff.2 ⟨fun e he => hchecked.checkSlots he, hchecked.wired.once,
      fun _ _ => List.forall_mem_nil _⟩, (),
      forM_eq_ok_iff.2 fun node hmem => ?_, order, horder, ?_⟩
    · have hnode := node?_of_mem hg.here hmem
      exact (checkNode_eq_ok_iff validateWithin hnode).2
        ⟨fun slot hslot => (hchecked.wired.fed node.id node hnode slot).2 hslot,
        hchecked.sound node.id node hnode,
          fun n declared k => hchecked.lookups node.id node n declared k hnode,
          fun n h => hchecked.inside node.id node n h hnode⟩
    · have hmem := (contains_iff_mem_ids g sink).2 (hchecked.wired.sink sink hsink)
      simp only [checkSink, hsink]
      exact if_pos hmem

/-! ### Changes that keep graphs valid -/

/-- A graph that was wired in another way is valid still, if its operators are those that it had,
except for sound ones that are not look-ups. -/
theorem Checked.of_kinds (hg : Checked inputs g) (hwired : g'.Wired)
    (hslots : ∀ e ∈ g'.edges, e ∈ g.edges ∨ e.sourceSlot = 0) (hsink : g'.sink.isSome = true)
    (hkinds : ∀ id node', g'.node? id = some node' →
      (∃ p, node'.kind = .primitive p ∧ p.check = .ok () ∧
      ∀ n declared, p ≠ .parameterLookup n declared) ∨
        ∃ node, g.node? id = some node ∧ node'.kind = node.kind) : Checked inputs g' where
  wired := hwired
  slots := fun e he => (hslots e he).elim (hg.slots e) id
  sink := hsink
  sound := by
    intro id node' hnode'
    rcases hkinds id node' hnode' with ⟨p, hkind, hsound, -⟩ | ⟨node, hnode, hkind⟩
    · rw [hkind]
      exact hsound
    · exact hkind ▸ hg.sound id node hnode
  lookups := by
    intro id node' n declared k hnode' hkind'
    rcases hkinds id node' hnode' with ⟨p, hkind, -, hne⟩ | ⟨node, hnode, hkind⟩
    · rw [hkind, primitive.injEq] at hkind'
      exact absurd hkind' (hne n declared)
    · exact hg.lookups id node n declared k hnode (hkind ▸ hkind')
  inside := by
    intro id node' n h hnode' hkind'
    rcases hkinds id node' hnode' with ⟨p, hkind, -⟩ | ⟨node, hnode, hkind⟩
    · rw [hkind] at hkind'
      cases hkind'
    · exact hg.inside id node n h hnode (hkind ▸ hkind')

theorem Alike.numbered (hgh : Alike g h) (hg : g.Numbered) : h.Numbered := by
  induction hgh with
  | @intro g h edges sink shells inside ih =>
    have hgh : Alike g h := ⟨edges, sink, shells, inside⟩
    refine ⟨hgh.ids ▸ hg.here, fun id b hb => ?_⟩
    obtain ⟨a, ha⟩ := inner?_of_shells shells.symm hb
    exact ih id a b ha hb (hg.inside ha)

theorem Alike.validateWithin (hgh : Alike g h) (hg : g.Numbered)
    (hvalid : g.validateWithin inputs = .ok ()) :
    h.validateWithin inputs = .ok () := by
  induction hgh generalizing inputs with
  | @intro g h edges sink shells inside ih =>
    have hgh : Alike g h := ⟨edges, sink, shells, inside⟩
    have hchecked := (validateWithin_eq_ok_iff hg).1 hvalid
    rw [validateWithin_eq_ok_iff (hgh.numbered hg)]
    refine ⟨hgh.wired hchecked.wired, edges ▸ hchecked.slots, sink ▸ hchecked.sink, ?_, ?_, ?_⟩
    · intro id m hm
      obtain ⟨node, hnode, hshell⟩ := node?_of_shells shells.symm hm
      have hsound := hchecked.sound id node hnode
      cases hkind : m.kind with
      | primitive p =>
        rw [hkind, shell, shell_eq_inl_iff] at hshell
        rwa [hshell] at hsound
      | pipeline n b => rfl
    · intro id m n declared k hm hkind
      obtain ⟨node, hnode, hshell⟩ := node?_of_shells shells.symm hm
      rw [hkind, shell, shell_eq_inl_iff] at hshell
      exact hchecked.lookups id node n declared k hnode hshell
    · intro id m n b hm hkind
      obtain ⟨node, hnode, hshell⟩ := node?_of_shells shells.symm hm
      rw [hkind, shell, shell_eq_inr_iff] at hshell
      obtain ⟨a, ha⟩ := hshell
      have hid := inner?_eq_some_iff.2 ⟨node, n, hnode, ha⟩
      exact ih id a b hid (inner?_eq_some_iff.2 ⟨m, n, hm, hkind⟩) (hg.inside hid)
        (hchecked.inside id node n a hnode ha)

theorem numbered_replaceInner (hg : g.Numbered) (hh' : h'.Numbered) :
    (g.replaceInner id h').Numbered :=
  Everywhere.replaceInner hg hh' (ids_replaceInner g id h' ▸ hg.here)

/-- A valid graph inside a pipeline may take the place of another one. -/
theorem validateWithin_replaceInner (hg : g.Numbered)
    (hvalid : g.validateWithin inputs = .ok ()) (hh' : h'.Numbered)
    (hinner : ∀ node n h, g.node? id = some node → node.kind = .pipeline n h →
      h'.validateWithin (some n) = .ok ()) :
    (g.replaceInner id h').validateWithin inputs = .ok () := by
  have hchecked := (validateWithin_eq_ok_iff hg).1 hvalid
  rw [validateWithin_eq_ok_iff (numbered_replaceInner hg hh')]
  -- The operators are those of the graph, except for what is inside the one pipeline.
  have hnode : ∀ m node', (g.replaceInner id h').node? m = some node' →
    ∃ node, g.node? m = some node ∧
      (node'.kind = node.kind ∨ m = id ∧ ∃ n h, node.kind = .pipeline n h ∧
      node'.kind = .pipeline n h') := by
    intro m node' hnode'
    rw [node?_replaceInner, Option.map_eq_some_iff] at hnode'
    obtain ⟨node, hnode, rfl⟩ := hnode'
    refine ⟨node, hnode, ?_⟩
    split
    · next heq =>
      cases hkind : node.kind with
      | primitive p => exact .inl rfl
      | pipeline n h => exact .inr ⟨heq, n, h, rfl, rfl⟩
    · exact .inl rfl
  refine ⟨hchecked.wired.replaceInner id h', hchecked.slots, hchecked.sink, ?_, ?_, ?_⟩
  · intro m node' hm
    obtain ⟨node, hfound, heq | ⟨-, n, h, -, hkind'⟩⟩ := hnode m node' hm
    · exact heq ▸ hchecked.sound m node hfound
    · rw [hkind']
      rfl
  · intro m node' n declared k hm hkind
    obtain ⟨node, hfound, heq | ⟨-, n, h, -, hkind'⟩⟩ := hnode m node' hm
    · exact hchecked.lookups m node n declared k hfound (heq ▸ hkind)
    · rw [hkind'] at hkind
      cases hkind
  · intro m node' n k hm hkind
    obtain ⟨node, hfound, heq | ⟨rfl, n', h, hkind', hkind''⟩⟩ := hnode m node' hm
    · exact hchecked.inside m node n k hfound (heq ▸ hkind)
    · obtain ⟨rfl, rfl⟩ : n' = n ∧ h' = k := by simpa using hkind''.symm.trans hkind
      exact hinner node n' h hfound hkind'

end Dataflow.Graph
