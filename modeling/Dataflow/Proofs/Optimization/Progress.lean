/-
**Rules succeed, and do all there is to do.**

In a graph that can be optimized and is annotated, every step of a rule succeeds, at every level:
the move or fusion that is found can be made, and renews the graph.  As every change makes a number
smaller that the rule starts with as its limit, the rule goes on until nothing is left to do.  It
reports no change exactly where there was nothing to do.

Main results:

* `Graph.exists_firstChange_of` — **a step that succeeds at one level succeeds at all levels**;
* `Graph.exists_pushAll`, `Graph.exists_fuseAll` — **moving filters and fusing projections
  succeed**, and leave nothing to do;
* `Graph.settles_pushdown`, `Graph.settles_fusion` — **the rules succeed**, and a fusion lets no
  filter move.
-/

import Dataflow.Proofs.Optimization.Exhaustion
import Dataflow.Proofs.Optimization.Termination

namespace Dataflow.Graph

open Outcome

variable {g g' h h' : Dag} {id : Nat} {bound : Option (List TupleType)} {τ : Nat → TupleType}
  {step f : Dag → Outcome (Option Dag)} {count : Dag → Nat} {node : Node Operator} {push : Push}

/-! ### Changes at the first level where there is one -/

/-- A graph that can be optimized and whose notes agree with its types. -/
structure Prepared (bound : Option (List TupleType)) (g : Dag) : Prop extends Ready bound g where
  annotated : Annotated bound g

theorem Prepared.inside (hg : Prepared bound g) (hτ : (typing fun _ _ _ _ => True).Models g bound τ)
    (hid : g.inner? id = some h) : Prepared (some ((g.producers id).map τ)) h :=
  ⟨hg.toReady.inside hτ hid, (noted_of_annotated hg.wired hg.annotated hτ).2 id h hid⟩

theorem exists_changedInner? {table : Table Dag}
    (h : ∀ e ∈ table, ∃ r, f e.2 = .ok r) :
    ∃ r, changedInner? (table.map fun e => (e.1, f e.2)) = .ok r := by
  induction table with
  | nil => exact ⟨none, rfl⟩
  | cons e table ih =>
    rw [List.forall_mem_cons] at h
    obtain ⟨⟨r, hr⟩, hrest⟩ := h
    rw [List.map_cons, changedInner?, hr, ok_bind]
    cases r with
    | none => exact ih hrest
    | some changed => exact ⟨_, rfl⟩

/-- **A step that succeeds at one level succeeds at all levels**, and what it does inside a pipeline
it does to the graph around that, also where it makes a number smaller.  `P` is known of a graph in
a context, and `E` has the contexts of the graph inside a pipeline. -/
theorem exists_firstChange_of {β : Type} {P : β → Dag → Prop} {E : β → Dag → Nat → β → Prop}
    {R : β → Dag → Dag → Prop} (hcount : Shallow count)
    (hascending : ∀ b g, P b g → g.ids.Pairwise (· < ·)) (hinner : ∀ b g id h, P b g →
      g.inner? id = some h → (∃ b', E b g id b') ∧ ∀ b', E b g id b' → P b' h)
    (hstep : ∀ b g, P b g → ∃ r, step g = .ok r ∧ ∀ g', r = some g' → R b g g' ∧
      g'.total count < g.total count)
    (hinside : ∀ b g id h h', P b g → g.inner? id = some h → (∀ b', E b g id b' → R b' h h') →
      R b g (g.replaceInner id h')) {b : β} (hg : P b g) :
    ∃ r, g.firstChange step = .ok r ∧ ∀ g', r = some g' → R b g g' ∧
      g'.total count < g.total count := by
  induction g using levelInduction generalizing b with
  | step g ih =>
    obtain ⟨r, hr, hR⟩ := hstep b g hg
    rw [firstChange_eq, hr, ok_bind]
    cases r with
    | some changed => exact ⟨some changed, rfl, hR⟩
    | none =>
      have hmem : ∀ e ∈ g.inner, g.inner? e.1 = some e.2 := fun e he =>
        inner?_of_mem_inner (hascending b g hg) he
      have hall : ∀ e ∈ g.inner, ∃ r, e.2.firstChange step = .ok r := by
        intro e he
        obtain ⟨⟨b', hb'⟩, hP⟩ := hinner b g e.1 e.2 hg (hmem e he)
        obtain ⟨r', hr', -⟩ := ih e.1 e.2 (hmem e he) (hP b' hb')
        exact ⟨r', hr'⟩
      obtain ⟨r', hr'⟩ := exists_changedInner? hall
      simp only [hr', ok_bind]
      cases r' with
      | none => exact ⟨none, rfl, nofun⟩
      | some entry =>
        refine ⟨some (g.replaceInner entry.1 entry.2), rfl, ?_⟩
        rintro _ ⟨rfl⟩
        obtain ⟨before, h, after, hentries, -, hh⟩ := changedInner?_eq_some hr'
        have hid := hmem (entry.1, h) (by simp [hentries])
        obtain ⟨⟨b₀, hb₀⟩, hP⟩ := hinner b g entry.1 h hg hid
        have hbelow : ∀ b', E b g entry.1 b' → R b' h entry.2 ∧
            entry.2.total count < h.total count := by
          intro b' hb'
          obtain ⟨r'', hr'', hR''⟩ := ih entry.1 h hid (hP b' hb')
          exact hR'' entry.2 (Except.ok.inj (hr''.symm.trans hh))
        exact ⟨hinside b g entry.1 h entry.2 hg hid fun b' hb' => (hbelow b' hb').1,
          total_replaceInner_lt hcount (hascending b g hg) hid (hbelow b₀ hb₀).2⟩

theorem exists_firstChange {R : Option (List TupleType) → Dag → Dag → Prop} (hcount : Shallow count)
    (hstep : ∀ bound g, Prepared bound g → ∃ r, step g = .ok r ∧
      ∀ g', r = some g' → R bound g g' ∧ g'.total count < g.total count)
    (hinside : ∀ bound g id h h', Prepared bound g → g.inner? id = some h →
      (∀ τ, (typing fun _ _ _ _ => True).Models g bound τ →
      R (some ((g.producers id).map τ)) h h') → R bound g (g.replaceInner id h'))
      (hg : Prepared bound g) :
    ∃ r, g.firstChange step = .ok r ∧ ∀ g', r = some g' → R bound g g' ∧
      g'.total count < g.total count := by
  refine exists_firstChange_of (E := fun bound g id bound' => ∃ τ,
    (typing fun _ _ _ _ => True).Models g bound τ ∧ bound' = some ((g.producers id).map τ)) hcount
    (fun _ _ hg => hg.numbered.here) (fun bound g id h hg hid => ?_)
    hstep (fun bound g id h h' hg hid hR => ?_) hg
  · obtain ⟨τ, hτ⟩ := hg.typed
    refine ⟨⟨_, τ, hτ, rfl⟩, ?_⟩
    rintro _ ⟨σ, hσ, rfl⟩
    exact hg.inside hσ hid
  · exact hinside bound g id h h' hg hid fun τ hτ => hR _ ⟨τ, hτ, rfl⟩

/-! ### Moving filters -/

/-- The predicate of a move has the constants of the filter. -/
theorem same_of_push? {e : Expr} (hpush : g.push? node = some push)
    (hkind : node.kind = .primitive (.filter e)) (hsame : e.same e = true) :
    push.predicate.same push.predicate = true := by
  obtain ⟨e₀, _, hkind₀, -, -, -, -, hcase⟩ := push?_eq_some hpush
  obtain rfl : e = e₀ := by simpa using hkind.symm.trans hkind₀
  rcases hcase with ⟨_, -, -, hremap⟩ | ⟨_, _, -, -, hside⟩
  · exact Expr.same_remap hsame hremap
  · obtain ⟨-, _, _, _, -, -, -, hremap⟩ := sidePredicate?_eq_some hside
    exact Expr.same_remap hsame hremap

/-- A filter moves before an operator that filters can pass, to a slot that is fed. -/
theorem source_of_push? (hg : g.Wired) (hpush : g.push? node = some push) :
    g.hasSort admitsFilters push.below = true ∧
      ∃ source, g.producer? push.below push.slot = some source := by
  obtain ⟨_, below, -, -, -, -, hbelow, hcase⟩ := push?_eq_some hpush
  rw [hasSort_eq hbelow]
  rcases hcase with ⟨positions, hkind, hslot, -⟩ | ⟨p, keys, hkind, hp, hside⟩
  · obtain ⟨q, -, hq⟩ := hg.producers_of_inputs_one hbelow (by rw [hkind]; rfl)
    exact ⟨by rw [hkind]; rfl, q, hslot ▸ hq⟩
  · obtain ⟨-, _, source, _, -, hsource, -⟩ := sidePredicate?_eq_some hside
    refine ⟨?_, source, hsource⟩
    rw [hkind]
    cases p <;> first | rfl | cases hp

/-- **The move that is found can be made.** -/
theorem exists_move (hg : g.Wired) : ∃ r, g.pushHere = .ok r ∧ ∀ g', r = some g' →
      ∃ node push source e,
    g.node? node.id = some node ∧ g.push? node = some push ∧ node.kind = .primitive (.filter e) ∧
      g.hasSort admitsFilters push.below = true ∧
      Moved g g' push.filter push.below push.slot source e push.predicate ∧
      g'.allocated = g.allocated ∧ ∀ edge ∈ g'.edges, edge ∈ g.edges ∨ edge.sourceSlot = 0 := by
  cases hfind : g.findPush? with
  | none => exact ⟨none, by rw [pushHere, hfind]; rfl, nofun⟩
  | some push =>
    obtain ⟨node, hmem, hpush⟩ := List.exists_of_findSome?_eq_some hfind
    have hnode := node?_of_mem hg.ascending hmem
    obtain ⟨e, _, hkind, hfilter, hreads, hlength, -⟩ := push?_eq_some hpush
    obtain ⟨hadmits, source, hsource⟩ := source_of_push? hg hpush
    obtain ⟨g', hg', hallocated, hslots⟩ :=
      exists_applyPush hg (hfilter ▸ hnode) hkind hreads hlength hsource
    obtain ⟨source', hm⟩ := moved_of_applyPush hg (hfilter ▸ hnode) hkind hreads hlength hg'
    refine ⟨some g', by rw [pushHere, hfind]; exact congrArg (some <$> ·) hg', ?_⟩
    rintro _ ⟨rfl⟩
    exact ⟨node, push, source', e, hnode, hpush, hkind, hadmits, hm, hallocated, hslots⟩

/-- A move renews the graph, and the potential is smaller afterwards. -/
theorem exists_pushHere (hg : Prepared bound g) : ∃ r, g.pushHere = .ok r ∧ ∀ g', r = some g' →
    Renews bound g g' ∧ g'.total pushPotential < g.total pushPotential := by
  have hwired := hg.wired.here
  obtain ⟨r, hr, hmove⟩ := exists_move hwired
  refine ⟨r, hr, fun g' hg' => ?_⟩
  obtain ⟨node, push, source, e, hnode, hpush, hkind, hadmits, hm, hallocated, hslots⟩ :=
    hmove g' hg'
  refine ⟨.of_moved hg.toReady hm hallocated hslots (fun τ hτ => ?_) (same_of_push? hpush hkind),
    hm.pushPotential_lt hwired hadmits⟩
  exact infer_of_push? hwired hg.coherent.here (noted_of_annotated hg.wired hg.annotated hτ).1 hτ
    hnode hpush hm.feeds

theorem exists_firstPush (hg : Prepared bound g) :
    ∃ r, g.firstChange pushHere = .ok r ∧ ∀ g', r = some g' → Renews bound g g' ∧
      g'.total pushPotential < g.total pushPotential :=
  exists_firstChange shallow_pushPotential (fun _ _ => exists_pushHere)
    (fun _ _ _ _ _ hg hid hinner => .inside hg.toReady hid hinner) hg

/-- What moving filters does: it renews the graph, and if the limit of moves is large enough, no
filter can move any more.  Without a move nothing but annotations changes, and there is none where
no filter could move. -/
structure PushedTo (moves : Nat) (g : Dag) (changed : Bool) (g' : Dag) : Prop where
  renews : Renews none g g'
  annotated : Annotated none g'
  idle : g.total pushPotential ≤ moves → g'.Idle pushHere
  still : changed = false → Alike g g' ∧ (Annotated none g → Steady g g')
  unchanged : Annotated none g → g.Idle pushHere → changed = false

/-- **Moving filters succeeds**, and leaves nothing to do. -/
theorem exists_pushAll (moves : Nat) (hg : Ready none g) :
    ∃ changed g', g.pushAll moves = .ok (changed, g') ∧ PushedTo moves g changed g' := by
  induction moves generalizing g with
  | zero =>
    obtain ⟨g₁, hg₁, hannotated, hrenews, halike, hsteady⟩ := hg.exists_annotated
    obtain ⟨r, hr, hR⟩ := exists_firstPush ⟨hrenews.ready, hannotated⟩
    refine ⟨false, g₁, by rw [pushAll, hg₁]; rfl, hrenews, hannotated, fun hle => ?_,
      fun _ => ⟨halike, hsteady⟩, fun _ _ => rfl⟩
    rw [← halike.total_eq shallow_pushPotential hg.numbered] at hle
    cases r with
    | none => exact (firstChange_eq_none_iff hrenews.ready.numbered).1 hr
    | some next =>
      have hlt := (hR next rfl).2
      omega
  | succ moves ih =>
    obtain ⟨g₁, hg₁, hannotated, hrenews, halike, hsteady⟩ := hg.exists_annotated
    obtain ⟨r, hr, hR⟩ := exists_firstPush ⟨hrenews.ready, hannotated⟩
    have hnone : g₁.firstChange pushHere = .ok none ↔ g₁.Idle pushHere :=
      firstChange_eq_none_iff hrenews.ready.numbered
    cases r with
    | none =>
      exact ⟨false, g₁, by rw [pushAll, hg₁, ok_bind, hr]; rfl, hrenews, hannotated,
        fun _ => hnone.1 hr, fun _ => ⟨halike, hsteady⟩, fun _ _ => rfl⟩
    | some next =>
      obtain ⟨hnext, hlt⟩ := hR next rfl
      obtain ⟨changed, g', hg', hpushed⟩ := ih hnext.ready
      rw [halike.total_eq shallow_pushPotential hg.numbered] at hlt
      refine ⟨true, g', ?_, hrenews.trans (hnext.trans hpushed.renews), hpushed.annotated,
        fun hle => hpushed.idle (by omega), by rintro ⟨⟩, fun h hidle => ?_⟩
      · rw [pushAll, hg₁, ok_bind, hr, ok_bind]
        simp only [hg', ok_bind]
        rfl
      · rw [hnone.2 (idle_pushHere_of_steady hg.numbered halike (hsteady h) hidle)] at hr
        cases hr

/-! ### Fusing projections -/

/-- What fusions do: they renew the graph, keep its notes right, and let no filter move. -/
structure Refines (bound : Option (List TupleType)) (g g' : Dag) : Prop where
  renews : Renews bound g g'
  annotated : Annotated bound g'
  idle : g.Idle pushHere → g'.Idle pushHere

/-- **The fusion that is found can be made.** -/
theorem exists_fusion (hg : g.Wired) : ∃ r, g.fuseHere = .ok r ∧ ∀ g', r = some g' →
    ∃ outer inner source selected fields positions,
      Fused g g' outer inner source selected fields positions ∧ g'.allocated = g.allocated ∧
      ∀ edge ∈ g'.edges, edge ∈ g.edges ∨ edge.sourceSlot = 0 := by
  cases hfind : g.findFusion? with
  | none => exact ⟨none, by rw [fuseHere, hfind]; rfl, nofun⟩
  | some fusion =>
    obtain ⟨node, hmem, hfusion⟩ := List.exists_of_findSome?_eq_some hfind
    have hnode := node?_of_mem hg.ascending hmem
    obtain ⟨_, _, below, -, -, hreads, hbelow, hkind, hlength, -⟩ := fusion?_eq_some hfusion
    obtain ⟨source, -, hsource⟩ := hg.producers_of_inputs_one hbelow (by rw [hkind]; rfl)
    obtain ⟨g', hg', hallocated, hslots⟩ :=
      exists_applyFusion hg hreads hbelow hkind hlength hsource
    obtain ⟨source', selected, fields, hf⟩ := fused_of_applyFusion hg hnode hfusion hg'
    refine ⟨some g', by rw [fuseHere, hfind]; exact congrArg (some <$> ·) hg', ?_⟩
    rintro _ ⟨rfl⟩
    exact ⟨_, _, source', selected, fields, _, hf, hallocated, hslots⟩

/-- A fusion refines the graph, and there are fewer projections afterwards. -/
theorem exists_fuseHere (hg : Prepared bound g) : ∃ r, g.fuseHere = .ok r ∧ ∀ g', r = some g' →
    Refines bound g g' ∧ g'.total projectionCount < g.total projectionCount := by
  have hwired := hg.wired.here
  obtain ⟨r, hr, hfusion⟩ := exists_fusion hwired
  refine ⟨r, hr, fun g' hg' => ?_⟩
  obtain ⟨_, _, _, _, _, _, hf, hallocated, hslots⟩ := hfusion g' hg'
  exact ⟨⟨.of_fused hg.toReady hf hallocated hslots, hf.annotated hwired hg.annotated,
    hf.idle_pushHere hwired⟩, hf.projectionCount_lt hwired⟩

theorem exists_firstFusion (hg : Prepared bound g) :
    ∃ r, g.firstChange fuseHere = .ok r ∧ ∀ g', r = some g' → Refines bound g g' ∧
      g'.total projectionCount < g.total projectionCount := by
  refine exists_firstChange shallow_projectionCount (fun _ _ => exists_fuseHere) ?_ hg
  intro bound g id h h' hg hid hinner
  obtain ⟨τ, hτ⟩ := hg.typed
  refine ⟨.inside hg.toReady hid fun σ hσ => (hinner σ hσ).renews,
    hg.annotated.replaceInner hid fun σ hσ =>
    ⟨(hinner σ hσ).renews, (hinner σ hσ).annotated⟩, fun hidle => ?_⟩
  exact idle_pushHere_replaceInner hg.numbered hidle ((hinner τ hτ).idle (hidle.inside hid))

/-- **Fusing projections succeeds**, and leaves nothing to do. -/
theorem exists_fuseAll (fusions : Nat) (hg : Prepared none g) : ∃ changed g',
    g.fuseAll fusions = .ok (changed, g') ∧ Refines none g g' ∧
      (g.total projectionCount ≤ fusions → g'.Idle fuseHere) ∧ (changed = false → g' = g) ∧
      (g.Idle fuseHere → changed = false) := by
  induction fusions generalizing g with
  | zero =>
    obtain ⟨r, hr, hR⟩ := exists_firstFusion hg
    refine ⟨false, g, rfl, ⟨.refl hg.toReady, hg.annotated, fun h => h⟩, fun hle => ?_,
      fun _ => rfl, fun _ => rfl⟩
    cases r with
    | none => exact (firstChange_eq_none_iff hg.numbered).1 hr
    | some next =>
      have hlt := (hR next rfl).2
      omega
  | succ fusions ih =>
    obtain ⟨r, hr, hR⟩ := exists_firstFusion hg
    have hnone : g.firstChange fuseHere = .ok none ↔ g.Idle fuseHere :=
      firstChange_eq_none_iff hg.numbered
    cases r with
    | none =>
      exact ⟨false, g, by rw [fuseAll, hr]; rfl, ⟨.refl hg.toReady, hg.annotated, fun h => h⟩,
        fun _ => hnone.1 hr, fun _ => rfl, fun _ => rfl⟩
    | some next =>
      obtain ⟨hnext, hlt⟩ := hR next rfl
      obtain ⟨changed, g', hg', hrefines, hidle, -⟩ := ih ⟨hnext.renews.ready, hnext.annotated⟩
      refine ⟨true, g', ?_, ⟨hnext.renews.trans hrefines.renews, hrefines.annotated,
        fun h => hrefines.idle (hnext.idle h)⟩,
        fun hle => hidle (by omega), by rintro ⟨⟩, fun h => ?_⟩
      · rw [fuseAll, hr, ok_bind]
        simp only [hg', ok_bind]
        rfl
      · rw [hnone.2 h] at hr
        cases hr

/-! ### Rules -/

/-- What an attempt of a rule that takes steps of a sort does to a graph: it changes nothing exactly
if there is nothing to do, and otherwise renews and annotates the graph so that nothing is left to
do. -/
structure Settles (step : Dag → Outcome (Option Dag)) (g : Dag) (r : Option Dag) : Prop where
  none_iff : r = none ↔ g.Idle step
  renews : ∀ g', r = some g' → Renews none g g'
  annotated : ∀ g', r = some g' → Annotated none g'
  idle : ∀ g', r = some g' → g'.Idle step

/-- A rule that leaves an annotated graph with nothing to do, and changes nothing exactly where
there was nothing to do, succeeds: the graph is valid, and annotating it again keeps all columns. -/
theorem exists_settled (rule : Rule) (changed : Bool)
    (happly : rule.apply g = .ok (if changed then some g' else none)) (hrenews : Renews none g g')
    (hannotated : Annotated none g') (hidle : ∀ g'', Alike g' g'' → Steady g' g'' → g''.Idle step)
    (hchanged : changed = false ↔ g.Idle step) : ∃ r, rule.attempt g = .ok r ∧ Settles step g r ∧
      ∀ g'', r = some g'' → Alike g' g'' ∧ Steady g' g'' := by
  cases changed with
  | false =>
    exact ⟨none, by rw [Rule.attempt, happly]; rfl,
      ⟨by simpa using hchanged, nofun, nofun, nofun⟩, nofun⟩
  | true =>
    obtain ⟨g'', hg'', hannotated'', hrenews'', halike, hsteady⟩ := hrenews.ready.exists_annotated
    have hsteady := hsteady hannotated
    refine ⟨some g'', ?_, ⟨by simpa using hchanged, ?_, ?_, ?_⟩, ?_⟩
    · rw [Rule.attempt, happly, ok_bind, if_pos rfl]
      have hvalid : g'.validate = .ok () := hrenews.ready.valid
      simp only [hvalid, ok_bind, hg'']
      rfl
    all_goals rintro _ ⟨rfl⟩
    · exact hrenews.trans hrenews''
    · exact hannotated''
    · exact hidle g'' halike hsteady
    · exact ⟨halike, hsteady⟩

/-- **The rule that moves filters succeeds.** -/
theorem settles_pushdown (hg : Prepared none g) : ∃ r, Rule.pushdown.attempt g = .ok r ∧
      Settles pushHere g r := by
  obtain ⟨changed, g', hg', hpushed⟩ := exists_pushAll (g.total pushPotential) hg.toReady
  have hidle := hpushed.idle (Nat.le_refl _)
  have hkeeps : ∀ g'', Alike g' g'' → Steady g' g'' → g''.Idle pushHere := fun _ halike hsteady =>
    idle_pushHere_of_steady hpushed.renews.ready.numbered halike hsteady hidle
  obtain ⟨r, hr, hsettles, -⟩ := exists_settled .pushdown changed
    (by simp only [Rule.pushdown, hg', ok_bind]; rfl) hpushed.renews hpushed.annotated hkeeps
    ⟨fun h => hkeeps g (hpushed.still h).1.symm ((hpushed.still h).2 hg.annotated).symm,
      hpushed.unchanged hg.annotated⟩
  exact ⟨r, hr, hsettles⟩

/-- **The rule that fuses projections succeeds**, and lets no filter move. -/
theorem settles_fusion (hg : Prepared none g) : ∃ r, Rule.fusion.attempt g = .ok r ∧
      Settles fuseHere g r ∧
    ∀ g', r = some g' → g.Idle pushHere → g'.Idle pushHere := by
  obtain ⟨changed, g', hg', hrefines, hidle, hstill, hunchanged⟩ :=
    exists_fuseAll (g.total projectionCount) hg
  have hidle := hidle (Nat.le_refl _)
  have hnumbered := hrefines.renews.ready.numbered
  obtain ⟨r, hr, hsettles, hlike⟩ := exists_settled .fusion changed
    (by simp only [Rule.fusion, hg', ok_bind]; rfl) hrefines.renews hrefines.annotated
    (fun _ halike _ => idle_fuseHere_of_alike hnumbered halike hidle)
    ⟨fun h => hstill h ▸ hidle, hunchanged⟩
  refine ⟨r, hr, hsettles, fun g'' hg'' hpush => ?_⟩
  obtain ⟨halike, hsteady⟩ := hlike g'' hg''
  exact idle_pushHere_of_steady hnumbered halike hsteady (hrefines.idle hpush)

end Dataflow.Graph
