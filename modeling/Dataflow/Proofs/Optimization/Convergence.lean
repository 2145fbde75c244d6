/-
**Rounds come to an end.**

In a graph that can be optimized, one round is enough: no filter can move after the first rule, the
second rule leaves no projections to fuse and lets no filter move again.  So the second round finds
nothing to do and is the last one, and optimizing what was optimized changes annotations only.

Main results:

* `Optimizer.Standard.exists_run` — **optimizing succeeds** and renews the graph, with rules in any
  order;
* `Optimizer.exists_round` — **a round of a level finishes the graph**;
* `Optimizer.finished_of_run` — **what was optimized is finished**, within two rounds;
* `Optimizer.run_of_finished` — **a finished graph is not changed**.
-/

import Dataflow.Optimization.Optimizer
import Dataflow.Proofs.Optimization.Progress

namespace Dataflow

open Dataflow.Graph Outcome

/-- Nothing is left to do in a graph for the rules of a level. -/
structure Graph.Finished (level : Nat) (g : Dag) : Prop where
  pushed : 1 ≤ level → g.Idle pushHere
  fused : 2 ≤ level → g.Idle fuseHere

namespace Optimizer

variable {o : Optimizer} {level : Nat} {g : Dag} {state next result : Optimized}
  {step : Dag → Outcome (Option Dag)}

/-! ### One rule -/

/-- What applying a rule that takes steps of a sort does: nothing is left to do for it, and nothing
changes where there was nothing to do. -/
structure Turn (step : Dag → Outcome (Option Dag)) (state next : Optimized) : Prop where
  rounds : next.rounds = state.rounds
  renews : Renews none state.graph next.graph
  annotated : Annotated none next.graph
  idle : next.graph.Idle step
  unchanged : state.graph.Idle step → next = state

theorem Turn.prepared (h : Turn step state next) : Prepared none next.graph :=
  ⟨h.renews.ready, h.annotated⟩

theorem exists_applyRule {rule : Rule} {r : Option Dag} (o : Optimizer)
    (hg : Prepared none state.graph) (hr : rule.attempt state.graph = .ok r)
    (hsettles : Settles step state.graph r) :
    ∃ next, o.applyRule state rule = .ok next ∧ next.graph = r.getD state.graph ∧
      Turn step state next := by
  rw [applyRule, hr, ok_bind]
  cases r with
  | none =>
    exact ⟨state, rfl, rfl, rfl, .refl hg.toReady, hg.annotated,
      hsettles.none_iff.1 rfl, fun _ => rfl⟩
  | some g' =>
    refine ⟨_, rfl, rfl, rfl, hsettles.renews g' rfl, hsettles.annotated g' rfl,
      hsettles.idle g' rfl, fun hidle => ?_⟩
    cases hsettles.none_iff.2 hidle

/-- Applying the rule that moves filters. -/
theorem exists_turn_pushdown (o : Optimizer) (hg : Prepared none state.graph) :
    ∃ next, o.applyRule state .pushdown = .ok next ∧ Turn pushHere state next := by
  obtain ⟨r, hr, hsettles⟩ := settles_pushdown hg
  obtain ⟨next, hnext, -, hturn⟩ := exists_applyRule o hg hr hsettles
  exact ⟨next, hnext, hturn⟩

/-- Applying the rule that fuses projections lets no filter move. -/
theorem exists_turn_fusion (o : Optimizer) (hg : Prepared none state.graph) :
    ∃ next, o.applyRule state .fusion = .ok next ∧ Turn fuseHere state next ∧
      (state.graph.Idle pushHere → next.graph.Idle pushHere) := by
  obtain ⟨r, hr, hsettles, hpush⟩ := settles_fusion hg
  obtain ⟨next, hnext, hgraph, hturn⟩ := exists_applyRule o hg hr hsettles
  refine ⟨next, hnext, hturn, fun hidle => ?_⟩
  rw [hgraph]
  cases r with
  | none => exact hidle
  | some g' => exact hpush g' rfl hidle

/-! ### Rules in any order -/

/-- The rules of an optimizer are the two that there are, in any order and number. -/
def Standard (o : Optimizer) : Prop := ∀ rule ∈ o.rules, rule = .pushdown ∨ rule = .fusion

theorem exists_foldlM_applyRule {rules : List Rule}
    (hrules : ∀ rule ∈ rules, rule = .pushdown ∨ rule = .fusion) (hg : Prepared none state.graph) :
    ∃ next, rules.foldlM o.applyRule state = .ok next ∧ Renews none state.graph next.graph ∧
      Annotated none next.graph := by
  induction rules generalizing state with
  | nil => exact ⟨state, rfl, .refl hg.toReady, hg.annotated⟩
  | cons rule rules ih =>
    rw [List.forall_mem_cons] at hrules
    obtain ⟨s₁, hs₁, hrenews, hannotated⟩ : ∃ next, o.applyRule state rule = .ok next ∧
        Renews none state.graph next.graph ∧ Annotated none next.graph := by
      rcases hrules.1 with rfl | rfl
      · obtain ⟨next, hnext, hturn⟩ := exists_turn_pushdown o hg
        exact ⟨next, hnext, hturn.renews, hturn.annotated⟩
      · obtain ⟨next, hnext, hturn, -⟩ := exists_turn_fusion o hg
        exact ⟨next, hnext, hturn.renews, hturn.annotated⟩
    obtain ⟨s₂, hs₂, hrenews', hannotated'⟩ := ih hrules.2 ⟨hrenews.ready, hannotated⟩
    refine ⟨s₂, ?_, hrenews.trans hrenews', hannotated'⟩
    rw [List.foldlM_cons, hs₁, ok_bind, hs₂]

theorem Standard.exists_runRounds (ho : o.Standard) (rounds : Nat)
    (hg : Prepared none state.graph) :
    ∃ next, o.runRounds rounds state = .ok next ∧ Renews none state.graph next.graph ∧
      Annotated none next.graph := by
  induction rounds generalizing state with
  | zero => exact ⟨state, rfl, .refl hg.toReady, hg.annotated⟩
  | succ rounds ih =>
    have hstart : Prepared none { state with rounds := state.rounds + 1 : Optimized }.graph := hg
    obtain ⟨next, hnext, hrenews, hannotated⟩ := exists_foldlM_applyRule (o := o) ho hstart
    rw [runRounds, round, hnext, ok_bind]
    by_cases hchanges : next.changes = state.changes
    · exact ⟨next, by rw [if_pos hchanges]; rfl, hrenews, hannotated⟩
    · obtain ⟨last, hlast, hrenews', hannotated'⟩ := ih ⟨hrenews.ready, hannotated⟩
      exact ⟨last, by rw [if_neg hchanges, hlast], hrenews.trans hrenews', hannotated'⟩

/-- A run goes through rounds, from the graph with its annotations. -/
theorem run_eq_runRounds (o : Optimizer) (hg : Ready none g) : ∃ start : Optimized,
    o.run g = o.runRounds o.maxRounds start ∧ start.rounds = 0 ∧ start.changes = 0 ∧
      Prepared none start.graph ∧ Renews none g start.graph ∧ Alike g start.graph ∧
      (Annotated none g → Steady g start.graph) := by
  obtain ⟨g₁, hg₁, hannotated, hrenews, halike, hsteady⟩ := hg.exists_annotated
  have hvalid : g.validate = .ok () := hg.valid
  refine ⟨{ graph := g₁ }, ?_, rfl, rfl, ⟨hrenews.ready, hannotated⟩, hrenews, halike, hsteady⟩
  rw [run, hvalid, ok_bind, hg₁, ok_bind]

/-- **Optimizing succeeds**, and renews the graph. -/
theorem Standard.exists_run (ho : o.Standard) (hg : Ready none g) :
    ∃ result, o.run g = .ok result ∧ Renews none g result.graph ∧ Annotated none result.graph := by
  obtain ⟨start, hrun, -, -, hprepared, hrenews, -⟩ := o.run_eq_runRounds hg
  obtain ⟨result, hresult, hrenews', hannotated⟩ := ho.exists_runRounds o.maxRounds hprepared
  exact ⟨result, hrun.trans hresult, hrenews.trans hrenews', hannotated⟩

/-! ### Rounds of a level -/

/-- What a round does: it finishes the graph, and only counts itself where the graph was
finished. -/
structure Completes (level : Nat) (state next : Optimized) : Prop where
  rounds : next.rounds = state.rounds + 1
  renews : Renews none state.graph next.graph
  annotated : Annotated none next.graph
  finished : Finished level next.graph
  unchanged : Finished level state.graph → next = { state with rounds := state.rounds + 1 }

theorem Completes.prepared (h : Completes level state next) : Prepared none next.graph :=
  ⟨h.renews.ready, h.annotated⟩

section Rounds

variable (hrules : o.rules = Rule.forLevel level)
include hrules

/-- **A round succeeds and finishes the graph.** -/
theorem exists_round (hg : Prepared none state.graph) :
    ∃ next, o.round state = .ok next ∧ Completes level state next := by
  rw [round, hrules, Rule.forLevel]
  have hstart : Prepared none { state with rounds := state.rounds + 1 : Optimized }.graph := hg
  by_cases hone : 1 ≤ level
  · obtain ⟨s₁, hs₁, hpushed⟩ := exists_turn_pushdown o hstart
    by_cases htwo : 2 ≤ level
    · obtain ⟨s₂, hs₂, hfused, hkept⟩ := exists_turn_fusion o hpushed.prepared
      refine ⟨s₂, ?_, hfused.rounds.trans hpushed.rounds,
        hpushed.renews.trans hfused.renews, hfused.annotated,
        ⟨fun _ => hkept hpushed.idle, fun _ => hfused.idle⟩, fun hfinished => ?_⟩
      · rw [if_pos hone, if_pos htwo, List.singleton_append, List.foldlM_cons, hs₁, ok_bind,
          List.foldlM_cons, hs₂]
        rfl
      · have heq := hpushed.unchanged (hfinished.pushed hone)
        exact (hfused.unchanged (heq ▸ hfinished.fused htwo)).trans heq
    · refine ⟨s₁, ?_, hpushed.rounds, hpushed.renews, hpushed.annotated,
        ⟨fun _ => hpushed.idle, fun h => absurd h htwo⟩, fun hfinished => ?_⟩
      · rw [if_pos hone, if_neg htwo, List.append_nil, List.foldlM_cons, hs₁]
        rfl
      · exact hpushed.unchanged (hfinished.pushed hone)
  · rw [if_neg hone, if_neg (by omega)]
    exact ⟨_, rfl, rfl, .refl hg.toReady, hg.annotated,
      ⟨fun h => absurd h hone, fun h => absurd h (by omega)⟩, fun _ => rfl⟩

theorem runRounds_of_finished (hg : Prepared none state.graph)
    (hfinished : Finished level state.graph) (rounds : Nat) :
    ∃ next, o.runRounds rounds state = .ok next ∧ next.graph = state.graph ∧
      next.changes = state.changes ∧ next.rounds ≤ state.rounds + 1 := by
  cases rounds with
  | zero => exact ⟨state, rfl, rfl, rfl, Nat.le_succ _⟩
  | succ rounds =>
    obtain ⟨next, hnext, hround⟩ := exists_round hrules hg
    obtain rfl := hround.unchanged hfinished
    refine ⟨{ state with rounds := state.rounds + 1 }, ?_, rfl, rfl, Nat.le_refl _⟩
    rw [runRounds, hnext, ok_bind, if_pos rfl]
    rfl

/-- **At most two rounds are made**, as the first one finishes the graph. -/
theorem finished_of_runRounds (hg : Prepared none state.graph) {rounds : Nat}
    (h : o.runRounds rounds state = .ok next) :
    next.rounds ≤ state.rounds + 2 ∧ (rounds = 0 ∨ Finished level next.graph) := by
  cases rounds with
  | zero =>
    cases h
    exact ⟨Nat.le_add_right _ _, .inl rfl⟩
  | succ rounds =>
    obtain ⟨first, hfirst, hround⟩ := exists_round hrules hg
    rw [runRounds, hfirst, ok_bind] at h
    have hrounds := hround.rounds
    by_cases hchanges : first.changes = state.changes
    · rw [if_pos hchanges] at h
      cases h
      exact ⟨by omega, .inr hround.finished⟩
    · obtain ⟨last, hlast, hgraph, -, hle⟩ :=
        runRounds_of_finished hrules hround.prepared hround.finished rounds
      rw [if_neg hchanges, hlast, Except.ok.injEq] at h
      subst h
      exact ⟨by omega, .inr (hgraph ▸ hround.finished)⟩

/-! ### Runs -/

/-- **What was optimized is finished**, within two rounds. -/
theorem finished_of_run (hg : Ready none g) (h : o.run g = .ok result) :
    result.rounds ≤ 2 ∧ (o.maxRounds = 0 ∨ Finished level result.graph) := by
  obtain ⟨start, hrun, hrounds, -, hprepared, -⟩ := o.run_eq_runRounds hg
  have hfinished := finished_of_runRounds hrules hprepared (hrun.symm.trans h)
  rwa [hrounds] at hfinished

/-- **A finished graph is not changed**: no rule applies, and nothing but annotations differs. -/
theorem run_of_finished (hg : Prepared none g) (hfinished : o.maxRounds = 0 ∨ Finished level g) :
    ∃ again, o.run g = .ok again ∧ again.changes = 0 ∧ Alike g again.graph := by
  obtain ⟨start, hrun, -, hzero, hprepared, -, halike, hsteady⟩ := o.run_eq_runRounds hg.toReady
  rcases hfinished with hlimit | hfinished
  · exact ⟨start, by rw [hrun, hlimit]; rfl, hzero, halike⟩
  · have hfinished' : Finished level start.graph :=
      ⟨fun h => idle_pushHere_of_steady hg.numbered halike (hsteady hg.annotated)
        (hfinished.pushed h), fun h =>
        idle_fuseHere_of_alike hg.numbered halike (hfinished.fused h)⟩
    obtain ⟨again, hagain, hgraph, hchanges, -⟩ :=
      runRounds_of_finished hrules hprepared hfinished' o.maxRounds
    exact ⟨again, hrun.trans hagain, hchanges.trans hzero, hgraph ▸ halike⟩

end Rounds

end Optimizer

end Dataflow
