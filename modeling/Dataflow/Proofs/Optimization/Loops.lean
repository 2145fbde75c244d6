/-
**How long rules go on.**

A rule changes a graph again and again, each time the graph that the change before left, until there
is nothing to change.  Here these loops are told without the limits that the rules give themselves.
Every change makes a number of the graph smaller, whatever level it is made at, so a loop stops
after at most as many changes, and a rule that has this number for its limit does what the loop
does.  It takes wires only, no annotations that are right: a move in a graph whose notes are wrong
may well leave a graph without types, and the loop ends there.

Main results:

* `Graph.exists_loop` — **a loop that makes a number smaller stops**, after at most as many changes;
* `Graph.exists_firstChange_of_wired` — steps that succeed on wired graphs succeed at all levels;
* `Graph.stops_pushdown` — **moving filters stops**, after at most as many moves as there are pairs
  of a filter and an operator before it that filters can pass.
-/

import Dataflow.Proofs.Optimization.Evolution

namespace Dataflow.Graph

open Outcome Optimizer

variable {g g' : Dag} {refresh : Dag → Outcome Dag}
  {step : Dag → Outcome (Option Dag)} {count : Dag → Nat}

/-! ### Loops -/

/-- A run of a loop that stops: the graph is refreshed and changed, again and again, until there is
nothing to change or something fails.  The run has `n` changes, and the outcome is the graph that is
left. -/
inductive Loop (refresh : Dag → Outcome Dag) (step : Dag → Outcome (Option Dag)) :
    Dag → Nat → Outcome Dag → Prop
  | refused {g : Dag} {failure : Failure} (h : refresh g = .error failure) :
      Loop refresh step g 0 (.error failure)
  | failed {g g₁ : Dag} {failure : Failure} (h : refresh g = .ok g₁)
      (hstep : step g₁ = .error failure) :
      Loop refresh step g 0 (.error failure)
  | done {g g₁ : Dag} (h : refresh g = .ok g₁) (hstep : step g₁ = .ok none) :
      Loop refresh step g 0 (.ok g₁)
  | more {g g₁ g₂ : Dag} {n : Nat} {outcome : Outcome Dag} (h : refresh g = .ok g₁)
      (hstep : step g₁ = .ok (some g₂)) (hrest : Loop refresh step g₂ n outcome) :
      Loop refresh step g (n + 1) outcome

/-- A loop that makes no more than some number of changes, and says whether there was one. -/
def limited (refresh : Dag → Outcome Dag) (step : Dag → Outcome (Option Dag)) :
    (limit : Nat) → Dag → Outcome (Bool × Dag)
  | 0, g => return (false, ← refresh g)
  | limit + 1, g => do
    let g ← refresh g
    match ← step g with
    | none => return (false, g)
    | some changed =>
      let (_, g) ← limited refresh step limit changed
      return (true, g)

theorem pushAll_eq_limited (moves : Nat) (g : Dag) :
    g.pushAll moves = limited annotated (firstChange pushHere) moves g := by
  induction moves generalizing g with
  | zero => rfl
  | succ moves ih =>
    have hnext : pushAll moves = limited annotated (firstChange pushHere) moves := funext ih
    unfold pushAll limited
    exact hnext ▸ rfl

theorem fuseAll_eq_limited (fusions : Nat) (g : Dag) :
    g.fuseAll fusions = limited pure (firstChange fuseHere) fusions g := by
  induction fusions generalizing g with
  | zero => rfl
  | succ fusions ih =>
    have hnext : fuseAll fusions = limited pure (firstChange fuseHere) fusions := funext ih
    unfold fuseAll limited
    exact hnext ▸ rfl

/-- **A loop that makes a number smaller stops**, after at most as many changes; with this number
for its limit it does the same.  `P` is what the changes keep, and makes the steps succeed. -/
theorem exists_loop {P : Dag → Prop}
    (hturn : ∀ g g₁, P g → refresh g = .ok g₁ → ∃ r, step g₁ = .ok r ∧ ∀ g₂, r = some g₂ →
      P g₂ ∧ count g₂ < count g)
    (hg : P g) {limit : Nat} (hlimit : count g ≤ limit) :
      ∃ n outcome, Loop refresh step g n outcome ∧ n ≤ count g ∧
        limited refresh step limit g = (fun g' => (n != 0, g')) <$> outcome := by
  induction limit generalizing g with
  | zero =>
    cases hrefresh : refresh g with
    | error failure =>
      exact ⟨0, _, .refused hrefresh, Nat.zero_le _, by rw [limited, hrefresh]; rfl⟩
    | ok g₁ =>
      obtain ⟨r, hr, hnext⟩ := hturn g g₁ hg hrefresh
      cases r with
      | none => exact ⟨0, _, .done hrefresh hr, Nat.zero_le _, by rw [limited, hrefresh]; rfl⟩
      | some g₂ =>
        have hlt := (hnext g₂ rfl).2
        omega
  | succ limit ih =>
    cases hrefresh : refresh g with
    | error failure =>
      exact ⟨0, _, .refused hrefresh, Nat.zero_le _, by rw [limited, hrefresh]; rfl⟩
    | ok g₁ =>
      obtain ⟨r, hr, hnext⟩ := hturn g g₁ hg hrefresh
      cases r with
      | none =>
        refine ⟨0, _, .done hrefresh hr, Nat.zero_le _, ?_⟩
        rw [limited, hrefresh, ok_bind, hr]
        rfl
      | some g₂ =>
        obtain ⟨hg₂, hlt⟩ := hnext g₂ rfl
        obtain ⟨n, outcome, hloop, hle, hlimited⟩ := ih hg₂ (by omega)
        refine ⟨n + 1, outcome, .more hrefresh hr hloop, by omega, ?_⟩
        rw [limited, hrefresh, ok_bind, hr, ok_bind]
        simp only [hlimited]
        cases outcome <;> rfl

/-! ### Steps on wired graphs -/

/-- A step that succeeds on wired graphs succeeds at all levels of them, and what it does inside a
pipeline it does to the graph around that. -/
theorem exists_firstChange_of_wired {R : Dag → Dag → Prop} (hcount : Shallow count)
    (hstep : ∀ g, g.Everywhere Wired → ∃ r, step g = .ok r ∧
      ∀ g', r = some g' → R g g' ∧ g'.total count < g.total count)
    (hinside : ∀ (g : Dag) id h h', g.Everywhere Wired → g.inner? id = some h → R h h' →
      R g (g.replaceInner id h'))
    (hg : g.Everywhere Wired) :
    ∃ r, g.firstChange step = .ok r ∧ ∀ g', r = some g' → R g g' ∧
      g'.total count < g.total count := by
  refine exists_firstChange_of (P := fun _ : Unit => Everywhere Wired)
    (E := fun _ _ _ _ => True) (R := fun _ => R) hcount (fun _ _ hg => hg.here.ascending)
    (fun _ g id h hg hid => ?_) (fun _ => hstep)
    (fun _ g id h h' hg hid hR => hinside g id h h' hg hid (hR () trivial)) hg (b := ())
  exact ⟨⟨(), trivial⟩, fun _ _ => hg.inside hid⟩

/-! ### Moving filters -/

theorem exists_firstMove (hg : g.Everywhere Wired) :
    ∃ r, g.firstChange pushHere = .ok r ∧ ∀ g', r = some g' → g'.Everywhere Wired ∧
      g'.total pushPotential < g.total pushPotential := by
  refine exists_firstChange_of_wired (R := fun _ g' => g'.Everywhere Wired)
    shallow_pushPotential (fun g hg => ?_)
    (fun _ _ _ _ hg _ hinner => everywhere_replaceInner hg hinner) hg
  obtain ⟨r, hr, hmove⟩ := exists_move hg.here
  refine ⟨r, hr, fun g' hg' => ?_⟩
  obtain ⟨_, _, _, _, -, -, -, hadmits, hm, -⟩ := hmove g' hg'
  exact ⟨hm.wired hg, hm.pushPotential_lt hg.here hadmits⟩

/-- A turn of the loop that moves filters keeps a graph wired and makes its potential smaller. -/
theorem exists_turn {g₁ : Dag} (hg : g.Everywhere Wired) (hg₁ : g.annotated = .ok g₁) :
    ∃ r, g₁.firstChange pushHere = .ok r ∧ ∀ g₂, r = some g₂ →
      g₂.Everywhere Wired ∧ g₂.total pushPotential < g.total pushPotential := by
  have hnumbered : g.Numbered := hg.imp fun _ => Wired.ascending
  obtain ⟨halike, -⟩ := annotated_of_annotate hnumbered hg₁
  obtain ⟨r, hr, hmove⟩ := exists_firstMove (halike.everywhere_wired hg)
  rw [halike.total_eq shallow_pushPotential hnumbered] at hmove
  exact ⟨r, hr, hmove⟩

/-- **Moving filters stops.**  In a graph that is valid and has types, whatever its annotations are,
the loop that annotates the graph and moves a filter makes at most as many moves as there are, over
all filters at all levels, projections, joins and products that lead to the filter at its level.
The rule does what the loop does.  If the annotations come from annotating, the loop ends with a
graph. -/
theorem stops_pushdown {types : GraphTypes} (hg : g.Numbered) (hvalid : g.validate = .ok ())
    (htypes : g.types = .ok types) :
    ∃ moves outcome, Loop annotated (firstChange pushHere) g moves outcome ∧
      moves ≤ g.total pushPotential ∧
      Rule.pushdown.apply g = (fun g' => if moves = 0 then none else some g') <$> outcome ∧
      (g.Evolved → ∃ g', outcome = .ok g') := by
  have hwired := wired_of_checkOpenWithin hg (checkOpenWithin_of_validateWithin hg hvalid)
  obtain ⟨moves, outcome, hloop, hle, hlimited⟩ :=
    exists_loop (fun _ _ => exists_turn) hwired (Nat.le_refl (g.total pushPotential))
  rw [← pushAll_eq_limited] at hlimited
  refine ⟨moves, outcome, hloop, hle, ?_, fun hevolved => ?_⟩
  · rw [Rule.pushdown]
    simp only [hlimited]
    cases outcome with
    | error failure => rfl
    | ok g' => cases moves <;> rfl
  · obtain ⟨changed, g', hg', -⟩ :=
      exists_pushAll (g.total pushPotential) (hevolved.ready hvalid htypes)
    obtain ⟨g'', houtcome, -⟩ := Outcome.map_eq_ok_iff.1 (hlimited.symm.trans hg')
    exact ⟨g'', houtcome⟩

/-- The filter inside the pipeline passes the projection and the join before it: two moves at
most. -/
theorem largeKeysInside_stops : largeKeysInside.validate = .ok () ∧
    largeKeysInside.total pushPotential = 2 ∧ ∃ moves g', moves ≠ 0 ∧ moves ≤ 2 ∧
      Loop annotated (firstChange pushHere) largeKeysInside moves (.ok g') := by
  have hvalid : largeKeysInside.validate = .ok () := by cbv
  have hpotential : largeKeysInside.total pushPotential = 2 := by cbv
  have hchanges : (Rule.pushdown.apply largeKeysInside).toOption.any
    Option.isSome = true := by cbv
  obtain ⟨types, htypes, -⟩ := types_largeKeysInside
  obtain ⟨moves, outcome, hloop, hle, happly, hevolved⟩ :=
    stops_pushdown numbered_largeKeysInside hvalid htypes
  obtain ⟨g', rfl⟩ := hevolved evolved_largeKeysInside
  refine ⟨hvalid, hpotential, moves, g', ?_, hpotential ▸ hle, hloop⟩
  rintro rfl
  rw [happly] at hchanges
  cases hchanges

end Dataflow.Graph
