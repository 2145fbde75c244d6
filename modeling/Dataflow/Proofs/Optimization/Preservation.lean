/-
**Rules preserve what a graph computes.**

A change of a graph preserves its results if the sink keeps its type, and every value that the sink
has after the change it had before.  Such changes compose, and a change inside a pipeline is one of
the graph around it.  Fusing projections is such a change; moving a filter is one if the move keeps
rows. The converse, that every value before the change is one after it, needs predicates that decide
wherever they move; it is asked for by the parameter `total`.

Main results:

* `Graph.Preserved.inside` — **a change inside a pipeline preserves the results around it**;
* `Graph.preserved_of_fuseAll`, `Graph.preserved_of_pushAll` — **the rules preserve results**.
-/

import Dataflow.Proofs.Optimization.Fusion
import Dataflow.Proofs.Optimization.Pushdown

namespace Dataflow.Graph

open List Option Interpretation Outcome

/-! ### Changes that preserve results -/

/-- A change of a graph that keeps the type of the sink and, on rows that the graph may be supplied
with, takes no value away from the graph before; if `total`, it takes none away from the graph after
either. -/
structure Preserved (total : Prop) (parameters : List Rows) (bound : Option (List TupleType))
    (g g' : Dag) : Prop where
  types : (typing (soundly parameters)).Carries bound g g'
  back : ∀ τ c, (typing (soundly parameters)).Models g bound τ → Supplies parameters bound c →
    evaluation.Carries c g' g
  forth : total → ∀ τ c, (typing (soundly parameters)).Models g bound τ →
    Supplies parameters bound c → evaluation.Carries c g g'

variable {total : Prop} {parameters : List Rows} {bound : Option (List TupleType)} {g g' g'' : Dag}

namespace Preserved

theorem trans (h : Preserved total parameters bound g g')
    (h' : Preserved total parameters bound g' g'') :
    Preserved total parameters bound g g'' where
  types := h.types.trans h'.types
  back := by
    intro τ c hτ hc
    obtain ⟨τ', hτ', -⟩ := h.types τ hτ
    exact (h'.back τ' c hτ' hc).trans (h.back τ c hτ hc)
  forth := by
    intro htotal τ c hτ hc
    obtain ⟨τ', hτ', -⟩ := h.types τ hτ
    exact (h.forth htotal τ c hτ hc).trans (h'.forth htotal τ' c hτ' hc)

theorem of_alike (h : Alike g g') : Preserved total parameters bound g g' where
  types := h.carries _ _
  back := fun _ _ _ _ => h.symm.carries _ _
  forth := fun _ _ _ _ _ => h.carries _ _

theorem of_fused {outer inner source : Nat} {selected fields positions : List Nat}
    (hg : g.Everywhere Wired) (hf : Fused g g' outer inner source selected fields positions) :
    Preserved total parameters bound g g' where
  types := fun τ hτ => ⟨τ, hf.typed hg.here hτ ⟨rfl, nofun⟩, by rw [hf.sink]⟩
  back := fun _ _ hτ hc => hf.carries_back hg hτ hc
  forth := fun _ _ c _ _ => hf.carries_forth hg.here c

end Preserved

/-- A graph has one typing only, however much is asked of its operators. -/
theorem map_producers_eq {demands demands' : Demands} {τ τ' : Nat → TupleType}
    (hg : g.Everywhere Wired) (hτ : (typing demands).Models g bound τ)
    (hτ' : (typing demands').Models g bound τ') (id : Nat) :
    (g.producers id).map τ = (g.producers id).map τ' := by
  refine map_congr_left fun q hq => ?_
  exact eq_of_models (hg.imp fun _ => Wired.founded) hτ hτ' q (hg.here.mem_of_mem_producers hq)

/-- The notes of an annotated graph agree with its types, whatever is asked of the operators. -/
theorem noted_of_annotated {demands : Demands} {τ : Nat → TupleType} (hg : g.Everywhere Wired)
    (h : Annotated bound g) (hτ : (typing demands).Models g bound τ) :
    (∀ id ∈ g.ids, g.NotedAt id (τ id)) ∧
      ∀ id h, g.inner? id = some h → Annotated (some ((g.producers id).map τ)) h := by
  obtain ⟨τ', hτ', hnoted, hinside⟩ := h
  have heq := eq_of_models (hg.imp fun _ => Wired.founded) hτ' hτ
  refine ⟨fun id hid => heq id hid ▸ hnoted id hid, fun id h hid => ?_⟩
  rw [← map_producers_eq hg hτ' hτ]
  exact hinside id h hid

/-- A move that keeps rows preserves results. -/
theorem preserved_of_applyPush {node : Node Operator} {push : Push} (hg : g.Everywhere Wired)
    (hannotated : Annotated bound g) (hnode : g.node? node.id = some node)
    (hpush : g.push? node = some push) (hkeeps : g.keeps push = true)
    (hdecides : total → g.decides push) (h : g.applyPush push = .ok g') :
    g'.Everywhere Wired ∧ Preserved total parameters bound g g' := by
  obtain ⟨e, -, hkind, hfilter, hreads, halone, -⟩ := push?_eq_some hpush
  obtain ⟨source, hm⟩ := moved_of_applyPush hg.here (hfilter ▸ hnode) hkind hreads halone h
  have hsink : g.sink ≠ some push.below := by
    rw [keeps, Bool.and_eq_true, bne_iff_ne] at hkeeps
    exact hkeeps.1
  -- The filter, the operator and the source are the same, however the move is looked at.
  have hmovable : ∀ τ, (typing (soundly parameters)).Models g bound τ →
      ∃ p, g.Movable bound τ push e p source := by
    intro τ hτ
    obtain ⟨e', p, source', hmov⟩ :=
      movable_of_push? hg.here (noted_of_annotated hg hannotated hτ).1 hτ hnode hpush hkeeps
    obtain rfl : source' = source := mem_unique hmov.feeds hm.feeds
    obtain ⟨node', hnode', hkind'⟩ := hmov.filter
    obtain rfl : node = node' := mem_unique hnode (hfilter ▸ hnode')
    obtain rfl : e = e' := by simpa using hkind.symm.trans hkind'
    exact ⟨p, hmov⟩
  refine ⟨hm.wired hg, ?_, ?_, ?_⟩
  · intro τ hτ
    obtain ⟨p, hmov⟩ := hmovable τ hτ
    exact ⟨_, hmov.typed hm hτ hg.here, hm.sink_eq (hm.agrees_forth hg.here _) hsink⟩
  · intro τ c hτ hc
    obtain ⟨p, hmov⟩ := hmovable τ hτ
    exact hmov.carries_back hm hτ hg hc hsink
  · intro htotal τ c hτ hc
    obtain ⟨p, hmov⟩ := hmovable τ hτ
    exact hmov.carries_forth hm hτ hg hc hsink
      (noted_of_annotated hg hannotated hτ).1 (hdecides htotal)

/-! ### Changes inside a pipeline -/

variable {h h' : Dag} {id : Nat}

theorem alike_replaceInner (hid : g.inner? id = some h) :
    Alike ((g.replaceInner id h').replaceInner id h) g := by
  refine ⟨rfl, rfl, ?_, fun m a b ha hb => ?_⟩
  · rw [shells_replaceInner, shells_replaceInner]
  · simp only [inner?_replaceInner] at ha
    by_cases hm : m = id
    · subst hm
      rw [if_pos rfl, if_pos rfl, hid, map_some, map_some, some.injEq] at ha
      obtain rfl : h = b := mem_unique hid hb
      exact ha ▸ Alike.refl _
    · rw [if_neg hm, if_neg hm] at ha
      obtain rfl : a = b := mem_unique ha hb
      exact Alike.refl _

/-- **A change inside a pipeline preserves the results around it.** -/
theorem Preserved.inside (hg : g.Everywhere Wired) (hh' : h'.Everywhere Wired)
    (hid : g.inner? id = some h) (hinner : ∀ τ, (typing (soundly parameters)).Models g bound τ →
      Preserved total parameters (some ((g.producers id).map τ)) h h') :
    Preserved total parameters bound g (g.replaceInner id h') := by
  have hh := hg.inside hid
  have hkeep : ∀ k, g.inner? id = some k → k = h := fun k hk => mem_unique hk hid
  -- The graph around has the same types before and after, so its rows supply the graph inside.
  have hτ' : ∀ τ, (typing (soundly parameters)).Models g bound τ →
      (typing (soundly parameters)).Models (g.replaceInner id h') bound τ := by
    intro τ hτ
    refine models_replaceInner hτ (fun k hk => ?_) hh'.here.sink
    exact hkeep k hk ▸ (hinner τ hτ).types
  have hsupplies : ∀ τ c v, (typing (soundly parameters)).Models g bound τ →
    Supplies parameters bound c →
      (evaluation.Models g c v ∨ evaluation.Models (g.replaceInner id h') c v) →
      Supplies parameters (some ((g.producers id).map τ))
      (evaluation.enter ((g.producers id).map v)) := by
    intro τ c v hτ hc hv
    refine supplies_enter ?_
    rw [forall₂_map_left_iff, forall₂_map_right_iff, forall₂_same]
    intro q hq
    have hmem := hg.here.mem_of_mem_producers hq
    rcases hv with hv | hv
    · exact holds_of_models (hg.imp fun _ => Wired.founded) hc hτ hv q hmem
    · exact holds_of_models ((everywhere_replaceInner hg hh').imp fun _ => Wired.founded)
        hc (hτ' τ hτ) hv q (ids_replaceInner g id h' ▸ hmem)
  refine ⟨fun τ hτ => ⟨τ, hτ' τ hτ, rfl⟩, fun τ c hτ hc v hv => ?_, fun htotal τ c hτ hc v hv => ?_⟩
  · obtain ⟨σ, hσ⟩ := hτ.inside hid
    refine ⟨v, (alike_replaceInner hid).models (models_replaceInner hv (fun k hk => ?_)
      hh.here.sink), rfl⟩
    rw [inner?_replaceInner, if_pos rfl, hid, map_some, some.injEq] at hk
    exact hk ▸ (hinner τ hτ).back σ _ hσ (hsupplies τ c v hτ hc (.inr hv))
  · obtain ⟨σ, hσ⟩ := hτ.inside hid
    refine ⟨v, models_replaceInner hv (fun k hk => ?_) hh'.here.sink, rfl⟩
    exact hkeep k hk ▸ (hinner τ hτ).forth htotal σ _ hσ (hsupplies τ c v hτ hc (.inl hv))

/-! ### Changes at the first level where there is one -/

variable {f : Dag → Outcome (Option Dag)} {table : Table Dag}

/-- The first of some inner graphs that was changed: those before it were not. -/
theorem changedInner?_eq_some (hchange : changedInner? (table.map fun e => (e.1, f e.2)) =
      .ok (some (id, h'))) :
    ∃ before h after, table = before ++ (id, h) :: after ∧ (∀ e ∈ before, f e.2 = .ok none) ∧
      f h = .ok (some h') := by
  induction table with
  | nil => cases hchange
  | cons e table ih =>
    simp only [map_cons, changedInner?, bind_eq_ok_iff] at hchange
    obtain ⟨result, hresult, hchange⟩ := hchange
    cases result with
    | some changed =>
      cases hchange
      exact ⟨[], e.2, table, rfl, by simp, hresult⟩
    | none =>
      obtain ⟨before, h, after, rfl, hbefore, hh⟩ := ih hchange
      exact ⟨e :: before, h, after, rfl, forall_mem_cons.2 ⟨hresult, hbefore⟩, hh⟩

theorem changedInner?_eq_none_iff :
    changedInner? (table.map fun e => (e.1, f e.2)) = .ok none ↔ ∀ e ∈ table, f e.2 = .ok none := by
  induction table with
  | nil => simp [changedInner?]
  | cons e table ih =>
    rw [map_cons, changedInner?, forall_mem_cons, ← ih]
    cases f e.2 with
    | error failure => simp
    | ok result => cases result <;> simp

variable {step : Dag → Outcome (Option Dag)} {changed : Bool}

theorem firstChange_eq (g : Dag) : g.firstChange step = step g >>= fun
    | some changed => return some changed
    | none => changedInner? (g.inner.map fun e => (e.1, e.2.firstChange step)) >>= fun
      | some (id, h) => return some (g.replaceInner id h)
      | none => return none := by
  rw [firstChange, fold_eq]
  rfl

/-- What the first change is: one of the graph itself, or of the first graph inside that has one. -/
theorem firstChange_eq_some (hchange : g.firstChange step = .ok (some g')) :
    step g = .ok (some g') ∨ step g = .ok none ∧ ∃ before id h h' after,
      g.inner = before ++ (id, h) :: after ∧ (∀ e ∈ before, e.2.firstChange step = .ok none) ∧
      h.firstChange step = .ok (some h') ∧ g' = g.replaceInner id h' := by
  rw [firstChange_eq, bind_eq_ok_iff] at hchange
  obtain ⟨result, hresult, hchange⟩ := hchange
  cases result with
  | some changed =>
    cases hchange
    exact .inl hresult
  | none =>
    simp only [bind_eq_ok_iff] at hchange
    obtain ⟨result', hresult', hchange⟩ := hchange
    cases result' with
    | none => cases hchange
    | some entry =>
      cases hchange
      obtain ⟨before, h, after, hinner, hbefore, hh⟩ := changedInner?_eq_some hresult'
      exact .inr ⟨hresult, before, entry.1, h, entry.2, after, hinner, hbefore, hh, rfl⟩

theorem firstChange_none_iff :
    g.firstChange step = .ok none ↔ step g = .ok none ∧
      ∀ e ∈ g.inner, e.2.firstChange step = .ok none := by
  rw [firstChange_eq, ← changedInner?_eq_none_iff]
  cases step g with
  | error failure => simp
  | ok result =>
    cases result with
    | some changed => simp
    | none => cases changedInner? _ with
      | error failure => simp
      | ok result' => cases result' <;> simp

/-! ### Fusing projections -/

theorem preserved_of_fuse (hg : g.Everywhere Wired)
    (hchange : g.firstChange fuseHere = .ok (some g')) :
    g'.Everywhere Wired ∧ Preserved total parameters bound g g' := by
  induction g using levelInduction generalizing bound g' with
  | step g ih =>
    rcases firstChange_eq_some hchange with hhere | ⟨-, before, id, h, h',
      after, hinner, -, hh, rfl⟩
    · simp only [fuseHere] at hhere
      split at hhere
      · next fusion hfusion =>
        obtain ⟨_, happly, heq⟩ := map_eq_ok_iff.1 hhere
        cases heq
        obtain ⟨node, hmem, hnode⟩ := exists_of_findSome?_eq_some hfusion
        obtain ⟨source, selected, fields, hf⟩ :=
          fused_of_applyFusion hg.here (node?_of_mem hg.here.ascending hmem) hnode happly
        exact ⟨hf.wired hg, .of_fused hg hf⟩
      · cases hhere
    · have hid : g.inner? id = some h := inner?_of_mem_inner hg.here.ascending (by simp [hinner])
      -- A fusion does not look at types, so it preserves results whatever the pipeline is given.
      have hpreserved : ∀ bound, h'.Everywhere Wired ∧ Preserved total parameters bound h h' :=
        fun _ => ih id h hid (hg.inside hid) hh
      exact ⟨everywhere_replaceInner hg (hpreserved none).1,
        .inside hg (hpreserved none).1 hid fun τ _ => (hpreserved _).2⟩

/-- **Fusing projections preserves results.** -/
theorem preserved_of_fuseAll {fusions : Nat} (hg : g.Everywhere Wired)
    (hfuse : g.fuseAll fusions = .ok (changed, g')) :
    g'.Everywhere Wired ∧ Preserved total parameters bound g g' := by
  induction fusions generalizing g changed with
  | zero =>
    cases hfuse
    exact ⟨hg, .of_alike (.refl _)⟩
  | succ fusions ih =>
    simp only [fuseAll, bind_eq_ok_iff] at hfuse
    obtain ⟨result, hresult, hfuse⟩ := hfuse
    cases result with
    | none =>
      cases hfuse
      exact ⟨hg, .of_alike (.refl _)⟩
    | some next =>
      simp only [bind_eq_ok_iff] at hfuse
      obtain ⟨⟨_, g₁⟩, hrest, hfuse⟩ := hfuse
      cases hfuse
      obtain ⟨hnext, hpreserved⟩ : next.Everywhere Wired ∧
          Preserved total parameters bound g next := preserved_of_fuse hg hresult
      obtain ⟨hg', hpreserved'⟩ := ih hnext hrest
      exact ⟨hg', hpreserved.trans hpreserved'⟩

/-! ### Pushing filters -/

/-- The first move that can be made, with the level where it is made. -/
def firstPush? : Dag → Option (Dag × Push) := fold fun g inner =>
    match g.findPush? with
    | some push => some (g, push)
    | none => inner.findSome? (·.2)

/-- The moves that pushing filters makes, at most `moves` of them. -/
def pushMoves : (moves : Nat) → Dag → List (Dag × Push)
  | 0, _ => []
  | moves + 1, g =>
    match g.annotated with
    | .error _ => []
    | .ok g =>
      g.firstPush?.toList ++
        match g.firstChange pushHere with
        | .ok (some changed) => pushMoves moves changed
        | _ => []

theorem firstPush?_eq (g : Dag) : g.firstPush? =
    match g.findPush? with
    | some push => some (g, push)
    | none => g.inner.findSome? fun e => e.2.firstPush? := by
  rw [firstPush?, fold_eq, findSome?_map]
  rfl

theorem pushHere_eq_none (hhere : g.pushHere = .ok none) : g.findPush? = none := by
  simp only [pushHere] at hhere
  split at hhere
  · obtain ⟨_, -, heq⟩ := map_eq_ok_iff.1 hhere
    cases heq
  · assumption

theorem firstPush?_eq_none (hchange : g.firstChange pushHere = .ok none) : g.firstPush? = none := by
  induction g using Graph.induction with
  | step g ih =>
    obtain ⟨hhere, hinside⟩ := firstChange_none_iff.1 hchange
    rw [firstPush?_eq, pushHere_eq_none hhere]
    exact findSome?_eq_none_iff.2 fun e he => ih e he (hinside e he)

/-- The condition on moves under which they preserve results. -/
def Sound (total : Prop) (move : Dag × Push) : Prop :=
  move.1.keeps move.2 = true ∧ (total → move.1.decides move.2)

/-- The first possible move preserves results, if it is sound. -/
theorem preserved_of_push (hg : g.Everywhere Wired) (hannotated : Annotated bound g)
    (hsound : ∀ move, g.firstPush? = some move → Sound total move)
    (hchange : g.firstChange pushHere = .ok (some g')) :
    g'.Everywhere Wired ∧ Preserved total parameters bound g g' := by
  induction g using levelInduction generalizing bound g' with
  | step g ih =>
    rw [firstPush?_eq] at hsound
    rcases firstChange_eq_some hchange with
      hhere | ⟨hhere, before, id, h, h', after, hinner, hbefore, hh, rfl⟩
    · simp only [pushHere] at hhere
      split at hhere
      · next push hpush =>
        obtain ⟨_, happly, heq⟩ := map_eq_ok_iff.1 hhere
        cases heq
        rw [hpush] at hsound
        obtain ⟨hkeeps, hdecides⟩ := hsound (g, push) rfl
        obtain ⟨node, hmem, hnode⟩ := exists_of_findSome?_eq_some hpush
        exact preserved_of_applyPush hg hannotated (node?_of_mem hg.here.ascending hmem)
          hnode hkeeps hdecides happly
      · cases hhere
    · have hid : g.inner? id = some h := inner?_of_mem_inner hg.here.ascending (by simp [hinner])
      -- The first move of the graph inside is the first one of the graph around it.
      have hfirst : ∀ move, h.firstPush? = some move → Sound total move := by
        intro move hmove
        refine hsound move ?_
        have hnone : before.findSome? (fun e => e.2.firstPush?) = none :=
          findSome?_eq_none_iff.2 fun e he => firstPush?_eq_none (hbefore e he)
        rw [pushHere_eq_none hhere, hinner, findSome?_append, hnone, none_or, findSome?_cons, hmove]
      have hpreserved : ∀ bound, Annotated bound h → h'.Everywhere Wired ∧
        Preserved total parameters bound h h' :=
        fun _ hannotated => ih id h hid (hg.inside hid) hannotated hfirst hh
      have hh' : h'.Everywhere Wired := by
        obtain ⟨τ, -, -, hinside⟩ := hannotated
        exact (hpreserved _ (hinside id h hid)).1
      refine ⟨everywhere_replaceInner hg hh', .inside hg hh' hid fun τ hτ => ?_⟩
      exact (hpreserved _ ((noted_of_annotated hg hannotated hτ).2 id h hid)).2

theorem preserved_of_annotated (hg : g.Everywhere Wired) (h : g.annotated = .ok g') :
    g'.Everywhere Wired ∧ Annotated none g' ∧ Preserved total parameters none g g' := by
  obtain ⟨halike, hannotated⟩ := annotated_of_annotate (hg.imp fun _ => Wired.ascending) h
  exact ⟨halike.everywhere_wired hg, hannotated, .of_alike halike⟩

/-- **Pushing filters preserves results**, if all moves are sound. -/
theorem preserved_of_pushAll {moves : Nat} (hg : g.Everywhere Wired)
    (hsound : ∀ move ∈ g.pushMoves moves, Sound total move)
    (hpush : g.pushAll moves = .ok (changed, g')) :
    g'.Everywhere Wired ∧ Preserved total parameters none g g' := by
  induction moves generalizing g changed with
  | zero =>
    simp only [pushAll, bind_eq_ok_iff] at hpush
    obtain ⟨_, hannotated, hpush⟩ := hpush
    cases hpush
    obtain ⟨hg', -, hpreserved⟩ := preserved_of_annotated hg hannotated
    exact ⟨hg', hpreserved⟩
  | succ moves ih =>
    simp only [pushAll, bind_eq_ok_iff] at hpush
    obtain ⟨g₁, hannotated, result, hresult, hpush⟩ := hpush
    obtain ⟨hg₁, hnoted, hpreserved⟩ : g₁.Everywhere Wired ∧ Annotated none g₁ ∧
      Preserved total parameters none g g₁ :=
        preserved_of_annotated hg hannotated
    simp only [pushMoves, hannotated, hresult, mem_append, mem_toList] at hsound
    cases result with
    | none =>
      cases hpush
      exact ⟨hg₁, hpreserved⟩
    | some next =>
      simp only [bind_eq_ok_iff] at hpush
      obtain ⟨⟨_, g₂⟩, hrest, hpush⟩ := hpush
      cases hpush
      obtain ⟨hnext, hpreserved'⟩ :
        next.Everywhere Wired ∧ Preserved total parameters none g₁ next :=
        preserved_of_push hg₁ hnoted (fun move hmove => hsound move (.inl hmove)) hresult
      obtain ⟨hg', hpreserved''⟩ := ih hnext (fun move hmove => hsound move (.inr hmove)) hrest
      exact ⟨hg', hpreserved.trans (hpreserved'.trans hpreserved'')⟩

end Dataflow.Graph
