/-
**Optimization keeps the results of a graph.**

The optimizer changes a graph by rules that preserve results, so the optimized graph produces what
the graph itself produces, in the same order.  Three things can spoil this, and are excluded: a
filter that nothing reads is moved before the sink; a filter on a key of the left side of a join is
moved to the right side, where the key has the same column but another value; and a fold whose rows
are not of its type.  That the optimized graph succeeds whenever the graph itself does needs
predicates that decide on the rows that they are moved to, which a quotient of integers may not do.

Main results:

* `Optimizer.evaluate_of_run` — **an optimized graph has no other results than the graph itself**;
* `Optimizer.evaluate_run` — **an optimized graph has the results of the graph itself**, if
  predicates decide wherever they are moved.
-/

import Dataflow.Optimization.Optimizer
import Dataflow.Proofs.Expr.Totality
import Dataflow.Proofs.Optimization.Preservation

namespace Dataflow

open List Dataflow.Graph Outcome Optimizer

variable {level : Nat} {rule : Rule}

/-! ### Rules -/

/-- The moves of filters that a rule makes. -/
def Rule.moves (rule : Rule) (g : Dag) : List (Dag × Push) :=
  if rule.name = Rule.pushdown.name then g.pushMoves (g.total Graph.pushPotential) else []

theorem Rule.eq_of_mem_forLevel (h : rule ∈ Rule.forLevel level) :
    rule = .pushdown ∨ rule = .fusion := by
  simp only [Rule.forLevel, mem_append] at h
  rcases h with h | h
  · split at h
    · exact .inl (mem_singleton.1 h)
    · cases h
  · split at h
    · exact .inr (mem_singleton.1 h)
    · cases h

/-- A graph that was made of another one by changes that preserve results: it is wired and typed. -/
structure Graph.Kept (total : Prop) (parameters : List Rows) (g g' : Dag) : Prop where
  wired : g'.Everywhere Wired
  typed : ∃ types, g'.types = .ok types
  preserved : Preserved total parameters none g g'

variable {total : Prop} {parameters : List Rows} {g g' : Dag}

theorem Graph.Kept.trans {g'' : Dag} (h : Kept total parameters g g')
    (h' : Kept total parameters g' g'') : Kept total parameters g g'' :=
  ⟨h'.wired, h'.typed, h.preserved.trans h'.preserved⟩

theorem Graph.kept_of_annotated (hg : g.Everywhere Wired) (h : g.annotated = .ok g') :
    Kept total parameters g g' := by
  obtain ⟨hwired, -, hpreserved⟩ := preserved_of_annotated hg h
  exact ⟨hwired, types_of_annotated (hg.imp fun _ => Wired.ascending) h, hpreserved⟩

/-- **A rule preserves results**, if its moves are sound. -/
theorem Rule.kept_of_attempt (hrule : rule ∈ Rule.forLevel level) (hg : g.Everywhere Wired)
    (hsound : ∀ move ∈ rule.moves g, Sound total move)
    (h : rule.attempt g = .ok (some g')) : Kept total parameters g g' := by
  simp only [Rule.attempt, bind_eq_ok_iff] at h
  obtain ⟨result, hresult, h⟩ := h
  cases result with
  | none => cases h
  | some changed =>
    obtain ⟨_, hchecked, heq⟩ := map_eq_ok_iff.1 h
    cases heq
    rw [mapError_eq_ok_iff, bind_eq_ok_iff] at hchecked
    obtain ⟨_, -, hannotated⟩ := hchecked
    have hchanged : changed.Everywhere Wired ∧ Preserved total parameters none g changed := by
      rcases Rule.eq_of_mem_forLevel hrule with rfl | rfl
      · rw [Rule.moves, if_pos rfl] at hsound
        simp only [Rule.pushdown, bind_eq_ok_iff] at hresult
        obtain ⟨⟨b, next⟩, hpush, hresult⟩ := hresult
        cases b with
        | false => cases hresult
        | true =>
          cases hresult
          exact preserved_of_pushAll hg hsound hpush
      · simp only [Rule.fusion, bind_eq_ok_iff] at hresult
        obtain ⟨⟨b, next⟩, hfuse, hresult⟩ := hresult
        cases b with
        | false => cases hresult
        | true =>
          cases hresult
          exact preserved_of_fuseAll hg hfuse
    have hkept : Kept total parameters changed g' := kept_of_annotated hchanged.1 hannotated
    exact ⟨hkept.wired, hkept.typed, hchanged.2.trans hkept.preserved⟩

/-! ### Rounds -/

namespace Optimizer

variable {o : Optimizer}

/-- The moves that some rules make in turn. -/
def rulesMoves (o : Optimizer) : List Rule → Optimized → List (Dag × Push)
  | [], _ => []
  | rule :: rules, state =>
    rule.moves state.graph ++
      match o.applyRule state rule with
      | .ok next => o.rulesMoves rules next
      | .error _ => []

/-- The moves of at most `rounds` rounds. -/
def roundsMoves (o : Optimizer) : (rounds : Nat) → Optimized → List (Dag × Push)
  | 0, _ => []
  | rounds + 1, state =>
    o.rulesMoves o.rules { state with rounds := state.rounds + 1 } ++
      match o.round state with
      | .ok next => if next.changes = state.changes then [] else o.roundsMoves rounds next
      | .error _ => []

/-- The moves of filters that an optimizer makes in a graph, each with the level where it is
made. -/
def moves (o : Optimizer) (g : Dag) : List (Dag × Push) :=
  match g.annotated with
  | .ok g => o.roundsMoves o.maxRounds { graph := g }
  | .error _ => []

theorem kept_of_applyRule {state next : Optimized} (hrule : rule ∈ Rule.forLevel level)
    (hstate : Kept total parameters g state.graph)
    (hsound : ∀ move ∈ rule.moves state.graph, Sound total move)
    (h : o.applyRule state rule = .ok next) : Kept total parameters g next.graph := by
  simp only [applyRule, bind_eq_ok_iff] at h
  obtain ⟨result, hresult, h⟩ := h
  cases result with
  | none =>
    cases h
    exact hstate
  | some changed =>
    cases h
    exact hstate.trans (Rule.kept_of_attempt hrule hstate.wired hsound hresult)

theorem kept_of_rules {rules : List Rule} {state next : Optimized}
    (hrules : ∀ rule ∈ rules, rule ∈ Rule.forLevel level)
    (hstate : Kept total parameters g state.graph)
    (hsound : ∀ move ∈ o.rulesMoves rules state, Sound total move)
    (h : rules.foldlM o.applyRule state = .ok next) : Kept total parameters g next.graph := by
  induction rules generalizing state with
  | nil =>
    cases h
    exact hstate
  | cons rule rules ih =>
    rw [foldlM_cons, bind_eq_ok_iff] at h
    obtain ⟨reached, hreached, h⟩ := h
    rw [rulesMoves, hreached] at hsound
    simp only [mem_append] at hsound
    refine ih (fun rule hrule => hrules rule (mem_cons_of_mem _ hrule)) ?_
      (fun move hmove => hsound move (.inr hmove)) h
    exact kept_of_applyRule (hrules rule mem_cons_self) hstate
      (fun move hmove => hsound move (.inl hmove)) hreached

theorem kept_of_runRounds {rounds level : Nat} {state result : Optimized}
    (hrules : o.rules = Rule.forLevel level) (hstate : Kept total parameters g state.graph)
    (hsound : ∀ move ∈ o.roundsMoves rounds state, Sound total move)
    (h : o.runRounds rounds state = .ok result) : Kept total parameters g result.graph := by
  induction rounds generalizing state with
  | zero =>
    cases h
    exact hstate
  | succ rounds ih =>
    simp only [runRounds, bind_eq_ok_iff] at h
    obtain ⟨next, hnext, h⟩ := h
    rw [roundsMoves, hnext] at hsound
    simp only [mem_append] at hsound
    have hround : o.rules.foldlM o.applyRule { state with rounds := state.rounds + 1 } = .ok next :=
      hnext
    have hlevel : ∀ rule ∈ o.rules, rule ∈ Rule.forLevel level := fun rule hrule => hrules ▸ hrule
    have hkept : Kept total parameters g next.graph := by
      refine kept_of_rules hlevel ?_ ?_ hround
      · exact hstate
      · exact fun move hmove => hsound move (.inl hmove)
    split at h
    · cases h
      exact hkept
    · next hchanges =>
      rw [if_neg hchanges] at hsound
      exact ih hkept (fun move hmove => hsound move (.inr hmove)) h

/-- **Optimizing a graph preserves its results**, if all moves are sound. -/
theorem kept_of_run {result : Optimized} (hrules : o.rules = Rule.forLevel level) (hg : g.Numbered)
    (hsound : ∀ move ∈ o.moves g, Sound total move) (h : o.run g = .ok result) :
    g.Everywhere Wired ∧ Kept total parameters g result.graph := by
  simp only [run, bind_eq_ok_iff] at h
  obtain ⟨_, hvalid, start, hstart, h⟩ := h
  have hwired := wired_of_checkOpenWithin hg (checkOpenWithin_of_validateWithin hg hvalid)
  rw [moves, hstart] at hsound
  exact ⟨hwired, kept_of_runRounds hrules (kept_of_annotated hwired hstart) hsound h⟩

/-! ### Results -/

variable {level : Nat} {types : GraphTypes} {result : Optimized} {rows : Rows}

theorem evaluate_eq_ok (htypes : g.types = .ok types) {v : Nat → Stream} {sink : Nat} (hg : g.Wired)
    (hv : evaluation.Models g ⟨none, parameters⟩ v) (hsink : g.sink = some sink) :
    g.evaluate parameters = .ok (v sink).rows := by
  rw [evaluate, htypes, ok_bind]
  exact evaluateWith_of_models htypes hv hsink (hg.sink sink hsink)

/-- **An optimized graph has no other results than the graph itself**, on rows of the declared types
of its parameters, if no fold returns its only field, a tuple, alone, and every filter that is moved
keeps the rows of the sink. -/
theorem evaluate_of_run (hrules : o.rules = Rule.forLevel level) (hg : g.Numbered)
    (htypes : g.types = .ok types) (hplain : g.foldsPlainly types = true)
    (hinputs : g.admitsInputs parameters = true) (hrun : o.run g = .ok result)
    (hkeeps : ∀ move ∈ o.moves g, move.1.keeps move.2 = true)
    (hrows : result.graph.evaluate parameters = .ok rows) : g.evaluate parameters = .ok rows := by
  obtain ⟨hwired, hkept⟩ : g.Everywhere Wired ∧ Kept False parameters g result.graph :=
    kept_of_run hrules hg (fun move hmove => ⟨hkeeps move hmove, False.elim⟩) hrun
  obtain ⟨types', htypes'⟩ := hkept.typed
  rw [evaluate, htypes', Outcome.ok_bind] at hrows
  obtain ⟨v, sink', hv, hsink', -, hvalue⟩ := models_of_evaluateWith htypes' hrows
  obtain ⟨w, hw, hsinks⟩ := hkept.preserved.back types.type ⟨none, parameters⟩
    (models_soundly htypes hplain hinputs) ⟨rfl, rfl⟩ v hv
  rw [hsink', Option.map_some, hvalue, Option.map_eq_some_iff] at hsinks
  obtain ⟨sink, hsink, hw'⟩ := hsinks
  rw [evaluate_eq_ok htypes hwired.here hw hsink, hw']

/-- Whether the predicate of a move is one on the tuples of what feeds it, without divisions. -/
def divisionFree (g : Dag) (push : Push) : Bool :=
  !push.predicate.divides && (g.producer? push.below push.slot).all fun source =>
    (push.predicate.infer [(g.fieldsAt source).map Field.named]).toOption.any (·.isBool)

/-- A predicate without divisions decides wherever it is moved. -/
theorem decides_of_divisionFree {push : Push} (h : divisionFree g push = true) :
    g.decides push := by
  rw [divisionFree, Bool.and_eq_true, Bool.not_eq_true'] at h
  intro below p keys source _ _ _ hsource row hrow
  have hinfer := h.2
  rw [hsource, Option.all_some, Option.any_eq_true] at hinfer
  obtain ⟨type, htype, hbool⟩ := hinfer
  rw [FieldType.isBool, decide_eq_true_eq] at hbool
  exact exists_passes (hbool ▸ toOption_eq_some_iff.1 htype) h.1 hrow

/-- Tuples of a key and an amount. -/
def entryType : TupleType := [⟨"key", .atomic .int64⟩, ⟨"amount", .atomic .int64⟩]

/-- The keys of the entries of two tables that are joined, where the amount in the second one is
large: the filter can move before the projection and the join, and the projections can be fused
then. -/
def largeKeys : Dag where
  nodes := [⟨0, .primitive (.parameterLookup 0 none), {}⟩,
    ⟨1, .primitive (.parameterLookup 1 none), {}⟩, ⟨2, .primitive (.join 1), {}⟩,
    ⟨3, .primitive (.projection [2, 0]), {}⟩,
    ⟨4, .primitive (.filter (.binary .gt (.field 0 0) (.literal (.int 10)))), {}⟩,
    ⟨5, .primitive (.projection [1]), {}⟩]
  edges := [⟨0, 0, 2, 0⟩, ⟨1, 0, 2, 1⟩, ⟨2, 0, 3, 0⟩, ⟨3, 0, 4, 0⟩, ⟨4, 0, 5, 0⟩]
  sink := some 5
  nextId := 6

/-- The same inside a pipeline. -/
def largeKeysInside : Dag where
  nodes := [⟨0, .primitive (.parameterLookup 0 (some entryType)), {}⟩,
    ⟨1, .primitive (.parameterLookup 1 (some entryType)), {}⟩, ⟨2, .pipeline 2 largeKeys, {}⟩]
  edges := [⟨0, 0, 2, 0⟩, ⟨1, 0, 2, 1⟩]
  sink := some 2
  nextId := 3

/-- Two tables of two entries each. -/
def entries : List Rows :=
  [[[.int 1, .int 5], [.int 2, .int 6]], [[.int 1, .int 7], [.int 2, .int 20]]]

theorem numbered_largeKeysInside : largeKeysInside.Numbered :=
  everywhere_of_inner (by decide) (forall_mem_singleton.2 (everywhere_of_inner (by decide) nofun))

theorem types_largeKeysInside : ∃ types, largeKeysInside.types = .ok types ∧
    largeKeysInside.foldsPlainly types = true := by
  have hany : largeKeysInside.types.toOption.any largeKeysInside.foldsPlainly = true := by cbv
  obtain ⟨types, htypes, hplain⟩ := (Option.any_eq_true _ _).1 hany
  exact ⟨types, toOption_eq_some_iff.1 htypes, hplain⟩

theorem run_largeKeysInside : ((forLevel 2).run largeKeysInside >>= fun result =>
    result.graph.evaluate entries) = .ok [[.int 2]] := by
  cbv

theorem moves_largeKeysInside : ((forLevel 2).moves largeKeysInside).all
    (fun move => move.1.keeps move.2 && divisionFree move.1 move.2) = true := by
  cbv

/-- The optimized pipeline has the one key with a large amount, so the pipeline has it. -/
theorem largeKeysInside_evaluate : (do
      let result ← (forLevel 2).run largeKeysInside
      result.graph.evaluate entries) = .ok [[.int 2]] ∧
    largeKeysInside.evaluate entries = .ok [[.int 2]] := by
  obtain ⟨result, hrun, hrows⟩ := Outcome.bind_eq_ok_iff.1 run_largeKeysInside
  obtain ⟨types, htypes, hplain⟩ := types_largeKeysInside
  refine ⟨run_largeKeysInside,
    evaluate_of_run rfl numbered_largeKeysInside htypes hplain (by cbv)
    hrun (fun move hmove => ?_) hrows⟩
  exact (Bool.and_eq_true_iff.1 (List.all_eq_true.1 moves_largeKeysInside move hmove)).1

/-- A filter that nothing reads, behind the projection that is the sink. -/
def unreadFilter : Dag where
  nodes := [⟨0, .primitive (.range ⟨0, 4, 1⟩), {}⟩, ⟨1, .primitive (.projection [0]), {}⟩,
    ⟨2, .primitive (.filter (.binary .gt (.field 0 0) (.literal (.int 1)))), {}⟩]
  edges := [⟨0, 0, 1, 0⟩, ⟨1, 0, 2, 0⟩]
  sink := some 1
  nextId := 3

/-- The filter moves before the sink and takes rows from it. -/
theorem unreadFilter_evaluate_ne :
    unreadFilter.evaluate [] = .ok [[.int 0], [.int 1], [.int 2], [.int 3]] ∧
    (do
      let result ← (forLevel 1).run unreadFilter
      result.graph.evaluate []) = .ok [[.int 2], [.int 3]] :=
  ⟨by cbv, by cbv⟩

-- The second field of the pairs has the column of the right key, which is another field on the
-- right.
example :
    let g : Dag := {
      nodes := [⟨0, .primitive (.range ⟨0, 2, 1⟩), {}⟩, ⟨1, .primitive (.range ⟨0, 2, 1⟩), {}⟩,
        ⟨2, .primitive .cartesian, {}⟩, ⟨3, .primitive (.join 1), {}⟩,
        ⟨4, .primitive (.filter (.binary .gt (.field 0 1) (.literal (.int 0)))), {}⟩]
      edges := [⟨0, 0, 2, 0⟩, ⟨0, 0, 2, 1⟩, ⟨1, 0, 3, 0⟩, ⟨2, 0, 3, 1⟩, ⟨3, 0, 4, 0⟩]
      sink := some 4
      nextId := 5 }
    g.evaluate [] = .ok [[.int 0, .int 1], [.int 1, .int 1]] ∧
    ((forLevel 1).run g >>= fun result => result.graph.evaluate []) =
      .ok [[.int 1, .int 0], [.int 1, .int 1]] :=
  ⟨by cbv, by cbv⟩

/-- **An optimized graph has the results of the graph itself**, if every filter that is moved keeps
the rows of the sink and its predicate decides wherever it is moved. -/
theorem evaluate_run (hrules : o.rules = Rule.forLevel level) (hg : g.Numbered)
    (htypes : g.types = .ok types) (hplain : g.foldsPlainly types = true)
    (hinputs : g.admitsInputs parameters = true) (hrun : o.run g = .ok result)
    (hkeeps : ∀ move ∈ o.moves g, move.1.keeps move.2 = true)
    (hdecides : ∀ move ∈ o.moves g, move.1.decides move.2)
    (hrows : g.evaluate parameters = .ok rows) : result.graph.evaluate parameters = .ok rows := by
  obtain ⟨hwired, hkept⟩ : g.Everywhere Wired ∧ Kept True parameters g result.graph :=
    kept_of_run hrules hg (fun move hmove => ⟨hkeeps move hmove, fun _ => hdecides move hmove⟩) hrun
  obtain ⟨types', htypes'⟩ := hkept.typed
  rw [evaluate, htypes, Outcome.ok_bind] at hrows
  obtain ⟨v, sink, hv, hsink, -, hvalue⟩ := models_of_evaluateWith htypes hrows
  obtain ⟨w, hw, hsinks⟩ := hkept.preserved.forth trivial types.type ⟨none, parameters⟩
    (models_soundly htypes hplain hinputs) ⟨rfl, rfl⟩ v hv
  rw [hsink, Option.map_some, hvalue, Option.map_eq_some_iff] at hsinks
  obtain ⟨sink', hsink', hw'⟩ := hsinks
  rw [evaluate_eq_ok htypes' hkept.wired.here hw hsink', hw']

/-- The pipeline has the one key with a large amount, so the optimized pipeline has it. -/
theorem largeKeysInside_evaluate_run : largeKeysInside.evaluate entries = .ok [[.int 2]] ∧
    (do
      let result ← (forLevel 2).run largeKeysInside
      result.graph.evaluate entries) = .ok [[.int 2]] := by
  have hrows : largeKeysInside.evaluate entries = .ok [[.int 2]] := by cbv
  have hmoves : ∀ move ∈ (forLevel 2).moves largeKeysInside,
      move.1.keeps move.2 = true ∧ divisionFree move.1 move.2 = true :=
    fun move hmove => Bool.and_eq_true_iff.1 (List.all_eq_true.1 moves_largeKeysInside move hmove)
  obtain ⟨result, hrun, -⟩ := Outcome.bind_eq_ok_iff.1 run_largeKeysInside
  obtain ⟨types, htypes, hplain⟩ := types_largeKeysInside
  refine ⟨hrows, Outcome.bind_eq_ok_iff.2 ⟨result, hrun, ?_⟩⟩
  exact evaluate_run rfl numbered_largeKeysInside htypes hplain (by cbv) hrun
    (fun move hmove => (hmoves move hmove).1)
    (fun move hmove => decides_of_divisionFree (hmoves move hmove).2) hrows

/-- A filter of pairs by a quotient, where there are no pairs. -/
def quotientOfPairs : Dag where
  nodes := [⟨0, .primitive (.range ⟨0, 3, 1⟩), {}⟩, ⟨1, .primitive (.range ⟨0, 0, 1⟩), {}⟩,
    ⟨2, .primitive .cartesian, {}⟩,
    ⟨3, .primitive (.filter (.binary .gt (.binary .div (.literal (.int 10)) (.field 0 0))
    (.literal (.int 1)))), {}⟩]
  edges := [⟨0, 0, 2, 0⟩, ⟨1, 0, 2, 1⟩, ⟨2, 0, 3, 0⟩]
  sink := some 3
  nextId := 4

/-- The filter moves to the rows of the left side, one of which is a zero. -/
theorem quotientOfPairs_run_fails : quotientOfPairs.evaluate [] = .ok [] ∧
    ((forLevel 1).run quotientOfPairs).toOption.isSome = true ∧
    ((do
      let result ← (forLevel 1).run quotientOfPairs
      result.graph.evaluate []) : Outcome Rows).toOption = none :=
  ⟨by cbv, by cbv, by cbv⟩

end Optimizer

end Dataflow
