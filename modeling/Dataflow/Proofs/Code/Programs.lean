/-
**Which graphs have programs.**

Nothing but a partition stops emission, and if nothing does, the program is brought to its end: the
sink is one of the operators that have variables then.

Main results:

* `Graph.program_of_trace` — a program, or a refusal of the first partition that is entered;
* `Graph.program_iff_no_partition` — **a graph has a program exactly if no operator at any level is
  a partition**, and else the first partition of the traversal is refused.
-/

import Dataflow.Proofs.Code.Levels
import Dataflow.Proofs.Graph.Checks

namespace Dataflow.Graph

open List

variable {g : Dag} {types : GraphTypes} {events : List Event}

section

variable (hg : g.Numbered) (hvalid : g.validate = .ok ()) (htypes : g.types = .ok types)
  (htrace : g.trace .forward = .ok events) (comments : Bool)
include hg hvalid htypes htrace

/-- **The first partition that is entered is refused**; if there is none, there is a program. -/
theorem program_of_trace :
    (events.find? Event.entersPartition = none ∧ ∃ program, g.program comments = .ok program) ∨
    ∃ event, events.find? Event.entersPartition = some event ∧
      g.program comments = .error (.unsupportedOperator event.node.id "partition") := by
  have hchecked := (validateWithin_eq_ok_iff hg).1 hvalid
  obtain ⟨sink, hsink⟩ := Option.isSome_iff_exists.1 hchecked.sink
  have hemission : Emission.Ensures (Emission.Refuses events)
      (do events.forM Emission.visit; Emission.finish sink) (Emitter.start types comments)
      fun _ _ => events.find? Event.entersPartition = none := by
    refine (emits_start hg g.declares_unnamed htypes htrace comments).bind fun _ e ⟨hnone, he⟩ => ?_
    obtain ⟨bindings, hscopes, hbinds⟩ := he.scopes
    obtain ⟨b, hb, -⟩ := hbinds sink (.inl (hchecked.wired.sink sink hsink))
    refine (Emission.ensures_finish FieldType.inherited_namedIf he.consistent.within
      (.inr ⟨b, ?_⟩)).mono (fun _ => id) fun _ _ _ => hnone
    rw [Emitter.binding?, hscopes]
    exact hb
  have hunit := codeUnit_of_trace hvalid htypes hsink htrace comments
  unfold Emission.Ensures at hemission
  rcases hrun : (do events.forM Emission.visit; Emission.finish sink : Emission CodeUnit).run.run
    (Emitter.start types comments) with ⟨failure | u, e⟩
  · rw [hrun] at hunit hemission
    obtain ⟨event, hevent, rfl⟩ := hemission
    exact .inr ⟨event, hevent, by rw [program, hunit]; rfl⟩
  · rw [hrun] at hunit hemission
    exact .inl ⟨hemission, ⟨u.source, u.header⟩, by rw [program, hunit]; rfl⟩

theorem exists_program (hnone : events.find? Event.entersPartition = none) :
    ∃ program, g.program comments = .ok program := by
  rcases program_of_trace hg hvalid htypes htrace comments with ⟨-, hprogram⟩ | ⟨event, hevent, -⟩
  · exact hprogram
  · cases hnone.symm.trans hevent

end

/-- **A graph has a program exactly if no operator at any level is a partition.**  Else the first
partition that the recursive traversal enters is refused. -/
theorem program_iff_no_partition (hg : g.Numbered) (hvalid : g.validate = .ok ())
    (htypes : g.types = .ok types) (comments : Bool) :
    ((∃ program, g.program comments = .ok program) ↔
      g.Everywhere fun h => ∀ id node, h.node? id = some node → node.kind.tag ≠ .partition) ∧
    ∀ failure, g.program comments = .error failure → ∃ events event, g.trace .forward = .ok events ∧
      events.find? Event.entersPartition = some event ∧
      failure = .unsupportedOperator event.node.id "partition" := by
  obtain ⟨events, htrace⟩ := exists_trace hg htypes
  have hentered : events.find? Event.entersPartition = none ↔
      ∀ event ∈ events, event.phase = .enter → event.node.kind.tag ≠ .partition := by
    simp [find?_eq_none, Event.entersPartition]
  rw [forall_entered_iff (P := fun node => node.kind.tag ≠ .partition) hg htrace] at hentered
  rw [← hentered]
  rcases program_of_trace hg hvalid htypes htrace comments with
    ⟨hnone, program, hprogram⟩ | ⟨event, hfirst, hrefused⟩
  · refine ⟨iff_of_true ⟨program, hprogram⟩ hnone, fun failure hfailure => ?_⟩
    cases hprogram.symm.trans hfailure
  · refine ⟨iff_of_false ?_ (hfirst ▸ Option.some_ne_none event), fun failure hfailure => ?_⟩
    · rintro ⟨program, hprogram⟩
      cases hrefused.symm.trans hprogram
    · exact ⟨events, event, htrace, hfirst, Except.error.inj (hfailure.symm.trans hrefused)⟩

/-- Numbers that are put into buckets twice, first by operator 7 of a pipeline's graph and then
outside. -/
def nestedBuckets : Dag where
  nodes := [⟨0, .primitive (.range ⟨0, 10, 1⟩), {}⟩,
    ⟨1, .primitive (.partition 2 0), {}⟩, ⟨4, .pipeline 1 {
      nodes := [⟨5, .primitive (.parameterLookup 0 none), {}⟩, ⟨7, .primitive (.partition 3 0), {}⟩]
      edges := [⟨5, 0, 7, 0⟩]
      sink := some 7
      nextId := 8 }, {}⟩]
  edges := [⟨0, 0, 4, 0⟩, ⟨4, 0, 1, 0⟩]
  sink := some 1
  nextId := 5

/-- The buckets inside the pipeline come first, although the partition outside has the lower
number. -/
theorem nestedBuckets_program : nestedBuckets.validate = .ok () ∧
    (((∃ program, nestedBuckets.program true = .ok program) ↔
      nestedBuckets.Everywhere fun h => ∀ id node, h.node? id = some node →
      node.kind.tag ≠ .partition) ∧
    ∀ failure, nestedBuckets.program true = .error failure → ∃ events event,
      nestedBuckets.trace .forward = .ok events ∧ events.find? Event.entersPartition = some event ∧
      failure = .unsupportedOperator event.node.id "partition") ∧
    nestedBuckets.program true = .error (.unsupportedOperator 7 "partition") := by
  have hg : nestedBuckets.Numbered := isNumbered_iff.1 (by cbv)
  have hvalid : nestedBuckets.validate = .ok () := by cbv
  obtain ⟨types, htypes⟩ : ∃ types, nestedBuckets.types = .ok types := ⟨_, by cbv⟩
  obtain ⟨events, event, htrace, hfirst, hid⟩ :
    ∃ events event, nestedBuckets.trace .forward = .ok events ∧
      events.find? Event.entersPartition = some event ∧ event.node.id = 7 :=
    ⟨_, _, by cbv, by cbv, rfl⟩
  refine ⟨hvalid, program_iff_no_partition hg hvalid htypes true, ?_⟩
  rcases program_of_trace hg hvalid htypes htrace true with ⟨hnone, -⟩ | ⟨event', hfirst', hrefused⟩
  · cases hnone.symm.trans hfirst
  · cases hfirst.symm.trans hfirst'
    rw [hrefused, hid]

end Dataflow.Graph
