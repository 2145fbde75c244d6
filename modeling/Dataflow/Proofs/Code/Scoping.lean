/-
**Scopes of generated programs.**

The statements of a program make every variable once, from variables made before, as emission keeps
them.  The lines at the end collect the value of one of them, which may be made for that: its name
is that of no operator.

Main definitions:

* `CodeUnit.WellScoped` — a program of such statements that ends by collecting the value of a
  variable.

Main results:

* `Graph.scoped_codeUnit` — what generation does;
* `Graph.wellScoped_of_program` — **generated programs are well scoped**.
-/

import Dataflow.Graph.Document
import Dataflow.Proofs.Code.Programs

namespace Dataflow

open List Option Outcome

variable {named : Prop}

/-- A program that makes every variable once and refers to variables made before.  It ends by
collecting the value of one of them. -/
structure CodeUnit.WellScoped (named : Prop) (u : CodeUnit) : Prop where
  ordered : Scoped named u.body
  driven : ∃ operators v, u.body = operators ++ Emission.driver v ∧ v ∈ introduced operators ∧
    ∀ text, .line text ∉ operators

namespace Emission

open FieldType

variable {e : Emitter}

/-- **The end of a program collects the value of a variable that was made.** -/
theorem ensures_finish_scoped (he : e.Consistent named) (sink : Nat) :
    Ensures (fun _ => True) (finish sink) e fun u _ => u.WellScoped named ∧
      e.unit.body <+: u.body := by
  refine (ensures_finish inherited_namedIf he.within (.inl fun _ => trivial)).mono (fun _ => id) ?_
  rintro u _ ⟨b, v, made, hb, -, -, hmade, hbody⟩
  have hknown : b.name ∈ introduced e.unit.body := by
    obtain ⟨s, hs, hget⟩ := bind_eq_some_iff.1 hb
    exact he.known s (mem_of_getLast? hs) _ (.inr ⟨sink, b, hget, rfl⟩)
  have hordered : Scoped named (e.unit.body ++ made) ∧ v ∈ introduced (e.unit.body ++ made) ∧
      ∀ text, .line text ∉ made := by
    cases hmade with
    | vector =>
      rw [append_nil]
      exact ⟨he.ordered, hknown, nofun⟩
    | call hcall =>
      have hfresh : "op_result" ∉ introduced e.unit.body := by
        intro hmem
        obtain ⟨path, -, hname⟩ := he.paths _ hmem
        exact variableAt_ne_result path hname.symm
      have hcalled := hcall.known "op_result" (forall_mem_singleton.2 hknown) he.paths
      obtain ⟨hordered, hintroduced⟩ :=
        he.ordered.define "materialize the result" rfl hcalled hfresh
      refine ⟨hordered, ?_, by simp⟩
      rw [hintroduced]
      exact mem_append_right _ mem_cons_self
  obtain ⟨hscoped, hv, hlines⟩ := hordered
  refine ⟨⟨?_, _, v, hbody, hv, fun text htext => ?_⟩, ?_⟩
  · rw [hbody]
    exact hscoped.append_idle (by simp [driver, Statement.Known, Statement.introduced?])
  · rcases mem_append.1 htext with htext | htext
    · exact he.unfinished text htext
    · exact hlines text htext
  · rw [hbody, List.append_assoc]
    exact prefix_append _ _

end Emission

namespace Graph

open FieldType

variable {g : Dag} {comments : Bool}

/-- **What generation does**: statements are well scoped, and among them the variables of all
operators are made by calls, but for those of look-ups. -/
theorem scoped_codeUnit {u : CodeUnit} (hg : g.Numbered)
    (hdeclares : g.Declares (NamedIf named <| .tuple ·)) (h : g.codeUnit comments = .ok u) :
    u.WellScoped named ∧ ∀ path, Emission.Makes named g [] path u.body := by
  obtain ⟨types, sink, events, e, e', -, htypes, -, htrace, hevents, hfinish⟩ := codeUnit_eq_ok h
  obtain ⟨-, hextends⟩ := (emits_start hg hdeclares htypes htrace comments).of_run hevents
  obtain ⟨hscoped, hkept⟩ :=
    (Emission.ensures_finish_scoped hextends.consistent sink).of_run hfinish
  refine ⟨hscoped, fun path p hp => ?_⟩
  cases path with
  | nil => cases hp
  | cons id path => exact (hextends.made id (mem_ids_of_operatorAt? hp) path).mono hkept p hp

/-- **Generated programs are well scoped**: no variable is made twice, at whatever levels the
operators are; every variable is made from variables made before; and the lines at the end collect
the value of one of them.  If the names that outer look-ups declare are identifiers, no other
variable stands in a call, and the functions in it refer to no parameters but their own. -/
theorem wellScoped_of_program {program : Program} (hg : g.Numbered)
    (h : g.program comments = .ok program) :
    ∃ u : CodeUnit, g.codeUnit comments = .ok u ∧ program = ⟨u.source, u.header⟩ ∧
      u.WellScoped (g.Declares TupleType.Identified) := by
  obtain ⟨u, hunit, hprogram⟩ := Outcome.bind_eq_ok_iff.1 h
  refine ⟨u, hunit, (Except.ok.inj hprogram).symm, (scoped_codeUnit hg ?_ hunit).1⟩
  intro id node n t hnode hkind s hs name hname hnamed
  exact hnamed id node n t hnode hkind s hs name hname

/-- Pairs of keys above one, made in a pipeline inside a pipeline, with the same numbers at all
levels. -/
def nestedPairs : Dag where
  nodes := [⟨0, .primitive (.parameterLookup 0 (some [⟨"key", .atomic .int64⟩])),
    {}⟩, ⟨1, .pipeline 1 {
      nodes := [⟨0, .primitive (.parameterLookup 0 none), {}⟩, ⟨1, .pipeline 1 {
          nodes := [⟨0, .primitive (.parameterLookup 0 none), {}⟩,
            ⟨1, .primitive (.filter (.binary .gt (.field 0 0) (.literal (.int 1)))), {}⟩,
            ⟨2, .primitive .cartesian, {}⟩]
          edges := [⟨0, 0, 1, 0⟩, ⟨1, 0, 2, 0⟩, ⟨1, 0, 2, 1⟩]
          sink := some 2
          nextId := 3 }, {}⟩]
      edges := [⟨0, 0, 1, 0⟩]
      sink := some 1
      nextId := 2 }, {}⟩]
  edges := [⟨0, 0, 1, 0⟩]
  sink := some 1
  nextId := 2

/-- The result is no row vector, so the program also materializes it. -/
theorem nestedPairs_wellScoped :
    nestedPairs.Numbered ∧ ∃ program, nestedPairs.program true = .ok program ∧
    ∃ u : CodeUnit, nestedPairs.codeUnit true = .ok u ∧ program = ⟨u.source, u.header⟩ ∧
      nestedPairs.Declares TupleType.Identified ∧
      u.WellScoped (nestedPairs.Declares TupleType.Identified) := by
  have hg : nestedPairs.Numbered := isNumbered_iff.1 (by cbv)
  have hvalid : nestedPairs.validate = .ok () := by cbv
  obtain ⟨types, htypes⟩ : ∃ types, nestedPairs.types = .ok types := ⟨_, by cbv⟩
  obtain ⟨events, htrace, hnone⟩ : ∃ events, nestedPairs.trace .forward = .ok events ∧
      events.find? Event.entersPartition = none := ⟨_, by cbv, by cbv⟩
  obtain ⟨program, hprogram⟩ := exists_program hg hvalid htypes htrace true hnone
  have hnamed : nestedPairs.Declares TupleType.Identified := by
    intro id node n t hnode hkind
    have hmem := mem_of_node? hnode
    simp only [nestedPairs, mem_cons, not_mem_nil, or_false] at hmem
    rcases hmem with rfl | rfl
    · cases hkind
      decide
    · cases hkind
  obtain ⟨u, hunit, hu, hscoped⟩ := wellScoped_of_program hg hprogram
  exact ⟨hg, program, hprogram, u, hunit, hu, hnamed, hscoped⟩

/-- A look-up of a field whose name holds the address of a variable, of which numbers are taken and
then passed on. -/
def addressField : Dag where
  nodes := [⟨0, .primitive (.parameterLookup 0 (some [⟨"x, &op_2", .atomic .int64⟩])), {}⟩,
    ⟨1, .primitive (.filter (.binary .gt (.field 0 0) (.literal (.int 1)))), {}⟩,
    ⟨2, .primitive (.map (.tuple [.field 0 0])), {}⟩]
  edges := [⟨0, 0, 1, 0⟩, ⟨1, 0, 2, 0⟩]
  sink := some 2
  nextId := 3

/-- Such a look-up is written to a document and read from it, and valid.  In its program the name is
read as the address of a variable that is made only afterwards. -/
theorem addressField_not_scoped :
    (∃ document, addressField.toJson = .ok document ∧
      ofJson .standard document = .ok addressField) ∧
    addressField.validate = .ok () ∧ ∃ u done value rest, addressField.codeUnit true = .ok u ∧
      u.body = done ++ .declare "op_1" value :: rest ∧ "op_2" ∈ variablesIn value ∧
      "op_2" ∉ introduced done ∧ value = "makeFilterOperator<tuple_0>(&op_0, " ++
        "[](const tuple_0 &a0) \x7b return (a0.x, &op_2 > 1L); \x7d)" := by
  have hvalid : addressField.validate = .ok () := by cbv
  have htypes : addressField.types = .ok ⟨[(0, [⟨"x, &op_2", .atomic .int64⟩]),
      (1, [⟨"x, &op_2", .atomic .int64⟩]), (2, [⟨"v0", .atomic .int64⟩])], []⟩ := by cbv
  have htrace : addressField.trace .forward = .ok (addressField.nodes.flatMap fun node =>
      [⟨.enter, node, addressField⟩, ⟨.exit, node, addressField⟩]) := by cbv
  have hmapped : (addressField.codeUnit true).toOption.map (·.body.take 4) = some ([
      .comment "parameter_lookup_0", .declare "op_0"
        "makeParameterLookupOperator<tuple_0>(input_0, input_0_size)", .comment "filter_1"] ++
      [.declare "op_1" ("makeFilterOperator<tuple_0>(&op_0, " ++
        "[](const tuple_0 &a0) \x7b return (a0.x, &op_2 > 1L); \x7d)")]) := by
    rw [codeUnit_of_trace hvalid htypes rfl htrace]
    decide +kernel
  obtain ⟨u, hunit, hbody⟩ := map_eq_some_iff.1 hmapped
  have hsplit := take_append_drop 4 u.body
  rw [hbody, List.append_assoc] at hsplit
  exact ⟨⟨_, by cbv, by cbv⟩, hvalid, u, _, _, _, Outcome.toOption_eq_some_iff.1 hunit, hsplit.symm,
    by decide +kernel, by decide +kernel, rfl⟩

end Graph

end Dataflow
