/-
**What becomes of an emission.**

An emission reads and changes the emitter, or fails.  What holds after it is shown together with
which failures there may be: any at all if nothing is known of the graph, and none if the operator
has a type and its producers have variables.  Writing an expression never fails if it has a type.

Main definitions:

* `Writes` — writing that never fails;
* `Emission.Ensures` — what holds of the result and the emitter, or of the failure;
* `Emission.Allows` — an outcome that fails only if any failure may come.

Main results:

* `Expr.writes_code` — every expression that has a type is written as code;
* `Emission.Ensures.bind` — one emission after another.
-/

import Dataflow.Code.Emission
import Dataflow.Proofs.Columns

namespace Dataflow

open List Outcome

/-! ### Expressions -/

theorem TupleType.exists_of_type? {t : TupleType} {index : Nat} {type : FieldType}
    (h : t.type? index = some type) : ∃ named, t[index]? = some named := by
  obtain ⟨named, hnamed, -⟩ := Option.map_eq_some_iff.1 h
  exact ⟨named, hnamed⟩

/-- Writing that never fails, whatever structs were declared. -/
def Writes {α : Type} (m : StateT StructTable (Except Failure) α) : Prop :=
  ∀ structs, ∃ written, m.run structs = .ok written

namespace Writes

variable {α β : Type} {m : StateT StructTable (Except Failure) α}

theorem pure (a : α) : Writes (Pure.pure a) := fun structs => ⟨(a, structs), rfl⟩

theorem bind {f : α → StateT StructTable (Except Failure) β} (hm : Writes m)
    (hf : ∀ a, Writes (f a)) :
    Writes (m >>= f) := by
  intro structs
  obtain ⟨⟨a, structs'⟩, hrun⟩ := hm structs
  obtain ⟨written, hwritten⟩ := hf a structs'
  refine ⟨written, ?_⟩
  rw [StateT.run_bind, hrun]
  exact hwritten

theorem of_eq_ok {x : Outcome α} {a : α} (h : x = .ok a) :
    Writes (liftM x : StateT StructTable (Except Failure) α) := by
  subst h
  exact fun structs => ⟨(a, structs), rfl⟩

end Writes

namespace Expr

variable {args : List TupleType}

mutual

/-- **Every expression that has a type is written as code.** -/
theorem writes_code {type : FieldType} : ∀ {e : Expr}, e.infer args = .ok type →
      Writes (e.code args)
  | field arg index, h => by
    rw [infer, ofOption_eq_ok_iff, Option.bind_eq_some_iff] at h
    obtain ⟨fields, hfields, htype⟩ := h
    obtain ⟨named, hnamed⟩ := TupleType.exists_of_type? htype
    rw [code, hfields, Option.bind_some, hnamed]
    exact (Writes.of_eq_ok rfl).bind fun _ => .pure _
  | literal value, _ => .pure _
  | binary op left right, h => by
    simp only [infer, bind_eq_ok_iff] at h
    obtain ⟨l, hl, r, hr, -⟩ := h
    rw [code]
    exact (writes_code hl).bind fun _ => (writes_code hr).bind fun _ => .pure _
  | unary op operand, h => by
    simp only [infer, bind_eq_ok_iff] at h
    obtain ⟨t, ht, -⟩ := h
    rw [code]
    exact (writes_code ht).bind fun _ => .pure _
  | tuple items, h => by
    simp only [infer, bind_eq_ok_iff] at h
    obtain ⟨types, htypes, -⟩ := h
    rw [code]
    refine (Writes.of_eq_ok htypes).bind fun _ => (writes_codeAll htypes).bind fun _ => ?_
    exact fun structs => ⟨_, rfl⟩

theorem writes_codeAll {types : List FieldType} : ∀ {items : List Expr},
    inferAll args items = .ok types → Writes (codeAll args items)
  | [], _ => .pure _
  | e :: rest, h => by
    simp only [inferAll, bind_eq_ok_iff] at h
    obtain ⟨t, ht, ts, hts, -⟩ := h
    rw [codeAll]
    exact (writes_code ht).bind fun _ => (writes_codeAll hts).bind fun _ => .pure _

end

theorem infer_select {input t : TupleType} {positions : List Nat}
    (h : input.select positions = .ok t) :
    ∃ type, (tuple (positions.map (field 0))).infer [input] = .ok type := by
  obtain ⟨types, htypes, -⟩ := select_eq_ok_iff.1 h
  have hall : inferAll [input] (positions.map (field 0)) = .ok types := by
    clear h
    induction htypes with
    | nil => rfl
    | cons hp _ ih =>
      have hfield : (field 0 _).infer [input] = .ok _ := ofOption_eq_ok_iff.2 hp
      rw [map_cons, inferAll, hfield, ih]
      rfl
  exact ⟨_, by rw [infer, hall]; rfl⟩

end Expr

/-! ### Emissions -/

namespace Emission

variable {α β : Type} {m : Emission α} {f : α → Emission β} {e e' : Emitter} {a : α}
  {x : Outcome α} {F G : Failure → Prop} {Q Q' : α → Emitter → Prop} {R : β → Emitter → Prop}

/-- What holds after an emission: of the result and the emitter, or of the failure. -/
def Ensures (F : Failure → Prop) (m : Emission α) (e : Emitter) (Q : α → Emitter → Prop) : Prop :=
  match m.run.run e with
  | (.ok a, e') => Q a e'
  | (.error failure, _) => F failure

/-- An outcome that fails only if any failure may come. -/
def Allows (F : Failure → Prop) (x : Outcome α) : Prop := (∀ failure, F failure) ∨ ∃ a, x = .ok a

theorem run_bind (m : Emission α) (f : α → Emission β) (e : Emitter) :
    (m >>= f).run.run e = match m.run.run e with
      | (.ok a, e') => (f a).run.run e'
      | (.error failure, e') => (.error failure, e') := by
  rw [ExceptT.run_bind, StateT.run_bind]
  rcases m.run.run e with ⟨_ | _, _⟩ <;> rfl

theorem Ensures.of_run (h : Ensures F m e Q) (hrun : m.run.run e = (.ok a, e')) : Q a e' := by
  rwa [Ensures, hrun] at h

theorem Ensures.mono (h : Ensures F m e Q) (hF : ∀ failure, F failure → G failure)
    (hQ : ∀ a e', Q a e' → Q' a e') : Ensures G m e Q' := by
  revert h
  unfold Ensures
  rcases m.run.run e with ⟨failure | a, e'⟩
  · exact hF failure
  · exact hQ a e'

theorem Ensures.pure (h : Q a e) : Ensures F (Pure.pure a) e Q := h

theorem Ensures.bind (hm : Ensures F m e Q) (hf : ∀ a e', Q a e' → Ensures F (f a) e' R) :
    Ensures F (m >>= f) e R := by
  unfold Ensures at hm
  rw [Ensures, run_bind]
  rcases hrun : m.run.run e with ⟨failure | a, e'⟩
  · rwa [hrun] at hm
  · rw [hrun] at hm
    exact hf a e' hm

theorem ensures_lift (hx : Allows F x) :
    Ensures F (Outcome.lift x) e fun a e' => x = .ok a ∧ e = e' := by
  cases x with
  | error failure =>
    rcases hx with hF | ⟨a, ha⟩
    · exact hF failure
    · cases ha
  | ok a => exact ⟨rfl, rfl⟩

theorem Ensures.lift_bind (hx : Allows F x) (hf : ∀ a, x = .ok a → Ensures F (f a) e R) :
    Ensures F (Outcome.lift x >>= f) e R :=
  (ensures_lift hx).bind fun a _ ⟨ha, he⟩ => he ▸ hf a ha

theorem Ensures.get_bind {f : Emitter → Emission β} (hf : Ensures F (f e) e R) :
    Ensures F (get >>= f) e R := hf

theorem Ensures.scope_bind {f : Scope → Emission β} (hx : (∀ failure, F failure) ∨ e.scopes ≠ [])
    (hf : ∀ s rest, e.scopes = s :: rest → Ensures F (f s) e R) : Ensures F (scope >>= f) e R := by
  refine .get_bind (.lift_bind (hx.imp_right fun hne => ?_) fun s hs => ?_)
  · exact ⟨e.scopes.head hne, by rw [head?_eq_some_head hne]; rfl⟩
  · obtain ⟨rest, hrest⟩ := head?_eq_some_iff.1 (ofOption_eq_ok_iff.1 hs)
    exact hf s rest hrest

end Emission

end Dataflow
