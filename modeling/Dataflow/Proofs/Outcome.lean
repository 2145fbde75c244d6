/-
**Outcomes along lists.**

Rows, fields and operators are gone through one after the other, and the first failure ends the
walk. This module says what the success of such a walk means for the single items, so that later
proofs never open the walk itself.

Main results:

* `mapM_eq_ok_iff` — a map succeeds if it succeeds on every item, with the results in order;
* `filterM_eq_ok_iff` — a filter succeeds if every item is decided, and keeps the items that
  were decided for;
* `filterM_map` — filtering images is filtering what they are images of, failures included;
* `foldlM_ok_induction` — what every step of a fold preserves, the fold preserves;
* `Outcome.FailsOnly.bind`, `Outcome.FailsOnly.mapM` — steps that fail in one way only make up a
  walk that does.
-/

import Dataflow.Failure
import Mathlib.Data.List.Forall2

namespace Dataflow.Outcome

open List Outcome

variable {α β γ ε : Type} {xs l : List α} {ys : List β} {b y : β}
  {f : α → Outcome β} {x : Outcome α} {p q : α → Outcome Bool} {failure : Failure}

/-! ### Single steps -/

@[simp] theorem pure_eq_ok (a : α) : (pure a : Outcome α) = .ok a := rfl

@[simp] theorem throw_eq_error (e : Failure) : (throw e : Outcome α) = .error e := rfl

@[simp] theorem ok_bind (a : α) (f : α → Outcome β) : ((.ok a : Outcome α) >>= f) = f a := rfl

@[simp] theorem error_bind (e : Failure) (f : α → Outcome β) :
    ((.error e : Outcome α) >>= f) = .error e := rfl

theorem map_eq_ok_iff {f : α → β} {b : β} : f <$> x = .ok b ↔ ∃ a, x = .ok a ∧ f a = b := by
  cases x with
  | error | ok => simp [Functor.map, Except.map]

@[simp] theorem mapError_eq_ok_iff {ε' : Type} {f : ε → ε'} {x : Except ε α} {a : α} :
    x.mapError f = .ok a ↔ x = .ok a := by
  cases x <;> simp [Except.mapError]

theorem toOption_eq_some_iff {a : α} : x.toOption = some a ↔ x = .ok a := by
  cases x <;> simp [Except.toOption]

theorem guard_eq_ok_iff {c : Prop} [Decidable c] {e : Failure} {x : Outcome β} :
    (if c then (throw e : Outcome α) >>= f else x) = .ok b ↔ ¬c ∧ x = .ok b := by
  by_cases hc : c <;> simp [hc]

/-! ### Maps -/

/-- A map along a list succeeds if it succeeds on every item; its results are theirs, in order. -/
theorem mapM_eq_ok_iff : xs.mapM f = .ok ys ↔ Forall₂ (fun x y => f x = .ok y) xs ys := by
  induction xs generalizing ys with
  | nil =>
    simp only [mapM_nil, pure_eq_ok, Except.ok.injEq, forall₂_nil_left_iff]
    exact eq_comm
  | cons x xs ih =>
    simp only [mapM_cons, bind_eq_ok_iff, pure_eq_ok, Except.ok.injEq]
    constructor
    · rintro ⟨y, hy, zs, hzs, rfl⟩
      exact Forall₂.cons hy (ih.1 hzs)
    · intro h
      cases h with
      | cons hy hys => exact ⟨_, hy, _, ih.2 hys, rfl⟩

/-- What was mapped to a place of the results is at the same place of the list. -/
theorem getElem?_of_mapM (h : xs.mapM f = .ok ys) {i : Nat} (hy : ys[i]? = some y) : ∃ x,
    xs[i]? = some x ∧ f x = .ok y := by
  rw [mapM_eq_ok_iff] at h
  induction h generalizing i with
  | nil => simp at hy
  | @cons x z xs zs hz _ ih =>
    cases i with
    | zero =>
      rw [getElem?_cons_zero, Option.some_inj] at hy
      exact ⟨x, rfl, hy ▸ hz⟩
    | succ i => exact ih hy

theorem mem_of_mapM (h : xs.mapM f = .ok ys) (hy : y ∈ ys) : ∃ x ∈ xs, f x = .ok y := by
  obtain ⟨i, hi⟩ := mem_iff_getElem?.1 hy
  obtain ⟨x, hx, hfx⟩ := getElem?_of_mapM h hi
  exact ⟨x, mem_iff_getElem?.2 ⟨i, hx⟩, hfx⟩

theorem mem_mapM_of_mem (h : xs.mapM f = .ok ys) {x : α} (hx : x ∈ xs) : ∃ y ∈ ys, f x = .ok y := by
  rw [mapM_eq_ok_iff] at h
  induction h with
  | nil => cases hx
  | @cons z y xs ys hy _ ih =>
    rcases mem_cons.1 hx with rfl | hx
    · exact ⟨y, mem_cons_self, hy⟩
    · obtain ⟨w, hw, hxw⟩ := ih hx
      exact ⟨w, mem_cons_of_mem _ hw, hxw⟩

theorem mapM_ok {g : α → β} (h : ∀ x ∈ xs, f x = .ok (g x)) : xs.mapM f = .ok (xs.map g) := by
  rw [mapM_eq_ok_iff, forall₂_map_right_iff, forall₂_same]
  exact h

theorem exists_mapM (h : ∀ x ∈ xs, ∃ y, f x = .ok y) : ∃ ys, xs.mapM f = .ok ys := by
  induction xs with
  | nil => exact ⟨[], rfl⟩
  | cons x xs ih =>
    obtain ⟨y, hy⟩ := h x mem_cons_self
    obtain ⟨ys, hys⟩ := ih fun x hx => h x (mem_cons_of_mem _ hx)
    exact ⟨y :: ys, by rw [mapM_cons, hy, ok_bind, hys]; rfl⟩

/-- A map along a list fails as it does on one of the items. -/
theorem mem_of_mapM_eq_error (h : xs.mapM f = .error failure) : ∃ x ∈ xs, f x = .error failure := by
  induction xs with
  | nil => cases h
  | cons x xs ih =>
    cases hx : f x with
    | error _ =>
      rw [mapM_cons, hx, error_bind] at h
      cases h
      exact ⟨x, mem_cons_self, hx⟩
    | ok y =>
      rw [mapM_cons, hx, ok_bind] at h
      cases hxs : xs.mapM f with
      | ok ys =>
        rw [hxs] at h
        cases h
      | error _ =>
        rw [hxs, error_bind] at h
        cases h
        obtain ⟨z, hz, hfz⟩ := ih hxs
        exact ⟨z, mem_cons_of_mem x hz, hfz⟩

theorem forM_eq_ok_iff {f : α → Outcome PUnit} :
    xs.forM f = .ok PUnit.unit ↔ ∀ x ∈ xs, f x = .ok PUnit.unit := by
  induction xs with
  | nil => simp
  | cons x xs ih =>
    rw [List.forM, bind_eq_ok_iff, forall_mem_cons, ih]
    exact ⟨fun ⟨_, hx, hxs⟩ => ⟨hx, hxs⟩, fun ⟨hx, hxs⟩ => ⟨_, hx, hxs⟩⟩

/-! ### Filters -/

/-- Whether a check succeeded and said yes. -/
def holds : Outcome Bool → Bool
  | .ok b => b
  | .error _ => false

@[simp] theorem holds_ok (b : Bool) : holds (.ok b) = b := rfl

theorem filterAuxM_eq_ok_iff {acc ys : List α} : xs.filterAuxM p acc = .ok ys ↔
      (∀ x ∈ xs, ∃ b, p x = .ok b) ∧ ys = (xs.filter fun x => (p x).holds).reverse ++ acc := by
  induction xs generalizing acc with
  | nil => simp [filterAuxM, eq_comm]
  | cons x xs ih =>
    simp only [filterAuxM, bind_eq_ok_iff, ih, forall_mem_cons]
    constructor
    · rintro ⟨b, hb, hxs, rfl⟩
      cases b <;> exact ⟨⟨⟨_, hb⟩, hxs⟩, by simp [hb]⟩
    · rintro ⟨⟨⟨b, hb⟩, hxs⟩, rfl⟩
      cases b <;> exact ⟨_, hb, hxs, by simp [hb]⟩

/-- A filter along a list succeeds if every item is decided; it keeps those that were decided
for. -/
theorem filterM_eq_ok_iff {ys : List α} : xs.filterM p = .ok ys ↔
      (∀ x ∈ xs, ∃ b, p x = .ok b) ∧ ys = xs.filter fun x => (p x).holds := by
  simp only [List.filterM, bind_eq_ok_iff, filterAuxM_eq_ok_iff, pure_eq_ok, Except.ok.injEq]
  constructor
  · rintro ⟨zs, ⟨hxs, rfl⟩, rfl⟩
    exact ⟨hxs, by simp⟩
  · rintro ⟨hxs, rfl⟩
    exact ⟨_, ⟨hxs, rfl⟩, by simp⟩

theorem filterAuxM_map {p : β → Outcome Bool} {f : α → β} (h : ∀ x ∈ xs, p (f x) = q x)
    (acc : List α) : (xs.map f).filterAuxM p (acc.map f) = List.map f <$> xs.filterAuxM q acc := by
  induction xs generalizing acc with
  | nil => rfl
  | cons x xs ih =>
    simp only [map_cons, filterAuxM, h x mem_cons_self]
    have ih := ih fun x hx => h x (mem_cons_of_mem _ hx)
    cases q x with
    | error failure => rfl
    | ok b => cases b with
      | true => exact ih (x :: acc)
      | false => exact ih acc

/-- A filter of images is a filter of what they are images of, if it decides in the same way,
failures included. -/
theorem filterM_map {p : β → Outcome Bool} {f : α → β}
    (h : ∀ x ∈ xs, p (f x) = q x) : (xs.map f).filterM p = List.map f <$> xs.filterM q := by
  have haux := filterAuxM_map h []
  rw [map_nil] at haux
  rw [List.filterM, List.filterM, haux]
  cases xs.filterAuxM q [] with
  | error failure => rfl
  | ok ys => exact congrArg Except.ok map_reverse.symm

/-! ### Folds -/

/-- **What every step of a fold preserves, the fold preserves, and a fold fails as a step does.**  A
step may use what was visited before. -/
theorem foldlM_induction {P : List α → β → Prop} {E : ε → Prop} {f : β → α → Except ε β}
    (step : ∀ done x rest b, xs = done ++ x :: rest → P done b →
      (∀ c, f b x = .ok c → P (done ++ [x]) c) ∧ ∀ e, f b x = .error e → E e) (hb : P [] b) :
    (∀ c, xs.foldlM f b = .ok c → P xs c) ∧ ∀ e, xs.foldlM f b = .error e → E e := by
  -- By induction on what is left of the list, with what was visited as the part before it.
  have hrun : ∀ rest done b, xs = done ++ rest → P done b →
      (∀ c, rest.foldlM f b = .ok c → P xs c) ∧ ∀ e, rest.foldlM f b = .error e → E e := by
    intro rest
    induction rest with
    | nil =>
      intro done b hsplit hdone
      rw [append_nil] at hsplit
      refine ⟨fun c hc => ?_, nofun⟩
      cases hc
      exact hsplit ▸ hdone
    | cons x rest ih =>
      intro done b hsplit hdone
      obtain ⟨hnext, hfails⟩ := step done x rest b hsplit hdone
      rw [foldlM_cons]
      cases hx : f b x with
      | error e =>
        refine ⟨nofun, fun e' he => ?_⟩
        cases he
        exact hfails e hx
      | ok c => exact ih (done ++ [x]) c (by rw [hsplit, List.append_assoc]; rfl) (hnext c hx)
  exact hrun xs [] b rfl hb

theorem foldlM_ok_induction {P : β → Prop} {f : β → α → Except ε β} {b c : β}
    (step : ∀ b x c, x ∈ xs → P b → f b x = .ok c → P c) (hb : P b) (h : xs.foldlM f b = .ok c) :
    P c :=
  (foldlM_induction (P := fun _ => P) (E := fun _ => True) (fun _ x _ b hsplit hb =>
    ⟨fun c hc => step b x c (by simp [hsplit]) hb hc, fun _ _ => trivial⟩) hb).1 c h

theorem foldlM_congr {f g : β → α → Outcome β} (h : ∀ x ∈ xs, ∀ b, f b x = g b x) (b : β) :
    xs.foldlM f b = xs.foldlM g b := by
  induction xs generalizing b with
  | nil => rfl
  | cons x xs ih =>
    rw [forall_mem_cons] at h
    rw [foldlM_cons, foldlM_cons, h.1]
    exact bind_congr (ih h.2)

/-- **Folds whose steps keep their results related** have related results, or fail alike.  A step
may use what was visited before. -/
theorem foldlM_together {R : List α → β → γ → Prop} {f : β → α → Outcome β}
    {k : γ → α → Outcome γ} {c : γ} (step : ∀ done x rest b c, l = done ++ x :: rest → R done b c →
      (∀ b', f b x = .ok b' → ∃ c', k c x = .ok c' ∧ R (done ++ [x]) b' c') ∧
        ∀ e, f b x = .error e → k c x = .error e) (h : R [] b c) :
    (∀ b', l.foldlM f b = .ok b' → ∃ c', l.foldlM k c = .ok c' ∧ R l b' c') ∧
      ∀ e, l.foldlM f b = .error e → l.foldlM k c = .error e := by
  refine foldlM_induction (P := fun done b => ∃ c', done.foldlM k c = .ok c' ∧ R done b c')
    (E := fun e => l.foldlM k c = .error e) ?_ ⟨c, rfl, h⟩
  rintro done x rest b rfl ⟨c', hc', hR⟩
  obtain ⟨hok, herror⟩ := step done x rest b c' rfl hR
  refine ⟨fun b' hb' => ?_, fun e he => ?_⟩
  · obtain ⟨c'', hc'', hR'⟩ := hok b' hb'
    exact ⟨c'', by rw [foldlM_append, hc', ok_bind, foldlM_cons, hc'']; rfl, hR'⟩
  · rw [foldlM_append, hc', ok_bind, foldlM_cons, herror e he]
    rfl

/-! ### Ways to fail -/

/-- An outcome that is no failure, or a failure with a property. -/
def FailsOnly (P : Failure → Prop) (x : Outcome α) : Prop :=
  ∀ failure, x = .error failure → P failure

namespace FailsOnly

variable {P Q : Failure → Prop}

theorem ok (a : α) : FailsOnly P (.ok a) := nofun

theorem error (h : P failure) : FailsOnly P (.error failure : Outcome α) := by
  rintro _ ⟨⟩
  exact h

theorem imp (hx : x.FailsOnly P) (h : ∀ failure, P failure → Q failure) :
    x.FailsOnly Q :=
  fun failure hfailure => h failure (hx failure hfailure)

theorem bind (hx : x.FailsOnly P) (hf : ∀ a, x = .ok a → (f a).FailsOnly P) :
    (x >>= f).FailsOnly P := by
  cases x with
  | error failure => exact error (hx failure rfl)
  | ok a => exact hf a rfl

theorem ite {c : Prop} [Decidable c] {x y : Outcome α} (hx : x.FailsOnly P) (hy : y.FailsOnly P) :
    FailsOnly P (if c then x else y) := by
  split
  · exact hx
  · exact hy

theorem mapM (h : ∀ x ∈ xs, (f x).FailsOnly P) : (xs.mapM f).FailsOnly P := by
  induction xs with
  | nil => exact ok []
  | cons x xs ih =>
    rw [mapM_cons]
    refine (h x mem_cons_self).bind fun y _ => ?_
    exact (ih fun x hx => h x (mem_cons_of_mem _ hx)).bind fun ys _ => ok _

end FailsOnly

end Dataflow.Outcome
