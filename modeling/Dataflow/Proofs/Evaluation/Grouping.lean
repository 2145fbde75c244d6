/-
**Rows by key.**

Rows are added to groups one after the other, and every row changes the group of its key only.  So
it makes no difference how the rows of different keys are mixed: the groups are those that the rows
of each key make alone. This holds for any step that adds a row to its group, also if it can fail.

Main results:

* `classes_induction` — induction along the classes of the rows;
* `Groups.fill_cons_eq_ok_iff` — one group and the groups behind it do not affect each other;
* `Groups.collect_eq_ok_iff` — **one pass over all rows gathers every class alone**;
* `Groups.collect_eq_error_iff` — and fails exactly if one of them does.
-/

import Dataflow.Evaluation.Group
import Dataflow.Proofs.Outcome
import Dataflow.Proofs.Value.Storage

namespace Dataflow

open List

/-! ### Classes -/

section Classes

variable {κ ρ : Type} [DecidableEq κ]

/-- The items of a list without their repetitions, in the order of their first appearance. -/
def firsts (xs : List κ) : List κ := xs.eraseDups

theorem firsts_cons (x : κ) (xs : List κ) : firsts (x :: xs) = x :: firsts (xs.filter (· ≠ x)) := by
  rw [firsts, eraseDups_cons, firsts]
  congr 3
  funext y
  by_cases hxy : y = x <;> simp [hxy]

@[simp] theorem mem_firsts {x : κ} {xs : List κ} : x ∈ firsts xs ↔ x ∈ xs := mem_eraseDups

/-- The rows of each key, keys in the order of their first appearance. -/
def classes (key : ρ → κ) (rows : List ρ) : List (List ρ) :=
  (firsts (rows.map key)).map fun k => rows.filter (key · = k)

variable {key : ρ → κ} {rows : List ρ}

/-- What is true of no rows, and of rows whenever it is true of those that do not have the key of
the first, is true of all rows. -/
theorem classes_induction (key : ρ → κ) {P : List ρ → Prop} (nil : P [])
    (cons : ∀ row rows, P (rows.filter (key · ≠ key row)) → P (row :: rows)) : ∀ rows, P rows
  | [] => nil
  | row :: rows => cons row rows (classes_induction key nil cons (rows.filter (key · ≠ key row)))
termination_by rows => rows.length
decreasing_by
  have := length_filter_le (key · ≠ key row) rows
  simp only [length_cons]
  omega

theorem nodup_firsts (xs : List κ) : (firsts xs).Nodup := by
  induction xs using classes_induction (id : κ → κ) with
  | nil => exact .nil
  | cons x xs ih =>
    rw [firsts_cons, nodup_cons]
    exact ⟨by simp, ih⟩

/-- The rows with the key of the first row are its class, and the other classes are those of the
others. -/
theorem classes_cons (row : ρ) (rows : List ρ) : classes key (row :: rows) =
    (row :: rows.filter (key · = key row)) :: classes key (rows.filter (key · ≠ key row)) := by
  have hkeys : (rows.map key).filter (· ≠ key row) = (rows.filter (key · ≠ key row)).map key := by
    rw [List.filter_map]
    rfl
  rw [classes, map_cons, firsts_cons, map_cons, hkeys, filter_cons_of_pos (by simp), classes]
  congr 1
  refine map_congr_left fun k hk => ?_
  have hne : k ≠ key row := by
    rw [mem_firsts, ← hkeys] at hk
    simpa using (mem_filter.1 hk).2
  rw [filter_cons_of_neg (by simpa using hne.symm), List.filter_filter]
  refine filter_congr fun other _ => ?_
  by_cases hother : key other = k <;> simp [hother, hne]

/-- Of the rows with a key that appears there is a first one. -/
theorem filter_of_mem_firsts {k : κ} (hk : k ∈ firsts (rows.map key)) : ∃ first rest,
    rows.filter (key · = k) = first :: rest ∧ ∀ row ∈ first :: rest, row ∈ rows ∧ key row = k := by
  obtain ⟨row, hrow, rfl⟩ := List.mem_map.1 (mem_firsts.1 hk)
  have hmem : row ∈ rows.filter (key · = key row) := mem_filter.2 ⟨hrow, by simp⟩
  obtain ⟨first, rest, hclass⟩ := exists_cons_of_ne_nil (ne_nil_of_mem hmem)
  refine ⟨first, rest, hclass, fun other hother => ?_⟩
  rw [← hclass, mem_filter] at hother
  simpa using hother

/-- A class has a first row, and its rows have the key of the first. -/
theorem exists_of_mem_classes {cls : List ρ} (h : cls ∈ classes key rows) : ∃ first rest,
    cls = first :: rest ∧ ∀ row ∈ first :: rest, row ∈ rows ∧ key row = key first := by
  obtain ⟨k, hk, rfl⟩ := List.mem_map.1 h
  obtain ⟨first, rest, hclass, hall⟩ := filter_of_mem_firsts hk
  rw [← (hall first mem_cons_self).2] at hall
  exact ⟨first, rest, hclass, hall⟩

theorem classes_of_mem_classes {cls : List ρ} (h : cls ∈ classes key rows) :
    classes key cls = [cls] := by
  obtain ⟨first, rest, rfl, hall⟩ := exists_of_mem_classes h
  have hkey : ∀ other ∈ rest, key other = key first :=
    fun other hother => (hall other (mem_cons_of_mem _ hother)).2
  have hsame : rest.filter (key · = key first) = rest :=
    filter_eq_self.2 fun other hother => by simp [hkey other hother]
  have hnone : rest.filter (key · ≠ key first) = [] :=
    filter_eq_nil_iff.2 fun other hother => by simp [hkey other hother]
  rw [classes_cons, hsame, hnone]
  rfl

end Classes

/-! ### Groups -/

section Groups

variable {α β κ ρ : Type} [DecidableEq κ]

theorem forall₂_congr_mem {R S : α → β → Prop} {xs : List α} {ys : List β}
    (h : ∀ x ∈ xs, ∀ y, R x y ↔ S x y) : Forall₂ R xs ys ↔ Forall₂ S xs ys :=
  ⟨forall₂_imp_mem fun x hx y => (h x hx y).1, forall₂_imp_mem fun x hx y => (h x hx y).2⟩

theorem exists_forall₂_iff {R : α → β → Prop} {xs : List α} :
    (∃ ys, Forall₂ R xs ys) ↔ ∀ x ∈ xs, ∃ y, R x y := by
  induction xs with
  | nil => simp
  | cons x xs ih =>
    rw [forall_mem_cons, ← ih]
    constructor
    · rintro ⟨_, hys⟩
      cases hys with
      | cons hy hys => exact ⟨⟨_, hy⟩, _, hys⟩
    · rintro ⟨⟨y, hy⟩, ys, hys⟩
      exact ⟨y :: ys, .cons hy hys⟩

/-- What the rows of one key come to: the first one starts a group, the others are added to it, and
one row is made of the group. -/
def gather (step : ρ → Option α → Outcome α) (finish : α → β) : List ρ → Outcome (List β)
  | [] => return []
  | first :: rest => do
    return [finish (← rest.foldlM (fun a row => step row (some a)) (← step first none))]

namespace Groups

/-- Groups with some rows more, each of which changes the group of its key. -/
def fill (key : ρ → String) (step : ρ → Option α → Outcome α) (groups : Groups α) (rows : List ρ) :
    Outcome (Groups α) :=
  rows.foldlM (fun groups row => groups.update (key row) (step row)) groups

/-- What the rows of all keys come to, gone through in one pass: one row is made of each group. -/
def collect (key : ρ → String) (step : ρ → Option α → Outcome α) (finish : α → β)
    (rows : List ρ) : Outcome (List β) :=
  return (← fill key step [] rows).map fun group => finish group.2

variable {key : ρ → String} {step : ρ → Option α → Outcome α} {finish : α → β}

/-- **One group and the groups behind it do not affect each other.**  The rows of its key go to the
group, in their order, and all others go behind it. -/
theorem fill_cons_eq_ok_iff {k : String} {a : α} {groups out : Groups α} {rows : List ρ} :
    fill key step ((k, a) :: groups) rows = .ok out ↔ ∃ b rest,
      (rows.filter (key · = k)).foldlM (fun a row => step row (some a)) a = .ok b ∧
      fill key step groups (rows.filter (key · ≠ k)) = .ok rest ∧ out = (k, b) :: rest := by
  induction rows generalizing a groups with
  | nil => simp [fill, eq_comm]
  | cons row rows ih =>
    rw [fill, foldlM_cons, update]
    by_cases hk : k = key row
    · subst hk
      rw [if_pos rfl, filter_cons_of_pos (by simp), filter_cons_of_neg (by simp), foldlM_cons]
      cases hstep : step row (some a) with
      | error failure => simp
      | ok b => exact ih
    · rw [if_neg hk, filter_cons_of_neg (by simpa using Ne.symm hk),
        filter_cons_of_pos (by simpa using Ne.symm hk), fill, foldlM_cons]
      cases hupdate : groups.update (key row) (step row) with
      | error failure => simp
      | ok changed => exact ih

/-- The first row starts a group, to which the rows of its key are added. -/
theorem collect_cons_eq_ok_iff {row : ρ} {rows : List ρ} {out : List β} :
    collect key step finish (row :: rows) = .ok out ↔ ∃ made rest,
      gather step finish (row :: rows.filter (key · = key row)) = .ok [made] ∧
      collect key step finish (rows.filter (key · ≠ key row)) = .ok rest ∧ out = made :: rest := by
  have hfill : fill key step [] (row :: rows) = step row none >>= fun a =>
      fill key step [(key row, a)] rows := by
    rw [fill, foldlM_cons, update]
    cases step row none <;> rfl
  simp only [collect, hfill, gather, Outcome.bind_eq_ok_iff, fill_cons_eq_ok_iff,
    Outcome.pure_eq_ok, Except.ok.injEq, cons.injEq, and_true]
  constructor
  · rintro ⟨_, ⟨a, ha, b, groups, hb, hgroups, rfl⟩, rfl⟩
    exact ⟨finish b, groups.map fun group => finish group.2, ⟨a, ha, b, hb, rfl⟩,
      ⟨groups, hgroups, rfl⟩, rfl⟩
  · rintro ⟨_, _, ⟨a, ha, b, hb, rfl⟩, ⟨groups, hgroups, rfl⟩, rfl⟩
    exact ⟨_, ⟨a, ha, b, groups, hb, hgroups, rfl⟩, rfl⟩

variable {ident : ρ → κ} {rows : List ρ}

/-- **One pass over all rows gathers every class alone**, if the texts of keys tell the classes
apart. -/
theorem collect_eq_ok_iff (hkey : ∀ r ∈ rows, ∀ s ∈ rows, key r = key s ↔
      ident r = ident s) {out : List β} :
    collect key step finish rows = .ok out ↔
      Forall₂ (fun cls made => gather step finish cls = .ok [made]) (classes ident rows) out := by
  -- Along the classes: the first row opens the first class, and what is left are the rows of the
  -- other keys.
  induction rows using classes_induction ident generalizing out with
  | nil =>
    have hcollect : collect key step finish ([] : List ρ) = .ok [] := rfl
    have hclasses : classes ident ([] : List ρ) = [] := rfl
    rw [hcollect, hclasses, forall₂_nil_left_iff, Except.ok.injEq, eq_comm]
  | cons row rows ih =>
    have hrow : ∀ s ∈ rows, key s = key row ↔ ident s = ident row := fun s hs =>
      hkey s (mem_cons_of_mem _ hs) row mem_cons_self
    have hsame : rows.filter (key · = key row) = rows.filter (ident · = ident row) :=
      filter_congr fun s hs => decide_eq_decide.2 (hrow s hs)
    have hother : rows.filter (key · ≠ key row) = rows.filter (ident · ≠ ident row) :=
      filter_congr fun s hs => decide_eq_decide.2 (not_congr (hrow s hs))
    have ih := fun rest => @ih (fun r hr s hs => hkey r (mem_cons_of_mem _ (mem_of_mem_filter hr)) s
      (mem_cons_of_mem _ (mem_of_mem_filter hs))) rest
    rw [collect_cons_eq_ok_iff, classes_cons, hsame, hother, forall₂_cons_left_iff]
    simp only [ih]

/-- **One pass over all rows makes of every class what one pass over the class makes of it.** -/
theorem collect_eq_ok_iff_classes (hkey : ∀ r ∈ rows, ∀ s ∈ rows, key r = key s ↔ ident r = ident s)
    {out : List β} : collect key step finish rows = .ok out ↔
      Forall₂ (fun cls made => collect key step finish cls = .ok [made])
    (classes ident rows) out := by
  have hclass : ∀ cls ∈ classes ident rows, ∀ made,
      collect key step finish cls = .ok [made] ↔ gather step finish cls = .ok [made] := by
    intro cls hcls made
    have hsingle := classes_of_mem_classes hcls
    obtain ⟨first, rest, rfl, hall⟩ := exists_of_mem_classes hcls
    rw [collect_eq_ok_iff fun r hr s hs => hkey r (hall r hr).1 s (hall s hs).1,
      hsingle, forall₂_cons, forall₂_nil_left_iff]
    simp
  rw [collect_eq_ok_iff hkey, forall₂_congr_mem hclass]

/-- The rows of a class come to one group, unless they fail. -/
theorem gather_of_mem_classes {cls : List ρ} (h : cls ∈ classes ident rows) :
    (∃ made, gather step finish cls = .ok [made]) ∨
      ∃ failure, gather step finish cls = .error failure := by
  obtain ⟨first, rest, rfl, -⟩ := exists_of_mem_classes h
  rw [gather]
  cases step first none with
  | error failure => exact .inr ⟨failure, rfl⟩
  | ok a =>
    cases hrest : rest.foldlM (fun a row => step row (some a)) a with
    | error failure => exact .inr ⟨failure, by simp [hrest]⟩
    | ok b => exact .inl ⟨finish b, by simp [hrest]⟩

/-- **One pass over all rows fails exactly if gathering one of the classes does.** -/
theorem collect_eq_error_iff (hkey : ∀ r ∈ rows, ∀ s ∈ rows, key r = key s ↔ ident r = ident s) :
    (∃ failure, collect key step finish rows = .error failure) ↔
      ∃ cls ∈ classes ident rows, ∃ failure, gather step finish cls = .error failure := by
  have hok : (∃ out, collect key step finish rows = .ok out) ↔
      ∀ cls ∈ classes ident rows, ∃ made, gather step finish cls = .ok [made] := by
    rw [← exists_forall₂_iff]
    exact exists_congr fun out => collect_eq_ok_iff hkey
  constructor
  · rintro ⟨failure, hfailure⟩
    by_contra hnone
    obtain ⟨out, hout⟩ := hok.2 fun cls hcls =>
      (gather_of_mem_classes hcls).resolve_right fun hfails => hnone ⟨cls, hcls, hfails⟩
    rw [hfailure] at hout
    cases hout
  · rintro ⟨cls, hcls, failure, hfailure⟩
    cases hcollect : collect key step finish rows with
    | error failure => exact ⟨failure, rfl⟩
    | ok out =>
      obtain ⟨made, hmade⟩ := hok.1 ⟨out, hcollect⟩ cls hcls
      rw [hfailure] at hmade
      cases hmade

end Groups

end Groups

end Dataflow
