/-
**Tables.**

A table gives a value to some numbers.  Its entries are in ascending order of their numbers, so two
tables that were filled in different orders are equal if they hold the same entries.

Main results:

* `Table.get?_put` — what is found after an update.
-/

namespace Dataflow

/-- The values of some numbers, the numbers ascending. -/
abbrev Table (α : Type) := List (Nat × α)

namespace Table

variable {α : Type}

def get? : Table α → Nat → Option α
  | [], _ => none
  | (k, a) :: rest, n => if k = n then some a else get? rest n

/-- Gives a number its value, over an earlier one. -/
def put (n : Nat) (a : α) : Table α → Table α
  | [] => [(n, a)]
  | (k, b) :: rest =>
    if n < k then (n, a) :: (k, b) :: rest
    else if n = k then (n, a) :: rest
    else (k, b) :: put n a rest

@[simp] theorem get?_nil (n : Nat) : get? ([] : Table α) n = none := rfl

@[simp] theorem get?_cons (k n : Nat) (a : α) (rest : Table α) :
    get? ((k, a) :: rest) n = if k = n then some a else get? rest n := rfl

/-- After an update the number has its new value, and all others have what they had. -/
theorem get?_put (t : Table α) (n m : Nat) (a : α) :
    (put n a t).get? m = if n = m then some a else t.get? m := by
  induction t with
  | nil => simp [put]
  | cons e rest ih =>
    obtain ⟨k, b⟩ := e
    unfold put
    split
    · simp
    · split
      · next h => subst h; simp only [get?_cons]; split <;> rfl
      · next h => simp only [get?_cons, ih]; split <;> split <;> simp_all

@[simp] theorem get?_put_self (t : Table α) (n : Nat) (a : α) : (put n a t).get? n = some a := by
  simp [get?_put]

theorem get?_map (t : Table α) {β : Type} (f : α → β) (n : Nat) :
    get? (t.map fun e => (e.1, f e.2)) n = (t.get? n).map f := by
  induction t with
  | nil => rfl
  | cons e rest ih =>
    obtain ⟨k, a⟩ := e
    simp only [List.map_cons, get?_cons, ih]
    split <;> rfl

end Table

end Dataflow
