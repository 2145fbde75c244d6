/-
**Sets of numbers.**
-/

namespace Dataflow

/-- A set of numbers, ascending. -/
abbrev NatSet := List Nat

namespace NatSet

def insert (n : Nat) : NatSet → NatSet
  | [] => [n]
  | k :: rest => if n < k then n :: k :: rest else if n = k then k :: rest else k :: insert n rest

def ofList (ns : List Nat) : NatSet :=
  ns.foldl (fun set n => insert n set) []

@[simp] theorem mem_insert (n m : Nat) (s : NatSet) : m ∈ insert n s ↔ m = n ∨ m ∈ s := by
  induction s with
  | nil => simp [insert]
  | cons k rest ih =>
    unfold insert
    split
    · simp
    · split
      · next h => subst h; simp
      · simp only [List.mem_cons, ih]; grind

theorem mem_foldl_insert (ns : List Nat) (m : Nat) (s : NatSet) :
    m ∈ ns.foldl (fun set n => insert n set) s ↔ m ∈ ns ∨ m ∈ s := by
  induction ns generalizing s with
  | nil => simp
  | cons n ns ih => simp only [List.foldl_cons, ih, mem_insert, List.mem_cons]; grind

@[simp] theorem mem_ofList (ns : List Nat) (m : Nat) : m ∈ ofList ns ↔ m ∈ ns := by
  simp [ofList, mem_foldl_insert]

theorem pairwise_insert {s : NatSet} (h : s.Pairwise (· < ·)) (n : Nat) :
    (insert n s).Pairwise (· < ·) := by
  induction s with
  | nil => simp [insert]
  | cons k rest ih =>
    rw [List.pairwise_cons] at h
    unfold insert
    split
    · next hn => exact List.pairwise_cons.2 ⟨by grind, List.pairwise_cons.2 h⟩
    · split
      · exact List.pairwise_cons.2 h
      · next hn hk =>
        refine List.pairwise_cons.2 ⟨fun m hm => ?_, ih h.2⟩
        rcases (mem_insert n m rest).1 hm with rfl | hm
        · omega
        · exact h.1 m hm

theorem perm_insert {n : Nat} {s : NatSet} (h : n ∉ s) : (insert n s).Perm (n :: s) := by
  induction s with
  | nil => exact .refl _
  | cons k rest ih =>
    rw [List.mem_cons, not_or] at h
    unfold insert
    split
    · exact .refl _
    · rw [if_neg h.1]
      exact ((ih h.2).cons k).trans (.swap n k rest)

theorem pairwise_foldl_insert (ns : List Nat) {s : NatSet} (h : s.Pairwise (· < ·)) :
    (ns.foldl (fun set n => insert n set) s).Pairwise (· < ·) := by
  induction ns generalizing s with
  | nil => exact h
  | cons n ns ih => exact ih (pairwise_insert h n)

theorem pairwise_ofList (ns : List Nat) : (ofList ns).Pairwise (· < ·) :=
  pairwise_foldl_insert ns .nil

end NatSet

end Dataflow
