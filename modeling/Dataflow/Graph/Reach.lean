/-
**Reachability.**
-/

import Dataflow.Graph.Basic

namespace Dataflow.Graph

def targetsOf (edges : List Edge) (id : Nat) : List Nat :=
  (edges.filter (·.source == id)).map (·.target)

def dropSource (edges : List Edge) (id : Nat) : List Edge :=
  edges.filter (·.source != id)

theorem dropSource_cases (edges : List Edge) (id : Nat) :
    (dropSource edges id).length < edges.length ∨
      dropSource edges id = edges ∧ targetsOf edges id = [] := by
  by_cases h : ∃ e ∈ edges, e.source = id
  · obtain ⟨e, he, hs⟩ := h
    exact .inl (List.length_filter_lt_length_iff_exists.2 ⟨e, he, by simp [hs]⟩)
  · refine .inr ⟨List.filter_eq_self.2 fun e he => ?_, ?_⟩
    · simpa using fun hs => h ⟨e, he, hs⟩
    · simpa [targetsOf, List.filter_eq_nil_iff] using h

/-- Whether the goal is among the waiting nodes or can be reached from one of them.  The edges that
leave a node are used up when it is looked at, so none is followed twice. -/
def searches (goal : Nat) (edges : List Edge) (waiting : List Nat) : Bool :=
  match waiting with
  | [] => false
  | id :: rest =>
    id == goal || searches goal (dropSource edges id) (targetsOf edges id ++ rest)
termination_by (edges.length, waiting.length)
decreasing_by
  rcases dropSource_cases edges id with h | ⟨hd, ht⟩
  · exact Prod.Lex.left _ _ h
  · rw [hd, ht]
    exact Prod.Lex.right _ (by simp)

/-- Whether a node can be reached from another along zero or more edges. -/
def reaches {κ : Type} (g : Graph κ) (source goal : Nat) : Bool :=
  searches goal g.edges [source]

end Dataflow.Graph
