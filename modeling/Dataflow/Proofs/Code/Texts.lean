/-
**Texts of generated code.**

Generated text is put together from parts that meet at blanks and marks.  A name runs across no such
place, so where it stands in the text it stands in one of the parts.

Main results:

* `split_of_meets` — **what stands in two texts that meet stands in one of them**;
* `structName_injective` — the name of a struct tells its number.
-/

import Dataflow.Code.Struct
import Dataflow.Proofs.Number.Text
import Mathlib.Data.List.Basic

namespace Dataflow

open List Option String

/-! ### Words -/

/-- Whether a character can stand in the name of a variable. -/
def isWord (c : Char) : Bool := c.isAlphanum || c = '_'

/-- A text that can be the name of a variable. -/
def Word (text : String) : Prop := ∀ c ∈ text.toList, isWord c = true

instance : DecidablePred Word := fun text => decidableBAll (fun c => isWord c = true) text.toList

/-- A word that does not begin with a digit. -/
def Identifier (name : String) : Prop :=
  Word name ∧ name.toList.head?.any (fun c => !c.isDigit) = true

instance : DecidablePred Identifier := fun _ => inferInstanceAs (Decidable (_ ∧ _))

variable {s t : String}

theorem Word.append (hs : Word s) (ht : Word t) : Word (s ++ t) := by
  intro c hc
  rw [toList_append, mem_append] at hc
  exact hc.elim (hs c) (ht c)

theorem word_toString (n : Nat) : Word (toString n) := by
  intro c hc
  simp [isWord, Char.isAlphanum, Number.isDigit_of_mem_toString hc]

theorem word_structName (number : Nat) : Word (structName number) :=
  Word.append (by decide) (word_toString number)

theorem structName_ne_nil (number : Nat) : (structName number).toList ≠ [] := by
  rw [structName, toList_append]
  exact cons_ne_nil _ _

theorem structName_injective {m n : Nat} (h : structName m = structName n) : m = n :=
  Number.toString_nat_injective (String.append_right_inj _ |>.1 h)

/-! ### Parts of texts -/

theorem Text.hasPart_iff {part cs : List Char} : Text.hasPart part cs = true ↔ part <:+: cs := by
  induction cs with
  | nil => rw [Text.hasPart, List.isEmpty_iff, infix_nil]
  | cons c cs ih => rw [Text.hasPart, Bool.or_eq_true, isPrefixOf_iff_prefix, ih, infix_cons_iff]

section

variable {p : Char → Bool} {x y word before after : List Char}

/-- Two texts that no word runs across: the first ends, or the second begins, with a character that
no word has. -/
def Meets (p : Char → Bool) (x y : List Char) : Prop :=
  (∀ c, x.getLast? = some c → p c = false) ∨ ∀ c, y.head? = some c → p c = false

variable {c : Char}

theorem meets_of_last (h : x.getLast? = some c) (hc : p c = false) : Meets p x y := by
  refine .inl fun d hd => ?_
  rw [h, some.injEq] at hd
  rwa [← hd]

theorem meets_of_head (h : y.head? = some c) (hc : p c = false) : Meets p x y := by
  refine .inr fun d hd => ?_
  rw [h, some.injEq] at hd
  rwa [← hd]

/-! Texts that are written out are given by their characters, which are at hand, while reading them
off the text takes long. -/

theorem meets_literal_left (h : x.getLast?.map p = some false) :
    Meets p (ofList x).toList y := by
  obtain ⟨c, hlast, hc⟩ := map_eq_some_iff.1 h
  rw [toList_ofList]
  exact meets_of_last hlast hc

theorem meets_literal_right (h : y.head?.map p = some false) :
    Meets p x (ofList y).toList := by
  obtain ⟨c, hhead, hc⟩ := map_eq_some_iff.1 h
  rw [toList_ofList]
  exact meets_of_head hhead hc

theorem meets_left {s : String} (h : x.getLast?.map p = some false) :
    Meets p (s ++ ofList x).toList y := by
  obtain ⟨c, hlast, hc⟩ := map_eq_some_iff.1 h
  rw [toList_append, toList_ofList]
  refine meets_of_last ?_ hc
  rw [getLast?_append, hlast, some_or]

theorem not_infix_literal (h : Text.hasPart word x = false) :
    ¬word <:+: (ofList x).toList := by
  rw [toList_ofList, ← Text.hasPart_iff, h]
  exact Bool.false_ne_true

/-- **A word that stands in two texts that meet stands in one of them.** -/
theorem split_of_meets (hword : ∀ c ∈ word, p c = true) (hmeets : Meets p x y)
    (h : x ++ y = before ++ word ++ after) :
    (∃ rest, x = before ++ word ++ rest ∧ after = rest ++ y) ∨
      ∃ rest, y = rest ++ word ++ after ∧ before = x ++ rest := by
  rw [List.append_assoc] at h
  rcases append_eq_append_iff.1 h with ⟨rest, hbefore, hy⟩ | ⟨rest, hx, hafter⟩
  · exact .inr ⟨rest, by rw [hy, List.append_assoc], hbefore⟩
  rcases append_eq_append_iff.1 hafter with ⟨more, hrest, hafter⟩ | ⟨more, hsplit, hy⟩
  · exact .inl ⟨more, by rw [hx, hrest, List.append_assoc], hafter⟩
  -- The word starts in the first text and goes on in the second, unless it is in one of them.
  by_cases hnil : rest = []
  · subst hnil
    refine .inr ⟨[], ?_, by rw [hx, append_nil, append_nil]⟩
    rw [hy, hsplit, nil_append, nil_append]
  by_cases hmore : more = []
  · subst hmore
    refine .inl ⟨[], ?_, by rw [hy, nil_append, nil_append]⟩
    rw [hx, hsplit, append_nil, append_nil]
  exfalso
  rcases hmeets with hlast | hhead
  · have hmem : rest.getLast hnil ∈ word := by
      rw [hsplit]
      exact mem_append_left _ (getLast_mem hnil)
    have hend := hlast (rest.getLast hnil) (by
      rw [hx, getLast?_append_of_ne_nil _ hnil, getLast?_eq_some_getLast hnil])
    rw [hword _ hmem] at hend
    cases hend
  · have hmem : more.head hmore ∈ word := by
      rw [hsplit]
      exact mem_append_right _ (head_mem hmore)
    have hstart := hhead (more.head hmore) (by
      rw [hy, head?_append_of_ne_nil _ hmore, head?_eq_some_head hmore])
    rw [hword _ hmem] at hstart
    cases hstart

/-- What is a part of two texts that meet is a part of one of them. -/
theorem infix_of_meets (hword : ∀ c ∈ word, p c = true) (hmeets : Meets p x y)
    (h : word <:+: x ++ y) :
    word <:+: x ∨ word <:+: y := by
  obtain ⟨before, after, h⟩ := h
  rcases split_of_meets hword hmeets h.symm with ⟨rest, hx, -⟩ | ⟨rest, hy, -⟩
  · exact .inl ⟨before, rest, hx.symm⟩
  · exact .inr ⟨rest, after, hy.symm⟩

theorem not_infix_of_not_mem (hc : c ∈ word) (h : c ∉ x) : ¬word <:+: x :=
  fun hpart => h (hpart.subset hc)

end

end Dataflow
