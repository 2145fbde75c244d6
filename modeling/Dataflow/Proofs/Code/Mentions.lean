/-
**Where texts refer to structs.**

A name that stands in a text that is put together from parts stands in one of the parts.  A spelled
type refers to the structs that are noted with it and to no others, and so do the members of a
struct, if the names of the fields do not refer to structs themselves.

Main results:

* `refers_append` — a text refers to what its parts refer to;
* `TypeText.refers_iff`, `MembersText.refers_iff` — **spelled types and members refer to what they
  need**.
-/

import Dataflow.Proofs.Code.Structs
import Dataflow.Proofs.Code.Texts

namespace Dataflow

open List FieldType

/-! ### Names of structs -/

/-- The texts around a name that do not continue it. -/
def Apart (before after : List Char) : Prop :=
  (∀ c, before.getLast? = some c → isWord c = false) ∧ ∀ c, after.head? = some c → isWord c = false

/-- A text in which the name of a struct stands. -/
def Refers (text : String) (number : Nat) : Prop :=
  ∃ before after, text.toList = before ++ (structName number).toList ++ after ∧ Apart before after

variable {s t text members word : String} {n number : Nat} {needs : List Nat}

/-- The first text of two that meet at a name ends where the name ends only if the second does not
continue it. -/
theorem apart_append_right {before rest y : List Char}
    (hmeets : Meets isWord (before ++ (structName n).toList ++ rest) y) (h : Apart before rest) :
    Apart before (rest ++ y) := by
  refine ⟨h.1, fun c hc => ?_⟩
  cases rest with
  | cons d rest => exact h.2 c hc
  | nil =>
    rcases hmeets with hlast | hhead
    · have hend := hlast ((structName n).toList.getLast (structName_ne_nil n)) (by
        rw [append_nil, getLast?_append_of_ne_nil _ (structName_ne_nil n),
          getLast?_eq_some_getLast (structName_ne_nil n)])
      rw [word_structName n _ (getLast_mem _)] at hend
      cases hend
    · exact hhead c hc

theorem apart_append_left {x rest after : List Char}
    (hmeets : Meets isWord x (rest ++ (structName n).toList ++ after)) (h : Apart rest after) :
    Apart (x ++ rest) after := by
  refine ⟨fun c hc => ?_, h.2⟩
  by_cases hrest : rest = []
  · subst hrest
    rw [append_nil] at hc
    rcases hmeets with hlast | hhead
    · exact hlast c hc
    · have hstart := hhead ((structName n).toList.head (structName_ne_nil n)) (by
        rw [nil_append, head?_append_of_ne_nil _ (structName_ne_nil n),
          head?_eq_some_head (structName_ne_nil n)])
      rw [word_structName n _ (head_mem _)] at hstart
      cases hstart
  · rw [getLast?_append_of_ne_nil _ hrest] at hc
    exact h.1 c hc

/-- A name that stands apart in two texts that meet stands apart in one of them. -/
theorem apart_of_split {x y before after : List Char} (hmeets : Meets isWord x y)
    (hapart : Apart before after) (h : x ++ y = before ++ (structName n).toList ++ after) :
    (∃ rest, x = before ++ (structName n).toList ++ rest ∧ after = rest ++ y ∧ Apart before rest) ∨
      ∃ rest, y = rest ++ (structName n).toList ++ after ∧ before = x ++ rest ∧
      Apart rest after := by
  rcases split_of_meets (word_structName n) hmeets h with ⟨rest, hx, rfl⟩ | ⟨rest, hy, rfl⟩
  · refine .inl ⟨rest, hx, rfl, hapart.1, fun c hc => hapart.2 c ?_⟩
    rw [head?_append, hc, Option.some_or]
  · refine .inr ⟨rest, hy, rfl, fun c hc => hapart.1 c ?_, hapart.2⟩
    rw [getLast?_append, hc, Option.some_or]

/-- **A text refers to what its parts refer to.** -/
theorem refers_append (hmeets : Meets isWord s.toList t.toList) :
    Refers (s ++ t) n ↔ Refers s n ∨ Refers t n := by
  constructor
  · rintro ⟨before, after, h, hapart⟩
    rw [String.toList_append] at h
    rcases apart_of_split hmeets hapart h with ⟨rest, hs, -, hrest⟩ | ⟨rest, ht, -, hrest⟩
    · exact .inl ⟨before, rest, hs, hrest⟩
    · exact .inr ⟨rest, after, ht, hrest⟩
  · rintro (⟨before, after, h, hapart⟩ | ⟨before, after, h, hapart⟩)
    · rw [h] at hmeets
      refine ⟨before, after ++ t.toList, ?_, apart_append_right hmeets hapart⟩
      rw [String.toList_append, h, List.append_assoc]
    · rw [h] at hmeets
      refine ⟨s.toList ++ before, after, ?_, apart_append_left hmeets hapart⟩
      rw [String.toList_append, h, List.append_assoc, List.append_assoc, List.append_assoc]

theorem not_refers (h : ¬"tuple_".toList <:+: text.toList) : ¬Refers text n := by
  rintro ⟨before, after, htext, -⟩
  refine h ⟨before, (toString n).toList ++ after, ?_⟩
  rw [htext, structName, String.toList_append]
  simp only [List.append_assoc]

/-- In a word stands no name apart but the word itself. -/
theorem eq_of_apart {before after : List Char} (hword : Word word) (hapart : Apart before after)
    (h : word.toList = before ++ (structName n).toList ++ after) :
    before = [] ∧ after = [] ∧ word = structName n := by
  have hall : ∀ c ∈ before ++ (structName n).toList ++ after, isWord c = true :=
    fun c hc => hword c (h ▸ hc)
  have hbefore : before = [] := by
    rcases eq_nil_or_concat' before with hnil | ⟨init, c, rfl⟩
    · exact hnil
    · have hc := hapart.1 c getLast?_concat
      rw [hall c (by simp)] at hc
      cases hc
  have hafter : after = [] := by
    cases after with
    | nil => rfl
    | cons c after =>
      have hc := hapart.2 c rfl
      rw [hall c (by simp)] at hc
      cases hc
  rw [hbefore, hafter, nil_append, append_nil] at h
  exact ⟨hbefore, hafter, String.toList_inj.1 h⟩

theorem refers_word (hword : Word word) : Refers word n ↔ word = structName n := by
  constructor
  · rintro ⟨before, after, h, hapart⟩
    exact (eq_of_apart hword hapart h).2.2
  · rintro rfl
    exact ⟨[], [], by simp, nofun, nofun⟩

theorem refers_structName : Refers (structName number) n ↔ n = number := by
  rw [refers_word (word_structName number)]
  exact ⟨fun h => (structName_injective h).symm, fun h => h ▸ rfl⟩

/-! ### Spelled types -/

theorem TypeText.refers_iff (h : TypeText text needs) : Refers text n ↔ n ∈ needs := by
  induction h with
  | atomic kind =>
    have hfree : ¬"tuple_".toList <:+: kind.cType.toList := by
      cases kind <;> exact not_infix_literal rfl
    exact iff_of_false (not_refers hfree) not_mem_nil
  | struct number => rw [refers_structName, mem_singleton]
  | @array text needs _ ih =>
    have hopen : Meets isWord "Array<".toList text.toList := .inl (by simp [isWord])
    have hclose : Meets isWord ("Array<" ++ text).toList ">".toList := .inr (by simp [isWord])
    rw [refers_append hclose, refers_append hopen, ih]
    have hhead : ¬Refers "Array<" n := not_refers (not_infix_literal rfl)
    have htail : ¬Refers ">" n := not_refers (not_infix_literal rfl)
    simp only [hhead, htail, false_or, or_false]

/-- **Members refer to what they need**, and to what the names of the fields refer to. -/
theorem MembersText.refers_iff {names : List String} (h : MembersText names members needs) :
    Refers members n ↔ n ∈ needs ∨ ∃ name ∈ names, Refers name n := by
  induction h with
  | nil => exact iff_of_false (not_refers (not_infix_literal rfl)) (by simp)
  | @cons type name members names needs more htype _ ih =>
    have hblank : ¬Refers " " n := not_refers (not_infix_literal rfl)
    have hsemicolon : ¬Refers "; " n := not_refers (not_infix_literal rfl)
    rw [refers_append (meets_left rfl), refers_append (meets_literal_right rfl),
      refers_append (meets_left rfl), refers_append (meets_literal_right rfl),
      htype.refers_iff, ih, mem_append, exists_mem_cons_iff]
    simp only [hblank, hsemicolon, or_false, or_assoc, or_left_comm]

theorem refers_body : Refers ("\x7b " ++ members ++ "\x7d") n ↔ Refers members n := by
  have hopen : ¬Refers "\x7b " n := not_refers (not_infix_literal rfl)
  have hclose : ¬Refers "\x7d" n := not_refers (not_infix_literal rfl)
  rw [refers_append (.inr (by simp [isWord])), refers_append (.inl (by simp [isWord]))]
  simp only [hopen, hclose, false_or, or_false]

/-- A tuple type whose names refer to no struct, and all tuple types inside it. -/
def TupleType.Neutral (t : TupleType) : Prop :=
  ∀ s ∈ (FieldType.tuple t).tuples, ∀ name ∈ s.names, ∀ n, ¬Refers name n

theorem not_refers_positional {types : List FieldType} {name : String}
    (h : name ∈ (TupleType.positional types).names) (n : Nat) : ¬Refers name n := by
  obtain ⟨k, -, rfl⟩ := TupleType.mem_names_positionalFrom h
  refine not_refers (not_infix_of_not_mem (c := '_') (by decide) ?_)
  rw [String.toList_append, mem_append, not_or]
  refine ⟨by decide, fun hmem => ?_⟩
  exact absurd (Number.isDigit_of_mem_toString hmem) (by decide)

theorem inherited_neutral : Inherited fun t => ∀ s ∈ t.tuples, ∀ name ∈ s.names,
      ∀ n, ¬Refers name n :=
  inherited_of_positional fun _ _ h => not_refers_positional h

end Dataflow
