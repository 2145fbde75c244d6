/-
**The texts of numbers.**

Numbers are written with letters, digits, signs and points, in every format.  So texts of numbers
can be put between other characters without being torn apart or mistaken for something else.

Main results:

* `Number.numeral_toString`, `Number.toString_int_injective` — integers are written with
  those characters, and no two of them alike;
* `Number.Layout.numeral_render` — **and so are doubles**, in a layout whose own texts are.
-/

import Dataflow.Number.Layout

namespace Dataflow.Number

open List String

variable {c : Char}

/-- The characters that numbers are written with. -/
def isNumeral (c : Char) : Bool := c.isAlphanum || c = '-' || c = '+' || c = '.'

/-- A text of characters that numbers are written with. -/
def Numeral (text : String) : Prop := ∀ c ∈ text.toList, isNumeral c = true

instance : DecidablePred Numeral :=
  fun text => decidableBAll (fun c => isNumeral c = true) text.toList

theorem Numeral.append {s t : String} (hs : Numeral s) (ht : Numeral t) : Numeral (s ++ t) := by
  intro c hc
  rw [toList_append, mem_append] at hc
  exact hc.elim (hs c) (ht c)

theorem Numeral.not_mem {s : String} (hs : Numeral s) (hc : isNumeral c = false) :
    c ∉ s.toList := by
  intro hmem
  rw [hs c hmem] at hc
  cases hc

theorem isDigit_of_mem_toString {n : Nat} (h : c ∈ (toString n).toList) : c.isDigit = true := by
  rw [Nat.toString_eq_ofList_toDigits, toList_ofList] at h
  exact Nat.isDigit_of_mem_toDigits (by decide) (by decide) h

theorem toString_nat_injective {m n : Nat} (h : m.repr = n.repr) : m = n := by
  have hdigits := congrArg (fun s => Nat.ofDigitChars 10 s.toList 0) h
  simpa using hdigits

theorem toString_int_injective {i j : Int} (h : toString i = toString j) : i = j := by
  -- A negative number starts with a sign, which is no digit.
  have hsign : ∀ m n : Nat, m.repr ≠ "-" ++ n.repr := by
    intro m n heq
    have hmem : '-' ∈ m.repr.toList := by simp [heq]
    simpa using isDigit_of_mem_toString hmem
  rw [Int.toString_eq_repr, Int.toString_eq_repr, Int.repr_eq_if, Int.repr_eq_if] at h
  split at h
  · split at h
    · have hnat := toString_nat_injective h
      omega
    · exact absurd h (hsign _ _)
  · split at h
    · exact absurd h.symm (hsign _ _)
    · have hnat := toString_nat_injective (String.append_right_inj _ |>.1 h)
      omega

theorem numeral_toString_nat (n : Nat) : Numeral (toString n) := by
  intro c hc
  simp [isNumeral, Char.isAlphanum, isDigit_of_mem_toString hc]

theorem numeral_toString (i : Int) : Numeral (toString i) := by
  rw [Int.toString_eq_repr, Int.repr_eq_if]
  split
  · exact numeral_toString_nat _
  · exact Numeral.append (by decide) (numeral_toString_nat _)

theorem mem_zeros {n : Nat} (h : c ∈ (zeros n).toList) : c = '0' := by
  rw [zeros, toList_ofList] at h
  exact (mem_replicate.1 h).2

theorem mem_positional {digits : List Char} {exponent : Int}
    (h : c ∈ (positional digits exponent).toList) : c ∈ digits ∨ c = '0' ∨ c = '.' := by
  simp only [positional] at h
  split at h
  · simp only [toList_append, toList_ofList, mem_append, or_assoc] at h
    rcases h with h | h | h
    · exact .inl h
    · exact .inr (.inl (mem_zeros h))
    · exact .inr (by simpa [or_comm] using h)
  · split at h
    · simp only [toList_append, toList_ofList, mem_append, or_assoc] at h
      rcases h with h | h | h
      · exact .inl (mem_of_mem_take h)
      · exact .inr (.inr (by simpa using h))
      · exact .inl (mem_of_mem_drop h)
    · simp only [toList_append, toList_ofList, mem_append, or_assoc] at h
      rcases h with h | h | h
      · exact .inr (by simpa using h)
      · exact .inr (.inl (mem_zeros h))
      · exact .inl h

/-- A number in scientific notation is its exponent behind other characters. -/
theorem exists_scientific (plusSign : Bool) (digits : List Char) (exponent : Int) : ∃ front,
    scientific plusSign digits exponent = front ++ toString exponent ∧ front.toList ≠ [] ∧
      ∀ c ∈ front.toList, c ∈ digits ∨ c = '.' ∨ c = 'e' ∨ c = '+' := by
  refine ⟨_, rfl, by simp, fun c hc => ?_⟩
  simp only [toList_append, toList_ofList, mem_append, or_assoc] at hc
  rcases hc with h | h | h | h
  · exact .inl (mem_of_mem_take h)
  · split at h
    · cases h
    · simp only [toList_append, toList_ofList, mem_append] at h
      exact h.elim (fun h => .inr (.inl (by simpa using h))) (.inl ∘ mem_of_mem_drop)
  · exact .inr (.inr (.inl (by simpa using h)))
  · split at h
    · exact .inr (.inr (.inr (by simpa using h)))
    · cases h

/-- The characters that decimal numbers are written with. -/
def isDecimal (c : Char) : Bool := c.isDigit || c = '.' || c = 'e' || c = '+' || c = '-'

theorem isDecimal_of_mem_toString {i : Int} (h : c ∈ (toString i).toList) : isDecimal c = true := by
  have hdigits : ∀ {n : Nat}, c ∈ (toString n).toList → isDecimal c = true := fun h => by
    simp [isDecimal, isDigit_of_mem_toString h]
  rw [Int.toString_eq_repr, Int.repr_eq_if] at h
  split at h
  · exact hdigits h
  · rw [toList_append, mem_append] at h
    rcases h with h | h
    · obtain rfl : c = '-' := by simpa using h
      rfl
    · exact hdigits h

theorem isDecimal_of_mem_decimal {l : Layout} {d : Decimal} (h : c ∈ (l.decimal d).toList) :
    isDecimal c = true := by
  have hdigits : c ∈ (toString d.digits).toList → isDecimal c = true := fun h => by
    simp [isDecimal, isDigit_of_mem_toString h]
  simp only [Layout.decimal] at h
  split at h
  · rcases mem_positional h with h | rfl | rfl
    · exact hdigits h
    · rfl
    · rfl
  · obtain ⟨front, hfront, -, hchars⟩ := exists_scientific l.plusSign (toString d.digits).toList
      (d.exponent + (toString d.digits).toList.length - 1)
    rw [hfront, toList_append, mem_append] at h
    rcases h with h | h
    · rcases hchars c h with h | rfl | rfl | rfl
      · exact hdigits h
      · rfl
      · rfl
      · rfl
    · exact isDecimal_of_mem_toString h

/-- How a double is written: by a text of the layout, or as a decimal number. -/
theorem Layout.render_cases (l : Layout) (x : Float) : l.render x = l.notANumber ∨
    (∃ sign ∈ ["-", ""], l.render x = sign ++ l.infinity) ∨
    ∀ c ∈ (l.render x).toList, isDecimal c = true := by
  have hsign : ∀ negative : Bool, (if negative then "-" else "") ∈ ["-", ""] := by decide
  unfold Layout.render
  split
  · exact .inl rfl
  · exact .inr (.inl ⟨_, hsign _, rfl⟩)
  · refine .inr (.inr fun c hc => ?_)
    rw [toList_append, mem_append] at hc
    rcases hc with hc | hc
    · split at hc
      · obtain rfl : c = '-' := by simpa using hc
        rfl
      · cases hc
    · split at hc
      · exact all_eq_true.1 (by decide : "0.0".toList.all isDecimal = true) c hc
      · exact isDecimal_of_mem_decimal hc

/-- **Doubles are written with the characters of numbers**, in a layout whose own texts are. -/
theorem Layout.numeral_render {l : Layout} (hnan : Numeral l.notANumber) (hinf : Numeral l.infinity)
    (x : Float) : Numeral (l.render x) := by
  rcases l.render_cases x with h | ⟨sign, hsign, h⟩ | h
  · rwa [h]
  · rw [h]
    exact ((by decide : ∀ sign ∈ ["-", ""], Numeral sign) sign hsign).append hinf
  · intro c hc
    have hdecimal := h c hc
    simp only [isDecimal, Bool.or_eq_true, decide_eq_true_eq] at hdecimal
    simp only [isNumeral, Char.isAlphanum, Bool.or_eq_true, decide_eq_true_eq]
    rcases hdecimal with (((hdigit | rfl) | rfl) | rfl) | rfl
    · exact .inl (.inl (.inl (.inr hdigit)))
    all_goals decide

end Dataflow.Number
