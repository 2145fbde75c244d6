/-
**Numbers are read as they are spelled.**

The text of a number is read to its end, whatever stands behind it, if that cannot be part of a
number.  An integer is read without point and exponent, a double with at least one of them, and the
numeral that is read stands for the integer or for the shortest decimal of the double.  So no two
numbers are written alike.

Main results:

* `exists_readNumeral?_toString`, `exists_readNumeral?_render` — numbers are read as they are
  spelled;
* `eq_of_numeralOf_toString`, `eq_of_numeralOf_render` — **a number is determined by its numeral**.
-/

import Dataflow.Json.Source
import Dataflow.Proofs.Number.Shortest
import Dataflow.Proofs.Number.Text

namespace Dataflow.Json

open List Number

open Number (Decimal Layout isNumeral positional scientific zeros)

variable {c : Char}

/-! ### Digits -/

/-- The values of digits. -/
def digitValues (cs : List Char) : List Nat := cs.map (·.toNat - 48)

/-- The number that digits write. -/
def ofDigits (ds : List Nat) : Nat := ds.foldl (fun acc d => acc * 10 + d) 0

variable {cs ds rest : List Char}

theorem ofDigits_digitValues (cs : List Char) :
    ofDigits (digitValues cs) = Nat.ofDigitChars 10 cs 0 := by
  rw [ofDigits, digitValues, foldl_map, Nat.ofDigitChars_eq_foldl]
  simp only [Nat.mul_comm]
  rfl

theorem ofDigits_digitValues_toString (n : Nat) :
    ofDigits (digitValues (toString n).toList) = n := by
  simp [ofDigits_digitValues]

/-- What can stand behind a number: nothing, or a character that is not part of one. -/
def Ends (rest : List Char) : Prop := ∀ c ∈ rest.head?, isNumeral c = false

theorem ends_nil : Ends [] := by
  simp [Ends]

theorem ends_cons (h : isNumeral c = false) : Ends (c :: rest) := by
  simpa [Ends] using h

theorem readDigits_append (hcs : ∀ c ∈ cs, c.isDigit = true)
    (hrest : ∀ c ∈ rest.head?, c.isDigit = false) :
    readDigits (cs ++ rest) = (digitValues cs, rest) := by
  induction cs with
  | nil =>
    cases rest with
    | nil => rfl
    | cons c rest =>
      have hc := hrest c rfl
      simp [readDigits, hc, digitValues]
  | cons c cs ih =>
    rw [forall_mem_cons] at hcs
    rw [cons_append, readDigits, if_pos hcs.1, ih hcs.2]
    rfl

theorem readDigits?_append (hne : cs ≠ []) (hcs : ∀ c ∈ cs, c.isDigit = true)
    (hrest : ∀ c ∈ rest.head?, c.isDigit = false) :
    readDigits? (cs ++ rest) = some (digitValues cs, rest) := by
  obtain ⟨c, cs, rfl⟩ := exists_cons_of_ne_nil hne
  rw [readDigits?, readDigits_append hcs hrest]
  rfl

theorem head?_toString_ne {n : Nat} (h : 0 < n) : (toString n).toList.head? ≠ some '0' := by
  rw [Nat.toString_eq_ofList_toDigits, String.toList_ofList]
  have hdigit : ∀ n < 10, 0 < n → n.digitChar ≠ '0' := by decide
  induction n using Nat.strongRecOn with
  | ind n ih =>
    by_cases hsmall : n < 10
    · rw [Nat.toDigits_of_lt_base hsmall]
      simpa using hdigit n hsmall h
    · rw [Nat.toDigits_of_base_le (by decide) (by omega)]
      have hne : Nat.toDigits 10 (n / 10) ≠ [] := Nat.toDigits_ne_nil
      rw [head?_append_of_ne_nil _ hne]
      exact ih (n / 10) (by omega) (by omega)

theorem toString_ne_nil (n : Nat) : (toString n).toList ≠ [] := by
  rw [Nat.toString_eq_ofList_toDigits, String.toList_ofList]
  exact Nat.toDigits_ne_nil

/-! ### Parts of a numeral -/

/-- Digits that can stand before the point: a zero stands alone. -/
structure IsWhole (cs : List Char) : Prop where
  ne_nil : cs ≠ []
  digits : ∀ c ∈ cs, c.isDigit = true
  lead : cs = ['0'] ∨ cs.head? ≠ some '0'

theorem isWhole_toString (n : Nat) : IsWhole (toString n).toList where
  ne_nil := toString_ne_nil n
  digits _ hc := isDigit_of_mem_toString hc
  lead := by
    cases n with
    | zero => exact .inl (by decide)
    | succ n => exact .inr (head?_toString_ne (Nat.succ_pos n))

theorem readWhole?_append (hcs : IsWhole cs) (hrest : ∀ c ∈ rest.head?, c.isDigit = false) :
    readWhole? (cs ++ rest) = some (digitValues cs, rest) := by
  obtain rfl | hlead := hcs.lead
  · rfl
  · rw [← readDigits?_append hcs.ne_nil hcs.digits hrest]
    obtain ⟨c, cs, rfl⟩ := exists_cons_of_ne_nil hcs.ne_nil
    rw [cons_append]
    unfold readWhole?
    split
    · next heq =>
      cases heq
      exact absurd rfl hlead
    · rfl

theorem readFraction?_append (hne : cs ≠ []) (hcs : ∀ c ∈ cs, c.isDigit = true)
    (hrest : ∀ c ∈ rest.head?, c.isDigit = false) :
    readFraction? ('.' :: (cs ++ rest)) = some (digitValues cs, rest) :=
  readDigits?_append hne hcs hrest

theorem readFraction?_none (hrest : rest.head? ≠ some '.') :
    readFraction? rest = some ([], rest) := by
  unfold readFraction?
  split
  · exact absurd rfl hrest
  · rfl

theorem readExponent?_none (hrest : Ends rest) : readExponent? rest = some (none, rest) := by
  cases rest with
  | nil => rfl
  | cons c rest =>
    have hc : ¬(c = 'e' ∨ c = 'E') := by
      rintro (rfl | rfl) <;> exact absurd (hrest _ rfl) (by decide)
    rw [readExponent?, if_neg hc]

theorem Ends.isDigit (hrest : Ends rest) : ∀ c ∈ rest.head?, c.isDigit = false := by
  intro c hc
  have hnone := hrest c hc
  simp only [isNumeral, Char.isAlphanum, Bool.or_eq_false_iff] at hnone
  tauto

theorem Ends.head?_ne (hrest : Ends rest) (hc : isNumeral c = true) : rest.head? ≠ some c := by
  intro heq
  rw [hrest c heq] at hc
  cases hc

/-! ### Numerals -/

namespace Numeral

/-- The power of ten that the exponent of a numeral gives. -/
def scale (n : Numeral) : Int :=
  match n.exponent with
  | none => 0
  | some (true, ds) => -ofDigits ds
  | some (false, ds) => ofDigits ds

/-- The number that a numeral stands for, without its sign. -/
def magnitude (n : Numeral) : ℚ :=
  ofDigits (n.whole ++ n.fraction) * 10 ^ (n.scale - n.fraction.length)

end Numeral

/-- A text that is read as a numeral, whatever stands behind it. -/
def Spells (negative : Bool) (text : List Char) (n : Numeral) : Prop :=
  ∀ rest, Ends rest → readUnsigned? negative (text ++ rest) = some (n, rest)

variable {negative : Bool}

theorem readUnsigned?_eq_some {cs₁ cs₂ cs₃ : List Char} {whole fraction : List Nat}
    {exponent : Option (Bool × List Nat)} (hwhole : readWhole? cs = some (whole, cs₁))
    (hfraction : readFraction? cs₁ = some (fraction, cs₂))
    (hexponent : readExponent? cs₂ = some (exponent, cs₃)) :
    readUnsigned? negative cs = some (⟨negative, whole, fraction, exponent⟩, cs₃) := by
  simp [readUnsigned?, hwhole, hfraction, hexponent]

theorem spells_whole (hcs : IsWhole cs) : Spells negative cs ⟨negative, digitValues cs, [], none⟩ :=
  fun _ hrest => readUnsigned?_eq_some (readWhole?_append hcs hrest.isDigit)
    (readFraction?_none (hrest.head?_ne rfl)) (readExponent?_none hrest)

theorem spells_point (hcs : IsWhole cs) (hne : ds ≠ []) (hds : ∀ c ∈ ds, c.isDigit = true) :
    Spells negative (cs ++ '.' :: ds) ⟨negative, digitValues cs, digitValues ds, none⟩ := by
  intro rest hrest
  rw [List.append_assoc, cons_append]
  refine readUnsigned?_eq_some (readWhole?_append hcs ?_)
    (readFraction?_append hne hds hrest.isDigit) (readExponent?_none hrest)
  intro c hc
  cases hc
  rfl

theorem head?_append_ne (hne : cs ≠ []) (hcs : ∀ c ∈ cs, c.isDigit = true)
    (hc : c.isDigit = false) :
    (cs ++ rest).head? ≠ some c := by
  obtain ⟨d, cs, rfl⟩ := exists_cons_of_ne_nil hne
  intro heq
  cases heq
  rw [hcs c mem_cons_self] at hc
  cases hc

theorem readSigned?_toString (n : Nat) (hrest : Ends rest) :
    readDigits? ((toString n).toList ++ rest) = some (digitValues (toString n).toList, rest) ∧
      readSigned? ((toString n).toList ++ rest) =
      some ((false, digitValues (toString n).toList), rest) := by
  have hdigits : ∀ c ∈ (toString n).toList, c.isDigit = true :=
    fun c hc => isDigit_of_mem_toString hc
  have hread := readDigits?_append (toString_ne_nil n) hdigits hrest.isDigit
  refine ⟨hread, ?_⟩
  have hminus : ((toString n).toList ++ rest).head? ≠ some '-' :=
    head?_append_ne (toString_ne_nil n) hdigits rfl
  have hplus : ((toString n).toList ++ rest).head? ≠ some '+' :=
    head?_append_ne (toString_ne_nil n) hdigits rfl
  generalize (toString n).toList ++ rest = text at *
  unfold readSigned?
  split
  · exact absurd rfl hminus
  · exact absurd rfl hplus
  · rw [hread]
    rfl

theorem exists_readSigned? (plusSign : Bool) (exponent : Int) : ∃ e : Bool × List Nat,
    (exponent = if e.1 then -(ofDigits e.2 : Int) else ofDigits e.2) ∧ ∀ rest, Ends rest →
      readSigned? ((if plusSign && 0 ≤ exponent then "+" else "").toList ++
        ((toString exponent).toList ++ rest)) = some (e, rest) := by
  cases exponent with
  | ofNat n =>
    refine ⟨(false, digitValues (toString n).toList), ?_, fun rest hrest => ?_⟩
    · exact congrArg Int.ofNat (ofDigits_digitValues_toString n).symm
    · obtain ⟨hdigits, hsigned⟩ := readSigned?_toString n hrest
      have htext : toString (Int.ofNat n) = toString n := rfl
      have hplus : "+".toList = ['+'] := rfl
      cases plusSign with
      | true =>
        rw [if_pos (by simp), hplus, singleton_append, readSigned?, htext, hdigits]
        rfl
      | false => rwa [if_neg (by simp), String.toList_empty, nil_append, htext]
  | negSucc n =>
    refine ⟨(true, digitValues (toString (n + 1)).toList), ?_, fun rest hrest => ?_⟩
    · rw [if_pos rfl, ofDigits_digitValues_toString]
      rfl
    · have htext : (toString (Int.negSucc n)).toList = '-' :: (toString (n + 1)).toList :=
        String.toList_append
      rw [if_neg (by simp), htext, String.toList_empty, nil_append, cons_append, readSigned?,
        (readSigned?_toString (n + 1) hrest).1]
      rfl

/-! ### Doubles -/

/-- A text that is read as a numeral with a point or an exponent, which stands for the given
number. -/
def SpellsDouble (negative : Bool) (text : List Char) (q : ℚ) : Prop :=
  ∃ n, Spells negative text n ∧ n.negative = negative ∧ n.isWhole = false ∧ n.magnitude = q

theorem magnitude_eq (negative : Bool) (cs ds : List Char) (exponent : Option (Bool × List Nat)) :
    Numeral.magnitude ⟨negative, digitValues cs, digitValues ds, exponent⟩ =
      Nat.ofDigitChars 10 (cs ++ ds)
      0 * 10 ^ (Numeral.scale ⟨negative, [], [], exponent⟩ - ds.length) := by
  rw [Numeral.magnitude, digitValues, digitValues, ← map_append, ← digitValues,
    ofDigits_digitValues, List.length_map]
  rfl

variable {digits : List Char} {n : Numeral}

theorem spellsDouble_point {q : ℚ} (hcs : IsWhole cs) (hne : ds ≠ [])
    (hds : ∀ c ∈ ds, c.isDigit = true)
    (hq : Nat.ofDigitChars 10 (cs ++ ds) 0 * 10 ^ (-(ds.length : Int)) = q) :
    SpellsDouble negative (cs ++ '.' :: ds) q := by
  refine ⟨_, spells_point hcs hne hds, rfl, ?_, ?_⟩
  · simpa [Numeral.isWhole, digitValues] using hne
  · rw [magnitude_eq, ← hq]
    simp [Numeral.scale]

theorem isDigit_of_mem_replicate {n : Nat} (h : c ∈ List.replicate n '0') : c.isDigit = true := by
  rw [(mem_replicate.1 h).2]
  rfl

section
variable (hne : digits ≠ []) (hdigits : ∀ c ∈ digits, c.isDigit = true)
include hne hdigits

theorem spellsDouble_zeros_behind (hlead : digits.head? ≠ some '0') (k : Nat) :
    SpellsDouble negative (digits ++ List.replicate k '0' ++ '.' :: ['0'])
      (Nat.ofDigitChars 10 digits 0 * 10 ^ (k : Int)) := by
  refine spellsDouble_point ⟨by simp [hne], ?_, .inr ?_⟩ (by simp) (by simp) ?_
  · intro c hc
    exact (mem_append.1 hc).elim (hdigits c) isDigit_of_mem_replicate
  · rwa [head?_append_of_ne_nil _ hne]
  · have hvalue : Nat.ofDigitChars 10 (digits ++ List.replicate k '0' ++ ['0']) 0 =
        10 ^ (k + 1) * Nat.ofDigitChars 10 digits 0 := by
      rw [List.append_assoc, ← replicate_succ', Nat.ofDigitChars_append,
        Nat.ofDigitChars_replicate_zero]
    rw [hvalue, List.length_singleton, Nat.cast_one, zpow_neg_one, zpow_natCast]
    push_cast
    ring

theorem spellsDouble_between (hlead : digits.head? ≠ some '0') {m : Nat} (hm : m ≠ 0)
    (hlt : m < digits.length) :
    SpellsDouble negative (digits.take m ++ '.' :: digits.drop m)
      (Nat.ofDigitChars 10 digits 0 * 10 ^ (m - digits.length : Int)) := by
  refine spellsDouble_point ⟨by simp [hne, hm], ?_, .inr ?_⟩ (by simpa using hlt) ?_ ?_
  · exact fun c hc => hdigits c (mem_of_mem_take hc)
  · rwa [head?_take, if_neg hm]
  · exact fun c hc => hdigits c (mem_of_mem_drop hc)
  · rw [take_append_drop, length_drop]
    congr 2
    omega

theorem spellsDouble_zeros_before (m : Nat) :
    SpellsDouble negative (['0'] ++ '.' :: (List.replicate m '0' ++ digits))
      (Nat.ofDigitChars 10 digits 0 * 10 ^ (-(m + digits.length : Int))) := by
  refine spellsDouble_point ⟨by simp, by simp, .inl rfl⟩ (by simp [hne]) ?_ ?_
  · intro c hc
    exact (mem_append.1 hc).elim isDigit_of_mem_replicate (hdigits c)
  · have hvalue : Nat.ofDigitChars 10 (['0'] ++ (List.replicate m '0' ++ digits)) 0 =
        Nat.ofDigitChars 10 digits 0 := by
      rw [singleton_append, ← cons_append, ← replicate_succ, Nat.ofDigitChars_append,
        Nat.ofDigitChars_replicate_zero, Nat.mul_zero]
    rw [hvalue, List.length_append, List.length_replicate, Nat.cast_add]

theorem spellsDouble_positional (hlead : digits.head? ≠ some '0') (exponent : Int) :
    SpellsDouble negative (positional digits exponent).toList
      (Nat.ofDigitChars 10 digits 0 * 10 ^ exponent) := by
  unfold positional
  dsimp only
  split
  · next hnonneg =>
    obtain ⟨k, rfl⟩ := Int.eq_ofNat_of_zero_le hnonneg
    simpa [zeros] using spellsDouble_zeros_behind hne hdigits hlead k
  · next hnegative =>
    split
    · next hpoint =>
      obtain ⟨m, hm⟩ := Int.eq_ofNat_of_zero_le hpoint.le
      have hspells : SpellsDouble negative _ _ :=
        spellsDouble_between hne hdigits hlead (show m ≠ 0 by omega) (by omega)
      rw [show (m - digits.length : Int) = exponent by omega] at hspells
      simpa [hm] using hspells
    · next hpoint =>
      obtain ⟨m, hm⟩ :=
        Int.eq_ofNat_of_zero_le (show 0 ≤ -((digits.length : Int) + exponent) by omega)
      have hspells : SpellsDouble negative _ _ := spellsDouble_zeros_before hne hdigits m
      rw [show -(m + digits.length : Int) = exponent by omega] at hspells
      rw [hm]
      simpa [zeros] using hspells

end

theorem toList_scientific (plusSign : Bool) (c : Char) (cs : List Char) (exponent : Int) :
    (scientific plusSign (c :: cs) exponent).toList =
      [c] ++ ((if cs.isEmpty then [] else '.' :: cs) ++
      'e' :: ((if plusSign && 0 ≤ exponent then "+" else "").toList ++
      (toString exponent).toList)) := by
  unfold scientific
  cases cs <;> simp [String.toList_append]

theorem spellsDouble_scientific (plusSign : Bool) (hne : digits ≠ [])
    (hdigits : ∀ c ∈ digits, c.isDigit = true) (hlead : digits.head? ≠ some '0') (exponent : Int) :
    SpellsDouble negative (scientific plusSign digits exponent).toList
      (Nat.ofDigitChars 10 digits 0 * 10 ^ (exponent - (digits.length - 1))) := by
  obtain ⟨e, he, hread⟩ := exists_readSigned? plusSign exponent
  obtain ⟨c, cs, rfl⟩ := exists_cons_of_ne_nil hne
  rw [forall_mem_cons] at hdigits
  have hwhole : IsWhole [c] := ⟨by simp, by simpa using hdigits.1, .inr (by simpa using hlead)⟩
  refine ⟨⟨negative, digitValues [c], digitValues cs, some e⟩, fun rest hrest => ?_, rfl, ?_, ?_⟩
  · rw [toList_scientific]
    simp only [List.append_assoc, cons_append]
    have hexponent := hread rest hrest
    generalize (if plusSign && 0 ≤ exponent then "+" else "").toList ++
      ((toString exponent).toList ++ rest) = after at hexponent
    have hfraction : readFraction? ((if cs.isEmpty then [] else '.' :: cs) ++ 'e' :: after) =
        some (digitValues cs, 'e' :: after) := by
      cases cs with
      | nil => exact readFraction?_none (by simp)
      | cons d cs => exact readFraction?_append (cons_ne_nil d cs) hdigits.2 (by simp)
    refine readUnsigned?_eq_some (readWhole?_append hwhole ?_) hfraction ?_
    · cases cs <;> simp
    · rw [readExponent?, if_pos (.inl rfl), hexponent]
      rfl
  · simp [Numeral.isWhole]
  · rw [magnitude_eq, singleton_append]
    congr 2
    rw [he]
    obtain ⟨sign, ds⟩ := e
    cases sign <;> simp [Numeral.scale]

theorem spellsDouble_decimal (l : Layout) {d : Decimal} (hpos : 0 < d.digits) :
    SpellsDouble negative (l.decimal d).toList d.value := by
  have hdigits : ∀ c ∈ (toString d.digits).toList, c.isDigit = true := fun c hc =>
    isDigit_of_mem_toString hc
  have hvalue : Nat.ofDigitChars 10 (toString d.digits).toList 0 = d.digits := by
    rw [← ofDigits_digitValues, ofDigits_digitValues_toString]
  unfold Layout.decimal
  dsimp only
  split
  · have hspells : SpellsDouble negative _ _ :=
      spellsDouble_positional (toString_ne_nil _) hdigits (head?_toString_ne hpos) d.exponent
    rwa [hvalue] at hspells
  · have hspells : SpellsDouble negative _ _ :=
      spellsDouble_scientific l.plusSign (toString_ne_nil _) hdigits (head?_toString_ne hpos)
        (d.exponent + (toString d.digits).toList.length - 1)
    rw [hvalue] at hspells
    convert hspells using 1
    rw [Decimal.value]
    congr 2
    ring

/-! ### Signs -/

theorem readNumeral?_of_ne (h : cs.head? ≠ some '-') :
    readNumeral? cs = readUnsigned? false cs := by
  unfold readNumeral?
  split
  · exact absurd rfl h
  · rfl

theorem head?_ne_of_read (h : readUnsigned? negative cs = some (n, rest)) :
    cs.head? ≠ some '-' := by
  intro hhead
  obtain ⟨cs, rfl⟩ := head?_eq_some_iff.1 hhead
  simp [readUnsigned?, readWhole?, readDigits?, readDigits] at h

theorem exists_readNumeral?_toString (i : Int) : ∃ n : Numeral, n.isWhole = true ∧
    (i = if n.negative then -(ofDigits n.whole : Int) else ofDigits n.whole) ∧
    ∀ rest, Ends rest → readNumeral? ((toString i).toList ++ rest) = some (n, rest) := by
  cases i with
  | ofNat m =>
    refine ⟨⟨false, digitValues (toString m).toList, [], none⟩, rfl, ?_, fun rest hrest => ?_⟩
    · exact congrArg Int.ofNat (ofDigits_digitValues_toString m).symm
    · have htext : toString (Int.ofNat m) = toString m := rfl
      have hwhole := isWhole_toString m
      rw [htext, readNumeral?_of_ne (head?_append_ne hwhole.ne_nil hwhole.digits rfl)]
      exact spells_whole hwhole rest hrest
  | negSucc m =>
    refine ⟨⟨true, digitValues (toString (m + 1)).toList, [], none⟩, rfl, ?_, fun rest hrest => ?_⟩
    · rw [if_pos rfl, ofDigits_digitValues_toString]
      rfl
    · have htext : (toString (Int.negSucc m)).toList = '-' :: (toString (m + 1)).toList :=
        String.toList_append
      rw [htext, cons_append, readNumeral?]
      exact spells_whole (isWhole_toString (m + 1)) rest hrest

/-- What the text of a finite double stands for, without its sign. -/
def written (l : Layout) (d : Number.Dyadic) : ℚ :=
  if d.mantissa = 0 then 0 else (d.shortest l.tieUp).value

/-- **A finite double is read as it is spelled.** -/
theorem exists_readNumeral?_render (l : Layout) {x : Float} {d : Number.Dyadic}
    (hx : Number.Binary64.ofFloat x = .finite d) : ∃ n : Numeral, n.isWhole = false ∧
      n.negative = d.negative ∧ n.magnitude = written l d ∧ ∀ rest, Ends rest →
      readNumeral? ((l.render x).toList ++ rest) = some (n, rest) := by
  have hbody : SpellsDouble d.negative
      (if d.mantissa = 0 then "0.0" else l.decimal (d.shortest l.tieUp)).toList (written l d) := by
    unfold written
    split
    · have htext : "0.0".toList = ['0'] ++ '.' :: ['0'] := rfl
      rw [htext]
      exact spellsDouble_point ⟨by simp, by simp, .inl rfl⟩ (by simp) (by simp)
        (by simp [Nat.ofDigitChars])
    · next hmantissa =>
      exact spellsDouble_decimal l
        (digits_shortest_pos (canonical_of_ofFloat hx)
        (Nat.pos_of_ne_zero hmantissa) l.tieUp)
  obtain ⟨n, hspells, hnegative, hwhole, hmagnitude⟩ := hbody
  refine ⟨n, hwhole, hnegative, hmagnitude, fun rest hrest => ?_⟩
  rw [Layout.render, hx]
  dsimp only
  rw [String.toList_append]
  generalize (if d.mantissa = 0 then "0.0" else l.decimal (d.shortest l.tieUp)).toList = text at *
  cases hsign : d.negative with
  | true =>
    rw [hsign] at hspells
    exact hspells rest hrest
  | false =>
    rw [hsign] at hspells
    have hread := hspells rest hrest
    rw [if_neg (by simp), String.toList_empty, nil_append,
      readNumeral?_of_ne (head?_ne_of_read hread)]
    exact hread

/-- Different finite doubles stand for different numbers, but for their signs. -/
theorem eq_of_written {l : Layout} {d d' : Number.Dyadic} (hd : d.Canonical) (hd' : d'.Canonical)
    (hsign : d.negative = d'.negative) (h : written l d = written l d') : d = d' := by
  have hpos : ∀ {d : Number.Dyadic}, d.Canonical → d.mantissa ≠ 0 →
      0 < (d.shortest l.tieUp).value := by
    intro d hd hmantissa
    have hdigits := digits_shortest_pos hd (Nat.pos_of_ne_zero hmantissa) l.tieUp
    unfold Decimal.value
    positivity
  -- A zero has the smallest exponent.
  have hzero : ∀ {d : Number.Dyadic}, d.Canonical → d.mantissa = 0 →
      d.exponent = minExponent := by
    intro d hd hmantissa
    by_contra hne
    have hfull := hd.full (lt_of_le_of_ne hd.least (Ne.symm hne))
    simp [hmantissa, hiddenBit] at hfull
  obtain ⟨hmantissa, hexponent⟩ : d.mantissa = d'.mantissa ∧ d.exponent = d'.exponent := by
    unfold written at h
    split at h
    · next hm =>
      split at h
      · next hm' => exact ⟨hm.trans hm'.symm, (hzero hd hm).trans (hzero hd' hm').symm⟩
      · next hm' => exact absurd h (hpos hd' hm').ne
    · next hm =>
      split at h
      · exact absurd h (hpos hd hm).ne'
      · next hm' =>
        exact eq_of_shortest hd hd' (Nat.pos_of_ne_zero hm) (Nat.pos_of_ne_zero hm') h
  cases d
  cases d'
  simp_all

/-! ### The numeral of a text -/

/-- The numeral that a text starts with. -/
def numeralOf (text : String) : Numeral :=
  ((readNumeral? text.toList).map (·.1)).getD ⟨false, [], [], none⟩

theorem numeralOf_eq {text : String}
    (h : ∀ rest, Ends rest → readNumeral? (text.toList ++ rest) = some (n, rest)) :
    numeralOf text = n := by
  have hread := h [] ends_nil
  rw [append_nil] at hread
  rw [numeralOf, hread]
  rfl

theorem isWhole_numeralOf_toString (i : Int) : (numeralOf (toString i)).isWhole = true := by
  obtain ⟨n, hwhole, -, hread⟩ := exists_readNumeral?_toString i
  rw [numeralOf_eq hread, hwhole]

theorem eq_of_numeralOf_toString {i k : Int} (h : numeralOf (toString i) = numeralOf (toString k)) :
    i = k := by
  obtain ⟨n, -, hi, hread⟩ := exists_readNumeral?_toString i
  obtain ⟨m, -, hk, hread'⟩ := exists_readNumeral?_toString k
  rw [numeralOf_eq hread, numeralOf_eq hread'] at h
  rw [hi, hk, h]

variable (l : Layout) {x y : Float}

theorem isWhole_numeralOf_render (hx : x.isFinite = true) :
    (numeralOf (l.render x)).isWhole = false := by
  obtain ⟨d, hd⟩ := exists_ofFloat_of_isFinite hx
  obtain ⟨n, hwhole, -, -, hread⟩ := exists_readNumeral?_render l hd
  rw [numeralOf_eq hread, hwhole]

/-- **A finite double is determined by its numeral**, in every layout. -/
theorem eq_of_numeralOf_render (hx : x.isFinite = true) (hy : y.isFinite = true)
    (h : numeralOf (l.render x) = numeralOf (l.render y)) : x = y := by
  obtain ⟨d, hd⟩ := exists_ofFloat_of_isFinite hx
  obtain ⟨d', hd'⟩ := exists_ofFloat_of_isFinite hy
  obtain ⟨n, -, hsign, hmagnitude, hread⟩ := exists_readNumeral?_render l hd
  obtain ⟨n', -, hsign', hmagnitude', hread'⟩ := exists_readNumeral?_render l hd'
  rw [numeralOf_eq hread, numeralOf_eq hread'] at h
  subst h
  obtain rfl := eq_of_written (canonical_of_ofFloat hd) (canonical_of_ofFloat hd')
    (hsign.symm.trans hsign') (hmagnitude.symm.trans hmagnitude')
  exact eq_of_ofFloat hd hd'

end Dataflow.Json
