/-
**Minus signs in generated code.**

Two minus signs side by side are read as one token, a decrement.  The texts of operators stand
between blanks, and operators with their operands between parentheses, so minus signs come together
in one place only: a negation is written right in front of its operand, and the text of a constant
may begin with a sign.

Main results:

* `Literal.signedText_code` — **a constant is written with at most a sign in front**, and an
  exponent apart with no other;
* `Expr.fused_iff_negatesSigned` — **minus signs are fused exactly where a constant with a sign is
  negated**.
-/

import Dataflow.Proofs.Code.Mentions
import Dataflow.Proofs.Number.Shortest

namespace Dataflow

open List TupleType

/-! ### Texts with minus signs -/

/-- Two minus signs side by side in a text. -/
def Fused (text : String) : Prop := ['-', '-'] <:+: text.toList

def isMinus (c : Char) : Bool := c = '-'

variable {s t : String}

/-- Minus signs side by side in two texts that meet elsewhere are so in one of them. -/
theorem fused_append (h : Meets isMinus s.toList t.toList) :
    Fused (s ++ t) ↔ Fused s ∨ Fused t := by
  rw [Fused, String.toList_append]
  constructor
  · exact infix_of_meets (by simp [isMinus]) h
  · rintro (hs | ht)
    · exact hs.trans (prefix_append _ _).isInfix
    · exact ht.trans (suffix_append _ _).isInfix

theorem not_fused (h : '-' ∉ s.toList) : ¬Fused s := not_infix_of_not_mem mem_cons_self h

theorem isMinus_eq_false {c : Char} (h : c ≠ '-') : isMinus c = false := decide_eq_false h

theorem fused_append_left (h : '-' ∉ s.toList) : Fused (s ++ t) ↔ Fused t := by
  rw [fused_append, or_iff_right (not_fused h)]
  exact .inl fun c hc => isMinus_eq_false (ne_of_mem_of_not_mem (mem_of_getLast? hc) h)

theorem fused_append_right (h : '-' ∉ t.toList) : Fused (s ++ t) ↔ Fused s := by
  rw [fused_append, or_iff_left (not_fused h)]
  exact .inr fun c hc => isMinus_eq_false (ne_of_mem_of_not_mem (mem_of_head? hc) h)

/-- A text with a minus sign in front exactly if `negative`, and no two of them side by side. -/
structure SignedText (negative : Bool) (text : String) : Prop where
  head : text.toList.head? = some '-' ↔ negative = true
  apart : ¬Fused text

theorem SignedText.append {negative : Bool} (hs : SignedText negative s) (ht : '-' ∉ t.toList) :
    SignedText negative (s ++ t) := by
  refine ⟨?_, (fused_append_right ht).not.2 hs.apart⟩
  rw [← hs.head, String.toList_append, head?_append]
  cases hhead : s.toList.head? with
  | some c => rfl
  | none => simpa using fun h => ht (mem_of_head? h)

theorem signedText_false (h : '-' ∉ s.toList) : SignedText false s :=
  ⟨iff_of_false (fun hhead => h (mem_of_head? hhead)) Bool.false_ne_true, not_fused h⟩

theorem SignedText.sign (hs : SignedText false s) (negative : Bool) :
    SignedText negative ((if negative then "-" else "") ++ s) := by
  cases negative with
  | false => simpa using hs
  | true =>
    refine ⟨by simp, ?_⟩
    rw [if_pos rfl, fused_append (.inr fun c hc => isMinus_eq_false fun h => ?_), or_iff_right]
    · exact hs.apart
    · exact not_infix_literal rfl
    · exact absurd (hs.head.1 (h ▸ hc)) Bool.false_ne_true

/-! ### Constants -/

theorem minus_not_mem_toString (n : Nat) : '-' ∉ (toString n).toList := fun h =>
  absurd (Number.isDigit_of_mem_toString h) (by decide)

theorem signedText_toString (i : Int) : SignedText (decide (i < 0)) (toString i) := by
  rw [Int.toString_eq_repr, Int.repr_eq_if]
  split
  · next h => exact decide_eq_false (Int.not_lt.2 h) ▸ signedText_false (minus_not_mem_toString _)
  · next h => exact decide_eq_true (Int.not_le.1 h)
      ▸ (signedText_false (minus_not_mem_toString _)).sign true

namespace Number

theorem signedText_decimal (l : Layout) (d : Decimal) : SignedText false (l.decimal d) := by
  simp only [Layout.decimal]
  split
  · refine signedText_false fun h => ?_
    rcases mem_positional h with h | h | h
    · exact minus_not_mem_toString _ h
    · cases h
    · cases h
  · obtain ⟨front, hfront, hne, hchars⟩ := exists_scientific l.plusSign (toString d.digits).toList
      (d.exponent + (toString d.digits).toList.length - 1)
    have hfree : '-' ∉ front.toList := by
      intro h
      rcases hchars _ h with h | h | h | h
      · exact minus_not_mem_toString _ h
      all_goals cases h
    rw [hfront]
    refine ⟨iff_of_false (fun h => hfree ?_) Bool.false_ne_true, ?_⟩
    · rw [String.toList_append, head?_append_of_ne_nil _ hne] at h
      exact mem_of_head? h
    · rw [fused_append_left hfree]
      exact (signedText_toString _).apart

variable {x : Float}

/-- Whether the sign of a double is written: that of a number, also of a zero, and of an
infinity. -/
def Binary64.negative : Binary64 → Bool
  | finite d => d.negative
  | infinite negative => negative
  | notANumber => false

open Float.Model (UnpackedFloat)
open Float.Model.UnpackedFloat (unpackExponent unpackMantissa)

theorem special_of_isFinite (h : x.isFinite = true) : x.isNaN = false ∧ x.isInf = false := by
  have hfinite : (UnpackedFloat.unpack .binary64 x.toBits.toBitVec).isFinite = true := h
  show (UnpackedFloat.unpack .binary64 x.toBits.toBitVec).isNaN = false ∧
    (UnpackedFloat.unpack .binary64 x.toBits.toBitVec).isInf = false
  cases hparts : UnpackedFloat.unpack .binary64 x.toBits.toBitVec with
  | zero | finite => exact ⟨rfl, rfl⟩
  | infinity | notANumber =>
    rw [hparts] at hfinite
    cases hfinite

/-- The doubles that are not finite, by the fields of their bits. -/
theorem not_finite_cases (h : x.isFinite = false) :
    x.isNaN = true ∧ Binary64.ofFloat x = .notANumber ∨ ∃ negative, x = infinity negative := by
  have hmantissa : (@unpackMantissa .binary64 x.toBits.toBitVec).toNat =
      x.toBits.toNat % hiddenBit := by
    simp only [unpackMantissa, BitVec.toNat_cast, BitVec.extractLsb_toNat,
      Nat.shiftRight_eq_div_pow, UInt64.toNat_toBitVec, hiddenBit]
    norm_num
  have hexponent := toNat_unpackExponent x
  have hfinite : (UnpackedFloat.unpack .binary64 x.toBits.toBitVec).isFinite = false := h
  by_cases hones : @unpackExponent .binary64 x.toBits.toBitVec = -1#11
  · have htop : x.toBits.toNat / hiddenBit % (topExponent + 1) = topExponent :=
      hexponent ▸ congrArg BitVec.toNat hones
    by_cases hzero : @unpackMantissa .binary64 x.toBits.toBitVec = 0#52
    · have hlt := x.toBits.toNat_lt
      have hbits : x.toBits.toNat = signBit (decide (signBit true ≤ x.toBits.toNat)) +
          topExponent * hiddenBit := by
        simp only [hzero, signBit, hiddenBit, topExponent, decide_eq_true_eq, ↓reduceIte,
          BitVec.toNat_zero] at *
        split <;> omega
      refine .inr ⟨decide (signBit true ≤ x.toBits.toNat), eq_of_toBits (UInt64.toNat_inj.1 ?_)⟩
      rw [infinity, ← hbits, toBits_ofBits hlt fun _ => hmantissa ▸ congrArg BitVec.toNat hzero]
    · have hfraction : x.toBits.toNat % hiddenBit ≠ 0 :=
        fun h => hzero (BitVec.eq_of_toNat_eq (hmantissa.trans h))
      refine .inl ⟨?_, ?_⟩
      · show (UnpackedFloat.unpack .binary64 x.toBits.toBitVec).isNaN = true
        unfold UnpackedFloat.unpack
        simp only [hones, ↓reduceIte, hzero]
        rfl
      · unfold Binary64.ofFloat
        dsimp only
        rw [if_pos htop, if_neg hfraction]
  · exfalso
    unfold UnpackedFloat.unpack at hfinite
    simp only [hones, ↓reduceIte] at hfinite
    split at hfinite
    · split at hfinite <;> cases hfinite
    · cases hfinite

theorem special_infinity (negative : Bool) : (infinity negative).isNaN = false ∧
      (infinity negative).isInf = true ∧
    (infinity negative < 0 ↔ negative = true) := by
  cases negative <;> decide

end Number

/-- Whether a constant is written with a sign in front.  The least integer is not: it is written as
a difference between parentheses. -/
def Literal.signed : Literal → Bool
  | bool _ => false
  | int i => i < 0 && i ≠ Int64.minValue
  | float x => (Number.Binary64.ofFloat x).negative

/-- **A constant is written with at most a sign in front**; no other sign stands at its side. -/
theorem Literal.signedText_code (l : Literal) : SignedText l.signed l.code := by
  cases l with
  | bool b => cases b <;> exact signedText_false (by decide)
  | int i =>
    rw [code, signed]
    split
    · next h =>
      subst h
      exact ⟨by decide, not_infix_literal rfl⟩
    · next h =>
      have hneg : (i < 0) = (i.toInt < 0) := propext Int64.lt_iff_toInt_lt
      simp only [ne_eq, h, not_false_eq_true, decide_true, Bool.and_true, hneg]
      exact (signedText_toString i.toInt).append (by decide)
  | float x =>
    rw [code, signed]
    cases hfinite : x.isFinite with
    | true =>
      obtain ⟨hnan, hinf⟩ := Number.special_of_isFinite hfinite
      obtain ⟨d, hd⟩ := Number.exists_ofFloat_of_isFinite hfinite
      have hrender : SignedText d.negative (Number.Layout.plain.render x) := by
        rw [Number.Layout.render, hd]
        refine SignedText.sign ?_ d.negative
        split
        · exact signedText_false (by decide)
        · exact Number.signedText_decimal _ _
      simp only [hnan, hinf, hd, Bool.false_eq_true, ↓reduceIte, Kind.literal, Kind.pointed]
      split
      · exact hrender
      · exact hrender.append (by decide)
    | false =>
      rcases Number.not_finite_cases hfinite with ⟨hnan, hx⟩ | ⟨negative, rfl⟩
      · rw [if_pos hnan, hx]
        exact signedText_false (by decide)
      · obtain ⟨hnan, hinf, hless⟩ := Number.special_infinity negative
        simp only [hnan, hinf, hless, Number.ofFloat_infinity, Bool.false_eq_true, ↓reduceIte]
        exact (signedText_false (by decide)).sign negative

/-! ### Expressions -/

namespace Expr

/-- Whether an expression is a constant that is written with a sign in front. -/
def isSigned : Expr → Bool
  | literal value => value.signed
  | _ => false

mutual

/-- Whether a constant with a sign in front is negated somewhere in an expression. -/
def negatesSigned : Expr → Bool
  | field _ _ => false
  | literal _ => false
  | binary _ left right => left.negatesSigned || right.negatesSigned
  | unary op operand => op = .neg && operand.isSigned || operand.negatesSigned
  | tuple items => anyNegatesSigned items

def anyNegatesSigned : List Expr → Bool
  | [] => false
  | e :: rest => e.negatesSigned || anyNegatesSigned rest

end

variable {args : List TupleType} {e : Expr} {text : String} {table table' : StructTable}

/-- Only a constant is written with a sign in front. -/
theorem Written.head?_eq_minus (h : Written args e table text table') :
    text.toList.head? = some '-' ↔ e.isSigned = true := by
  cases h with
  | literal value => exact value.signedText_code.head
  | field | binary | unary => exact iff_of_false (by simp) Bool.false_ne_true
  | @tuple items types parts _ between typed all =>
    have hname : ((positional types).declareName.run between).1 =
        structName ((positional types).declare.run between).1 := rfl
    exact iff_of_false (by simp [hname, structName]) Bool.false_ne_true

theorem fused_intercalate {parts : List String} :
    Fused (", ".intercalate parts) ↔ ∃ part ∈ parts, Fused part := by
  induction parts with
  | nil => simpa using not_fused (s := "") (by decide)
  | cons part parts ih =>
    cases parts with
    | nil => simp
    | cons other parts =>
      rw [String.intercalate_cons_cons, fused_append (meets_left rfl),
        fused_append_right (by decide), ih]
      exact (exists_mem_cons_iff _ _ _).symm

/-- **The text of an expression** has fused minus signs exactly if a constant with a sign is negated
in it. -/
theorem Written.fused_iff (hargs : ∀ t ∈ args, ∀ name ∈ t.names, '-' ∉ name.toList)
    (h : Written args e table text table') : Fused text ↔ e.negatesSigned = true := by
  induction e using Expr.induction generalizing table text table' with
  | literal value =>
    cases h
    exact iff_of_false value.signedText_code.apart Bool.false_ne_true
  | field arg index =>
    cases h with
    | @field _ _ _ named found =>
      obtain ⟨t, ht, hnamed⟩ := Option.bind_eq_some_iff.1 found
      have hname := hargs t (mem_of_getElem? ht)
        named.name (List.mem_map_of_mem (mem_of_getElem? hnamed))
      refine iff_of_false (not_fused ?_) Bool.false_ne_true
      simpa using ⟨by simpa using minus_not_mem_toString arg, hname⟩
  | binary op left right ihl ihr =>
    cases h with
    | binary _ hl hr =>
      have hsymbol : ¬Fused op.symbol := by cases op <;> exact not_infix_literal rfl
      rw [fused_append_right (by decide), fused_append (meets_left rfl),
        fused_append_right (by decide), fused_append (meets_left rfl),
        fused_append_right (by decide), fused_append_left (by decide), ihl hl, ihr hr,
        negatesSigned, Bool.or_eq_true, or_iff_left hsymbol]
  | unary op operand ih =>
    cases h with
    | @unary _ _ _ last text ho =>
      have hhead := ho.head?_eq_minus
      rw [fused_append_right (by decide), negatesSigned, Bool.or_eq_true, ← ih ho]
      cases op with
      | not => rw [fused_append_left (by decide)]; simp
      | neg =>
        by_cases hsigned : operand.isSigned = true
        · obtain ⟨rest, hrest⟩ := head?_eq_some_iff.1 (hhead.2 hsigned)
          refine iff_of_true ⟨['('], rest, ?_⟩ (.inl (by simp [hsigned]))
          simp [hrest, UnaryOp.symbol]
        · have hmeets : Meets isMinus ("(" ++ UnaryOp.neg.symbol).toList text.toList :=
            .inr fun c hc => isMinus_eq_false fun heq => hsigned (hhead.1 (heq ▸ hc))
          rw [fused_append hmeets]
          have hopen : ¬Fused ("(" ++ UnaryOp.neg.symbol) :=
            (fused_append_left (by decide)).not.2 (not_infix_literal (x := ['-']) rfl)
          simp [hopen, hsigned]
  | tuple items ih =>
    cases h with
    | @tuple _ types parts _ between typed all =>
      have hname : '-' ∉ ((positional types).declareName.run between).1.toList :=
        fun hmem => absurd (word_structName _ _ hmem) (by decide)
      rw [fused_append_right (by decide), fused_append_left (by simpa using hname),
        fused_intercalate, negatesSigned]
      clear typed hname
      induction items generalizing table parts with
      | nil =>
        cases all
        simp [anyNegatesSigned]
      | cons e items ihitems =>
        cases all with
        | cons first rest =>
          rw [exists_mem_cons_iff, anyNegatesSigned, Bool.or_eq_true]
          exact or_congr (ih e mem_cons_self first)
            (ihitems (fun e he => ih e (mem_cons_of_mem _ he)) rest)

/-- **Minus signs are fused exactly where a constant with a sign is negated**, if the names of the
fields are identifiers. -/
theorem fused_iff_negatesSigned (hargs : ∀ t ∈ args, ∀ name ∈ t.names, Identifier name)
    (h : (e.code args).run table = .ok (text, table')) : Fused text ↔ e.negatesSigned = true :=
  (written_of_code h).fused_iff fun t ht name hname hmem =>
    absurd ((hargs t ht name hname).1 _ hmem) (by decide)

/-- A negated difference, of which one side has a sign. -/
theorem negatedDifference_fused_iff :
    (∀ t ∈ [[Named.mk "total" (FieldType.atomic .int64)]],
      ∀ name ∈ TupleType.names t, Identifier name) ∧
    ((unary .neg (binary .sub (field 0 0) (literal (.int (-5))))).code
      [[⟨"total", .atomic .int64⟩]]).run [] = .ok ("(-(a0.total - -5L))", []) ∧
      ¬Fused "(-(a0.total - -5L))" := by
  have hargs : ∀ t ∈ [[Named.mk "total" (FieldType.atomic .int64)]],
      ∀ name ∈ TupleType.names t, Identifier name := by
    decide
  have hcode : ((unary .neg (binary .sub (field 0 0) (literal (.int (-5))))).code
      [[⟨"total", .atomic .int64⟩]]).run [] = .ok ("(-(a0.total - -5L))", []) := by cbv
  exact ⟨hargs, hcode, fun h => absurd ((fused_iff_negatesSigned hargs hcode).1 h) (by decide)⟩

/-- A negative integer is negated, and the signs are fused. -/
theorem negatedNegative_fused : (unary .neg (literal (.int (-5)))).infer [] = .ok (.atomic .int64) ∧
    ((unary .neg (literal (.int (-5)))).code []).run [] = .ok ("(--5L)", []) ∧ Fused "(--5L)" := by
  exact ⟨rfl, by cbv, ['('], ['5', 'L', ')'], by decide⟩

end Expr

end Dataflow
