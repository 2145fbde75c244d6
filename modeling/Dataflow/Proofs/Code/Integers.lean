/-
**Integers in generated code.**

An integer of 64 bits is written in decimal, with a sign in front if it is negative.  The sign is no
part of the number behind it, so the least integer has no such spelling: the number is out of range.
Constants in expressions and tuples spell it as a difference, but a range does not.  A constant is a
whole operand: blanks, commas or parentheses stand around it, but for a negation, which is written
right in front of a constant and fuses with its sign.

Main results:

* `Literal.denotes_code` — **an integer constant is spelled by an expression that denotes it**;
* `Expr.Written.spelled`, `Emission.Call.spelled` — expressions and calls spell their integers;
* `Graph.integers_spelled` — **a program spells the integers of all operators**, but for the least
  one in a range and negated ones with a sign, by texts that denote nothing.
-/

import Dataflow.Proofs.Code.Scoping
import Dataflow.Proofs.Code.Signs

namespace Dataflow

/-! ### Spelled integers -/

/-- The constant expressions of 64 bits that integers are spelled by: a decimal number in range,
with a sign in front if the integer is negative, and the difference of such an expression and a
number of 32 bits. -/
inductive Denotes : String → Int → Prop
  | decimal {i : Int} (range : i.natAbs < 2 ^ 63) : Denotes (toString i ++ "L") i
  | difference {text : String} {m : Int} {n : Nat} (first : Denotes text m) (small : n < 2 ^ 31)
      (range : -2 ^ 63 ≤ m - n) : Denotes ("(" ++ text ++ " - " ++ toString n ++ ")") (m - n)

/-- **An integer constant is spelled by an expression that denotes it.** -/
theorem Literal.denotes_code (i : Int64) : Denotes (int i).code i.toInt := by
  rw [code]
  split
  · next h =>
    subst h
    exact .difference (m := -9223372036854775807) (n := 1) (.decimal (by decide))
      (by decide) (by decide)
  · next h =>
    have hlower := i.le_toInt
    have hupper := i.toInt_lt
    have hleast : i.toInt ≠ -2 ^ 63 := fun heq => h (Int64.toInt_inj.1 heq)
    exact .decimal (by omega)

/-- The least integer in decimal denotes nothing. -/
theorem not_denotes_least (i : Int) : ¬Denotes "-9223372036854775808L" i := by
  generalize htext : "-9223372036854775808L" = text
  intro h
  cases h with
  | decimal range =>
    have hdecimal : toString (-9223372036854775808 : Int) = toString i :=
      (String.append_left_inj "L").1 htext
    have hi := Number.toString_int_injective hdecimal
    omega
  | difference =>
    have hmem : '(' ∈ "-9223372036854775808L".toList := by simp [htext]
    exact absurd hmem (by decide)

/-- A sign in front of an integer that has one denotes nothing. -/
theorem not_denotes_negated {j : Int64} (hsigned : (Literal.int j).signed = true) (i : Int) :
    ¬Denotes ("-" ++ (Literal.int j).code) i := by
  obtain ⟨rest, hrest⟩ :=
    List.head?_eq_some_iff.1 ((Literal.signedText_code (.int j)).head.2 hsigned)
  have hlist : ("-" ++ (Literal.int j).code).toList = ['-', '-'] ++ rest := by simp [hrest]
  generalize "-" ++ (Literal.int j).code = text at hlist ⊢
  intro h
  cases h with
  | decimal =>
    have hfused : Fused (toString i ++ "L") := ⟨[], rest, hlist.symm⟩
    exact (signedText_toString i).apart ((fused_append_right (by decide)).1 hfused)
  | difference => simp at hlist

/-- How an integer of a range is spelled: as a constant, by an expression that denotes it, but for
the least one. -/
def RangeSpelling (i : Int64) (text : String) : Prop :=
  if i = Int64.minValue then text = "-9223372036854775808L"
  else text = (Literal.int i).code ∧ Denotes text i.toInt

theorem rangeSpelling_literal (i : Int64) :
    RangeSpelling i (Kind.int64.literal (toString i.toInt)) := by
  by_cases h : i = Int64.minValue
  · subst h
    exact (if_pos rfl).mpr (by decide)
  · have hcode : Kind.int64.literal (toString i.toInt) = (Literal.int i).code := by
      rw [Literal.code, if_neg h]
    exact (if_neg h).mpr ⟨hcode, hcode ▸ Literal.denotes_code i⟩

/-! ### Expressions -/

namespace Expr

/-- A text for an expression in which integers are whole operands that denote them.  The sign of a
constant that is negated is fused with that of the negation. -/
inductive Spelled : Expr → String → Prop
  | integer {i : Int64} (denoted : Denotes (Literal.int i).code i.toInt) :
      Spelled (literal (.int i)) (Literal.int i).code
  | constant {l : Literal} (other : l.kind ≠ .int64) : Spelled (literal l) l.code
  | field (arg index : Nat) (name : String) :
      Spelled (field arg index) ("a" ++ toString arg ++ "." ++ name)
  | binary (op : BinaryOp) {left right : Expr} {l r : String} (first : Spelled left l)
      (second : Spelled right r) :
      Spelled (binary op left right) ("(" ++ l ++ " " ++ op.symbol ++ " " ++ r ++ ")")
  | unary {op : UnaryOp} {operand : Expr} {text : String} (inner : Spelled operand text)
      (apart : ¬(op = .neg ∧ operand.isSigned = true)) :
      Spelled (unary op operand) ("(" ++ op.symbol ++ text ++ ")")
  | fused {l : Literal} (signed : l.signed = true) :
      Spelled (.unary .neg (.literal l)) ("(-" ++ l.code ++ ")")
  | tuple {items : List Expr} {parts : List String} (number : Nat)
      (all : List.Forall₂ Spelled items parts) :
      Spelled (tuple items) (structName number ++ "\x7b" ++ ", ".intercalate parts ++ "\x7d")

theorem spelled_literal (l : Literal) : (literal l).Spelled l.code := by
  cases l with
  | int i => exact .integer (Literal.denotes_code i)
  | _ => exact .constant nofun

/-- **The text of an expression spells its integers.** -/
theorem Written.spelled {args : List TupleType} {e : Expr} {text : String}
    {table table' : StructTable} (h : Written args e table text table') : e.Spelled text := by
  induction e using Expr.induction generalizing table text table' with
  | field =>
    cases h
    exact .field _ _ _
  | literal value =>
    cases h
    exact spelled_literal value
  | binary op left right ihl ihr =>
    cases h with
    | binary _ hl hr => exact .binary op (ihl hl) (ihr hr)
  | unary op operand ih =>
    cases h with
    | unary _ ho =>
      by_cases hfused : op = .neg ∧ operand.isSigned = true
      · obtain ⟨rfl, hsigned⟩ := hfused
        cases operand with
        | literal l =>
          cases ho
          exact .fused hsigned
        | _ => cases hsigned
      · exact .unary (ih ho) hfused
  | tuple items ih =>
    cases h with
    | tuple typed all =>
      refine .tuple _ (((List.forall₂_and_left _ _).2 ⟨fun e he => @ih e he, all.forall₂⟩).imp ?_)
      rintro e part ⟨ihe, before, after, hpart⟩
      exact ihe hpart

end Expr

/-! ### Calls -/

/-- A text for the call that makes an operator in which its integers are spelled. -/
inductive Primitive.Spelled : Primitive → String → Prop
  | range {r : Range} {start stop step : String} (number : Nat)
      (first : RangeSpelling r.start start) (second : RangeSpelling r.stop stop)
      (third : RangeSpelling r.step step) :
      Spelled (.range r)
      ("makeRangeOperator<" ++ structName number ++ ">(" ++ start ++ ", " ++ stop ++
        ", " ++ step ++ ")")
  | constantTuple {values : List Literal} {parts : List String} (number : Nat)
      (all : List.Forall₂ (fun l => (Expr.literal l).Spelled) values parts) :
      Spelled (.constantTuple values) ("makeConstantTupleOperator<" ++ structName number ++ ">(" ++
        structName number ++ "\x7b" ++ ", ".intercalate parts ++ "\x7d)")
  | function {p : Primitive} {maker text result : String} {function : Expr}
      (parameters input : String) (types : List String)
      (given : p.function? = some (maker, function)) (inner : function.Spelled text)
      (returns : Emission.Returns text result) :
      Spelled p (maker ++ parameters ++ ">(&" ++ input ++ ", " ++
      Emission.lambda types result ++ ")")
  | plain {p : Primitive} (value : String) (without : p.isPlain = true) : Spelled p value

/-- **The call that makes an operator spells its integers.** -/
theorem Emission.Call.spelled {P : FieldType → Prop} {found : List Binding}
    {p : Primitive} {value : String} (h : Call P found p value) : p.Spelled value := by
  cases h with
  | range r number =>
    exact .range number (rangeSpelling_literal _) (rangeSpelling_literal _)
      (rangeSpelling_literal _)
  | constantTuple values number =>
    refine .constantTuple number (List.forall₂_map_right_iff.2 (List.forall₂_same.2 fun l _ => ?_))
    exact Expr.spelled_literal l
  | lookup plain | one plain | two plain | more plain => exact .plain _ plain
  | function given begins _ _ _ _ _ written returns =>
    obtain ⟨parameters, rfl⟩ := begins
    exact .function parameters _ _ given written.spelled returns

/-! ### Programs -/

namespace Graph

/-- **A program spells the integers of all operators**, at all levels, in the only statement that
makes the variable of the operator: each as a whole operand, and by a constant expression that
denotes it.  The least integer in a range and integers with a sign that are negated are the
exceptions; what is written for them denotes nothing. -/
theorem integers_spelled {g : Dag} {comments : Bool} {program : Program} (hg : g.Numbered)
    (h : g.program comments = .ok program) :
    (∃ u : CodeUnit, g.codeUnit comments = .ok u ∧ program = ⟨u.source, u.header⟩ ∧
      (introduced u.body).Nodup ∧ ∀ path p, g.operatorAt? path = some (.primitive p) →
        p.tag ≠ .parameterLookup →
          ∃ value, .declare (variableAt path) value ∈ u.body ∧ p.Spelled value) ∧
    (∀ i, ¬Denotes "-9223372036854775808L" i) ∧
    ∀ j i, (Literal.int j).signed = true → ¬Denotes ("-" ++ (Literal.int j).code) i := by
  obtain ⟨u, hunit, hprogram⟩ := Outcome.bind_eq_ok_iff.1 h
  obtain ⟨hscoped, hmakes⟩ := scoped_codeUnit hg g.declares_unnamed hunit
  refine ⟨⟨u, hunit, (Except.ok.inj hprogram).symm, hscoped.ordered.distinct,
    fun path p hp htag => ?_⟩, not_denotes_least, fun j i hsigned => not_denotes_negated hsigned i⟩
  obtain ⟨found, value, hmem, hcall⟩ := hmakes path p hp htag
  exact ⟨value, hmem, hcall.spelled⟩

/-- The numbers from the least one up, to each of which a negated constant with a sign is added. -/
def leastUp : Dag where
  nodes := [⟨0, .primitive (.range ⟨Int64.minValue, 0, 1⟩), {}⟩,
    ⟨1, .primitive (.map (.binary .add (.field 0 0) (.unary .neg (.literal (.int (-5)))))), {}⟩]
  edges := [⟨0, 0, 1, 0⟩]
  sink := some 1
  nextId := 2

/-- The statements that make them. -/
def leastUpStatements : List Statement :=
  [.declare "op_0" "makeRangeOperator<tuple_0>(-9223372036854775808L, 0L, 1L)",
    .declare "op_1" ("makeMapOperator<tuple_0>(&op_0, [](const tuple_0 &a0) \x7b return " ++
      "tuple_0\x7b(a0.v0 + (--5L))\x7d; \x7d)")]

theorem codeUnit_leastUp : ∃ u, leastUp.codeUnit true = .ok u ∧ leastUpStatements ⊆ u.body := by
  have hvalid : leastUp.validate = .ok () := by cbv
  have htypes : leastUp.types =
    .ok ⟨[(0, [⟨"v0", .atomic .int64⟩]), (1, [⟨"v0", .atomic .int64⟩])], []⟩ := by cbv
  have htrace : leastUp.trace .forward =
      .ok (leastUp.nodes.flatMap fun node => [⟨.enter, node, leastUp⟩,
      ⟨.exit, node, leastUp⟩]) := by cbv
  have hmapped : (leastUp.codeUnit true).toOption.map
      (fun u => decide (∀ s ∈ leastUpStatements, s ∈ u.body)) = some true := by
    rw [codeUnit_of_trace hvalid htypes rfl htrace]
    decide +kernel
  obtain ⟨u, hunit, hmem⟩ := Option.map_eq_some_iff.1 hmapped
  exact ⟨u, Outcome.toOption_eq_some_iff.1 hunit, of_decide_eq_true hmem⟩

theorem leastUp_spelled : leastUp.Numbered ∧ ∃ program u, leastUp.program true = .ok program ∧
    leastUp.codeUnit true = .ok u ∧ (introduced u.body).Nodup ∧
      (∃ value, .declare "op_0" value ∈ u.body ∧
        (Primitive.range ⟨Int64.minValue, 0, 1⟩).Spelled value) ∧
      ∃ value, .declare "op_1" value ∈ u.body ∧ Primitive.Spelled
        (.map (.binary .add (.field 0 0) (.unary .neg (.literal (.int (-5)))))) value := by
  have hg : leastUp.Numbered := isNumbered_iff.1 (by cbv)
  obtain ⟨u, hunit, -⟩ := codeUnit_leastUp
  have hprogram : leastUp.program true = .ok ⟨u.source, u.header⟩ := by
    rw [program, hunit]
    rfl
  obtain ⟨⟨u', hunit', -, hdistinct, hspelled⟩, -⟩ := integers_spelled hg hprogram
  exact ⟨hg, _, u', hprogram, hunit', hdistinct, hspelled [0] _ rfl (by decide),
    hspelled [1] _ rfl (by decide)⟩

/-- The range and a constant spell the least integer in different ways, and the range by a text that
denotes nothing; so does the negation of a constant with a sign. -/
theorem leastUp_not_denoted :
    (∃ u, leastUp.codeUnit true = .ok u ∧ leastUpStatements ⊆ u.body) ∧
    (∀ i, ¬Denotes "-9223372036854775808L" i) ∧ (∀ i, ¬Denotes "--5L" i) ∧
    (Literal.int Int64.minValue).code = "(-9223372036854775807L - 1)" :=
  ⟨codeUnit_leastUp, not_denotes_least, not_denotes_negated (j := -5) (by decide), rfl⟩

end Graph

end Dataflow
