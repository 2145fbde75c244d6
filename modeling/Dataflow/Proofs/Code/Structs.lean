/-
**The structs that code declares.**

The types of variables, of expressions and of the result are spelled in code, and every tuple type
in them is declared as a struct.  A struct that is declared stays, and its members refer to earlier
structs only.

Main definitions:

* `TypeText`, `MembersText` — how types and members are spelled, with the structs that they refer
  to;
* `StructTable.Built` — tables of structs for tuple types with a property;
* `Expr.Written` — how expressions are written.

Main results:

* `FieldType.built_spell` — **spelling a type keeps the table built**, and what is in it;
* `Expr.written_of_code`, `Expr.built_code` — so does writing an expression.
-/

import Dataflow.Code.Program
import Dataflow.Proofs.Meaning.Inherited

namespace Dataflow

open List Outcome

/-! ### Spelled types -/

/-- The spelling of a type, and the structs that it refers to. -/
inductive TypeText : String → List Nat → Prop
  | atomic (kind : Kind) : TypeText kind.cType []
  | struct (number : Nat) : TypeText (structName number) [number]
  | array {text : String} {needs : List Nat} (element : TypeText text needs) :
      TypeText ("Array<" ++ text ++ ">") needs

/-- The spelling of members of some names, and the structs that it refers to. -/
inductive MembersText : List String → String → List Nat → Prop
  | nil : MembersText [] "" []
  | cons {type name members : String} {names : List String} {needs more : List Nat}
      (spelled : TypeText type needs) (rest : MembersText names members more) :
      MembersText (name :: names) (type ++ " " ++ name ++ "; " ++ members) (needs ++ more)

/-- A table of structs for tuple types with a property, which refer to earlier structs only. -/
def StructTable.Built (P : FieldType → Prop) (table : StructTable) : Prop :=
  ∀ (number : Nat) (s : Struct), table[number]? = some s → ∃ fields members, P (.tuple fields) ∧
    MembersText (TupleType.names fields) members s.needs ∧ s.body = "\x7b " ++ members ++ "\x7d" ∧
    ∀ m ∈ s.needs, m < number

open FieldType StructTable

variable {P : FieldType → Prop} {table : StructTable} {t : TupleType}

theorem StructTable.built_nil : Built P [] := by
  intro number s hs
  cases hs

theorem StructTable.run_enter (body : String) (needs : List Nat) (table : StructTable) :
    (enter body needs).run table = match table.findIdx? (·.body == body) with
      | some number => (number, table)
      | none => (table.length, table ++ [⟨body, needs⟩]) := by
  have hrun : (enter body needs).run table = (match table.findIdx? (·.body == body) with
      | some number => pure number
      | none => do
        set (table ++ [⟨body, needs⟩])
        return table.length : StateM StructTable Nat).run table := rfl
  rw [hrun]
  split <;> rfl

/-- A struct is entered behind the others, unless there is one with its body. -/
theorem StructTable.built_enter {fields : TupleType} {members : String}
    {needs : List Nat} {number : Nat} {table' : StructTable} (htable : Built P table)
    (hfields : P (.tuple fields)) (hmembers : MembersText fields.names members needs)
    (hneeds : ∀ m ∈ needs, m < table.length)
    (h : (enter ("\x7b " ++ members ++ "\x7d") needs).run table = (number, table')) :
    Built P table' ∧ table <+: table' ∧ ∃ s, table'[number]? = some s ∧
      s.body = "\x7b " ++ members ++ "\x7d" := by
  rw [run_enter] at h
  split at h
  · next found hfound =>
    cases h
    obtain ⟨hlt, hbody, -⟩ := findIdx?_eq_some_iff_getElem.1 hfound
    exact ⟨htable, prefix_rfl, table[number], getElem?_eq_getElem hlt, eq_of_beq hbody⟩
  · cases h
    refine ⟨?_, prefix_append _ _, _, getElem?_concat_length, rfl⟩
    intro number s hs
    rcases Nat.lt_trichotomy number table.length with hlt | rfl | hgt
    · rw [getElem?_append_left hlt] at hs
      exact htable number s hs
    · rw [getElem?_concat_length] at hs
      cases hs
      exact ⟨fields, members, hfields, hmembers, rfl, hneeds⟩
    · rw [getElem?_eq_none (by rw [List.length_append, List.length_singleton]; omega)] at hs
      cases hs

namespace FieldType

theorem run_spell_array (element : FieldType) (table : StructTable) :
    (array element).spell.run table =
      (("Array<" ++ (element.spell.run table).1.1 ++ ">", (element.spell.run table).1.2),
        (element.spell.run table).2) := by
  rw [spell]
  rfl

theorem run_spell_tuple (fields : TupleType) (table : StructTable) :
    (tuple fields).spell.run table =
      let members := (spellMembers fields).run table
      let entered := (enter ("\x7b " ++ members.1.1 ++ "\x7d") members.1.2).run members.2
      ((structName entered.1, [entered.1]), entered.2) := by
  rw [spell]
  rfl

theorem run_spellMembers_cons (name : String) (type : FieldType) (rest : TupleType)
    (table : StructTable) :
    (spellMembers (⟨name, type⟩ :: rest)).run table =
      let first := type.spell.run table
      let others := (spellMembers rest).run first.2
      ((first.1.1 ++ " " ++ name ++ "; " ++ others.1.1, first.1.2 ++ others.1.2), others.2) := by
  rw [spellMembers]
  rfl

/-- The struct of a tuple type is declared as where it is spelled. -/
theorem run_declareName (t : TupleType) (table : StructTable) :
    t.declareName.run table = (((tuple t).spell.run table).1.1, ((tuple t).spell.run table).2) := by
  rw [run_spell_tuple]
  rfl

/-- What spelling some type does to a table: the table stays built and keeps what it has, and the
text refers to structs that are in it. -/
structure Spelling (P : FieldType → Prop) (Text : String → List Nat → Prop) (table : StructTable)
    (spelled : (String × List Nat) × StructTable) : Prop where
  text : Text spelled.1.1 spelled.1.2
  built : Built P spelled.2
  kept : table <+: spelled.2
  known : ∀ m ∈ spelled.1.2, m < spelled.2.length

theorem spelling_members {fields : TupleType}
    (ih : ∀ f ∈ fields, ∀ table, Built P table → Spelling P TypeText table (f.type.spell.run table))
    (htable : Built P table) :
    Spelling P (MembersText fields.names) table ((spellMembers fields).run table) := by
  induction fields generalizing table with
  | nil => exact ⟨.nil, htable, prefix_rfl, nofun⟩
  | cons field fields ihfields =>
    obtain ⟨name, type⟩ := field
    rw [run_spellMembers_cons]
    have hfirst := ih ⟨name, type⟩ mem_cons_self table htable
    have hothers := ihfields (fun f hf => ih f (mem_cons_of_mem _ hf)) hfirst.built
    refine ⟨.cons hfirst.text hothers.text, hothers.built,
      hfirst.kept.trans hothers.kept, fun m hm => ?_⟩
    rcases mem_append.1 hm with hm | hm
    · exact Nat.lt_of_lt_of_le (hfirst.known m hm) hothers.kept.length_le
    · exact hothers.known m hm

/-- **Spelling a type** keeps the table built and what is in it. -/
theorem built_spell (hP : Inherited P) {t : FieldType} (ht : P t) (htable : Built P table) :
    Spelling P TypeText table (t.spell.run table) := by
  induction t using FieldType.induction generalizing table with
  | atomic kind => exact ⟨.atomic kind, htable, prefix_rfl, nofun⟩
  | array element ih =>
    rw [run_spell_array]
    have helement := ih ((hP.array element).1 ht) htable
    exact ⟨.array helement.text, helement.built, helement.kept, helement.known⟩
  | tuple fields ih =>
    rw [run_spell_tuple]
    have hmembers := spelling_members
      (fun f hf table => ih f hf (hP.field fields ht f.type (List.mem_map_of_mem hf))) htable
    obtain ⟨hbuilt, hkept, s, hs, -⟩ :=
      built_enter hmembers.built ht hmembers.text hmembers.known rfl
    refine ⟨.struct _, hbuilt, hmembers.kept.trans hkept, fun m hm => ?_⟩
    cases mem_singleton.1 hm
    exact (List.getElem?_eq_some_iff.1 hs).1

end FieldType

/-! ### Expressions -/

theorem built_declare (hP : Inherited P) (ht : P (.tuple t)) (htable : Built P table) :
    Built P (t.declareName.run table).2 := by
  rw [FieldType.run_declareName]
  exact (FieldType.built_spell hP ht htable).built

namespace Expr

mutual

/-- How an expression is written: its text, and the tables of structs before and after. -/
inductive Written (args : List TupleType) : Expr → StructTable → String → StructTable → Prop
  | field {arg index : Nat} {table : StructTable} {named : Named FieldType}
      (found : args[arg]?.bind (·[index]?) = some named) :
      Written args (field arg index) table ("a" ++ toString arg ++ "." ++ named.name) table
  | literal (value : Literal) {table : StructTable} :
      Written args (literal value) table value.code table
  | binary (op : BinaryOp) {left right : Expr} {table between last : StructTable} {l r : String}
      (first : Written args left table l between) (second : Written args right between r last) :
      Written args (binary op left right)
      table ("(" ++ l ++ " " ++ op.symbol ++ " " ++ r ++ ")") last
  | unary (op : UnaryOp) {operand : Expr} {table last : StructTable} {text : String}
      (inner : Written args operand table text last) :
      Written args (unary op operand) table ("(" ++ op.symbol ++ text ++ ")") last
  | tuple {items : List Expr} {types : List FieldType} {parts : List String}
      {table between : StructTable} (typed : inferAll args items = .ok types)
      (all : WrittenAll args items table parts between) :
      Written args (tuple items)
      table (((TupleType.positional types).declareName.run between).1 ++ "\x7b" ++
        ", ".intercalate parts ++ "\x7d") ((TupleType.positional types).declareName.run between).2

/-- How expressions are written one after the other. -/
inductive WrittenAll (args : List TupleType) :
    List Expr → StructTable → List String → StructTable → Prop
  | nil {table : StructTable} : WrittenAll args [] table [] table
  | cons {e : Expr} {items : List Expr} {table between last : StructTable} {part : String}
      {parts : List String} (first : Written args e table part between)
      (rest : WrittenAll args items between parts last) :
      WrittenAll args (e :: items) table (part :: parts) last

end

variable {args : List TupleType} {text : String}

theorem writtenAll_of_codeAll {items : List Expr} {texts : List String} {table' : StructTable}
    (ih : ∀ e ∈ items, ∀ {table : StructTable} {text : String} {table' : StructTable},
      (e.code args).run table = .ok (text, table') → Written args e table text table')
    (h : (codeAll args items).run table = .ok (texts, table')) :
      WrittenAll args items table texts table' := by
  induction items generalizing table texts with
  | nil =>
    cases h
    exact .nil
  | cons e items ihitems =>
    rw [codeAll] at h
    simp only [StateT.run_bind, bind_eq_ok_iff] at h
    obtain ⟨⟨part, between⟩, hpart, ⟨parts, last⟩, hparts, h⟩ := h
    cases h
    exact .cons (ih e mem_cons_self hpart)
      (ihitems (fun e he => ih e (mem_cons_of_mem _ he)) hparts)

/-- **The text of an expression is written so.** -/
theorem written_of_code {e : Expr} {table' : StructTable}
    (h : (e.code args).run table = .ok (text, table')) : Written args e table text table' := by
  induction e using Expr.induction generalizing table text table' with
  | field arg index =>
    rw [code] at h
    cases hnamed : args[arg]?.bind (·[index]?) with
    | none =>
      rw [hnamed] at h
      cases h
    | some named =>
      rw [hnamed] at h
      cases h
      exact .field hnamed
  | literal value =>
    cases h
    exact .literal value
  | binary op left right ihl ihr =>
    rw [code] at h
    simp only [StateT.run_bind, bind_eq_ok_iff] at h
    obtain ⟨⟨l, between⟩, hl, ⟨r, last⟩, hr, h⟩ := h
    cases h
    exact .binary op (ihl hl) (ihr hr)
  | unary op operand ih =>
    rw [code] at h
    simp only [StateT.run_bind, bind_eq_ok_iff] at h
    obtain ⟨⟨o, last⟩, ho, h⟩ := h
    cases h
    exact .unary op (ih ho)
  | tuple items ih =>
    rw [code] at h
    simp only [StateT.run_bind, bind_eq_ok_iff] at h
    obtain ⟨⟨types, start⟩, htypes, ⟨parts, between⟩, hparts, named, hnamed, h⟩ := h
    obtain ⟨rfl, hinfer⟩ : start = table ∧ inferAll args items = .ok types := by
      cases hall : inferAll args items with
      | error failure =>
        rw [hall] at htypes
        cases htypes
      | ok types =>
        rw [hall] at htypes
        cases htypes
        exact ⟨rfl, rfl⟩
    cases hnamed
    cases h
    exact .tuple hinfer (writtenAll_of_codeAll ih hparts)

/-- The parts of a tuple are written one by one. -/
theorem WrittenAll.forall₂ {items : List Expr} {parts : List String} {table' : StructTable}
    (h : WrittenAll args items table parts table') : Forall₂ (fun e part =>
      ∃ before after, Written args e before part after) items parts := by
  induction items generalizing table parts with
  | nil =>
    cases h
    exact .nil
  | cons e items ih =>
    cases h with
    | cons first rest => exact .cons ⟨_, _, first⟩ (ih rest)

/-- **Writing an expression** declares tuples named by position, whose fields have types of the
arguments. -/
theorem built_code (hP : Inherited P) (hargs : ∀ t ∈ args, P (.tuple t)) {e : Expr}
    {table' : StructTable} (htable : Built P table)
    (h : (e.code args).run table = .ok (text, table')) : Built P table' := by
  replace h := written_of_code h
  induction e using Expr.induction generalizing table text table' with
  | field | literal =>
    cases h
    exact htable
  | binary op left right ihl ihr =>
    cases h with
    | binary _ hl hr => exact ihr (ihl htable hl) hr
  | unary op operand ih =>
    cases h with
    | unary _ ho => exact ih htable ho
  | tuple items ih =>
    cases h with
    | @tuple _ types parts _ between hinfer hparts =>
      refine built_declare hP (hP.positional types fun t ht => ?_) ?_
      · rw [inferAll_eq_mapM] at hinfer
        obtain ⟨item, -, hitem⟩ := mem_of_mapM hinfer ht
        exact inherited_infer hP hargs hitem
      · clear hinfer
        induction items generalizing table parts with
        | nil =>
          cases hparts
          exact htable
        | cons e items ihitems =>
          cases hparts with
          | cons hpart hparts =>
            exact ihitems (fun e he => ih e (mem_cons_of_mem _ he))
              (ih e mem_cons_self htable hpart) hparts

end Expr

/-- The type of the elements of a result: what a row vector holds, and tuples as they are. -/
def TupleType.resultElement (t : TupleType) : FieldType := t.rowVector?.getD (.tuple t)

theorem TupleType.inherited_resultElement (hP : Inherited P) (ht : P (.tuple t)) :
    P t.resultElement := by
  rw [resultElement]
  cases hvector : t.rowVector? with
  | none => exact ht
  | some element => exact hP.rowVector? ht hvector

/-- A code unit at the end of a program: the type of the elements was spelled last, with structs for
types with a property. -/
def CodeUnit.Ends (P : FieldType → Prop) (element : FieldType) (u : CodeUnit) : Prop :=
  ∃ table, Built P table ∧ u.structs = (element.spell.run table).2 ∧
    u.elementType = (element.spell.run table).1.1 ∧
    u.elementRoots = (element.spell.run table).1.2.map structName

end Dataflow
