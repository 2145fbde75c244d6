/-
**The names in generated code.**

A name stands where a word begins that is no member: a word right behind another one and a dot.  The
variables of operators begin alike, so those that a text refers to can be read off it.  The function
that an operator is given refers to none of them, and of parameters to its own only, since all else
in it are members, structs and constants; this takes that the names of the fields are identifiers.

Main definitions:

* `names`, `variablesIn` — the names in a text, and those of them that are variables of operators;
* `Closed` — a text that refers to no variable, and to the first parameters only.

Main results:

* `names_append` — the names in texts that meet;
* `Expr.Written.closed`, `Emission.closed_lambda` — **functions refer to their own parameters
  only**.
-/

import Dataflow.Proofs.Code.Structs
import Dataflow.Proofs.Code.Texts

namespace Dataflow

open List String

/-! ### Reading names -/

/-- Whether a character can stand in a name or in the members behind it. -/
def isChain (c : Char) : Bool := isWord c || c = '.'

/-- The names in a text; `inside` tells whether a name or a member goes on with it. -/
def namesFrom (inside : Bool) : List Char → List String
  | [] => []
  | c :: rest =>
    (if isWord c && !inside then [ofList ((c :: rest).takeWhile isWord)] else [])
      ++ namesFrom (isChain c) rest

def names (text : String) : List String := namesFrom false text.toList

/-- Whether a name is that of the variable of an operator. -/
def isVariable (name : String) : Bool := "op_".toList.isPrefixOf name.toList

/-- The variables of operators that a text refers to. -/
def variablesIn (text : String) : List String := (names text).filter isVariable

/-- The member at the end is named like a variable. -/
example : variablesIn "make<tuple_1>(&op_4, [](const tuple_1 &a0) \x7b return a0.op_7; \x7d)" =
    ["op_4"] := by
  decide

variable {x y : List Char} {s t v : String} {inside : Bool} {n : Nat}

theorem isWord_eq_false {c : Char} (h : isChain c = false) : isWord c = false :=
  (Bool.or_eq_false_iff.1 h).1

theorem namesFrom_of_head (h : ∀ c, y.head? = some c → isChain c = false) :
    namesFrom inside y = namesFrom false y := by
  cases y with
  | nil => rfl
  | cons c y => simp [namesFrom, isWord_eq_false (h c rfl)]

theorem takeWhile_of_meets (hx : x ≠ []) (h : Meets isWord x y) :
    (x ++ y).takeWhile isWord = x.takeWhile isWord := by
  rw [takeWhile_append]
  split
  · next hall =>
    have hself := takeWhile_prefix isWord |>.eq_of_length hall
    rcases h with hlast | hhead
    · have hword := takeWhile_eq_self_iff.1 hself _ (getLast_mem hx)
      rw [hlast _ (getLast?_eq_some_getLast hx)] at hword
      cases hword
    · have hnil : y.takeWhile isWord = [] := by
        cases y with
        | nil => rfl
        | cons c y => exact takeWhile_cons_of_neg (by simp [hhead c rfl])
      rw [hnil, hself, append_nil]
  · rfl

/-- The names in two texts, if the first ends or the second begins outside names. -/
theorem namesFrom_append (h : (x.getLast?.map isChain).getD inside = false ∨
    ∀ c, y.head? = some c → isChain c = false) :
    namesFrom inside (x ++ y) = namesFrom inside x ++ namesFrom false y := by
  induction x generalizing inside with
  | nil =>
    rcases h with h | h
    · rw [show inside = false from h]
      rfl
    · exact namesFrom_of_head h
  | cons c x ih =>
    have hmeets : Meets isWord (c :: x) y := by
      refine h.imp (fun h d hd => ?_) fun h d hd => isWord_eq_false (h d hd)
      rw [hd] at h
      exact isWord_eq_false h
    rw [getLast?_cons, Option.map_some, Option.getD_some,
      ← Option.getD_map isChain c x.getLast?] at h
    rw [cons_append, namesFrom, namesFrom, ih h, List.append_assoc, ← cons_append,
      takeWhile_of_meets (cons_ne_nil c x) hmeets]

theorem names_append (h : Meets isChain s.toList t.toList) :
    names (s ++ t) = names s ++ names t := by
  rw [names, toList_append]
  refine namesFrom_append (h.imp_left fun hlast => ?_)
  cases hs : s.toList.getLast? with
  | none => rfl
  | some c => exact hlast c hs

theorem infix_of_mem_namesFrom (h : v ∈ namesFrom inside x) : v.toList <:+: x := by
  induction x generalizing inside with
  | nil => cases h
  | cons c x ih =>
    rw [namesFrom, mem_append] at h
    rcases h with h | h
    · split at h
      · rw [mem_singleton.1 h, toList_ofList]
        exact takeWhile_prefix _ |>.isInfix
      · cases h
    · exact (ih h).trans (suffix_cons c x).isInfix

theorem namesFrom_true (h : ∀ c ∈ x, isChain c = true) : namesFrom true x = [] := by
  induction x with
  | nil => rfl
  | cons c x ih =>
    obtain ⟨hc, hx⟩ := forall_mem_cons.1 h
    simp [namesFrom, hc, ih hx]

/-- A name with members behind it. -/
theorem names_chain (hs : Word s) (hne : s.toList ≠ []) (ht : ∀ c ∈ t.toList, isChain c = true)
    (hdot : ∀ c, t.toList.head? = some c → isWord c = false) : names (s ++ t) = [s] := by
  obtain ⟨c, rest, hcons⟩ := exists_cons_of_ne_nil hne
  have hword : (s ++ t).toList.takeWhile isWord = s.toList := by
    rw [toList_append, takeWhile_of_meets hne (.inr hdot)]
    exact takeWhile_eq_self_iff.2 hs
  have hchain : ∀ d ∈ rest ++ t.toList, isChain d = true := by
    intro d hd
    rcases mem_append.1 hd with hd | hd
    · simp [isChain, hs d (hcons ▸ mem_cons_of_mem _ hd)]
    · exact ht d hd
  have hc : isWord c = true := hs c (hcons ▸ mem_cons_self)
  rw [names]
  rw [toList_append, hcons, cons_append] at hword ⊢
  rw [namesFrom, hword, ← hcons, ofList_toList, show isChain c = true by simp [isChain, hc],
    namesFrom_true hchain, hc]
  rfl

theorem names_word (hs : Word s) (hne : s.toList ≠ []) : names s = [s] := by
  have h := names_chain (t := "") hs hne nofun nofun
  rwa [append_empty] at h

/-! ### Closed texts -/

/-- Whether a name is that of a parameter of a function. -/
def isParameter (name : String) : Bool := match name.toList with
  | 'a' :: c :: rest => (c :: rest).all Char.isDigit
  | _ => false

/-- A name that a text may have: of the variables of operators one that it takes, and of parameters
one of the first `n`. -/
def Allowed (taken : List String) (n : Nat) (name : String) : Prop :=
  (isVariable name = true → name ∈ taken) ∧
    (isParameter name = true → ∃ k < n, name = "a" ++ toString k)

variable {taken : List String}

instance : Decidable (Allowed taken n v) := inferInstanceAs (Decidable (_ ∧ _))

/-- A text that refers to no variables of operators but those that it takes, and to the first `n`
parameters only. -/
def Closed (taken : List String) (n : Nat) (text : String) : Prop :=
  ∀ v ∈ names text, Allowed taken n v

instance : Decidable (Closed taken n s) := decidableBAll _ _

theorem Allowed.mono (h : Allowed [] 0 v) : Allowed taken n v :=
  ⟨fun hvariable => by simpa using h.1 hvariable, fun hparameter => by simpa using h.2 hparameter⟩

theorem Closed.mono (h : Closed [] 0 s) : Closed taken n s := fun v hv => (h v hv).mono

theorem Closed.of_subset {made : List String} (h : Closed taken n s) (hsubset : taken ⊆ made) :
    Closed made n s :=
  fun v hv => ⟨fun hvariable => hsubset ((h v hv).1 hvariable), (h v hv).2⟩

theorem closed_of_word (hs : Word s) (hne : s.toList ≠ []) (h : Allowed taken n s) :
    Closed taken n s := by
  intro v hv
  rw [names_word hs hne, mem_singleton] at hv
  exact hv ▸ h

theorem Closed.append (hs : Closed taken n s) (ht : Closed taken n t)
    (h : Meets isChain s.toList t.toList) :
    Closed taken n (s ++ t) := by
  intro v hv
  rw [names_append h, mem_append] at hv
  exact hv.elim (hs v) (ht v)

/-! Marks keep names apart from what stands before and behind them. -/

theorem closed_literal (h : ∀ v ∈ namesFrom false x, Allowed [] 0 v) :
    Closed taken n (ofList x) := by
  intro v hv
  rw [names, toList_ofList] at hv
  exact (h v hv).mono

/-- A text that is written out, with marks around its names. -/
def Mark (x : List Char) : Prop := x.head?.map isChain = some false ∧
  x.getLast?.map isChain = some false ∧ ∀ v ∈ namesFrom false x, Allowed [] 0 v

instance : DecidablePred Mark := fun _ => inferInstanceAs (Decidable (_ ∧ _ ∧ _))

theorem Closed.behind (ht : Closed taken n t) (hx : x.getLast?.map isChain = some false)
    (hnames : ∀ v ∈ namesFrom false x, Allowed [] 0 v) : Closed taken n (ofList x ++ t) :=
  (closed_literal hnames).append ht (meets_literal_left hx)

theorem Closed.before (hs : Closed taken n s) (hx : Mark x) :
    Closed taken n (s ++ ofList x) :=
  hs.append (closed_literal hx.2.2) (meets_literal_right hx.1)

theorem Closed.join (hs : Closed taken n s) (ht : Closed taken n t) (hx : Mark x) :
    Closed taken n (s ++ ofList x ++ t) :=
  (hs.before hx).append ht (meets_left hx.2.1)

theorem closed_intercalate {texts : List String} (h : ∀ text ∈ texts, Closed taken n text) :
    Closed taken n (", ".intercalate texts) := by
  induction texts with
  | nil => exact closed_literal (x := []) nofun
  | cons text texts ih =>
    obtain ⟨htext, htexts⟩ := forall_mem_cons.1 h
    cases texts with
    | nil => rwa [String.intercalate_singleton]
    | cons next texts =>
      rw [String.intercalate_cons_cons]
      exact htext.join (ih htexts) (by decide)

theorem closed_of_not_mem (ha : 'a' ∉ s.toList) (hunderscore : '_' ∉ s.toList) :
    Closed taken n s := by
  intro v hv
  have hpart := (infix_of_mem_namesFrom hv).subset
  refine ⟨fun hvariable => ?_, fun hparameter => ?_⟩
  · have hstart := isPrefixOf_iff_prefix.1 hvariable
    exact absurd (hpart (hstart.subset (by decide))) hunderscore
  · rw [isParameter] at hparameter
    split at hparameter
    · next heq => exact absurd (hpart (heq ▸ mem_cons_self)) ha
    · cases hparameter

theorem closed_structName (number : Nat) : Closed taken n (structName number) := by
  refine closed_of_word (word_structName number) (structName_ne_nil number) ⟨?_, ?_⟩
  · simp [isVariable, structName, List.isPrefixOf]
  · simp [isParameter, structName]

/-! ### Functions -/

theorem closed_decimal (h : ∀ c ∈ s.toList, Number.isDecimal c = true) (ha : 'a' ∉ t.toList)
    (hunderscore : '_' ∉ t.toList) : Closed taken n (s ++ t) := by
  refine closed_of_not_mem ?_ ?_ <;> rw [toList_append, mem_append, not_or]
  · exact ⟨fun hmem => absurd (h _ hmem) (by decide), ha⟩
  · exact ⟨fun hmem => absurd (h _ hmem) (by decide), hunderscore⟩

theorem closed_int64 (i : Int64) : Closed taken n (Kind.int64.literal (toString i.toInt)) :=
  closed_decimal (fun _ => Number.isDecimal_of_mem_toString) (by decide) (by decide)

theorem Literal.closed_code (l : Literal) : Closed taken n l.code := by
  cases l with
  | bool b => cases b <;> exact closed_literal (by decide)
  | int i =>
    rw [code]
    split
    · exact closed_literal (by decide)
    · exact closed_int64 i
  | float x =>
    rw [code]
    split
    · exact closed_literal (by decide)
    · split
      · split <;> exact Closed.mono (by decide)
      · rw [Kind.literal]
        rcases Number.Layout.plain.render_cases x with h | ⟨sign, hsign, h⟩ | h
        · rw [h]
          exact Closed.mono (by decide)
        · rw [h]
          exact ((by decide : ∀ sign ∈ ["-", ""],
            Closed [] 0 (Kind.pointed (sign ++ Number.Layout.plain.infinity))) sign hsign).mono
        · simp only [Kind.pointed]
          split
          · rw [← append_empty (s := Number.Layout.plain.render x)]
            exact closed_decimal h nofun nofun
          · exact closed_decimal h (by decide) (by decide)

theorem closed_toString (k : Nat) : Closed taken n (toString k) := by
  refine closed_of_not_mem ?_ ?_
  · exact fun hmem => absurd (Number.isDigit_of_mem_toString hmem) (by decide)
  · exact fun hmem => absurd (Number.isDigit_of_mem_toString hmem) (by decide)

theorem word_parameter (k : Nat) : Word ("a" ++ toString k) ∧ ("a" ++ toString k).toList ≠ [] :=
  ⟨Word.append (by decide) (word_toString k), by simp⟩

theorem allowed_parameter {k : Nat} (h : k < n) : Allowed taken n ("a" ++ toString k) :=
  ⟨by simp [isVariable, List.isPrefixOf], fun _ => ⟨k, h, rfl⟩⟩

namespace Expr

variable {args : List TupleType} {e : Expr} {text : String} {table table' : StructTable}

/-- **The text of an expression refers to the parameters of its function only**, if the names of the
fields are identifiers. -/
theorem Written.closed (hargs : ∀ t ∈ args, ∀ name ∈ TupleType.names t, Identifier name)
    (h : Written args e table text table') : Closed taken args.length text := by
  induction e using Expr.induction generalizing table text table' with
  | literal value =>
    cases h
    exact value.closed_code
  | field arg index =>
    cases h with
    | @field _ _ _ named found =>
      obtain ⟨t, ht, hnamed⟩ := Option.bind_eq_some_iff.1 found
      have hname := hargs t (mem_of_getElem? ht) named.name
        (List.mem_map_of_mem (mem_of_getElem? hnamed))
      have hmember : ∀ c ∈ ("." ++ named.name).toList, isChain c = true := by
        intro c hc
        rw [toList_append, mem_append] at hc
        rcases hc with hc | hc
        · obtain rfl : c = '.' := by simpa using hc
          rfl
        · simp [isChain, hname.1 c hc]
      rw [String.append_assoc]
      intro v hv
      rw [names_chain (word_parameter arg).1 (word_parameter arg).2 hmember (by simp [isWord]),
        mem_singleton] at hv
      exact hv ▸ allowed_parameter (List.getElem?_eq_some_iff.1 ht).1
  | binary op left right ihl ihr =>
    cases h with
    | binary _ hl hr =>
      have hsymbol : Closed taken args.length op.symbol := by
        cases op <;> exact closed_literal (by decide)
      exact ((((ihl hl).behind rfl (by decide)).join hsymbol (by decide)).join
        (ihr hr) (by decide)).before (by decide)
  | unary op operand ih =>
    cases h with
    | unary _ ho =>
      have hopen : Closed taken args.length "(" := closed_literal (by decide)
      cases op with
      | not => exact (hopen.join (ih ho) (by decide)).before (by decide)
      | neg => exact (hopen.join (ih ho) (by decide)).before (by decide)
  | tuple items ih =>
    cases h with
    | @tuple _ types parts _ between typed all =>
      have hparts : ∀ part ∈ parts, Closed taken args.length part := by
        intro part hpart
        obtain ⟨i, hi⟩ := mem_iff_getElem?.1 hpart
        obtain ⟨e, he, _, _, hwritten⟩ := exists_of_forall₂ all.forall₂.flip hi
        exact ih e (mem_of_getElem? he) hwritten
      have hname : Closed taken args.length
        ((TupleType.positional types).declareName.run between).1 :=
        closed_structName _
      exact (hname.join (closed_intercalate hparts) (by decide)).before (by decide)

end Expr

namespace Emission

/-- **A function refers to its own parameters only**, if its result does. -/
theorem closed_lambda {types : List String} {result : String} (htypes : ∀ t ∈ types, Closed [] 0 t)
    (hresult : Closed taken types.length result) :
    Closed taken types.length (lambda types result) := by
  have hparameters : Closed taken types.length
      (", ".intercalate (types.mapIdx fun i t => s!"const {t} &a{i}")) := by
    refine closed_intercalate fun text htext => ?_
    obtain ⟨i, hi, rfl⟩ := mem_mapIdx.1 htext
    have hsplit : s!"const {types[i]} &a{i}" =
        "const " ++ types[i] ++ " &" ++ ("a" ++ toString i) := by
      simp only [String.append_assoc]
      rfl
    have hname : Closed taken types.length ("a" ++ toString i) :=
      closed_of_word (word_parameter i).1 (word_parameter i).2 (allowed_parameter hi)
    have htype : Closed taken types.length types[i] := (htypes _ (getElem_mem hi)).mono
    rw [hsplit]
    exact (htype.behind rfl (by decide)).join hname (by decide)
  exact ((hparameters.behind rfl (by decide)).join hresult (by decide)).before (by decide)

theorem closed_groupArguments (keys : List Nat) (aggregates : List Aggregate) :
    Closed taken n (groupArguments keys aggregates) := by
  have hkeys : Closed taken n (", ".intercalate (keys.map fun k => s!"Key<{k}>\x7b\x7d")) := by
    refine closed_intercalate fun text htext => ?_
    obtain ⟨k, -, rfl⟩ := List.mem_map.1 htext
    exact ((closed_toString k).behind rfl (by decide)).before (by decide)
  refine ((hkeys.behind rfl (by decide)).join ?_ (by decide)).before (by decide)
  refine closed_intercalate fun text htext => ?_
  obtain ⟨⟨fn, field⟩, -, rfl⟩ := List.mem_map.1 htext
  have hcount : Closed taken n "Count\x7b\x7d" := closed_literal (by decide)
  cases field with
  | none => cases fn <;> exact hcount
  | some f =>
    cases fn with
    | count => exact hcount
    | _ => exact ((closed_toString f).behind rfl (by decide)).before (by decide)

end Emission

/-! ### Names of fields -/

namespace TupleType

/-- Names that are identifiers, at all depths. -/
def Identified (t : TupleType) : Prop :=
  ∀ s ∈ (FieldType.tuple t).tuples, ∀ name ∈ s.names, Identifier name

instance (t : TupleType) : Decidable t.Identified := decidableBAll _ _

theorem identifier_positional {types : List FieldType} {name : String}
    (h : name ∈ (positional types).names) : Identifier name := by
  obtain ⟨k, -, rfl⟩ := mem_names_positionalFrom h
  exact ⟨Word.append (by decide) (word_toString k), by simp⟩

theorem inherited_identified :
    FieldType.Inherited fun t => ∀ s ∈ t.tuples, ∀ name ∈ TupleType.names s, Identifier name :=
  FieldType.inherited_of_positional fun _ _ h => identifier_positional h

end TupleType

end Dataflow
