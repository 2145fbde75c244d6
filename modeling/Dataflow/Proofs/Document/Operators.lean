/-
**Operators are read as they were written.**

What an operator writes into its record is read back as the same operator: its numbers, types,
aggregates and expressions, and its constants as long as they are finite, since JSON has no other
doubles.  A record has a member for each of its entries, whatever their order.

Main results:

* `Json.get?_ofEntries` — the members of an object that was made of entries;
* `FieldType.ofJson?_toJson`, `Expr.ofJson?_toJson` — types and expressions are read as they were
  written;
* `Primitive.ofJson?_members` — **an operator is read as it was written**.
-/

import Dataflow.Operator.Document
import Dataflow.Proofs.Expr.Soundness
import Mathlib.Data.List.Nodup

namespace Dataflow

open List

/-! ### Values -/

namespace Json

@[simp] theorem nat?_ofNat (n : Nat) : (ofNat n).nat? = some n := rfl

theorem float?_ofFloat {x : Float} (h : x.isFinite = true) : (ofFloat x).float? = some x := by
  rw [ofFloat, if_pos h]
  rfl

variable {α : Type} {read? : Json → Option α} {write : α → Json} {items : List α}

theorem mapM_map (h : ∀ a ∈ items, read? (write a) = some a) :
    (items.map write).mapM read? = some items := by
  induction items with
  | nil => rfl
  | cons a items ih =>
    rw [map_cons, mapM_cons, h a mem_cons_self, ih fun a ha => h a (mem_cons_of_mem _ ha)]
    rfl

theorem list?_array (h : ∀ a ∈ items, read? (write a) = some a) :
    (array (items.map write)).list? read? = some items :=
  mapM_map h

/-! ### Members -/

theorem find?_cons_key (e : String × Json) (members : List (String × Json)) (key : String) :
    (e :: members).find? (·.1 == key) = if e.1 =
      key then some e else members.find? (·.1 == key) := by
  rw [find?_cons]
  by_cases h : e.1 = key
  · simp [h]
  · rw [beq_eq_false_iff_ne.2 h, if_neg h]

theorem find?_putMember (key : String) (value : Json)
    (members : List (String × Json)) (k : String) :
    (putMember key value members).find? (·.1 == k) =
      if key = k then some (key, value) else members.find? (·.1 == k) := by
  induction members with
  | nil => exact find?_cons_key _ _ _
  | cons m members ih =>
    obtain ⟨k', v'⟩ := m
    rw [putMember]
    split
    · exact find?_cons_key _ _ _
    · split
      · next heq =>
        subst heq
        rw [find?_cons_key, find?_cons_key]
        split <;> rfl
      · next hne =>
        rw [find?_cons_key, ih, find?_cons_key]
        by_cases h : k' = k
        · rw [if_pos h, if_neg fun heq => hne (heq.trans h.symm), if_pos h]
        · rw [if_neg h, if_neg h]

theorem find?_foldl_putMember (entries members : List (String × Json)) (k : String) :
    (entries.foldl (fun members e => putMember e.1 e.2 members) members).find? (·.1 == k) =
      (entries.reverse.find? (·.1 == k)).or (members.find? (·.1 == k)) := by
  induction entries generalizing members with
  | nil => rfl
  | cons e entries ih =>
    rw [foldl_cons, ih, find?_putMember, reverse_cons, find?_append,
      Option.or_assoc, find?_cons_key, find?_nil]
    split
    · rfl
    · rw [Option.none_or]

/-- **The members of an object that was made of entries** with different keys are the entries. -/
theorem get?_ofEntries {entries : List (String × Json)}
    (hkeys : (entries.map (·.1)).Nodup) {key : String} {value : Json} :
    (ofEntries entries).get? key = some value ↔ (key, value) ∈ entries := by
  rw [ofEntries, get?, find?_foldl_putMember, find?_nil, Option.or_none, Option.map_eq_some_iff]
  constructor
  · rintro ⟨⟨k, v⟩, hfind, rfl⟩
    have hk : k = key := by simpa using find?_some hfind
    rw [← hk]
    exact mem_reverse.1 (mem_of_find?_eq_some hfind)
  · intro hmem
    cases hfind : entries.reverse.find? (·.1 == key) with
    | none => simpa using find?_eq_none.1 hfind _ (mem_reverse.2 hmem)
    | some e =>
      have he : e ∈ entries := mem_reverse.1 (mem_of_find?_eq_some hfind)
      have hkey : e.1 = key := by simpa using find?_some hfind
      exact ⟨e, rfl, congrArg Prod.snd (inj_on_of_nodup_map hkeys he hmem hkey)⟩

end Json

/-! ### Types -/

namespace FieldType

theorem fieldsToJson_eq_map (fields : List (Named FieldType)) : fieldsToJson fields =
    fields.map fun f => .object [("name", .string f.name), ("type", f.type.toJson)] := by
  induction fields with
  | nil => rfl
  | cons f fields ih => rw [fieldsToJson, ih, map_cons]

theorem namedItems?_eq_mapM (items : List Json) : namedItems? items = items.mapM namedOfJson? := by
  induction items with
  | nil => rfl
  | cons j items ih => rw [namedItems?, mapM_cons, ih]

theorem namedItems?_fieldsToJson {fields : List (Named FieldType)}
    (h : ∀ f ∈ fields, ofJson? f.type.toJson = some f.type) :
    namedItems? (fieldsToJson fields) = some fields := by
  rw [namedItems?_eq_mapM, fieldsToJson_eq_map]
  refine Json.mapM_map fun f hf => ?_
  rw [namedOfJson?, typeMember?, if_neg (by decide), typeMember?, if_pos rfl, h f hf]
  rfl

/-- **A type is read as it was written.** -/
theorem ofJson?_toJson (t : FieldType) : ofJson? t.toJson = some t := by
  induction t using induction with
  | atomic k => simp [toJson, ofJson?, Kind.ofJson?]
  | tuple fields ih =>
    rw [toJson, ofJson?, if_neg (by decide), if_neg (by decide), if_pos rfl, fieldsOfJson?,
      namedItems?_fieldsToJson ih]
    rfl
  | array element ih =>
    rw [toJson, ofJson?, if_neg (by decide), if_pos rfl, ih]
    rfl

end FieldType

theorem TupleType.ofJson?_toJson (t : TupleType) : TupleType.ofJson? t.toJson = some t :=
  FieldType.namedItems?_fieldsToJson fun f _ => FieldType.ofJson?_toJson f.type

/-! ### Expressions -/

/-- Whether a constant is not a double, or a finite one. -/
def Literal.isFinite : Literal → Bool
  | float x => x.isFinite
  | _ => true

theorem Literal.ofJson?_toJson {value : Literal} (h : value.isFinite = true) :
    Literal.ofJson? value.toJson = some value := by
  cases value with
  | bool b => rfl
  | int i => simp [toJson, ofJson?]
  | float x =>
    rw [toJson, ofJson?, if_neg (by decide), if_neg (by decide), if_pos rfl, Json.float?_ofFloat h]
    rfl

theorem BinaryOp.ofJson?_name (op : BinaryOp) : BinaryOp.ofJson? (.string op.name) = some op := by
  cases op <;> decide

theorem UnaryOp.ofJson?_name (op : UnaryOp) : UnaryOp.ofJson? (.string op.name) = some op := by
  cases op <;> decide

namespace Expr

mutual

/-- Whether all double constants of an expression are finite. -/
def isFinite : Expr → Bool
  | field _ _ => true
  | literal value => value.isFinite
  | binary _ left right => left.isFinite && right.isFinite
  | unary _ operand => operand.isFinite
  | tuple items => areFinite items

/-- Whether all double constants of some expressions are finite. -/
def areFinite : List Expr → Bool
  | [] => true
  | e :: rest => e.isFinite && areFinite rest

end

theorem isFinite_of_mem {items : List Expr} (h : areFinite items = true) :
    ∀ e ∈ items, e.isFinite = true := by
  induction items with
  | nil => simp
  | cons e items ih =>
    rw [areFinite, Bool.and_eq_true] at h
    simpa using ⟨h.1, ih h.2⟩

theorem listToJson_eq_map (items : List Expr) : listToJson items = items.map toJson := by
  induction items with
  | nil => rfl
  | cons e items ih => rw [listToJson, ih, map_cons]

theorem ofItems?_eq_mapM (items : List Json) : ofItems? items = items.mapM ofJson? := by
  induction items with
  | nil => rfl
  | cons j items ih => rw [ofItems?, mapM_cons, ih]

/-- **An expression is read as it was written**, if its constants are finite. -/
theorem ofJson?_toJson {e : Expr} (h : e.isFinite = true) : ofJson? e.toJson = some e := by
  induction e using induction with
  | field arg index => simp [toJson, ofJson?, Json.get?]
  | literal value => simp [toJson, ofJson?, Literal.ofJson?_toJson h]
  | binary op left right ihl ihr =>
    rw [isFinite, Bool.and_eq_true] at h
    simp [toJson, ofJson?, Json.get?, ofMember?, findMember?,
      BinaryOp.ofJson?_name, ihl h.1, ihr h.2]
  | unary op operand ih =>
    simp [toJson, ofJson?, Json.get?, ofMember?, findMember?, UnaryOp.ofJson?_name, ih h]
  | tuple items ih =>
    have hitems : ofItems? (listToJson items) = some items := by
      rw [ofItems?_eq_mapM, listToJson_eq_map]
      exact Json.mapM_map fun e he => ih e he (isFinite_of_mem h e he)
    simp [toJson, ofJson?, ofArray?, hitems]

end Expr

/-! ### Operators -/

theorem AggregateFn.ofJson?_name (fn : AggregateFn) :
    AggregateFn.ofJson? (.string fn.name) = some fn := by
  cases fn <;> decide

theorem Aggregate.ofJson?_toJson (a : Aggregate) : Aggregate.ofJson? a.toJson = some a := by
  obtain ⟨fn, field⟩ := a
  cases field <;>
    simp [toJson, ofJson?, Json.member?, Json.get?, Json.nullable?, Json.ofNat, Json.nat?,
    AggregateFn.ofJson?_name]

namespace Primitive

/-- Whether all double constants of an operator are finite. -/
def isFinite : Primitive → Bool
  | constantTuple values => values.all Literal.isFinite
  | filter predicate => predicate.isFinite
  | map function => function.isFinite
  | reduce function => function.isFinite
  | reduceByKey function => function.isFinite
  | _ => true

/-- **An operator is read as it was written**, if its constants are finite, from any value that has
the members that it wrote and an output type only if it wrote one. -/
theorem ofJson?_members {p : Primitive} (h : p.isFinite = true) {j : Json}
    (hmembers : ∀ key value, (key, value) ∈ p.members → j.get? key = some value)
    (htype : (∀ value, ("output_type", value) ∉ p.members) → j.get? "output_type" = none) :
    ofJson? p.tag j = some p := by
  have hmember : ∀ (i : Nat) {key : String} {value : Json}, p.members[i]? = some (key, value) →
      ∀ {α : Type} (read? : Json → Option α) (absent : Option α),
      j.member? key read? absent = read? value := by
    intro i key value hi α read? absent
    rw [Json.member?, hmembers key value (mem_of_getElem? hi)]
  cases p with
  | range r =>
    rw [tag, ofJson?, hmember 0 rfl, hmember 1 rfl, hmember 2 rfl]
    simp
  | constantTuple values =>
    rw [tag, ofJson?, hmember 0 rfl, Json.list?_array]
    · rfl
    · exact fun value hvalue => Literal.ofJson?_toJson (List.all_eq_true.1 h value hvalue)
  | parameterLookup n type =>
    cases type with
    | none =>
      rw [tag, ofJson?, hmember 0 rfl, Json.member?, htype (by simp [members])]
      rfl
    | some type =>
      have htype' : type.toJson.nullable? TupleType.ofJson? = some (some type) := by
        show some <$> TupleType.ofJson? type.toJson = some (some type)
        rw [TupleType.ofJson?_toJson]
        rfl
      rw [tag, ofJson?, hmember 0 rfl, hmember 1 rfl, htype']
      rfl
  | rowScan | join =>
    rw [tag, ofJson?, hmember 0 rfl]
    rfl
  | filter | map | reduce | reduceByKey =>
    rw [tag, ofJson?, hmember 0 rfl, Expr.ofJson?_toJson h]
    rfl
  | projection positions =>
    rw [tag, ofJson?, hmember 0 rfl, Json.list?_array fun n _ => Json.nat?_ofNat n]
    rfl
  | groupBy keys aggregates =>
    rw [tag, ofJson?, hmember 0 rfl, hmember 1 rfl, Json.list?_array fun n _ => Json.nat?_ofNat n,
      Json.list?_array fun a _ => Aggregate.ofJson?_toJson a]
    rfl
  | cartesian | materializeRowVector | ensureSingleTuple => rfl
  | partition count key =>
    rw [tag, ofJson?, hmember 0 rfl, hmember 1 rfl]
    rfl

/-- The keys of the members that an operator writes are different, and they are not those that every
record has. -/
theorem nodup_keys (p : Primitive) :
    (["id", "op", "predecessors"] ++ p.members.map (·.1)).Nodup := by
  cases p with
  | parameterLookup n type => cases type <;> simp [members]
  | _ => simp [members]

end Primitive

/-! ### Finite constants are equal to themselves -/

theorem beq_self_of_isFinite {x : Float} (h : x.isFinite = true) : (x == x) = true := by
  -- Comparing the parts of a double is reflexive, except for what is not a number.
  have hfinite : x.toModel.unpack.isFinite = true := h
  show (x.toModel.unpack.compare x.toModel.unpack == some .eq) = true
  cases hx : x.toModel.unpack with
  | notANumber | infinity =>
    rw [hx] at hfinite
    exact absurd hfinite Bool.false_ne_true
  | zero s => cases s <;> rfl
  | finite s m e hm =>
    have hparts : (compare e e).then (compare m m) = .eq := by simp
    cases s with
    | negative => exact beq_iff_eq.2 (congrArg (some <| Ordering.swap ·) hparts)
    | positive => exact beq_iff_eq.2 (congrArg some hparts)

theorem Literal.same_self {value : Literal} (h : value.isFinite = true) :
    value.same value = true := by
  cases value with
  | bool | int => simp [same]
  | float x => exact beq_self_of_isFinite h

namespace Expr

theorem sameAll_self {items : List Expr} (h : ∀ e ∈ items, e.same e = true) :
    sameAll items items = true := by
  induction items with
  | nil => rfl
  | cons e items ih =>
    rw [forall_mem_cons] at h
    rw [sameAll, h.1, ih h.2, Bool.and_self]

theorem same_self {e : Expr} (h : e.isFinite = true) : e.same e = true := by
  induction e using induction with
  | field arg index => simp [same]
  | literal value => exact Literal.same_self h
  | binary op left right ihl ihr =>
    rw [isFinite, Bool.and_eq_true] at h
    simp [same, ihl h.1, ihr h.2]
  | unary op operand ih => simp [same, ih h]
  | tuple items ih => exact sameAll_self fun e he => ih e he (isFinite_of_mem h e he)

end Expr

theorem Primitive.same_self {p : Primitive} (h : p.isFinite = true) : p.same p = true := by
  cases p with
  | constantTuple values =>
    have hvalues : ∀ value ∈ values, value.same value = true := fun value hvalue =>
      Literal.same_self (List.all_eq_true.1 h value hvalue)
    simpa [same, List.zip, zipWith_self] using hvalues
  | filter | map | reduce | reduceByKey => exact Expr.same_self h
  | _ => simp [same]

end Dataflow
