/-
**Filters, projections and pairs on rows.**

On rows that are held by their types, a projection takes fields out of every row, a join or product
goes through the rows of its left input and, for each, through those of its right input, and storing
changes nothing.  So a filter behind one of them keeps the same rows as one before it, as long as
the two predicates agree on every row and the row that it is made of.

Main results:

* `evaluation_filter_iff`, `evaluation_projection_iff`, `evaluation_pairs_iff` — what the operators
  make of streams that are held;
* `filter_pairRows_left`, `filter_pairRows_right` — **a filter of pairs is one of their left or
  right rows**.
-/

import Dataflow.Proofs.Annotation
import Dataflow.Proofs.Evaluation.TypeSoundness

namespace Dataflow

open List Outcome

variable {t u : TupleType}

/-- A stream whose rows are held by its type. -/
def Stream.Held (s : Stream) : Prop := ∀ row ∈ s.rows, s.type.Holds row

/-- A stream whose rows are of its type. -/
def Stream.Conforms (s : Stream) : Prop := ∀ row ∈ s.rows, s.type.admits row = true

variable {rows : Rows} {t : TupleType} {e : Expr} {positions : List Nat} {row : Row} {s : Stream}

theorem Stream.Held.mono (hs : s.Held) (hrows : rows ⊆ s.rows) : Stream.Held ⟨s.type, rows⟩ :=
  fun row hrow => hs row (hrows hrow)

theorem map_store_eq_self (h : ∀ row ∈ rows, t.Holds row) : rows.map t.store = rows := by
  conv_rhs => rw [← List.map_id rows]
  exact map_congr_left fun row hrow => (h row hrow).store_eq_self

variable {c : EvaluationContext} {bound : Option (List TupleType)} {out : Stream}

/-! ### Filters -/

theorem outputType_filter_iff :
    (Primitive.filter e).outputType [t] bound = .ok u ↔
      e.infer [t] = .ok (.atomic .bool) ∧ u = t := by
  rw [Primitive.outputType_eq_ok_iff]
  constructor
  · intro h
    cases h with
    | filter decides => exact ⟨decides, rfl⟩
  · rintro ⟨decides, rfl⟩
    exact .filter decides

/-- What a filter makes of a stream that is held: it decides on every row, and keeps those that it
decides for. -/
theorem evaluation_filter_iff (hs : s.Held) : evaluation.primitive c (.filter e) [s] out ↔
      e.infer [s.type] = .ok (.atomic .bool) ∧ out.type = s.type ∧
      (∀ row ∈ s.rows, ∃ b, passes e s.type row = .ok b) ∧
        out.rows = s.rows.filter fun row => (passes e s.type row).holds := by
  have hrun : ∀ raw, (Primitive.filter e).run [s] c.parameters = .ok raw ↔
      (∀ row ∈ s.rows, ∃ b, passes e s.type row = .ok b) ∧ raw = s.rows.filter fun row =>
      (passes e s.type row).holds :=
    fun raw => filterM_eq_ok_iff
  have hstore : ∀ p : Row → Bool, (s.rows.filter p).map s.type.store = s.rows.filter p :=
    fun p => map_store_eq_self fun row hrow => hs row (mem_of_mem_filter hrow)
  simp only [evaluation, map_cons, map_nil, outputType_filter_iff, hrun]
  constructor
  · rintro ⟨⟨hinfer, htype⟩, raw, ⟨hall, rfl⟩, hrows⟩
    rw [htype, hstore] at hrows
    exact ⟨hinfer, htype, hall, hrows⟩
  · rintro ⟨hinfer, htype, hall, hrows⟩
    refine ⟨⟨hinfer, htype⟩, _, ⟨hall, rfl⟩, ?_⟩
    rw [htype, hstore, hrows]

/-! ### Projections -/

/-- The fields of a row at some positions, as far as there are fields there. -/
def Row.select (positions : List Nat) (row : Row) : Row := positions.filterMap (row[·]?)

theorem type?_eq_getElem? (t : TupleType) (i : Nat) : t.type? i = t.types[i]? := by
  simp [TupleType.type?, TupleType.types]

theorem type?_of_select {s t : TupleType} (h : s.select positions = .ok t) {index p : Nat}
    (hp : positions[index]? = some p) : t.type? index = s.type? p := by
  obtain ⟨types, htypes, rfl⟩ := select_eq_ok_iff.1 h
  obtain ⟨type, hi, htype⟩ := exists_of_forall₂ htypes hp
  rw [htype, type?_eq_getElem?, TupleType.types_positional, hi]

/-- The selected fields of a row, one per position, which have of their types what all fields
have. -/
theorem forall₂_select {P : FieldType → Value → Prop} {types : List FieldType}
    (h : Forall₂ (fun p type => t.type? p = some type) positions types)
    (hrow : Forall₂ P t.types row) :
    Forall₂ (fun p v => row[p]? = some v) positions (row.select positions) ∧
      Forall₂ P types (row.select positions) := by
  induction h with
  | nil => exact ⟨.nil, .nil⟩
  | @cons p type positions types hp _ ih =>
    obtain ⟨v, hv, hheld⟩ := TupleType.get_of_forall₂ hrow hp
    have hcons : row.select (p :: positions) = v :: row.select positions := by
      rw [Row.select, filterMap_cons, hv, Row.select]
    rw [hcons]
    exact ⟨.cons hv ih.1, .cons hheld ih.2⟩

theorem getElem?_select (h : t.select positions = .ok u) (hrow : t.Holds row) {i p : Nat}
    (hp : positions[i]? = some p) : ∃ type v, t.type? p = some type ∧
      u.type? i = some type ∧ row[p]? = some v ∧ (row.select positions)[i]? = some v := by
  obtain ⟨types, htypes, -⟩ := select_eq_ok_iff.1 h
  obtain ⟨type, -, htype⟩ := exists_of_forall₂ htypes hp
  obtain ⟨v, hv, hget⟩ := exists_of_forall₂ (forall₂_select htypes hrow).1 hp
  exact ⟨type, v, htype, (type?_of_select h hp).trans htype, hget, hv⟩

theorem holds_select (h : t.select positions = .ok u) (hrow : t.Holds row) :
    u.Holds (row.select positions) := by
  obtain ⟨types, htypes, rfl⟩ := select_eq_ok_iff.1 h
  rw [TupleType.Holds, TupleType.types_positional]
  exact (forall₂_select htypes hrow).2

theorem Stream.Held.select (hs : s.Held)
    (ht : s.type.select positions = .ok t) :
    Stream.Held ⟨t, s.rows.map (Row.select positions)⟩ := by
  intro row hrow
  obtain ⟨source, hsource, rfl⟩ := List.mem_map.1 hrow
  exact holds_select ht (hs source hsource)

theorem projectRow_eq_ok_iff {row out : Row} : projectRow positions row = .ok out ↔
    Forall₂ (fun p v => row[p]? = some v) positions out := by
  simp only [projectRow, mapM_eq_ok_iff, Row.field, ofOption_eq_ok_iff]

/-- A projection of rows that are held has the selected fields of each. -/
theorem mapM_projectRow (h : t.select positions = .ok u) (hrows : ∀ row ∈ rows, t.Holds row) :
    rows.mapM (projectRow positions) = .ok (rows.map (Row.select positions)) := by
  obtain ⟨types, htypes, -⟩ := select_eq_ok_iff.1 h
  exact mapM_ok fun row hrow => projectRow_eq_ok_iff.2 (forall₂_select htypes (hrows row hrow)).1

/-- What a projection makes of a stream that is held: the selected fields of every row. -/
theorem evaluation_projection_iff (hs : s.Held) :
    evaluation.primitive c (.projection positions) [s] out ↔
      s.type.select positions = .ok out.type ∧ out.rows = s.rows.map (Row.select positions) := by
  have htype : (Primitive.projection positions).outputType [s.type] c.bound =
    s.type.select positions := rfl
  simp only [evaluation, map_cons, map_nil, htype]
  refine and_congr_right fun hselect => ?_
  have hrun : (Primitive.projection positions).run [s] c.parameters =
      .ok (s.rows.map (Row.select positions)) := mapM_projectRow hselect hs
  have hstore : (s.rows.map (Row.select positions)).map out.type.store =
      s.rows.map (Row.select positions) := map_store_eq_self (hs.select hselect)
  simp [hrun, hstore]

/-! ### Pairs -/

/-- Whether a join or product makes a pair of a left and a right row. -/
def Primitive.matches : Primitive → Row → Row → Bool
  | join keys, l, r => Row.key (r.take keys) == Row.key (l.take keys)
  | _, _, _ => true

/-- The pairs that a join or product makes, by left row and then by right row. -/
def pairRows (p : Primitive) (keys : Nat) (left right : Rows) : Rows :=
  left.flatMap fun l => (right.filter (p.matches l)).map fun r => l ++ r.drop keys

variable {p : Primitive} {keys : Nat}

theorem mem_pairRows {left right : Rows} : row ∈ pairRows p keys left right ↔
    ∃ l ∈ left, ∃ r ∈ right, p.matches l r = true ∧ row = l ++ r.drop keys := by
  simp only [pairRows, mem_flatMap, List.mem_map, mem_filter, and_assoc, eq_comm (a := row)]

theorem joinRows_eq {left right : Rows} (hleft : ∀ row ∈ left, keys ≤ row.length)
    (hright : ∀ row ∈ right, keys ≤ row.length) :
    joinRows keys left right = .ok (pairRows (.join keys) keys left right) := by
  have hkey : ∀ row : Row, keys ≤ row.length →
      joinKey keys row = .ok (Row.key (row.take keys)) := by
    intro row hrow
    rw [joinKey, if_neg (by omega)]
    rfl
  have hkeyed : right.mapM (fun row => do return (← joinKey keys row, row)) =
      .ok (right.map fun row => (Row.key (row.take keys), row)) :=
    mapM_ok fun row hrow => by rw [hkey row (hright row hrow)]; rfl
  rw [joinRows, hkeyed, ok_bind, bind_eq_ok_iff]
  refine ⟨left.map fun l => (right.filter (Primitive.matches (.join keys) l)).map fun r =>
    l ++ r.drop keys, mapM_ok fun row hrow => ?_, ?_⟩
  · rw [hkey row (hleft row hrow), ok_bind, List.filter_map, List.map_map]
    rfl
  · rw [pure_eq_ok, pairRows, flatMap_def]

theorem run_of_pairKeys (hp : p.pairKeys? = some keys) {left right : Stream}
    (hleft : ∀ row ∈ left.rows, keys ≤ row.length)
    (hright : ∀ row ∈ right.rows, keys ≤ row.length) :
    p.run [left, right] c.parameters = .ok (pairRows p keys left.rows right.rows) := by
  cases p with
  | join keys' =>
    obtain rfl := Option.some.inj hp
    exact joinRows_eq hleft hright
  | cartesian =>
    obtain rfl := Option.some.inj hp
    have hmatch : ∀ l, Primitive.matches .cartesian l = fun _ => true := fun _ => rfl
    simp [Primitive.run, pairRows, hmatch]
  | _ => cases hp

theorem holds_pair (hp : p.pairKeys? = some keys) {left right t : TupleType}
    (hout : p.outputType [left, right] bound = .ok t) {l r : Row} (hl : left.Holds l)
    (hr : right.Holds r) : t.Holds (l ++ r.drop keys) := by
  obtain ⟨-, -, htypes⟩ := types_of_pairKeys hp hout
  rw [TupleType.Holds, htypes]
  exact rel_append hl (forall₂_drop keys hr)

/-- What a join or product makes of streams that are held: the pairs of their rows. -/
theorem evaluation_pairs_iff (hp : p.pairKeys? = some keys)
    {left right : Stream} (hleft : left.Held) (hright : right.Held) :
    evaluation.primitive c p [left, right] out ↔
      p.outputType [left.type, right.type] c.bound = .ok out.type ∧
        out.rows = pairRows p keys left.rows right.rows := by
  simp only [evaluation, map_cons, map_nil]
  refine and_congr_right fun hout => ?_
  obtain ⟨hkeys, hkeys', -⟩ := types_of_pairKeys hp hout
  have hrun : p.run [left, right] c.parameters = .ok (pairRows p keys left.rows right.rows) := by
    refine run_of_pairKeys hp (fun row hrow => ?_) fun row hrow => ?_
    · rwa [(hleft row hrow).length_eq]
    · rwa [(hright row hrow).length_eq]
  have hstore : (pairRows p keys left.rows right.rows).map out.type.store =
      pairRows p keys left.rows right.rows := by
    refine map_store_eq_self fun row hrow => ?_
    obtain ⟨l, hl, r, hr, -, rfl⟩ := mem_pairRows.1 hrow
    exact holds_pair hp hout (hleft l hl) (hright r hr)
  simp [hrun, hstore]

variable {left right : Rows} {P Q : Row → Bool}

/-- **A filter of pairs is one of their left rows**, if it decides on pairs as that on left rows. -/
theorem filter_pairRows_left (h : ∀ l ∈ left, ∀ r ∈ right, p.matches l r = true →
      P (l ++ r.drop keys) = Q l) :
    (pairRows p keys left right).filter P = pairRows p keys (left.filter Q) right := by
  have hblock : ∀ l ∈ left, ((right.filter (p.matches l)).map fun r => l ++ r.drop keys).filter P =
      if Q l then (right.filter (p.matches l)).map fun r => l ++ r.drop keys else [] := by
    intro l hl
    have hP : ∀ row ∈ (right.filter (p.matches l)).map fun r => l ++ r.drop keys, P row = Q l := by
      intro row hrow
      obtain ⟨r, hr, rfl⟩ := List.mem_map.1 hrow
      obtain ⟨hr, hmatch⟩ := mem_filter.1 hr
      exact h l hl r hr hmatch
    split
    · next hQ => exact filter_eq_self.2 fun row hrow => (hP row hrow).trans hQ
    · next hQ => exact filter_eq_nil_iff.2 fun row hrow => by rwa [hP row hrow]
  clear h
  simp only [pairRows] at hblock ⊢
  induction left with
  | nil => rfl
  | cons l left ih =>
    rw [flatMap_cons, filter_append, hblock l mem_cons_self,
      ih fun l hl => hblock l (mem_cons_of_mem _ hl), filter_cons]
    split
    · rw [flatMap_cons]
    · rfl

/-- **A filter of pairs is one of their right rows**, if it decides on pairs as that on right
rows. -/
theorem filter_pairRows_right (h : ∀ l ∈ left, ∀ r ∈ right, p.matches l r = true →
      P (l ++ r.drop keys) = Q r) :
    (pairRows p keys left right).filter P = pairRows p keys left (right.filter Q) := by
  rw [pairRows, filter_flatMap, pairRows]
  refine flatMap_congr fun l hl => ?_
  rw [List.filter_map, List.filter_filter, List.filter_filter]
  congr 1
  refine filter_congr fun r hr => ?_
  cases hmatch : p.matches l r with
  | false => simp
  | true => simp [h l hl r hr hmatch]

end Dataflow
