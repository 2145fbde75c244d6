/-
**What the records of a document say.**

A record says under which number an operator stands, what the operator is, and which operators
produce its inputs.  Records are read one after the other, and each of them may be refused; they are
all read exactly if each says something by itself and their numbers are different.

Main results:

* `Graph.build_eq_ok_iff` — which operators are built;
* `Graph.readRecord_eq_ok_iff` — **when a record is read**;
* `Graph.readRecords_eq_ok_iff` — **when the records of a list are read**.
-/

import Dataflow.Proofs.Document.Graphs

namespace Dataflow

open List Option Outcome

theorem Primitive.tag_of_ofJson? {sort : Tag} {record : Json} {p : Primitive}
    (h : Primitive.ofJson? sort record = some p) : p.tag = sort := by
  cases sort <;>
    simp only [ofJson?, bind_eq_bind, bind_eq_some_iff, Option.map_eq_map, map_eq_some_iff,
      Option.pure_def, some.injEq, reduceCtorEq] at h <;>
    grind [Primitive.tag]

namespace Graph

variable {catalog : Catalog} {tag : String} {record : Json}
  {inner : Option (Outcome Dag)} {index id : Nat} {taken producers : List Nat} {entry : Entry}

/-! ### Operators -/

/-- A tag and a record that an operator can be built from: the tag stands for the sort of the
operator, and the record has its configuration, which is sound; for a pipeline the configuration is
the number of its inputs, and there is a graph inside. -/
def Configures (catalog : Catalog) (tag : String) (record : Json) : Operator → Prop
  | .primitive p =>
    catalog.tag? tag = some p.tag ∧ Primitive.ofJson? p.tag record = some p ∧ p.check = .ok ()
  | .pipeline n _ => catalog.tag? tag = some .pipeline ∧
      record.member? "num_inputs" Json.nat? = some n ∧
      ∃ inside, record.get? "inner_dag" = some inside

theorem build_of_ne_pipeline {sort : Tag} (htag : catalog.tag? tag = some sort)
    (hsort : sort ≠ .pipeline) :
    build catalog tag record inner = (do
      let operator ← (Outcome.ofOption (.parse .invalidConfiguration)
        (.primitive <$> Primitive.ofJson? sort record) :
    Outcome Operator).mapError (Failure.inRecord tag)
      operator.check
      return operator) := by
  rw [build, htag]
  cases sort with
  | pipeline => exact absurd rfl hsort
  | _ => rfl

theorem build_of_pipeline (htag : catalog.tag? tag = some .pipeline) :
    build catalog tag record inner = (do
      let operator ← (do
        let inputs ← Outcome.ofOption (.parse .noInputCount) (record.member? "num_inputs" Json.nat?)
        let inner ← Outcome.ofOption (.parse .noInnerGraph) inner
        return .pipeline inputs (← inner) : Outcome Operator).mapError (Failure.inRecord tag)
      operator.check
      return operator) := by
  rw [build, htag]
  rfl

/-- **Which operators are built** from a tag and a record, with the graph that is read inside the
record. -/
theorem build_eq_ok_iff {op : Operator} :
    build catalog tag record (innerOf catalog record) = .ok op ↔
    Configures catalog tag record op ∧ ∀ n h, op = .pipeline n h →
      ∀ inside, record.get? "inner_dag" = some inside →
        ofJson catalog inside = .ok h := by
  cases htag : catalog.tag? tag with
  | none =>
    have hrefused : build catalog tag record (innerOf catalog record) =
        .error (.unknownOperator tag) := by
      rw [build, htag]
      rfl
    rw [hrefused]
    cases op <;> simp [Configures, htag]
  | some sort =>
    by_cases hsort : sort = .pipeline
    · subst hsort
      rw [build_of_pipeline htag, innerOf_eq]
      simp only [bind_eq_ok_iff, mapError_eq_ok_iff, ofOption_eq_ok_iff,
        pure_eq_ok, Except.ok.injEq]
      constructor
      · rintro ⟨_, ⟨n, hn, _, hinner, h, hread, rfl⟩, _, -, rfl⟩
        obtain ⟨inside, hinside, rfl⟩ := map_eq_some_iff.1 hinner
        refine ⟨⟨htag, hn, inside, hinside⟩, fun n' h' hop inside' hinside' => ?_⟩
        cases hop
        obtain rfl := mem_unique hinside hinside'
        exact hread
      · rintro ⟨hconf, hread⟩
        cases op with
        | primitive p =>
          have hsort := mem_unique htag hconf.1
          cases p <;> cases hsort
        | pipeline n h =>
          obtain ⟨-, hn, inside, hinside⟩ := hconf
          exact ⟨_, ⟨n, hn, _, by rw [hinside]; rfl, h, hread n h rfl inside hinside, rfl⟩, (), rfl,
            rfl⟩
    · rw [build_of_ne_pipeline htag hsort]
      simp only [bind_eq_ok_iff, mapError_eq_ok_iff, ofOption_eq_ok_iff,
        Option.map_eq_map, map_eq_some_iff, pure_eq_ok, Except.ok.injEq]
      constructor
      · rintro ⟨_, ⟨p, hp, rfl⟩, _, hcheck, rfl⟩
        obtain rfl := Primitive.tag_of_ofJson? hp
        exact ⟨⟨htag, hp, hcheck⟩, nofun⟩
      · rintro ⟨hconf, -⟩
        cases op with
        | primitive p =>
          obtain ⟨htag', hp, hcheck⟩ := hconf
          obtain rfl := mem_unique htag htag'
          exact ⟨_, ⟨p, hp, rfl⟩, (), hcheck, rfl⟩
        | pipeline n h => exact absurd (mem_unique htag hconf.1) hsort

/-! ### Records -/

/-- What the record at a place of the list says, apart from the graph inside it: it is an object;
the number of the operator is the one that it names, or else its place; the producers are the ones
that it names; and the operator can be built from it. -/
structure Entry.Says (catalog : Catalog) (index : Nat) (record : Json) (entry : Entry) : Prop where
  object : ∃ members, record = .object members
  id : (record.get? "id" = none ∧ entry.id = index) ∨
    ∃ value, record.get? "id" = some value ∧ value.nat? = some entry.id
  producers : (record.get? "predecessors" = none ∧ entry.producers = []) ∨
    ∃ items, record.get? "predecessors" = some (.array items) ∧
      Forall₂ (fun item q => Json.nat? item = some q) items entry.producers
  operator : ∃ tag, record.get? "op" = some (.string tag) ∧
    Configures catalog tag record entry.operator

/-- The graph inside the record of a pipeline is the one that is read from it. -/
def Entry.ReadsInside (catalog : Catalog) (record : Json) (entry : Entry) : Prop :=
  ∀ n h, entry.operator = .pipeline n h → ∀ inside, record.get? "inner_dag" = some inside →
    ofJson catalog inside = .ok h

/-- The number that a record names, or else its place. -/
theorem readId_eq_ok_iff : (match record.get? "id" with
      | none => pure index
      | some value => idOfJson "id" value : Outcome Nat) = .ok id ↔
    (record.get? "id" = none ∧ id = index) ∨ ∃ value, record.get? "id" = some value ∧
      value.nat? = some id := by
  cases record.get? "id" with
  | none => simp [eq_comm]
  | some value => simp [idOfJson, ofOption_eq_ok_iff]

theorem readProducers_eq_ok_iff : (match record.get? "predecessors" with
      | none => pure []
      | some (.array items) => items.mapM (idOfJson "predecessor")
      | some _ => throw (.parse (.predecessorsNotArray id)) : Outcome (List Nat)) = .ok producers ↔
    (record.get? "predecessors" = none ∧ producers = []) ∨
      ∃ items, record.get? "predecessors" = some (.array items) ∧
        Forall₂ (fun item q => Json.nat? item = some q) items producers := by
  cases record.get? "predecessors" with
  | none => simp [eq_comm]
  | some value =>
    cases value with
    | array items => simp [mapM_eq_ok_iff, idOfJson, ofOption_eq_ok_iff]
    | _ => simp

theorem string?_eq_some_iff {value : Json} {text : String} :
    value.string? = some text ↔ value = .string text := by
  cases value <;> simp [Json.string?]

/-- The steps by which a record that is an object is read. -/
theorem readRecord_object_eq_ok_iff
    (hrecord : ∃ members, record = .object members) :
    readRecord catalog taken index record inner = .ok entry ↔
      ((match record.get? "id" with
        | none => pure index
        | some value => idOfJson "id" value : Outcome Nat) = .ok entry.id ∧ entry.id ∉ taken) ∧
      (∃ tag, record.get? "op" = some (.string tag) ∧
        build catalog tag record inner = .ok entry.operator) ∧
      (match record.get? "predecessors" with
        | none => pure []
        | some (.array items) => items.mapM (idOfJson "predecessor")
        | some _ =>
          throw (.parse (.predecessorsNotArray entry.id)) : Outcome (List Nat)) =
            .ok entry.producers := by
  obtain ⟨members, rfl⟩ := hrecord
  obtain ⟨id, operator, producers⟩ := entry
  rw [readRecord]
  generalize (Json.object members).get? "id" = named
  generalize (Json.object members).get? "predecessors" = listed
  -- Whatever the record has under these keys, the steps are the same.
  rcases named with _ | value <;> rcases listed with _ | (_ | _ | _ | _ | _ | items | _) <;>
    simp only [pure_eq_ok, ok_bind, bind_eq_ok_iff, guard_eq_ok_iff,
    ofOption_eq_ok_iff, bind_eq_some_iff,
      string?_eq_some_iff, Except.ok.injEq, Entry.mk.injEq] <;>
    grind [throw_eq_error]

/-- **When a record is read**: it says something, under a number that was not taken, and so does the
document of the graph inside it. -/
theorem readRecord_eq_ok_iff :
    readRecord catalog taken index record (innerOf catalog record) = .ok entry ↔
      entry.id ∉ taken ∧ entry.Says catalog index record ∧ entry.ReadsInside catalog record := by
  by_cases hrecord : ∃ members, record = .object members
  · simp only [readRecord_object_eq_ok_iff hrecord, readId_eq_ok_iff,
      readProducers_eq_ok_iff, build_eq_ok_iff]
    constructor
    · rintro ⟨⟨hid, hfresh⟩, ⟨tag, htag, hbuilt, hinside⟩, hproducers⟩
      exact ⟨hfresh, ⟨hrecord, hid, hproducers, tag, htag, hbuilt⟩, hinside⟩
    · rintro ⟨hfresh, ⟨-, hid, hproducers, tag, htag, hbuilt⟩, hinside⟩
      exact ⟨⟨hid, hfresh⟩, ⟨tag, htag, hbuilt, hinside⟩, hproducers⟩
  · constructor
    · intro h
      cases record with
      | object members => exact absurd ⟨members, rfl⟩ hrecord
      | _ => cases h
    · rintro ⟨-, hsaid, -⟩
      exact absurd hsaid.object hrecord

/-- **When the records of a list are read**, behind those that were read before: each of them is,
and all numbers are different. -/
theorem readRecords_eq_ok_iff {records : List Json} {before entries : List Entry}
    (hbefore : (before.map (·.id)).Nodup) :
    readRecords catalog before (withInnerOf catalog records) = .ok entries ↔
      ∃ read, entries = before ++ read ∧ (entries.map (·.id)).Nodup ∧
        Forall₂ (fun (r : Json × Nat) entry => Entry.Says catalog r.2 r.1 entry ∧
          entry.ReadsInside catalog r.1) (records.zipIdx before.length) read := by
  induction records generalizing before with
  | nil =>
    rw [withInnerOf, readRecords, pure_eq_ok, Except.ok.injEq]
    constructor
    · rintro rfl
      exact ⟨[], by rw [append_nil], hbefore, .nil⟩
    · rintro ⟨read, rfl, -, hread⟩
      rw [zipIdx_nil] at hread
      cases hread
      rw [append_nil]
  | cons record records ih =>
    rw [withInnerOf, readRecords, bind_eq_ok_iff]
    constructor
    · rintro ⟨entry, hentry, hrest⟩
      obtain ⟨hfresh, hsaid⟩ := readRecord_eq_ok_iff.1 hentry
      have hnext : ((before ++ [entry]).map (·.id)).Nodup := by
        rw [map_append, map_singleton]
        exact hbefore.append (nodup_singleton _) (disjoint_singleton.2 hfresh)
      obtain ⟨read, rfl, hnodup, hread⟩ := (ih hnext).1 hrest
      rw [List.length_append, List.length_singleton] at hread
      refine ⟨entry :: read, by rw [List.append_assoc, singleton_append], hnodup, ?_⟩
      rw [zipIdx_cons]
      exact .cons hsaid hread
    · rintro ⟨read, rfl, hnodup, hread⟩
      rw [zipIdx_cons] at hread
      obtain ⟨entry, rest, hsaid, hrest, rfl⟩ := forall₂_cons_left_iff.1 hread
      have hsplit : before ++ entry :: rest = before ++ [entry] ++ rest := by
        rw [List.append_assoc, singleton_append]
      have hnext : ((before ++ [entry]).map (·.id)).Nodup := by
        rw [hsplit, map_append] at hnodup
        exact hnodup.of_append_left
      have hfresh : entry.id ∉ before.map (·.id) := by
        rw [map_append, map_singleton] at hnext
        exact disjoint_singleton.1 (disjoint_of_nodup_append hnext)
      refine ⟨entry, readRecord_eq_ok_iff.2 ⟨hfresh, hsaid⟩,
        (ih hnext).2 ⟨rest, hsplit, hnodup, ?_⟩⟩
      rwa [List.length_append, List.length_singleton]

end Graph

end Dataflow
