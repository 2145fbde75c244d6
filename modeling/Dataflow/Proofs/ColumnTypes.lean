/-
**Columns of one type.**

A field that an operator passes on keeps its column, and keeps its type with it, wherever it goes.
There is one operator of which this is not true: a map that returns a field alone spreads that field
if it is a tuple, and the first component carries the column of the tuple.  So the columns of a
level have one type each exactly where no map spreads a tuple.  A field is followed back to the
operator that owns its column; without such maps it has had its type all the way.

Main results:

* `Graph.exists_owner_of_field` — the owner of a column made a field of the type of every field that
  carries it;
* `Graph.oneTyped_iff_of_annotate` — **after annotating, a column has one type exactly where no map
  spreads a tuple**, at every level.
-/

import Dataflow.Proofs.History

namespace Dataflow.Graph

open List Option Operator

variable {g g' : Dag} {id k : Nat} {bound : Option (List TupleType)} {τ : Nat → TupleType}

/-- Fields that carry the same column have the same type. -/
def OneTyped (g : Dag) : Prop :=
  ∀ id id', ∀ f ∈ g.fieldsAt id, ∀ f' ∈ g.fieldsAt id', ∀ c, f.column = some c →
    f'.column = some c → f.type = f'.type

/-- An operator that spreads a tuple: it returns a field of its producer alone, and that is a tuple
with components. -/
def SpreadsTuple (g : Dag) (id : Nat) : Prop :=
  ∃ node index q s first rest, g.node? id = some node ∧
    node.kind = .primitive (.map (.field 0 index)) ∧ (g.producers id).head? = some q ∧
    (g.fieldsAt q)[index]? = some s ∧ s.type = .tuple (first :: rest)

/-- What a map that returns a field alone passes on: that field, at its first position. -/
theorem source?_mapField {index : Nat} {s : Field} :
    (primitive (.map (.field 0 index))).source? (g.inputFields id) k = some s ↔
      k = 0 ∧ ∃ q, (g.producers id).head? = some q ∧ (g.fieldsAt q)[index]? = some s ∧
      s.column.isSome = true := by
  have hinput : (g.inputFields id)[0]? = (g.producers id).head?.map g.fieldsAt := by
    rw [inputFields, getElem?_map, head?_eq_getElem?]
    rfl
  by_cases hk : k = 0
  · cases hq : (g.producers id).head? <;>
      simp [source?, origin?, hk, hinput, hq, filter_eq_some_iff]
  · simp [source?, origin?, hk]

/-- What is passed on has its type, unless a tuple is spread. -/
theorem type_eq_of_passes {node : Node Operator} {p : Primitive} {s f : Field}
    (hspread : ¬g.SpreadsTuple id) (hnode : g.node? id = some node)
    (hkind : node.kind = .primitive p) (hs : (primitive p).source? (g.inputFields id) k =
      some s) (hpasses : p.Passes s.type f.type) :
    s.type = f.type := by
  rcases hpasses with heq | ⟨⟨index, rfl⟩, hrow⟩
  · exact heq
  · cases htype : s.type with
    | atomic | array =>
      rw [htype] at hrow
      exact some.inj hrow
    | tuple fields =>
      obtain ⟨-, q, hq, hfield, -⟩ := source?_mapField.1 hs
      cases fields with
      | nil =>
        rw [htype] at hrow
        cases hrow
      | cons first rest =>
        exact absurd ⟨node, index, q, s, first, rest, hnode, hkind, hq, hfield, htype⟩ hspread

section Level

variable (hg : g.Owned) (typed : (typing fun _ _ _ _ => True).Models g bound τ)
  (noted : ∀ id ∈ g.ids, g.NotedAt id (τ id))

include hg typed noted

/-- **The owner of a column made a field of the type of every field that carries it**, where no
tuple is spread. -/
theorem exists_owner_of_field (hspread : ∀ id, ¬g.SpreadsTuple id) {f : Field} {c : Column}
    (hk : (g.fieldsAt id)[k]? = some f) (hc : f.column = some c) :
    ∃ id₀ node₀ k₀ f₀, g.node? id₀ = some node₀ ∧ node₀.Owns k₀ c ∧
      node₀.note.fields[k₀]? = some f₀ ∧ f₀.type = f.type := by
  obtain ⟨rank, hrank⟩ := hg.acyclic
  -- The field is followed back, from operators to their producers.
  induction hn : rank id using Nat.strongRecOn generalizing id f k with
  | ind n ih =>
    obtain ⟨node, hnode⟩ : ∃ node, g.node? id = some node := by
      cases hnode : g.node? id with
      | none => simp [fieldsAt, hnode] at hk
      | some node => exact ⟨node, rfl⟩
    by_cases horiginates : node.kind.originates k = true
    · rw [fieldsAt_eq hnode] at hk
      exact ⟨id, node, k, f, hnode, ⟨horiginates, f, hk, hc⟩, hk, rfl⟩
    · obtain ⟨p, s, hkind, hs, hcolumn, hpasses⟩ :=
        hg.exists_source typed noted hnode hk horiginates
      obtain ⟨q, hq, hmem⟩ := exists_producer_of_source? hs
      obtain ⟨j, hj⟩ := mem_iff_getElem?.1 hmem
      obtain ⟨e, he, htarget, hsource⟩ := mem_producers.1 hq
      have hlt : rank q < n := by
        have hedge := hrank e he
        rwa [htarget, hsource, hn] at hedge
      obtain ⟨id₀, node₀, k₀, f₀, hnode₀, howns, hf₀, htype⟩ := ih _ hlt hj (hcolumn.trans hc) rfl
      exact ⟨id₀, node₀, k₀, f₀, hnode₀, howns, hf₀,
        htype.trans (type_eq_of_passes (hspread id) hnode hkind hs hpasses)⟩

theorem oneTyped_of_not_spreads (hspread : ∀ id, ¬g.SpreadsTuple id) : g.OneTyped := by
  intro id id' f hf f' hf' c hc hc'
  obtain ⟨k, hk⟩ := mem_iff_getElem?.1 hf
  obtain ⟨k', hk'⟩ := mem_iff_getElem?.1 hf'
  obtain ⟨m, node, i, owned, hnode, howns, howned, htype⟩ :=
    exists_owner_of_field hg typed noted hspread hk hc
  obtain ⟨m', node', i', owned', hnode', howns', howned', htype'⟩ :=
    exists_owner_of_field hg typed noted hspread hk' hc'
  obtain ⟨rfl, rfl⟩ := hg.sole m m' node node' i i' c hnode hnode' howns howns'
  obtain rfl := mem_unique hnode hnode'
  obtain rfl := mem_unique howned howned'
  exact htype.symm.trans htype'

/-- The first component of a tuple that is spread carries the column of the tuple, and it is
smaller. -/
theorem not_oneTyped_of_spreads (hspreads : g.SpreadsTuple id) : ¬g.OneTyped := by
  obtain ⟨node, index, q, s, first, rest, hnode, hkind, hq, hs, htype⟩ := hspreads
  have hnoted := noted id (mem_ids_of_node? hnode)
  have hmakes := Interpretation.models_iff.1 typed id node hnode
  rw [hkind] at hmakes
  obtain ⟨input, hinput, houtput⟩ := Primitive.exists_input hmakes.1 rfl
  obtain ⟨m, hproducers, rfl⟩ := map_eq_singleton_iff.1 hinput
  obtain rfl : m = q := by rwa [hproducers, head?_cons, some.injEq] at hq
  have hnotedSource : g.NotedAt m (τ m) := by
    obtain ⟨e, he, -, rfl⟩ := mem_producers.1 (hproducers ▸ mem_singleton_self m)
    obtain ⟨_, _, hsource, -⟩ := hg.slots e he
    exact noted e.source (mem_ids_of_node? hsource)
  have houtputType : τ id = first :: rest := by
    generalize τ id = output at houtput
    cases houtput with
    | @map _ _ type infers =>
      have hat : (τ m).type? index = some type := Outcome.ofOption_eq_ok_iff.1 infers
      rw [hnotedSource.type?_eq hs, htype] at hat
      cases hat
      rfl
  obtain ⟨f, hf⟩ : ∃ f, (g.fieldsAt id)[0]? = some f := by
    rw [← isSome_iff_exists, isSome_getElem?, hnoted.length_eq, houtputType]
    exact Nat.succ_pos _
  obtain ⟨c, hc⟩ := isSome_iff_exists.1 (hnotedSource.columns s (mem_of_getElem? hs))
  have hcolumn : f.column = some c := by
    have hassigned :=
      forall₂_getElem? (hnoted.assigned node hnode) (by rw [getElem?_ofTuple, houtputType]; rfl) hf
    rw [hkind] at hassigned
    exact (hassigned.source s (source?_mapField.2 ⟨rfl, m, hq, hs, by rw [hc]; rfl⟩)).trans hc
  intro hone
  have heq := hone m id s (mem_of_getElem? hs) f (mem_of_getElem? hf) c hc hcolumn
  have hfirst := hnoted.type?_eq hf
  rw [houtputType] at hfirst
  rw [htype, ← some.inj hfirst] at heq
  obtain ⟨name, type⟩ := first
  have hsize : sizeOf (FieldType.tuple (⟨name, type⟩ :: rest)) = sizeOf type := congrArg sizeOf heq
  rw [FieldType.tuple.sizeOf_spec, cons.sizeOf_spec, Named.mk.sizeOf_spec] at hsize
  omega

end Level

theorem oneTyped_iff_of_annotated (hannotated : Annotated bound g) (hg : g.Everywhere Owned) :
    g.Everywhere fun h => h.OneTyped ↔ ∀ id, ¬h.SpreadsTuple id := by
  induction hannotated with
  | intro τ typed noted _ ih =>
    refine ⟨⟨fun hone id hspreads => ?_, fun hspread => ?_⟩,
      fun id h hid => ih id h hid (hg.inside hid)⟩
    · exact not_oneTyped_of_spreads hg.here typed noted hspreads hone
    · exact oneTyped_of_not_spreads hg.here typed noted hspread

/-- **After annotating, a column has one type exactly where no map spreads a tuple**, at every level
and whatever was done to the graph before. -/
theorem oneTyped_iff_of_annotate (hg : g.Reachable) (h : g.annotate = .ok g') :
    g'.Everywhere fun h => h.OneTyped ↔ ∀ id, ¬h.SpreadsTuple id := by
  have howned := owned_of_reachable hg
  obtain ⟨types, htypes, hannotate⟩ := exists_types_of_annotate h
  exact oneTyped_iff_of_annotated
    (annotated_of_annotateWith (howned.imp fun _ hh => hh.ascending) htypes hannotate).2
    (owned_annotate howned h)

theorem annotate_sumsOfLarge : ∃ g', (sumsOfLarge.foldl Edit.apply empty).annotate = .ok g' ∧
    (g'.fieldsAt 3).map (fun f => (f.type, f.column)) =
      [(.atomic .int64, some 1), (.atomic .int64, some 0)] ∧
    (g'.nodes.all fun n => match n.kind with
      | .primitive (.map (.field _ _)) => false
      | _ => true) = true :=
  ⟨_, by cbv, by cbv, by cbv⟩

/-- The large pairs of a range and their sums are made by a projection, a filter and a map of
several fields: their columns have one type each. -/
theorem sumsOfLarge_oneTyped : ∃ g', (sumsOfLarge.foldl Edit.apply empty).Reachable ∧
    (sumsOfLarge.foldl Edit.apply empty).annotate = .ok g' ∧
    (g'.fieldsAt 3).map (fun f => (f.type, f.column)) =
      [(.atomic .int64, some 1), (.atomic .int64, some 0)] ∧
    g'.OneTyped := by
  obtain ⟨g', h, hfields, hkinds⟩ := annotate_sumsOfLarge
  refine ⟨g', reachable_sumsOfLarge, h, hfields,
    (oneTyped_iff_of_annotate reachable_sumsOfLarge h).here.2 ?_⟩
  rintro id ⟨node, index, q, s, first, rest, hnode, hkind, -⟩
  have hnone := List.all_eq_true.1 hkinds node (mem_of_node? hnode)
  rw [hkind] at hnone
  cases hnone

/-- A pair of numbers, which is spread. -/
def spreadPair : List Edit :=
  [.add (.primitive
    (.parameterLookup 0 (some [⟨"t", .tuple [⟨"a", .atomic .int64⟩, ⟨"b", .atomic .int64⟩]⟩]))),
    .add (.primitive (.map (.field 0 0))), .connect ⟨0, 0, 1, 0⟩, .setSink 1]

/-- The first number carries the column of the pair, which has another type. -/
theorem spreadPair_not_oneTyped : ∃ g', (spreadPair.foldl Edit.apply empty).Reachable ∧
    (spreadPair.foldl Edit.apply empty).annotate = .ok g' ∧ ¬g'.OneTyped := by
  obtain ⟨g', h, f, hf, f', hf', hc, hc', htuple, hatomic⟩ :
    ∃ g', (spreadPair.foldl Edit.apply empty).annotate = .ok g' ∧
      ∃ f, (g'.fieldsAt 0)[0]? = some f ∧ ∃ f', (g'.fieldsAt 1)[0]? = some f' ∧ f.column = some 0 ∧
        f'.column = some 0 ∧ f.type.isAtomic = false ∧ f'.type.isAtomic = true :=
    ⟨_, by cbv, _, by cbv, _, by cbv, by cbv, by cbv, by cbv, by cbv⟩
  refine ⟨g', ?_, h, fun hone => ?_⟩
  · refine Reachable.empty.edits fun edit hedit n h hop => ?_
    simp only [spreadPair, mem_cons, not_mem_nil, or_false] at hedit
    rcases hedit with rfl | rfl | rfl | rfl <;> cases hop
  · rw [hone 0 1 f (mem_of_getElem? hf) f' (mem_of_getElem? hf') 0 hc hc', hatomic] at htuple
    cases htuple

end Dataflow.Graph
