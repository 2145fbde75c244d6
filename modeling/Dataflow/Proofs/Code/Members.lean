/-
**Names of fields and members.**

Types that are made by typing name their fields by position, so the names in them are distinct.
Only a look-up outside all pipelines can declare a type in which a name stands twice, and reading a
document does not refuse it.  So the names in all types of a graph are distinct exactly if they are
in the declared ones, and then no struct of the program has two members of one name, as far as names
can be read off the text.

Main results:

* `TupleType.nodup_names_positional` — names by position are distinct;
* `MembersText.memberNames_eq` — the names that are read off a body are those of the fields;
* `Graph.distinct_iff_declared` — **the names in all types are distinct exactly if they are in the
  declared types**, and then the members of every struct have distinct names, which are identifiers
  if the declared ones are.
-/

import Dataflow.Graph.Document
import Dataflow.Proofs.Code.Programs

namespace Dataflow

open List FieldType StructTable

variable {needs : List Nat} {names : List String} {members : String}

/-! ### Names of fields -/

namespace TupleType

/-- A tuple type whose fields have distinct names, and so have those of all tuple types inside
it. -/
def Distinct (t : TupleType) : Prop := ∀ s ∈ (FieldType.tuple t).tuples, s.names.Nodup

instance (t : TupleType) : Decidable t.Distinct := decidableBAll _ _

/-- A text that can be told from what stands around it in a struct. -/
def TidyName (name : String) : Prop := ∀ c ∈ name.toList, c ≠ ' ' ∧ c ≠ ';'

instance : DecidablePred TidyName := fun _ => decidableBAll _ _

/-- A tuple type whose names hold neither blanks nor semicolons, and all tuple types inside it. -/
def Tidy (t : TupleType) : Prop := ∀ s ∈ (FieldType.tuple t).tuples, ∀ name ∈ s.names, TidyName name

instance (t : TupleType) : Decidable t.Tidy := decidableBAll _ _

/-- **Names by position are distinct.** -/
theorem nodup_names_positional (types : List FieldType) : (positional types).names.Nodup := by
  have hfrom : ∀ i, (positionalFrom i types).names.Nodup := by
    induction types with
    | nil => exact fun _ => nodup_nil
    | cons type types ih =>
      intro i
      refine nodup_cons.2 ⟨fun hmem => ?_, ih (i + 1)⟩
      obtain ⟨k, hk, hname⟩ := mem_names_positionalFrom hmem
      have hik : i = k := Number.toString_nat_injective (String.append_right_inj _ |>.1 hname)
      omega
  exact hfrom 0

theorem tidyName_append {s t : String} (hs : TidyName s) (ht : TidyName t) : TidyName (s ++ t) := by
  intro c hc
  rw [String.toList_append, mem_append] at hc
  exact hc.elim (hs c) (ht c)

theorem tidyName_toString (n : Nat) : TidyName (toString n) := by
  intro c hc
  have hdigit := Number.isDigit_of_mem_toString hc
  constructor
  · rintro rfl
    exact absurd hdigit (by decide)
  · rintro rfl
    exact absurd hdigit (by decide)

theorem tidyName_positional {types : List FieldType} {name : String}
    (h : name ∈ (positional types).names) :
    TidyName name := by
  obtain ⟨k, -, rfl⟩ := mem_names_positionalFrom h
  exact tidyName_append (by decide) (tidyName_toString k)

theorem inherited_distinct : Inherited fun t => ∀ s ∈ t.tuples, s.names.Nodup :=
  inherited_of_positional nodup_names_positional

end TupleType

open TupleType

/-! ### Names of members -/

/-- The words in front of semicolons in a text, of which `word` was read before. -/
def wordsDeclared (word : List Char) : List Char → List String
  | [] => []
  | c :: rest =>
    if c = ';' then String.ofList word :: wordsDeclared [] rest
    else if c = ' ' then wordsDeclared [] rest
    else wordsDeclared (word ++ [c]) rest

/-- The names of the members of a struct, read off its body. -/
def memberNames (body : String) : List String := wordsDeclared [] body.toList

theorem wordsDeclared_append {text : List Char} (h : ∀ c ∈ text, c ≠ ' ' ∧ c ≠ ';')
    (word rest : List Char) :
    wordsDeclared word (text ++ rest) = wordsDeclared (word ++ text) rest := by
  induction text generalizing word with
  | nil => rw [nil_append, append_nil]
  | cons c text ih =>
    obtain ⟨hblank, hsemicolon⟩ := h c mem_cons_self
    rw [cons_append, wordsDeclared, if_neg hsemicolon, if_neg hblank,
      ih fun d hd => h d (mem_cons_of_mem _ hd), List.append_assoc, singleton_append]

theorem TypeText.tidyName {text : String} (h : TypeText text needs) : TidyName text := by
  induction h with
  | atomic kind => cases kind <;> decide
  | struct number => exact tidyName_append (by decide) (tidyName_toString number)
  | array _ ih => exact tidyName_append (tidyName_append (by decide) ih) (by decide)

theorem MembersText.wordsDeclared_eq (h : MembersText names members needs)
    (hnames : ∀ name ∈ names, TidyName name) :
    wordsDeclared [] (members.toList ++ ['\x7d']) = names := by
  -- The blank behind a type ends the word that was read, and the semicolon behind a name takes it.
  have hblank : ∀ word rest, wordsDeclared word (" ".toList ++ rest) = wordsDeclared []
    rest := fun _ _ => rfl
  have hsemicolon : ∀ word rest, wordsDeclared word ("; ".toList ++ rest) =
      String.ofList word :: wordsDeclared [] rest := fun _ _ => rfl
  induction h with
  | nil => rfl
  | @cons type name members names needs more htype _ ih =>
    have htail := ih fun other hother => hnames other (mem_cons_of_mem _ hother)
    simp only [String.toList_append, List.append_assoc]
    rw [wordsDeclared_append htype.tidyName, hblank,
      wordsDeclared_append (hnames name mem_cons_self), hsemicolon, nil_append,
      String.ofList_toList, htail]

/-- **The names that are read off a body are those of the fields**, if these are tidy. -/
theorem MembersText.memberNames_eq (h : MembersText names members needs)
    (hnames : ∀ name ∈ names, TidyName name) :
    memberNames ("\x7b " ++ members ++ "\x7d") = names := by
  rw [memberNames, String.toList_append, String.toList_append, List.append_assoc]
  exact h.wordsDeclared_eq hnames

namespace Graph

variable {g : Dag} {types : GraphTypes}

/-- **The names in all types of a graph are distinct exactly if they are in the types that its outer
look-ups declare.**  Then the names of the members of every struct of the program are those of a
tuple type with distinct names, if the declared names hold neither blanks nor semicolons.  If they
are identifiers, so are the names that are read, and each of them is one member. -/
theorem distinct_iff_declared (htypes : g.types = .ok types) :
    (types.All TupleType.Distinct ↔ g.Declares TupleType.Distinct) ∧
    ∀ comments u, g.codeUnit comments = .ok u → g.Declares TupleType.Distinct →
      g.Declares TupleType.Tidy → ∀ s ∈ u.structs, ∃ t : TupleType, t.Distinct ∧
      memberNames s.body = t.names ∧
      (g.Declares TupleType.Identified → ∀ name ∈ memberNames s.body, Identifier name) := by
  refine ⟨all_types_iff inherited_distinct htypes, fun comments u hunit hdistinct htidy s hs => ?_⟩
  have hall : Inherited fun t => ∀ s ∈ t.tuples, s.names.Nodup ∧ ∀ name ∈ s.names,
      TidyName name ∧ (g.Declares TupleType.Identified → Identifier name) :=
    inherited_of_positional fun types => ⟨nodup_names_positional types,
      fun _ hname => ⟨tidyName_positional hname, fun _ => identifier_positional hname⟩⟩
  have hdeclares : g.Declares fun t => ∀ s ∈ (FieldType.tuple t).tuples, s.names.Nodup ∧
      ∀ name ∈ s.names, TidyName name ∧ (g.Declares TupleType.Identified → Identifier name) := by
    refine fun id node n t hnode hkind s hs => ⟨hdistinct id node n t hnode hkind s hs, ?_⟩
    exact fun name hname => ⟨htidy id node n t hnode hkind s hs name hname,
      fun hnamed => hnamed id node n t hnode hkind s hs name hname⟩
  obtain ⟨number, hnumber⟩ := mem_iff_getElem?.1 hs
  obtain ⟨fields, members, hfields, hmembers, hbody, -⟩ :=
    built_of_codeUnit hall hdeclares hunit number s hnumber
  have hnames := (hfields fields mem_cons_self).2
  have hread := hmembers.memberNames_eq fun name hname => (hnames name hname).1
  refine ⟨fields, fun t ht => (hfields t ht).1, hbody ▸ hread, fun hnamed name hname => ?_⟩
  rw [hbody, hread] at hname
  exact (hnames name hname).2 hnamed

/-- Orders with their lines, of which all pairs are made in a pipeline. -/
def linePairs : Dag where
  nodes := [⟨0, .primitive (.parameterLookup 0 (some [⟨"lines", .array (.tuple
      [⟨"item", .atomic .int64⟩, ⟨"count", .atomic .int32⟩])⟩, ⟨"order", .atomic .int64⟩])), {}⟩,
    ⟨1, .primitive (.rowScan false), {}⟩,
    ⟨2, .pipeline 1 {
      nodes := [⟨0, .primitive (.parameterLookup 0 none), {}⟩, ⟨1, .primitive .cartesian, {}⟩]
      edges := [⟨0, 0, 1, 0⟩, ⟨0, 0, 1, 1⟩]
      sink := some 1
      nextId := 2 }, {}⟩]
  edges := [⟨0, 0, 1, 0⟩, ⟨1, 0, 2, 0⟩]
  sink := some 2
  nextId := 3

theorem linePairs_distinct : ∃ types u, linePairs.types = .ok types ∧ types.All TupleType.Distinct ∧
    linePairs.codeUnit true = .ok u ∧ ∀ s ∈ u.structs, ∃ t : TupleType, t.Distinct ∧
      memberNames s.body = t.names ∧ ∀ name ∈ memberNames s.body, Identifier name := by
  have hg : linePairs.Numbered := isNumbered_iff.1 (by cbv)
  obtain ⟨types, htypes⟩ : ∃ types, linePairs.types = .ok types := ⟨_, by cbv⟩
  obtain ⟨events, htrace, hnone⟩ : ∃ events, linePairs.trace .forward = .ok events ∧
      events.find? Event.entersPartition = none := ⟨_, by cbv, by cbv⟩
  obtain ⟨program, hprogram⟩ := exists_program hg (by cbv) htypes htrace true hnone
  obtain ⟨u, hunit, -⟩ := Outcome.bind_eq_ok_iff.1 hprogram
  have hdeclares : linePairs.Declares fun t => t.Distinct ∧ t.Tidy ∧ t.Identified := by
    intro id node n t hnode hkind
    have hmem := mem_of_node? hnode
    simp only [linePairs, mem_cons, not_mem_nil, or_false] at hmem
    rcases hmem with rfl | rfl | rfl
    · cases hkind
      decide
    · cases hkind
    · cases hkind
  have hdistinct : linePairs.Declares TupleType.Distinct := fun id node n t hnode hkind =>
    (hdeclares id node n t hnode hkind).1
  obtain ⟨hiff, hmembers⟩ := distinct_iff_declared htypes
  refine ⟨types, u, htypes, hiff.2 hdistinct, hunit, fun s hs => ?_⟩
  obtain ⟨t, ht, hnames, hidentified⟩ := hmembers true u hunit hdistinct
    (fun id node n t hnode hkind => (hdeclares id node n t hnode hkind).2.1) s hs
  exact ⟨t, ht, hnames,
    hidentified fun id node n t hnode hkind => (hdeclares id node n t hnode hkind).2.2⟩

/-- A look-up that declares a type in which a name stands twice. -/
def twins : Dag where
  nodes :=
    [⟨0, .primitive (.parameterLookup 0 (some [⟨"a", .atomic .int64⟩, ⟨"a", .atomic .int64⟩])), {}⟩]
  sink := some 0
  nextId := 1

/-- Such a look-up is written to a document and read from it, valid and typed, and two members of a
struct have one name. -/
theorem twins_not_distinct :
    (∃ document, twins.toJson = .ok document ∧ ofJson .standard document = .ok twins) ∧
    twins.validate = .ok () ∧ (∃ types, twins.types = .ok types ∧ ¬types.All TupleType.Distinct) ∧
    ∃ u, twins.codeUnit true = .ok u ∧
      u.structs.map (memberNames ·.body) = [["a", "a"], ["v0"]] := by
  have hvalid : twins.validate = .ok () := by cbv
  have htypes : twins.types = .ok ⟨[(0, [⟨"a", .atomic .int64⟩, ⟨"a", .atomic .int64⟩])], []⟩ := by
    cbv
  have htrace : twins.trace .forward =
      .ok (twins.nodes.flatMap fun node => [⟨.enter, node, twins⟩, ⟨.exit, node, twins⟩]) := by cbv
  have hmapped : (twins.codeUnit true).toOption.map (·.structs.map (memberNames ·.body)) =
      some [["a", "a"], ["v0"]] := by
    rw [codeUnit_of_trace hvalid htypes rfl htrace]
    decide +kernel
  obtain ⟨u, hunit, hnames⟩ := Option.map_eq_some_iff.1 hmapped
  refine ⟨⟨_, by cbv, by cbv⟩, hvalid, ⟨_, htypes, fun hall => ?_⟩, u,
    Outcome.toOption_eq_some_iff.1 hunit, hnames⟩
  exact absurd ((GraphTypes.all_iff.1 hall).1 0 _ rfl) (by decide)

end Graph

end Dataflow
