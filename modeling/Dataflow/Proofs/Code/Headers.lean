/-
**Headers.**

A header declares the structs that the type of the result needs, and those that these need in turn,
in the order in which they were entered.  A struct refers to earlier ones only, so a struct that is
referred to was declared before.  The definition of arrays is included if one of the declarations
has an array; an array that only the type of the result itself is does not count.

Main results:

* `StructTable.needs_subset_closure` — the structs that are needed are closed under reference;
* `StructTable.announces_declarations` — **declarations in order announce what they refer to**;
* `CodeUnit.announces_header` — so does the header of a program;
* `Graph.header_announces` — **headers are self-contained**, but for results whose elements are
  arrays.
-/

import Dataflow.Proofs.Code.Calls
import Dataflow.Proofs.Code.Mentions
import Dataflow.Proofs.Code.Programs

namespace Dataflow

open List FieldType StructTable String

variable {s t text : String} {n : Nat} {P : FieldType → Prop}

/-! ### The structs that are needed -/

namespace StructTable

/-- One step of the search for the structs that are needed. -/
def require (needed : List Nat) (entry : Struct × Nat) : List Nat :=
  if entry.2 ∈ needed then needed ++ entry.1.needs else needed

variable {needed roots : List Nat} {entries : List (Struct × Nat)} {table : StructTable}

theorem closure_eq (table : StructTable) (roots : List Nat) :
    table.closure roots = table.zipIdx.reverse.foldl require roots :=
  rfl

theorem subset_foldl_require : needed ⊆ entries.foldl require needed := by
  induction entries generalizing needed with
  | nil => exact Subset.refl _
  | cons entry entries ih =>
    refine Subset.trans (fun n hn => ?_) ih
    rw [require]
    split
    · exact mem_append_left _ hn
    · exact hn

/-- What is needed was needed from the start, or is referred to. -/
theorem mem_foldl_require (h : n ∈ List.foldl require needed entries) :
    n ∈ needed ∨ ∃ entry ∈ entries, n ∈ entry.1.needs := by
  induction entries generalizing needed with
  | nil => exact .inl h
  | cons entry entries ih =>
    rcases ih h with hn | ⟨other, hother, hn⟩
    · rw [require] at hn
      split at hn
      · rcases mem_append.1 hn with hn | hn
        · exact .inl hn
        · exact .inr ⟨entry, mem_cons_self, hn⟩
      · exact .inl hn
    · exact .inr ⟨other, mem_cons_of_mem _ hother, hn⟩

/-- Going through structs backwards finds all that is needed, since what a struct refers to comes
later. -/
theorem needs_subset_foldl (hsorted : entries.Pairwise fun a b => b.2 < a.2)
    (hneeds : ∀ entry ∈ entries, ∀ m ∈ entry.1.needs, m < entry.2) {entry : Struct × Nat}
    (hentry : entry ∈ entries) (h : entry.2 ∈ entries.foldl require needed) :
    entry.1.needs ⊆ entries.foldl require needed := by
  induction entries generalizing needed with
  | nil => cases hentry
  | cons first entries ih =>
    obtain ⟨hfirst, hsorted⟩ := pairwise_cons.1 hsorted
    have hneeds' := fun entry hentry => hneeds entry (mem_cons_of_mem _ hentry)
    rcases mem_cons.1 hentry with rfl | hentry
    · -- The struct was needed already when it was reached.
      have hnow : entry.2 ∈ needed := by
        rcases mem_foldl_require h with hn | ⟨other, hother, hn⟩
        · exact hn
        · exfalso
          have hlt := hneeds other hother _ hn
          rcases mem_cons.1 hother with rfl | hother
          · omega
          · have := hfirst other hother
            omega
      have hstep : require needed entry = needed ++ entry.1.needs := if_pos hnow
      rw [foldl_cons, hstep]
      exact fun n hn => subset_foldl_require (mem_append_right _ hn)
    · exact ih hsorted hneeds' hentry h

theorem subset_closure (table : StructTable) (roots : List Nat) : roots ⊆ table.closure roots := by
  rw [closure_eq]
  exact subset_foldl_require

theorem pairwise_zipIdx (table : StructTable) : table.zipIdx.Pairwise fun a b => a.2 < b.2 := by
  have hnumbers : (table.zipIdx.map Prod.snd).Pairwise (· < ·) := by
    rw [zipIdx_map_snd]
    exact pairwise_lt_range'
  exact pairwise_map.1 hnumbers

/-- **The structs that are needed are closed under reference.** -/
theorem needs_subset_closure (htable : Built P table) {s : Struct}
    (hs : table[n]? = some s) (hn : n ∈ table.closure roots) : s.needs ⊆ table.closure roots := by
  have hneeds : ∀ entry ∈ table.zipIdx.reverse, ∀ m ∈ entry.1.needs, m < entry.2 := by
    intro entry hentry
    rw [mem_reverse, mem_zipIdx_iff_getElem?] at hentry
    obtain ⟨_, _, -, -, -, hneeds⟩ := htable entry.2 entry.1 hentry
    exact hneeds
  have hentry : (s, n) ∈ table.zipIdx.reverse := mem_reverse.2 (mem_zipIdx_iff_getElem?.2 hs)
  rw [closure_eq] at hn ⊢
  exact needs_subset_foldl (pairwise_reverse.2 (pairwise_zipIdx table)) hneeds hentry hn

/-! ### Texts that declare before they refer -/

/-- A text, behind some context, in which the name of a struct stands only where the struct is
declared, and behind its declaration. -/
def Announces (table : StructTable) (context text : List Char) : Prop :=
  ∀ before after n, text = before ++ (structName n).toList ++ after → Apart before after →
    ∃ s, table[n]? = some s ∧ ((declaration n s).toList <:+: context ++ before ∨
      ("typedef struct " ++ s.body ++ " ").toList <:+ before ∧ ";\n".toList <+: after)

variable {context x y : List Char} {needs : List Nat}

theorem announces_of_not_refers (h : ∀ n, ¬Refers text n) : Announces table context text.toList :=
  fun before after n htext hapart => absurd ⟨before, after, htext, hapart⟩ (h n)

/-- A text that refers to structs that were declared before announces them. -/
theorem announces_of_declared (h : ∀ n, Refers text n →
    ∃ s, table[n]? = some s ∧ (declaration n s).toList <:+: context) : Announces table
      context text.toList := by
  intro before after n htext hapart
  obtain ⟨s, hs, hdeclared⟩ := h n ⟨before, after, htext, hapart⟩
  exact ⟨s, hs, .inl (hdeclared.trans (prefix_append _ _).isInfix)⟩

theorem Announces.append (hx : Announces table context x) (hmeets : Meets isWord x y)
    (hy : Announces table (context ++ x) y) : Announces table context (x ++ y) := by
  intro before after n h hapart
  rcases apart_of_split hmeets hapart h with ⟨rest, hsplit, rfl, hrest⟩ | ⟨rest, hsplit, rfl, hrest⟩
  · obtain ⟨s, hs, hdeclared | ⟨hbefore, hafter⟩⟩ := hx before rest n hsplit hrest
    · exact ⟨s, hs, .inl hdeclared⟩
    · exact ⟨s, hs, .inr ⟨hbefore, hafter.trans (prefix_append _ _)⟩⟩
  · obtain ⟨s, hs, hdeclared | ⟨hbefore, hafter⟩⟩ := hy rest after n hsplit hrest
    · exact ⟨s, hs, .inl (by rwa [← List.append_assoc])⟩
    · exact ⟨s, hs, .inr ⟨hbefore.trans (suffix_append _ _), hafter⟩⟩

theorem infix_between (s front back : String) (tail : List Char) :
    s.toList <:+: [] ++ (front ++ s ++ back).toList ++ tail := by
  refine ⟨front.toList, back.toList ++ tail, ?_⟩
  simp only [toList_append, List.append_assoc, nil_append]

theorem Announces.concat (hs : Announces table context s.toList)
    (hmeets : Meets isWord s.toList t.toList) (ht : Announces table (context ++ s.toList)
      t.toList) : Announces table context (s ++ t).toList := by
  rw [toList_append]
  exact hs.append hmeets ht

theorem Announces.followed (ht : ¬"tuple_".toList <:+: t.toList)
    (hmeets : Meets isWord s.toList t.toList) (hs : Announces table context s.toList) :
    Announces table context (s ++ t).toList :=
  hs.concat hmeets (announces_of_not_refers fun _ => not_refers ht)

/-- A declaration announces its struct, and what its members refer to if that was declared
before. -/
theorem announces_declaration {m : Nat} {s : Struct} (hs : table[m]? = some s)
    (hbody : ∀ n, Refers s.body n → ∃ s', table[n]? = some s' ∧
      (declaration n s').toList <:+: context) :
    Announces table context (declaration m s).toList := by
  have hsplit : (declaration m s).toList =
      ("typedef struct " ++ s.body ++ " ").toList ++ ((structName m).toList ++ ";\n".toList) := by
    unfold declaration
    simp only [toList_append, List.append_assoc]
  have hfront : Announces table context ("typedef struct " ++ s.body ++ " ").toList := by
    refine announces_of_declared fun n hn => hbody n ?_
    have htypedef : ¬Refers "typedef struct " n := not_refers (not_infix_literal rfl)
    have hblank : ¬Refers " " n := not_refers (not_infix_literal rfl)
    rw [refers_append (meets_literal_right rfl),
      refers_append (meets_literal_left rfl)] at hn
    simpa only [htypedef, hblank, false_or, or_false] using hn
  have hmeets : Meets isWord (structName m).toList ";\n".toList := .inr (by simp [isWord])
  rw [hsplit]
  intro before after n h hapart
  rcases apart_of_split (meets_left rfl) hapart h with
    ⟨rest, hleft, rfl, hrest⟩ | ⟨rest, hright, rfl, hrest⟩
  · obtain ⟨s', hs', hdeclared | ⟨hbefore, hafter⟩⟩ := hfront before rest n hleft hrest
    · exact ⟨s', hs', .inl hdeclared⟩
    · exact ⟨s', hs', .inr ⟨hbefore, hafter.trans (prefix_append _ _)⟩⟩
  -- Behind the members stands the name of the struct itself.
  rcases apart_of_split hmeets hrest hright with ⟨more, hname, rfl, hmore⟩ | ⟨more, hend, -, hmore⟩
  · obtain ⟨rfl, rfl, heq⟩ := eq_of_apart (word_structName _) hmore hname
    obtain rfl := structName_injective heq
    exact ⟨s, hs, .inr ⟨(append_nil _).symm ▸ suffix_rfl, prefix_rfl⟩⟩
  · exact absurd ⟨more, after, hend, hmore⟩ (@not_refers ";\n" n (not_infix_literal rfl))

/-- **Declarations in order announce what they refer to**, if each refers to earlier ones only. -/
theorem announces_declarations (hentries : ∀ entry ∈ entries, table[entry.2]? = some entry.1)
    (hneeds : ∀ done entry rest, entries = done ++ entry :: rest → ∀ n, Refers entry.1.body n →
      ∃ other ∈ done, other.2 = n) :
    Announces table context
      (join (entries.map fun entry => declaration entry.2 entry.1)).toList := by
  have hrest : ∀ rest done, entries = done ++ rest →
      Announces table
      (context ++ (join (done.map fun entry => declaration entry.2 entry.1)).toList)
        (join (rest.map fun entry => declaration entry.2 entry.1)).toList := by
    intro rest
    induction rest with
    | nil =>
      exact fun _ _ =>
        announces_of_not_refers (fun _ => not_refers (not_infix_literal rfl))
    | cons entry rest ih =>
      intro done hsplit
      have hmeets : ∀ y, Meets isWord (declaration entry.2 entry.1).toList y :=
        fun _ => meets_left rfl
      rw [map_cons, join_cons, toList_append]
      refine (announces_declaration ?_ fun n hn => ?_).append (hmeets _) ?_
      · exact hentries entry (hsplit ▸ mem_append_right _ mem_cons_self)
      · obtain ⟨other, hother, rfl⟩ := hneeds done entry rest hsplit n hn
        refine ⟨other.1, hentries other (hsplit ▸ mem_append_left _ hother), ?_⟩
        obtain ⟨front, back, rfl⟩ := append_of_mem hother
        refine (IsInfix.trans ?_ (suffix_append _ _).isInfix)
        rw [map_append, map_cons, join_append, join_cons]
        simp only [toList_append]
        exact ⟨_, _, (List.append_assoc _ _ _)⟩
      · have hnext := ih (done ++ [entry]) (by rw [hsplit, List.append_assoc, singleton_append])
        rw [map_append, join_append, toList_append] at hnext
        rw [List.append_assoc]
        simpa using hnext
  simpa using hrest entries [] rfl

/-- The property of types whose names refer to no struct. -/
def NeutralType (t : FieldType) : Prop :=
  ∀ s ∈ t.tuples, ∀ name ∈ TupleType.names s, ∀ n, ¬Refers name n

theorem refers_of_built (htable : Built NeutralType table) {m n : Nat} {s : Struct}
    (hs : table[m]? = some s) (hn : Refers s.body n) : n ∈ s.needs ∧ n < m := by
  obtain ⟨fields, members, hfields, hmembers, hbody, hneeds⟩ := htable m s hs
  rw [hbody, refers_body, hmembers.refers_iff] at hn
  have hmem := hn.resolve_right fun ⟨name, hname, hrefers⟩ =>
    hfields fields mem_cons_self name hname n hrefers
  exact ⟨hmem, hneeds n hmem⟩

/-- The entries of a table that some structs need. -/
def neededEntries (table : StructTable) (names : List String) :
    List (Struct × Nat) :=
  table.zipIdx.filter
      ((table.closure ((List.range table.length).filter (names.contains <| structName ·))).contains
      ·.2)

theorem renderNeeded_eq (table : StructTable) (names : List String) : table.renderNeeded names =
    join ((table.neededEntries names).map fun entry => declaration entry.2 entry.1) :=
  rfl

/-- The declarations that some structs need announce what they refer to. -/
theorem announces_renderNeeded (htable : Built NeutralType table) (names : List String) :
    Announces table context (table.renderNeeded names).toList := by
  rw [renderNeeded_eq]
  have hmem : ∀ entry ∈ table.neededEntries names, table[entry.2]? = some entry.1 := by
    intro entry hentry
    exact mem_zipIdx_iff_getElem?.1 (mem_of_mem_filter hentry)
  have hsorted : (table.neededEntries names).Pairwise fun a b => a.2 < b.2 :=
    (pairwise_zipIdx table).filter _
  refine announces_declarations hmem fun done entry rest hsplit n hn => ?_
  have hentry : entry ∈ table.neededEntries names := hsplit ▸ mem_append_right _ mem_cons_self
  obtain ⟨hneeds, hlt⟩ := refers_of_built htable (hmem entry hentry) hn
  have hclosed := needs_subset_closure htable (hmem entry hentry)
    (contains_iff_mem.1 (mem_filter.1 hentry).2) hneeds
  have hlength : n < table.length :=
    Nat.lt_trans hlt (List.getElem?_eq_some_iff.1 (hmem entry hentry)).1
  have hother : (table[n], n) ∈ table.neededEntries names :=
    mem_filter.2 ⟨mem_zipIdx_iff_getElem?.2 (getElem?_eq_getElem hlength),
      contains_iff_mem.2 hclosed⟩
  -- The entries are in order, so the earlier struct is among those that are done.
  rw [hsplit, mem_append] at hother
  rcases hother with hdone | hlater
  · exact ⟨_, hdone, rfl⟩
  · exfalso
    rw [hsplit] at hsorted
    have hle : entry.2 ≤ n := by
      rcases mem_cons.1 hlater with heq | hrest
      · exact (congrArg Prod.snd heq).ge
      · exact Nat.le_of_lt ((pairwise_cons.1 (pairwise_append.1 hsorted).2.1).1 _ hrest)
    omega

theorem declared_of_mem (hn : n ∈ needs) (hlt : n < table.length) :
    ∃ s, table[n]? = some s ∧
      (declaration n s).toList <:+: (table.renderNeeded (needs.map structName)).toList := by
  have hroot : n ∈ (List.range table.length).filter
    ((needs.map structName).contains <| structName ·) :=
    mem_filter.2 ⟨mem_range.2 hlt, contains_iff_mem.2 (List.mem_map_of_mem hn)⟩
  have hentry : (table[n], n) ∈ table.neededEntries (needs.map structName) :=
    mem_filter.2 ⟨mem_zipIdx_iff_getElem?.2 (getElem?_eq_getElem hlt),
      contains_iff_mem.2 (subset_closure _ _ hroot)⟩
  refine ⟨table[n], getElem?_eq_getElem hlt, ?_⟩
  obtain ⟨front, back, hsplit⟩ := append_of_mem hentry
  rw [renderNeeded_eq, hsplit, map_append, map_cons, join_append, join_cons]
  simp only [toList_append]
  exact ⟨_, _, List.append_assoc _ _ _⟩

end StructTable

/-! ### Headers -/

/-- A text that includes the definition of arrays before it uses any. -/
def IncludesArrays (text : String) : Prop := ∃ before after, ¬"Array<".toList <:+: before ∧
    text.toList = before ++ "#include \"runtime/array.hpp\"\n".toList ++ after

theorem IncludesArrays.append (h : IncludesArrays s) (t : String) : IncludesArrays (s ++ t) := by
  obtain ⟨before, after, hbefore, hs⟩ := h
  exact ⟨before, after ++ t.toList, hbefore, by rw [toList_append, hs, List.append_assoc]⟩

namespace CodeUnit

section

variable {word : List Char}

theorem not_infix_append {x y : List Char} (hy : ¬word <:+: y) (hmeets : Meets word.contains x y)
    (hx : ¬word <:+: x) : ¬word <:+: x ++ y := by
  intro h
  rcases infix_of_meets (fun c hc => contains_iff_mem.2 hc) hmeets h with h | h
  · exact hx h
  · exact hy h

theorem infix_of_left (h : word <:+: s.toList) : word <:+: (s ++ t).toList := by
  rw [toList_append]
  exact h.trans (prefix_append _ _).isInfix

theorem infix_of_right (h : word <:+: t.toList) : word <:+: (s ++ t).toList := by
  rw [toList_append]
  exact h.trans (suffix_append _ _).isInfix

theorem not_infix_concat (ht : ¬word <:+: t.toList) (hmeets : Meets word.contains s.toList t.toList)
    (hs : ¬word <:+: s.toList) : ¬word <:+: (s ++ t).toList := by
  rw [toList_append]
  exact not_infix_append ht hmeets hs

theorem not_infix_texts {texts : List String}
    (h : (texts.any fun t => Text.hasPart word t.toList) = false) :
    ∀ t ∈ texts, ¬word <:+: t.toList := by
  intro t ht hpart
  exact List.any_eq_false.1 h t ht (Text.hasPart_iff.2 hpart)

variable (hnil : word ≠ []) (hword : ∀ c ∈ word, c.isDigit = false ∧ c ≠ ' ' ∧ c ≠ ',')
  (htexts : ∀ text ∈ ["void", "void *input_", ", unsigned long input_", "_size", ", "],
  ¬word <:+: text.toList)
include hword htexts

include hnil in
/-- A word without digits, blanks and commas does not stand in a parameter, if it does not stand in
the texts that this is made of. -/
theorem not_infix_parameter (n : Nat) :
    ¬word <:+: (s!"void *input_{n}, unsigned long input_{n}_size").toList := by
  have hdigit : ∀ c ∈ n.repr.toList, word.contains c = false := by
    intro c hc
    rw [Bool.eq_false_iff]
    intro hcontains
    have hno := (hword c (contains_iff_mem.1 hcontains)).1
    rw [Number.isDigit_of_mem_toString hc] at hno
    cases hno
  have hnumber : ¬word <:+: n.repr.toList := by
    intro hpart
    obtain ⟨c, rest, rfl⟩ := exists_cons_of_ne_nil hnil
    have hno := hdigit c (hpart.subset mem_cons_self)
    rw [contains_iff_mem.2 mem_cons_self] at hno
    cases hno
  obtain ⟨d, digits, hdigits⟩ : ∃ d digits, n.repr.toList = d :: digits :=
    exists_cons_of_ne_nil fun hempty => Nat.repr_ne_empty (toList_inj.1 hempty)
  have hlast : ∀ y, Meets word.contains n.repr.toList y :=
    fun y => .inl fun c hc => hdigit c (mem_of_getLast? hc)
  have hfirst : ∀ x y, Meets word.contains x (n.repr.toList ++ y) := by
    intro x y
    rw [hdigits]
    exact meets_of_head rfl (hdigit d (hdigits ▸ mem_cons_self))
  have hsplit : (s!"void *input_{n}, unsigned long input_{n}_size").toList =
    "void *input_".toList ++
      (n.repr.toList ++
      (", unsigned long input_".toList ++ (n.repr.toList ++ "_size".toList))) := by
    simp only [toList_append, List.append_assoc]
    rfl
  rw [hsplit]
  refine not_infix_append (not_infix_append ?_ (hlast _) hnumber) (hfirst _ _) (htexts _ (by simp))
  exact not_infix_append (not_infix_append (htexts _ (by simp)) (hlast _) hnumber) (hfirst _ _)
    (htexts _ (by simp))

include hnil in
theorem not_infix_signature (u : CodeUnit) : ¬word <:+: u.signature.toList := by
  have hblank : word.contains ' ' = false := by
    rw [Bool.eq_false_iff]
    exact fun h => (hword _ (contains_iff_mem.1 h)).2.1 rfl
  have hcomma : word.contains ',' = false := by
    rw [Bool.eq_false_iff]
    exact fun h => (hword _ (contains_iff_mem.1 h)).2.2 rfl
  rw [signature]
  split
  · exact htexts _ (by simp)
  · generalize u.parameters = parameters
    induction parameters with
    | nil => exact fun h => hnil (infix_nil.1 h)
    | cons n parameters ih =>
      cases parameters with
      | nil =>
        rw [map_singleton, String.intercalate_singleton]
        exact not_infix_parameter hnil hword htexts n
      | cons m parameters =>
        rw [map_cons, map_cons, String.intercalate_cons_cons, String.toList_append,
          String.toList_append, List.append_assoc]
        have hrest := not_infix_append ih (meets_of_last rfl hblank) (htexts ", " (by simp))
        exact not_infix_append hrest (meets_of_head rfl hcomma)
          (not_infix_parameter hnil hword htexts n)

end

variable {u : CodeUnit} {needs : List Nat} {context : List Char}

/-- **A header announces the structs that it refers to**: those of the type of the elements were
declared before. -/
theorem announces_header (htable : Built NeutralType u.structs)
    (htype : TypeText u.elementType needs) (hroots : u.elementRoots = needs.map structName)
    (hneeds : ∀ n ∈ needs, n < u.structs.length) :
    Announces u.structs [] u.header.toList := by
  have hsignature : ¬"tuple_".toList <:+: u.signature.toList :=
    not_infix_signature (by simp) (by simp) (not_infix_texts (by cbv)) u
  unfold header resultType
  dsimp only
  rw [hroots]
  -- What follows the declaration of the result refers to nothing.
  refine .followed (not_infix_literal rfl) (meets_literal_right rfl) ?_
  refine .followed (not_infix_literal rfl) (meets_literal_right rfl) ?_
  refine .followed hsignature (meets_left rfl) ?_
  refine .followed (not_infix_literal rfl) (meets_left rfl) ?_
  refine .followed (not_infix_literal rfl) (meets_literal_right rfl) ?_
  refine .concat ?_ (meets_left rfl) ?_
  · refine .followed (not_infix_literal rfl) (meets_literal_right rfl) ?_
    refine .concat ?_ (meets_left rfl) (announces_renderNeeded htable _)
    refine .followed (not_infix_literal rfl) (meets_literal_right rfl) ?_
    refine .followed ?_ (meets_literal_left rfl) ?_
    · split
      · exact not_infix_literal rfl
      · exact not_infix_literal rfl
    · exact announces_of_not_refers fun n => not_refers (not_infix_literal rfl)
  · refine .followed (not_infix_literal rfl) (meets_literal_right rfl) ?_
    refine .concat ?_ (meets_literal_left rfl) (announces_of_declared fun n hn => ?_)
    · exact announces_of_not_refers fun n => not_refers (not_infix_literal rfl)
    · have hmem := htype.refers_iff.1 hn
      obtain ⟨s, hs, hdeclared⟩ := declared_of_mem hmem (hneeds n hmem)
      exact ⟨s, hs, hdeclared.trans (infix_between _ _ _ _)⟩

/-- Arrays stand in a header only if a declaration in it or the type of the elements has one. -/
theorem not_infix_header
    (hdeclarations : ¬"Array<".toList <:+: (u.structs.renderNeeded u.elementRoots).toList)
    (helement : ¬"Array<".toList <:+: u.elementType.toList) :
    ¬"Array<".toList <:+: u.header.toList := by
  have hsignature : ¬"Array<".toList <:+: u.signature.toList :=
    not_infix_signature (by simp) (by simp) (not_infix_texts (by cbv)) u
  unfold header resultType
  dsimp only
  rw [if_neg (by rwa [Text.hasPart_iff])]
  refine not_infix_concat (not_infix_literal rfl) (meets_literal_right rfl) ?_
  refine not_infix_concat (not_infix_literal rfl) (meets_literal_right rfl) ?_
  refine not_infix_concat hsignature (meets_left rfl) ?_
  refine not_infix_concat (not_infix_literal rfl) (meets_left rfl) ?_
  refine not_infix_concat (not_infix_literal rfl) (meets_literal_right rfl) ?_
  refine not_infix_concat ?_ (meets_left rfl) ?_
  · refine not_infix_concat (not_infix_literal rfl) (meets_literal_right rfl) ?_
    exact not_infix_concat helement (meets_literal_left rfl) (not_infix_literal rfl)
  · refine not_infix_concat (not_infix_literal rfl) (meets_literal_right rfl) ?_
    refine not_infix_concat hdeclarations (meets_left rfl) ?_
    refine not_infix_concat (not_infix_literal rfl) (meets_literal_right rfl) ?_
    exact not_infix_concat (not_infix_literal rfl) (meets_literal_left rfl) (not_infix_literal rfl)

/-- The definition of arrays is included if a declaration has one. -/
theorem includesArrays_of_infix
    (h : "Array<".toList <:+: (u.structs.renderNeeded u.elementRoots).toList) :
    IncludesArrays u.header := by
  unfold header
  dsimp only
  rw [if_pos (Text.hasPart_iff.2 h)]
  iterate 9 refine IncludesArrays.append ?_ _
  exact ⟨_, [], not_infix_literal rfl, toList_append.trans (append_nil _).symm⟩

theorem declarations_infix_header (u : CodeUnit) :
    (u.structs.renderNeeded u.elementRoots).toList <:+: u.header.toList := by
  unfold header
  dsimp only
  iterate 7 refine infix_of_left ?_
  exact infix_of_right infix_rfl

theorem elementType_infix_header (u : CodeUnit) : u.elementType.toList <:+: u.header.toList := by
  unfold header resultType
  dsimp only
  iterate 5 refine infix_of_left ?_
  exact infix_of_right (infix_of_left (infix_of_right infix_rfl))

theorem array_of_infix {element : FieldType} {table : StructTable}
    (h : "Array<".toList <:+: (element.spell.run table).1.1.toList) :
    ∃ item, element = .array item := by
  have hfree : ∀ {text : String}, '<' ∉ text.toList → ¬"Array<".toList <:+: text.toList :=
    fun hmem => not_infix_of_not_mem (c := '<') (by decide) hmem
  cases element with
  | array item => exact ⟨item, rfl⟩
  | atomic kind =>
    have hkind : '<' ∉ kind.cType.toList := by cases kind <;> decide
    exact absurd h (hfree hkind)
  | tuple fields =>
    rw [run_spell_tuple] at h
    refine absurd h (hfree fun hmem => ?_)
    exact absurd (word_structName _ _ hmem) (by decide)

end CodeUnit

namespace Graph

variable {g : Dag} {comments : Bool} {u : CodeUnit}

theorem ends_of_codeUnit (hP : Inherited P) (hg : g.Numbered)
    (hdeclares : g.Declares fun t => P (.tuple t)) (h : g.codeUnit comments = .ok u) :
    ∃ types sink t, g.types = .ok types ∧ g.sink = some sink ∧ types.outputs.get? sink = some t ∧
      P t.resultElement ∧ u.Ends P t.resultElement := by
  obtain ⟨types, sink, events, e, b, hvalid, htypes, hsink, htrace, hevents, hb, hfits, hends⟩ :=
    ends_of_sink hP hdeclares h
  refine ⟨types, sink, b.type, htypes, hsink, ?_,
    TupleType.inherited_resultElement hP hfits.1, hends⟩
  -- All operators have variables of their types then, and the sink is one of them.
  obtain ⟨-, hextends⟩ := (emits_start hg g.declares_unnamed htypes htrace comments).of_run hevents
  obtain ⟨bindings, hscopes, hbinds⟩ := hextends.scopes
  obtain ⟨b', hb', htype⟩ :=
    hbinds sink (.inl (((validateWithin_eq_ok_iff hg).1 hvalid).wired.sink sink hsink))
  rw [Emitter.binding?, hscopes] at hb
  rwa [Option.mem_unique hb hb']

/-- **Headers are self-contained**: if no declared name refers to a struct, the structs that the
header of a program refers to are declared before, and arrays are defined before they are used,
unless the elements of the result are arrays and no declaration has one. -/
theorem header_announces {program : Program} (hg : g.Numbered)
    (h : g.program comments = .ok program) :
    ∃ u types sink t, g.codeUnit comments = .ok u ∧ program.header = u.header ∧
      g.types = .ok types ∧ g.sink = some sink ∧ types.outputs.get? sink = some t ∧
      (g.Declares TupleType.Neutral → u.structs.Announces [] program.header.toList) ∧
      ("Array<".toList <:+: program.header.toList → IncludesArrays program.header ∨
        (∃ element, t.resultElement = .array element) ∧
          ¬"Array<".toList <:+: (u.structs.renderNeeded u.elementRoots).toList) := by
  obtain ⟨u, hunit, hprogram⟩ := Outcome.bind_eq_ok_iff.1 h
  obtain rfl : (⟨u.source, u.header⟩ : Program) = program := Except.ok.inj hprogram
  have htrue : Inherited fun _ => True := ⟨by simp, by simp, by simp, by simp⟩
  obtain ⟨types, sink, t, htypes, hsink, ht, -, table, -, -, htype, -⟩ :=
    ends_of_codeUnit htrue hg (fun _ _ _ _ _ _ => trivial) hunit
  refine ⟨u, types, sink, t, hunit, rfl, htypes, hsink, ht, fun hneutral => ?_, fun harray => ?_⟩
  · obtain ⟨types', sink', t', htypes', hsink', ht', helement, table, htable,
      hstructs, htype', hroots⟩ :=
      ends_of_codeUnit inherited_neutral hg hneutral hunit
    have hspelled := built_spell inherited_neutral helement htable
    refine CodeUnit.announces_header (hstructs ▸ hspelled.built) (htype' ▸ hspelled.text) hroots ?_
    rw [hstructs]
    exact hspelled.known
  · by_cases hdeclarations : "Array<".toList <:+: (u.structs.renderNeeded u.elementRoots).toList
    · exact .inl (CodeUnit.includesArrays_of_infix hdeclarations)
    · refine .inr ⟨?_, hdeclarations⟩
      by_contra hnot
      refine CodeUnit.not_infix_header hdeclarations (fun hinside => hnot ?_) harray
      rw [htype] at hinside
      exact CodeUnit.array_of_infix hinside

/-- A look-up of a declared type. -/
def declared (t : TupleType) : Dag where
  nodes := [⟨0, .primitive (.parameterLookup 0 (some t)), {}⟩]
  sink := some 0
  nextId := 1

theorem types_declared (t : TupleType) : (declared t).types = .ok ⟨[(0, t)], []⟩ := by cbv

theorem codeUnit_declared (t : TupleType) : (declared t).codeUnit true = ((do
      ((declared t).nodes.flatMap fun node => [⟨.enter, node, declared t⟩,
      ⟨.exit, node, declared t⟩]).forM
        Emission.visit
      Emission.finish 0 : Emission CodeUnit).run.run (Emitter.start ⟨[(0, t)], []⟩ true)).1 :=
  codeUnit_of_trace (by cbv) (types_declared t) rfl (by cbv) true

/-- Orders with their lines, all in one row. -/
def orderBook : TupleType := [⟨"orders", .array (.tuple [⟨"number", .atomic .int64⟩,
    ⟨"lines", .array (.tuple [⟨"item", .atomic .int64⟩, ⟨"count", .atomic .int32⟩])⟩])⟩]

/-- The structs of orders and lines are declared in the header, and that of orders has an array. -/
theorem orderBook_header :
    (declared orderBook).Numbered ∧ (declared orderBook).Declares TupleType.Neutral ∧
    ∃ program u, (declared orderBook).program true = .ok program ∧
      "Array<".toList <:+: program.header.toList ∧ (declared orderBook).codeUnit true = .ok u ∧
      u.structs.Announces [] program.header.toList ∧ IncludesArrays program.header := by
  have hg : (declared orderBook).Numbered := isNumbered_iff.1 (by cbv)
  have hneutral : (declared orderBook).Declares TupleType.Neutral := by
    intro id node n t hnode hkind
    obtain rfl := mem_singleton.1 (mem_of_node? hnode)
    cases hkind
    have hfree : ∀ s ∈ (FieldType.tuple orderBook).tuples, ∀ name ∈ s.names,
        ¬"tuple_".toList <:+: name.toList := by decide +kernel
    exact fun s hs name hname n => not_refers (hfree s hs name hname)
  have hmapped : ((declared orderBook).codeUnit true).toOption.map
      (fun u => Text.hasPart "Array<".toList (u.structs.renderNeeded u.elementRoots).toList) =
      some true := by
    rw [codeUnit_declared]
    decide +kernel
  obtain ⟨u, hunit, harray⟩ := Option.map_eq_some_iff.1 hmapped
  replace hunit := Outcome.toOption_eq_some_iff.1 hunit
  have hprogram : (declared orderBook).program true = .ok ⟨u.source, u.header⟩ := by
    rw [program, hunit]
    rfl
  have harray := (Text.hasPart_iff.1 harray).trans u.declarations_infix_header
  obtain ⟨u', types, sink, t, hunit', -, htypes, hsink, ht, hannounces, hincludes⟩ :=
    header_announces hg hprogram
  refine ⟨hg, hneutral, _, u', hprogram, harray, hunit', hannounces hneutral, ?_⟩
  obtain rfl := Except.ok.inj ((types_declared orderBook).symm.trans htypes)
  cases hsink
  cases ht
  refine (hincludes harray).resolve_right ?_
  rintro ⟨⟨_, helement⟩, -⟩
  cases helement

/-- Rows of arrays are a result whose elements are arrays, whose definition is then not included.
And a field may be named like a struct that there is not. -/
theorem arrays_not_included :
    (∃ program, (declared [⟨"v0", .array (.array (.atomic .int64))⟩]).program true = .ok program ∧
      "Array<".toList <:+: program.header.toList ∧ ¬IncludesArrays program.header) ∧
    ∃ u, (declared [⟨"tuple_7", .atomic .int64⟩]).codeUnit true = .ok u ∧
      Refers u.header 7 ∧ u.structs[7]? = none := by
  constructor
  · have hmapped : ((declared [⟨"v0", .array (.array (.atomic .int64))⟩]).codeUnit
      true).toOption.map
        (fun u => (u.structs.renderNeeded u.elementRoots, u.elementType, u.signature)) =
          some ("", "Array<int64_t>", "void *input_0, unsigned long input_0_size") := by
      rw [codeUnit_declared]
      decide +kernel
    obtain ⟨u, hunit, hparts⟩ := Option.map_eq_some_iff.1 hmapped
    simp only [Prod.mk.injEq] at hparts
    obtain ⟨hdeclarations, htype, hsignature⟩ := hparts
    have hprogram : (declared [⟨"v0", .array (.array (.atomic .int64))⟩]).program true =
        .ok ⟨u.source, u.header⟩ := by
      rw [program, Outcome.toOption_eq_some_iff.1 hunit]
      rfl
    refine ⟨_, hprogram, IsInfix.trans ?_ u.elementType_infix_header, ?_⟩
    · rw [htype]
      decide +kernel
    · have hnone : Text.hasPart "#include \"runtime/array.hpp\"\n".toList
          u.header.toList = false := by
        unfold CodeUnit.header CodeUnit.resultType
        dsimp only
        simp only [hdeclarations, htype, hsignature, toList_append]
        decide +kernel
      rintro ⟨before, after, -, hheader⟩
      rw [Text.hasPart_iff.2 ⟨before, after, hheader.symm⟩] at hnone
      cases hnone
  · have hmapped : ((declared [⟨"tuple_7", .atomic .int64⟩]).codeUnit true).toOption.map
        (fun u => (Text.hasPart " tuple_7;".toList (u.structs.renderNeeded u.elementRoots).toList,
          u.structs.length)) = some (true, 2) := by
      rw [codeUnit_declared]
      decide +kernel
    obtain ⟨u, hunit, hparts⟩ := Option.map_eq_some_iff.1 hmapped
    obtain ⟨hname, hlength⟩ := Prod.mk.inj hparts
    obtain ⟨before, after, hheader⟩ := (Text.hasPart_iff.1 hname).trans u.declarations_infix_header
    refine ⟨u, Outcome.toOption_eq_some_iff.1 hunit,
      ⟨before ++ [' '], ';' :: after, ?_, ?_, ?_⟩, ?_⟩
    · rw [← hheader]
      have htext : " tuple_7;".toList =
        [' '] ++ ((structName 7).toList ++ [';']) := by decide +kernel
      rw [htext]
      simp only [List.append_assoc, cons_append, nil_append]
    · intro c hc
      rw [getLast?_concat] at hc
      cases hc
      rfl
    · intro c hc
      cases hc
      rfl
    · exact getElem?_eq_none (by omega)

end Graph

end Dataflow
