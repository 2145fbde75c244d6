/-
**Structs number types.**

A struct is entered under the next number unless there is one with the same members, and members are
compared as text.  Entered structs stay, so a type that was declared is found again under its
number, in every later table. And if the names of the fields hold neither blanks nor semicolons, the
text of the members tells the fields apart: a blank ends a type and a semicolon ends a name.  So
types of one number are equal.

Main results:

* `FieldType.spell_again` — **a type that was spelled is spelled alike later on**, and nothing is
  entered;
* `FieldType.spell_injective` — **types that are spelled alike are equal**;
* `StructTable.mem_closure_iff` — the search for the structs that are needed finds these and no
  others;
* `Declared.enter_ofTable`, `Declared.search_ofTable` — structs that are stored with their names,
  and the work list by which those that are needed are looked up;
* `TupleType.declared_faithfully` — **tables of structs number the types that were declared**.
-/

import Dataflow.Proofs.Code.Headers
import Dataflow.Proofs.Code.Members

namespace Dataflow

open List FieldType StructTable TupleType

variable {fields t : TupleType} {table later start : StructTable}
  {names needed stack : List String} {name : String} {P : FieldType → Prop}

/-! ### Spelling again -/

theorem StructTable.prefix_enter (body : String) (needs : List Nat) (table : StructTable) :
    table <+: ((enter body needs).run table).2 := by
  rw [run_enter]
  split
  · exact prefix_rfl
  · exact prefix_append _ _

theorem StructTable.enter_again {body : String} {needs : List Nat}
    (h : ((enter body needs).run table).2 <+: later) :
    (enter body needs).run later = (((enter body needs).run table).1, later) := by
  rw [run_enter] at h ⊢
  rw [run_enter]
  obtain ⟨more, rfl⟩ := h
  cases hfound : table.findIdx? (·.body == body) with
  | some number => simp [findIdx?_append, hfound]
  | none => simp [findIdx?_append, findIdx?_cons, hfound]

namespace FieldType

theorem typeText_spell (t : FieldType) (table : StructTable) :
    TypeText (t.spell.run table).1.1 (t.spell.run table).1.2 := by
  induction t using FieldType.induction generalizing table with
  | atomic kind => exact .atomic kind
  | array element ih => exact .array (ih table)
  | tuple fields _ =>
    rw [run_spell_tuple]
    exact .struct _

/-- What spelling something does: the table keeps what it has, and spelled in a later table it is
spelled alike and nothing is entered. -/
def Settles (spell : StateM StructTable (String × List Nat)) : Prop :=
  ∀ table, table <+: (spell.run table).2 ∧ ∀ later, (spell.run table).2 <+: later →
    spell.run later = ((spell.run table).1, later)

theorem settles_members (ih : ∀ f ∈ fields, Settles f.type.spell) :
    Settles (spellMembers fields) := by
  induction fields with
  | nil => exact fun table => ⟨prefix_rfl, fun later _ => rfl⟩
  | cons field fields ihfields =>
    obtain ⟨name, type⟩ := field
    intro table
    simp only [run_spellMembers_cons]
    obtain ⟨hfirst, hagain⟩ := ih ⟨name, type⟩ mem_cons_self table
    obtain ⟨hothers, hrest⟩ :=
      ihfields (fun f hf => ih f (mem_cons_of_mem _ hf)) (type.spell.run table).2
    refine ⟨hfirst.trans hothers, fun later h => ?_⟩
    simp only [hagain later (hothers.trans h), hrest later h]

/-- **A type that was spelled is spelled alike later on**, and nothing is entered. -/
theorem spell_again (t : FieldType) : Settles t.spell := by
  induction t using FieldType.induction with
  | atomic kind => exact fun table => ⟨prefix_rfl, fun later _ => rfl⟩
  | array element ih =>
    intro table
    simp only [run_spell_array]
    exact ⟨(ih table).1, fun later h => by simp only [(ih table).2 later h]⟩
  | tuple fields ih =>
    intro table
    simp only [run_spell_tuple]
    obtain ⟨hmembers, hagain⟩ := settles_members ih table
    have henter := prefix_enter ("\x7b " ++ ((spellMembers fields).run table).1.1 ++ "\x7d")
      ((spellMembers fields).run table).1.2 ((spellMembers fields).run table).2
    refine ⟨hmembers.trans henter, fun later h => ?_⟩
    simp only [hagain later (henter.trans h), enter_again h]

/-! ### Types that are spelled alike -/

/-- A text is divided at its first `c` in one way. -/
theorem split_unique {c : Char} {x y x' y' : List Char} (hx : c ∉ x) (hx' : c ∉ x')
    (h : x ++ c :: y = x' ++ c :: y') : x = x' ∧ y = y' := by
  have hfirst : ∀ {x y : List Char}, c ∉ x → (x ++ c :: y).takeWhile (· != c) = x := by
    intro x y hx
    rw [takeWhile_append_of_pos fun d hd => bne_iff_ne.2 (ne_of_mem_of_not_mem hd hx)]
    simp
  obtain rfl : x = x' := by rw [← hfirst hx, h, hfirst hx']
  exact ⟨rfl, (cons.inj (append_cancel_left h)).2⟩

/-- The text of a member gives back its type, its name and the members behind it. -/
theorem member_unique {type rest type' name' rest' : String} (htype : TidyName type)
    (htype' : TidyName type') (hname : TidyName name) (hname' : TidyName name')
    (h : type ++ " " ++ name ++ "; " ++ rest = type' ++ " " ++ name' ++ "; " ++ rest') :
    type = type' ∧ name = name' ∧ rest = rest' := by
  have hchars := congrArg String.toList h
  simp only [String.toList_append, List.append_assoc] at hchars
  obtain ⟨htypes, hrest⟩ :=
    split_unique (fun hmem => (htype _ hmem).1 rfl) (fun hmem => (htype' _ hmem).1 rfl) hchars
  obtain ⟨hnames, hrest⟩ :=
    split_unique (fun hmem => (hname _ hmem).2 rfl) (fun hmem => (hname' _ hmem).2 rfl) hrest
  exact ⟨String.toList_inj.1 htypes, String.toList_inj.1 hnames,
    String.toList_inj.1 (cons.inj hrest).2⟩

/-- A type whose names can be told from what stands around them, at all depths. -/
def TidyType (t : FieldType) : Prop := ∀ s ∈ t.tuples, ∀ name ∈ TupleType.names s, TidyName name

theorem TidyType.field (h : TidyType (tuple fields)) {f : Named FieldType} (hf : f ∈ fields) :
    TidyName f.name ∧ TidyType f.type := by
  refine ⟨h fields mem_cons_self f.name (List.mem_map_of_mem hf),
    fun s hs => h s (mem_cons_of_mem _ ?_)⟩
  exact mem_fieldTuples.2 ⟨f.type, List.mem_map_of_mem hf, hs⟩

/-- A table in which something is spelled without entering anything. -/
def Knows (table : StructTable) (spell : StateM StructTable (String × List Nat)) : Prop :=
  (spell.run table).2 = table

/-- What is known when a member is known with those behind it. -/
theorem knows_cons {type : FieldType} (h : Knows table (spellMembers (⟨name, type⟩ :: fields))) :
    Knows table type.spell ∧ Knows table (spellMembers fields) ∧
      ((spellMembers (⟨name, type⟩ :: fields)).run table).1.1 =
      (type.spell.run table).1.1 ++ " " ++ name ++ "; " ++
        ((spellMembers fields).run table).1.1 := by
  simp only [Knows, run_spellMembers_cons] at h ⊢
  have hfirst : (type.spell.run table).2 = table := by
    have hkept := (settles_members (fun f (_ : f ∈ fields) => spell_again f.type)
      (type.spell.run table).2).1
    rw [h] at hkept
    exact (hkept.eq_of_length_le (spell_again type table).1.length_le)
  rw [hfirst] at h ⊢
  exact ⟨rfl, h, rfl⟩

theorem knows_tuple (h : Knows table (tuple fields).spell) : Knows table (spellMembers fields) ∧
    ∃ number s, ((tuple fields).spell.run table).1.1 = structName number ∧ table[number]? = some s ∧
      s.body = "\x7b " ++ ((spellMembers fields).run table).1.1 ++ "\x7d" := by
  simp only [Knows, run_spell_tuple] at h ⊢
  have hmembers : ((spellMembers fields).run table).2 = table := by
    have hkept := prefix_enter ("\x7b " ++ ((spellMembers fields).run table).1.1 ++ "\x7d")
      ((spellMembers fields).run table).1.2 ((spellMembers fields).run table).2
    rw [h] at hkept
    exact hkept.eq_of_length_le (settles_members (fun f _ => spell_again f.type) table).1.length_le
  rw [hmembers, run_enter] at h ⊢
  refine ⟨rfl, ?_⟩
  split at h
  · next number hfound =>
    obtain ⟨hlt, hbody, -⟩ := findIdx?_eq_some_iff_getElem.1 hfound
    exact ⟨number, table[number], rfl, getElem?_eq_getElem hlt, eq_of_beq hbody⟩
  · simp at h

theorem members_injective {fields others : TupleType} (htidy : ∀ f ∈ fields, TidyName f.name)
    (htidy' : ∀ f ∈ others, TidyName f.name)
    (ih : ∀ f ∈ fields, ∀ g ∈ others, Knows table f.type.spell → Knows table g.type.spell →
      (f.type.spell.run table).1.1 = (g.type.spell.run table).1.1 → f.type = g.type)
    (hfields : Knows table (spellMembers fields)) (hothers : Knows table (spellMembers others))
    (h : ((spellMembers fields).run table).1.1 = ((spellMembers others).run table).1.1) :
      fields = others := by
  have hnil : ((spellMembers []).run table).1.1 = "" := rfl
  induction fields generalizing others with
  | nil =>
    cases others with
    | nil => rfl
    | cons other others =>
      rw [hnil, (knows_cons hothers).2.2] at h
      simp at h
  | cons field fields ihfields =>
    obtain ⟨hfirst, hrest, htext⟩ := knows_cons hfields
    cases others with
    | nil =>
      rw [hnil, htext] at h
      simp at h
    | cons other others =>
      obtain ⟨hfirst', hrest', htext'⟩ := knows_cons hothers
      rw [htext, htext'] at h
      obtain ⟨htypes, hnames, hmembers⟩ :=
        member_unique (typeText_spell _ _).tidyName (typeText_spell _ _).tidyName
          (htidy field mem_cons_self) (htidy' other mem_cons_self) h
      have hfield : field = other := by
        obtain ⟨name, type⟩ := field
        obtain ⟨name', type'⟩ := other
        rw [show name = name' from hnames, show type = type' from
          ih _ mem_cons_self _ mem_cons_self hfirst hfirst' htypes]
      rw [hfield, ihfields (fun f hf => htidy f (mem_cons_of_mem _ hf))
        (fun f hf => htidy' f (mem_cons_of_mem _ hf))
        (fun f hf g hg => ih f (mem_cons_of_mem _ hf) g (mem_cons_of_mem _ hg))
        hrest hrest' hmembers]

/-- How the spelling of a type begins, which shows of what form it is. -/
def initial? : FieldType → Option Char
  | atomic kind => kind.cType.toList.head?
  | array _ => some 'A'
  | tuple _ => some 't'

theorem initial?_of_spell {t u : FieldType}
    (h : (t.spell.run table).1.1 = (u.spell.run table).1.1) :
    t.initial? = u.initial? := by
  have hhead : ∀ t : FieldType, (t.spell.run table).1.1.toList.head? = t.initial? := by
    intro t
    cases t with
    | atomic kind => rfl
    | array element => simp [run_spell_array, initial?]
    | tuple fields => simp [run_spell_tuple, structName, initial?]
  rw [← hhead, h, hhead]

theorem head?_cType (kind : Kind) : kind.cType.toList.head? ≠ some 'A' ∧
      kind.cType.toList.head? ≠ some 't' := by
  cases kind <;> decide

/-- **Types that are spelled alike are equal**, if their names are tidy. -/
theorem spell_injective {t u : FieldType} (ht : TidyType t) (hu : TidyType u)
    (htable : Knows table t.spell) (htable' : Knows table u.spell)
    (h : (t.spell.run table).1.1 = (u.spell.run table).1.1) : t = u := by
  have hhead := initial?_of_spell h
  induction t using FieldType.induction generalizing u with
  | atomic kind =>
    cases u with
    | atomic other =>
      have hkinds : kind.cType = other.cType := h
      revert hkinds
      cases kind <;> cases other <;> simp [Kind.cType]
    | array element => exact absurd hhead (head?_cType kind).1
    | tuple fields => exact absurd hhead (head?_cType kind).2
  | array element ih =>
    cases u with
    | atomic other => exact absurd hhead.symm (head?_cType other).1
    | array other =>
      have htexts : (element.spell.run table).1.1 = (other.spell.run table).1.1 := by
        simpa [run_spell_array] using h
      rw [ih (u := other) ht hu htable htable' htexts (initial?_of_spell htexts)]
    | tuple fields => cases hhead
  | tuple fields ih =>
    cases u with
    | atomic other => exact absurd hhead.symm (head?_cType other).2
    | array element => cases hhead
    | tuple others =>
      obtain ⟨hmembers, number, s, hname, hs, hbody⟩ := knows_tuple htable
      obtain ⟨hmembers', number', s', hname', hs', hbody'⟩ := knows_tuple htable'
      obtain rfl := structName_injective (hname.symm.trans (h.trans hname'))
      obtain rfl : s = s' := Option.mem_unique hs hs'
      have htexts := String.append_left_inj _ |>.1 (hbody.symm.trans hbody')
      rw [members_injective (fun f hf => (ht.field hf).1) (fun f hf => (hu.field hf).1)
        (fun f hf g hg hf' hg' htext => ?_)
        hmembers hmembers' (String.append_right_inj _ |>.1 htexts)]
      exact ih f hf (ht.field hf).2 (hu.field hg).2 hf' hg' htext (initial?_of_spell htext)

end FieldType

/-! ### The structs that are needed -/

/-- The structs that some names need, directly or through others. -/
inductive StructTable.Needed (table : StructTable) (names : List String) : Nat → Prop
  | root {n : Nat} (known : n < table.length) (named : structName n ∈ names) : Needed table names n
  | member {m n : Nat} {s : Struct} (outer : Needed table names m) (struct : table[m]? = some s)
      (member : n ∈ s.needs) : Needed table names n

namespace StructTable

/-- The search goes to what is needed only. -/
theorem needed_of_mem_foldl {needed : List Nat} {entries : List (Struct × Nat)}
    (hentries : ∀ entry ∈ entries, table[entry.2]? = some entry.1)
    (hneeded : ∀ n ∈ needed, Needed table names n) {n : Nat}
    (h : n ∈ entries.foldl require needed) : Needed table names n := by
  induction entries generalizing needed with
  | nil => exact hneeded n h
  | cons entry entries ih =>
    refine ih (fun other hother => hentries other (mem_cons_of_mem _ hother)) (fun m hm => ?_) h
    rw [require] at hm
    split at hm
    · next hentry =>
      rcases mem_append.1 hm with hm | hm
      · exact hneeded m hm
      · exact .member (hneeded _ hentry) (hentries entry mem_cons_self) hm
    · exact hneeded m hm

theorem mem_closure_iff (htable : Built P table) (names : List String) (n : Nat) :
    n ∈ table.closure ((List.range table.length).filter (names.contains <| structName ·)) ↔
      Needed table names n := by
  constructor
  · refine needed_of_mem_foldl (fun entry hentry => ?_) (fun m hm => ?_)
    · exact mem_zipIdx_iff_getElem?.1 (mem_reverse.1 hentry)
    · obtain ⟨hknown, hnamed⟩ := mem_filter.1 hm
      exact .root (mem_range.1 hknown) (contains_iff_mem.1 hnamed)
  · intro h
    induction h with
    | root hknown hnamed =>
      exact subset_closure _ _ (mem_filter.2 ⟨mem_range.2 hknown, contains_iff_mem.2 hnamed⟩)
    | member _ hs hn ih => exact needs_subset_closure htable hs ih hn

/-- **The declarations that some names need**, in the order of their numbers. -/
theorem renderNeeded_exact (htable : Built P table) (names : List String) :
    ∃ entries : List (Struct × Nat), table.renderNeeded names =
      String.join (entries.map fun entry => declaration entry.2 entry.1) ∧
      entries.Pairwise (fun a b => a.2 < b.2) ∧ ∀ entry, entry ∈ entries ↔
      table[entry.2]? = some entry.1 ∧ Needed table names entry.2 := by
  refine ⟨table.neededEntries names, renderNeeded_eq ..,
    (pairwise_zipIdx table).filter _, fun entry => ?_⟩
  rw [neededEntries, mem_filter, mem_zipIdx_iff_getElem?, contains_iff_mem, mem_closure_iff htable]

end StructTable

/-! ### Declarations by name -/

/-- A struct with its name and the names of those that it refers to. -/
structure Declared where
  name : String
  body : String
  dependencies : List String

namespace Declared

/-- The structs of a table, named by their positions. -/
def ofTable (table : StructTable) : List Declared :=
  table.mapIdx fun k s => ⟨structName k, s.body, s.needs.map structName⟩

/-- The name of the struct with a body, which is added under the next name if there is none. -/
def enter (body : String) (dependencies : List String) (declared : List Declared) :
    String × List Declared :=
  match declared.find? (·.body == body) with
  | some d => (d.name, declared)
  | none => (structName declared.length,
      declared ++ [⟨structName declared.length, body, dependencies⟩])

/-- **Stored names stay positions** when a struct is entered. -/
theorem enter_ofTable (table : StructTable) (body : String) (needs : List Nat) :
    enter body (needs.map structName) (ofTable table) =
      (structName ((StructTable.enter body needs).run table).1,
        ofTable ((StructTable.enter body needs).run table).2) := by
  have hbodies : (ofTable table).findIdx? (·.body == body) = table.findIdx? (·.body == body) := by
    have hmap : (ofTable table).map (·.body) = table.map (·.body) := by
      refine ext_getElem? fun k => ?_
      simp [ofTable, Function.comp_def]
    have hfind := congrArg (findIdx? (· == body)) hmap
    rw [findIdx?_map, findIdx?_map] at hfind
    exact hfind
  rw [StructTable.run_enter, enter, find?_eq_bind_findIdx?_getElem?, hbodies]
  cases hfound : table.findIdx? (·.body == body) with
  | some number =>
    obtain ⟨hnumber, -⟩ := findIdx?_eq_some_iff_getElem.1 hfound
    simp [ofTable, getElem?_eq_getElem hnumber]
  | none => simp [ofTable, mapIdx_append]

/-- The names that the struct of a name refers to. -/
def dependenciesOf (declared : List Declared) (name : String) : List String :=
  ((declared.find? (·.name == name)).map (·.dependencies)).getD []

theorem mem_dependenciesOf {d : String} : d ∈ dependenciesOf (ofTable table) name ↔
    ∃ k s, table[k]? = some s ∧ name = structName k ∧ d ∈ s.needs.map structName := by
  have hmem : ∀ {e}, e ∈ ofTable table ↔ ∃ k s, table[k]? = some s ∧
      e = ⟨structName k, s.body, s.needs.map structName⟩ := by
    intro e
    simp only [ofTable, mem_mapIdx, getElem?_eq_some_iff]
    constructor
    · rintro ⟨k, hk, rfl⟩
      exact ⟨k, _, ⟨hk, rfl⟩, rfl⟩
    · rintro ⟨k, _, ⟨hk, rfl⟩, rfl⟩
      exact ⟨k, hk, rfl⟩
  rw [dependenciesOf]
  cases hfind : (ofTable table).find? (·.name == name) with
  | none =>
    refine iff_of_false not_mem_nil ?_
    rintro ⟨k, s, hs, rfl, -⟩
    exact find?_eq_none.1 hfind _ (hmem.2 ⟨k, s, hs, rfl⟩) (beq_self_eq_true _)
  | some e =>
    obtain ⟨k, s, hs, rfl⟩ := hmem.1 (mem_of_find?_eq_some hfind)
    have hname : structName k = name := by simpa using find?_some hfind
    refine ⟨fun hd => ⟨k, s, hs, hname.symm, hd⟩, ?_⟩
    rintro ⟨k', s', hs', rfl, hd⟩
    cases structName_injective hname
    cases hs.symm.trans hs'
    exact hd

/-- The names that are needed, found from a stack of names.  A name that was found before is not
looked up again.  The turns are limited. -/
def search (declared : List Declared) : Nat → List String → List String → Option (List String)
  | _, [], needed => some needed
  | 0, _ :: _, _ => none
  | turns + 1, name :: stack, needed =>
    if name ∈ needed then search declared turns stack needed
    else search declared turns ((dependenciesOf declared name).reverse ++ stack) (name :: needed)

variable {declared : List Declared}

/-- How many names the structs refer to that were not found yet. -/
def unsearched (declared : List Declared) (needed : List String) : Nat :=
  (declared.map fun d => if d.name ∈ needed then 0 else d.dependencies.length).sum

theorem length_dependenciesOf (declared : List Declared) (hname : name ∉ needed) :
    (dependenciesOf declared name).length + unsearched declared (name :: needed) ≤
      unsearched declared needed := by
  induction declared with
  | nil => exact Nat.le_refl 0
  | cons d declared ih =>
    simp only [unsearched, map_cons, sum_cons, mem_cons] at ih ⊢
    by_cases hd : d.name = name
    · rw [dependenciesOf, find?_cons_of_pos (by simpa using hd), if_pos (.inl hd),
        if_neg (hd ▸ hname), Option.map_some, Option.getD_some]
      omega
    · rw [dependenciesOf, find?_cons_of_neg (by simpa using hd), ← dependenciesOf]
      simp only [hd, false_or]
      omega

/-- **A search ends**, and what it finds is closed under reference and nothing that some such names
have not. -/
theorem search_eq {turns : Nat} {S : String → Prop}
    (hS : ∀ name, S name → ∀ d ∈ dependenciesOf declared name, S d)
    (hneeded : ∀ name ∈ needed, S name) (hstack : ∀ name ∈ stack, S name)
    (hturns : unsearched declared needed + stack.length ≤ turns) :
    ∃ found, search declared turns stack needed = some found ∧ needed ⊆ found ∧ stack ⊆ found ∧
      (∀ name ∈ found, name ∈ needed ∨ dependenciesOf declared name ⊆ found) ∧
      ∀ name ∈ found, S name := by
  induction turns generalizing stack needed with
  | zero =>
    obtain rfl : stack = [] := length_eq_zero_iff.1 (by omega)
    exact ⟨needed, rfl, Subset.refl _, nil_subset _, fun _ => .inl, hneeded⟩
  | succ turns ih =>
    cases stack with
    | nil => exact ⟨needed, rfl, Subset.refl _, nil_subset _, fun _ => .inl, hneeded⟩
    | cons name stack =>
      obtain ⟨hfirst, hrest⟩ := forall_mem_cons.1 hstack
      rw [length_cons] at hturns
      rw [search]
      by_cases hname : name ∈ needed
      · obtain ⟨found, hfound, hkept, hreached, hclosed, hfoundS⟩ := ih hneeded hrest (by omega)
        rw [if_pos hname]
        exact ⟨found, hfound, hkept, cons_subset.2 ⟨hkept hname, hreached⟩, hclosed, hfoundS⟩
      · -- The turns pay for the names that are pushed, as this name is searched only once.
        have hlength := length_dependenciesOf declared hname
        obtain ⟨found, hfound, hkept, hreached, hclosed, hfoundS⟩ :=
          ih (forall_mem_cons.2 ⟨hfirst, hneeded⟩)
            (forall_mem_append.2 ⟨fun d hd => hS name hfirst d (mem_reverse.1 hd), hrest⟩)
            (by rw [length_append, length_reverse]; omega)
        obtain ⟨hself, hkept⟩ := cons_subset.1 hkept
        obtain ⟨hpushed, hreached⟩ := append_subset.1 hreached
        rw [if_neg hname]
        refine ⟨found, hfound, hkept, cons_subset.2 ⟨hself, hreached⟩, fun n hn => ?_, hfoundS⟩
        rcases hclosed n hn with hold | hnew
        · rcases mem_cons.1 hold with rfl | hold
          · exact .inr fun d hd => hpushed (mem_reverse.2 hd)
          · exact .inl hold
        · exact .inr hnew

/-- **The work list finds the structs that are needed**: what is declared is the same. -/
theorem search_ofTable (htable : Built P table) (names : List String) {turns : Nat}
    (hturns : unsearched (ofTable table) [] + names.length ≤ turns) :
    (search (ofTable table) turns names.reverse []).map (fun found => String.join
      (((ofTable table).filter (found.contains ·.name)).map fun d =>
        "typedef struct " ++ d.body ++ " " ++ d.name ++ ";\n")) =
          some (table.renderNeeded names) := by
  have hclosed : ∀ name, (∀ n < table.length, name = structName n → Needed table names n) →
      ∀ d ∈ dependenciesOf (ofTable table) name,
        ∀ n < table.length, d = structName n → Needed table names n := by
    rintro name hname d hd n hn rfl
    obtain ⟨k, s, hs, rfl, hneeds⟩ := mem_dependenciesOf.1 hd
    obtain ⟨m, hm, hsame⟩ := List.mem_map.1 hneeds
    cases structName_injective hsame
    exact .member (hname k (List.getElem?_eq_some_iff.1 hs).1 rfl) hs hm
  have hroots : ∀ name ∈ names.reverse, ∀ n < table.length, name = structName n →
      Needed table names n := by
    rintro name hname n hn rfl
    exact .root hn (mem_reverse.1 hname)
  rw [← length_reverse] at hturns
  obtain ⟨found, hfound, -, hreached, hfoundClosed, hneeded⟩ :=
    search_eq hclosed (forall_mem_nil _) hroots hturns
  have hiff : ∀ n < table.length, (structName n ∈ found ↔ Needed table names n) := by
    refine fun n hn => ⟨fun h => hneeded _ h n hn rfl, fun h => ?_⟩
    clear hn
    induction h with
    | root _ hnamed => exact hreached (mem_reverse.2 hnamed)
    | member _ hs hm ih =>
      refine (hfoundClosed _ ih).resolve_left not_mem_nil (mem_dependenciesOf.2 ⟨_, _, hs, rfl, ?_⟩)
      exact mem_map_of_mem hm
  rw [hfound, Option.map_some, renderNeeded_eq, ofTable, mapIdx_eq_zipIdx_map, filter_map, map_map]
  refine congrArg (fun entries : List (Struct × Nat) => some (String.join (entries.map _)))
    (filter_congr fun entry hentry => ?_)
  obtain ⟨hlt, -⟩ := List.getElem?_eq_some_iff.1 (mem_zipIdx_iff_getElem?.1 hentry)
  rw [Bool.eq_iff_iff, Function.comp_apply, contains_iff_mem, contains_iff_mem,
    mem_closure_iff htable]
  exact hiff entry.2 hlt

end Declared

/-! ### Declarations -/

namespace TupleType

theorem Identified.tidy (h : t.Identified) : TidyType (.tuple t) := by
  refine fun s hs name hname c hc => ⟨?_, ?_⟩
  · rintro rfl
    exact absurd ((h s hs name hname).1 _ hc) (by decide)
  · rintro rfl
    exact absurd ((h s hs name hname).1 _ hc) (by decide)

/-- A table that has structs for types, under given names: declared again, a type gets its name and
nothing is entered, now and later. -/
theorem declared_again (hP : Inherited P) {ts : List TupleType}
    (hts : ∀ t ∈ ts, P (.tuple t)) (hstart : Built P start)
    (h : (ts.mapM declareName).run start = (names, table)) : Built P table ∧ start <+: table ∧
      ∀ later, table <+: later →
      Forall₂ (fun t name => t.declareName.run later = (name, later)) ts names := by
  induction ts generalizing start names with
  | nil =>
    cases h
    exact ⟨hstart, prefix_rfl, fun _ _ => .nil⟩
  | cons t ts ih =>
    rw [mapM_cons] at h
    have hrun :
        (do return (← t.declareName) :: (← ts.mapM declareName) : StateM StructTable _).run start =
        ((t.declareName.run start).1 :: ((ts.mapM declareName).run (t.declareName.run start).2).1,
          ((ts.mapM declareName).run (t.declareName.run start).2).2) := rfl
    cases hrun.symm.trans h
    obtain ⟨hkept, hagain⟩ := spell_again (.tuple t) start
    have hfirst := built_declare hP (hts t mem_cons_self) hstart
    obtain ⟨hbuilt, hothers, hrest⟩ := ih (fun u hu => hts u (mem_cons_of_mem _ hu)) hfirst rfl
    rw [run_declareName] at hothers
    refine ⟨hbuilt, hkept.trans hothers, fun later hlater => .cons ?_ (hrest later hlater)⟩
    rw [run_declareName, run_declareName, hagain later (hothers.trans hlater)]

/-- **Tables of structs number the types that were declared**, if the names of the fields are
identifiers.  The declarations are rendered in the order of their numbers.  The members of a struct
refer to earlier structs, and to those that are noted with it; where else the name of a struct
stands, it is the name of a member.  Declared again, a type gets its name and nothing is entered,
and only equal types have one name.  What some names need is declared with them, in order. -/
theorem declared_faithfully {ts : List TupleType} {names : List String}
    (hts : ∀ t ∈ ts, t.Identified) (h : (ts.mapM declareName).run [] = (names, table)) :
    table.render = String.join (table.mapIdx fun k s => "typedef struct " ++ s.body ++ " " ++
      structName k ++ ";\n") ∧
    (∀ (k : Nat) (s : Struct), table[k]? = some s → (∀ m ∈ s.needs, m < k) ∧
      ∃ fields members, MembersText fields members s.needs ∧ s.body = "\x7b " ++ members ++ "\x7d" ∧
        ∀ n, Refers s.body n ↔ n ∈ s.needs ∨ structName n ∈ fields) ∧
    Forall₂ (fun t name => t.declareName.run table = (name, table) ∧ ∃ k < table.length,
      name = structName k) ts names ∧
    (∀ t ∈ ts, ∀ u ∈ ts, (t.declareName.run table).1 = (u.declareName.run table).1 ↔ t = u) ∧
    ∀ roots, ∃ entries : List (Struct × Nat),
      table.renderNeeded roots =
      String.join (entries.map fun entry => declaration entry.2 entry.1) ∧
      entries.Pairwise (fun a b => a.2 < b.2) ∧ ∀ entry, entry ∈ entries ↔
      table[entry.2]? = some entry.1 ∧ Needed table roots entry.2 := by
  obtain ⟨hbuilt, -, hagain⟩ := declared_again inherited_identified hts built_nil h
  have hknows : ∀ t ∈ ts, Knows table (FieldType.tuple t).spell := by
    intro t ht
    obtain ⟨i, hi⟩ := mem_iff_getElem?.1 ht
    obtain ⟨name, -, hname⟩ := exists_of_forall₂ (hagain table prefix_rfl) hi
    rw [run_declareName] at hname
    exact congrArg Prod.snd hname
  refine ⟨rfl, fun k s hs => ?_, forall₂_imp_mem (fun t ht name hname => ⟨hname, ?_⟩)
    (hagain table prefix_rfl), fun t ht u hu => ⟨fun hname => ?_, fun heq => heq ▸ rfl⟩,
    renderNeeded_exact hbuilt⟩
  · obtain ⟨fields, members, hfields, hmembers, hbody, hneeds⟩ := hbuilt k s hs
    refine ⟨hneeds, TupleType.names fields, members, hmembers, hbody, fun n => ?_⟩
    have hwords := hfields fields mem_cons_self
    rw [hbody, refers_body, hmembers.refers_iff]
    refine or_congr_right ⟨fun ⟨name, hname, hrefers⟩ => ?_,
      fun hmem => ⟨_, hmem, refers_structName.2 rfl⟩⟩
    exact (refers_word (hwords name hname).1).1 hrefers ▸ hname
  · obtain ⟨-, k, s, hk, hs, -⟩ := knows_tuple (hknows t ht)
    rw [run_declareName] at hname
    exact ⟨k, (List.getElem?_eq_some_iff.1 hs).1, (congrArg Prod.fst hname).symm.trans hk⟩
  · rw [run_declareName, run_declareName] at hname
    exact FieldType.tuple.inj (spell_injective (hts t ht).tidy (hts u hu).tidy (hknows t ht)
      (hknows u hu) hname)

/-- Orders of lines, lines, and orders once more; one member is named like a struct. -/
def ordersAndLines : List TupleType :=
  let line : TupleType := [⟨"item", .atomic .int64⟩, ⟨"tuple_9", .atomic .int32⟩]
  let order : TupleType := [⟨"lines", .array (.tuple line)⟩, ⟨"first", .tuple line⟩]
  [order, line, order]

theorem ordersAndLines_declared : (∀ t ∈ ordersAndLines, t.Identified) ∧ ∃ table : StructTable,
    (ordersAndLines.mapM declareName).run [] = (["tuple_1", "tuple_0", "tuple_1"], table) ∧
    ∀ t ∈ ordersAndLines, ∀ u ∈ ordersAndLines, (t.declareName.run table).1 =
      (u.declareName.run table).1 ↔ t = u := by
  have hts : ∀ t ∈ ordersAndLines, t.Identified := by decide
  have hnames : ((ordersAndLines.mapM declareName).run []).1 =
    ["tuple_1", "tuple_0", "tuple_1"] := by rfl
  have hrun : (ordersAndLines.mapM declareName).run [] = (["tuple_1", "tuple_0", "tuple_1"], _) :=
    Prod.ext hnames rfl
  exact ⟨hts, _, hrun, (declared_faithfully hts hrun).2.2.2.1⟩

end TupleType

end Dataflow
