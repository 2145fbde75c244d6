/-
**Texts of values are read as they were written.**

The structure of a text that was written from a value is that of the value: the reader skips the
line ends and margins that the writer put between the parts, and stops behind each part where the
writer did.  Numbers and strings stay as they are spelled, so values whose doubles are finite have
different texts if they differ.

Main results:

* `Json.readsBack` — **the structure of a written text is that of the value**;
* `Json.eq_of_source` — which determines the value;
* `Json.eq_of_pretty` — **different values have different texts**.
-/

import Dataflow.Json.Printer
import Dataflow.Proofs.Json.Numerals

namespace Dataflow.Json

open List Piece

open Number (Layout)
open Source (readEntries readItems readValue)

variable {j : Json}

theorem induction {P : Json → Prop} (null : P null) (bool : ∀ b, P (bool b)) (int : ∀ i, P (int i))
    (double : ∀ x, P (double x)) (string : ∀ s, P (string s))
    (array : ∀ items, (∀ item ∈ items, P item) → P (array items))
    (object : ∀ members, (∀ member ∈ members, P member.2) → P (object members)) : ∀ j, P j
  | .null => null
  | .bool b => bool b
  | .int i => int i
  | .double x => double x
  | .string s => string s
  | .array items =>
    array items fun item _ => induction null bool int double string array object item
  | .object members =>
    object members fun member _ => induction null bool int double string array object member.2
decreasing_by
  · simp only [Json.array.sizeOf_spec]
    have := sizeOf_lt_of_mem ‹item ∈ items›
    omega
  · have := sizeOf_lt_of_mem ‹member ∈ members›
    obtain ⟨key, value⟩ := member
    simp only [Prod.mk.sizeOf_spec, Json.object.sizeOf_spec] at *
    omega

/-! ### Strings -/

/-- The piece that a character of a string is read as. -/
def Piece.ofChar (c : Char) : Piece :=
  if c.toNat < 32 ∧ c ∉ ['\x08', '\x0c', '\n', '\r', '\t'] then .unit c.toNat else .char c

theorem Piece.ofChar_injective {c d : Char} (h : ofChar c = ofChar d) : c = d := by
  unfold ofChar at h
  split at h <;> split at h
  · exact Char.toNat_inj.1 (unit.inj h)
  · cases h
  · cases h
  · exact char.inj h

theorem eq_of_pieces {s t : String} (h : s.toList.map ofChar = t.toList.map ofChar) :
    s = t :=
  String.toList_injective ((List.map_inj_right fun _ _ => ofChar_injective).1 h)

theorem hexValue?_hexDigit {n : Nat} (h : n < 16) : hexValue? (hexDigit n) = some n := by
  have hall : ∀ n < 16, hexValue? (hexDigit n) = some n := by decide
  exact hall n h

theorem readPieces_escape (c : Char) {rest after : List Char} {pieces : List Piece}
    (h : readPieces rest = some (pieces, after)) :
    readPieces (escape c ++ rest) = some (ofChar c :: pieces, after) := by
  by_cases hshort : c ∈ ['"', '\\', '\x08', '\x0c', '\n', '\r', '\t']
  · simp only [List.mem_cons, List.not_mem_nil, or_false] at hshort
    rcases hshort with rfl | rfl | rfl | rfl | rfl | rfl | rfl <;>
      simp [escape, readPieces, shortEscape?, Piece.ofChar, h]
  · simp only [List.mem_cons, List.not_mem_nil, or_false, not_or] at hshort
    obtain ⟨hquote, hslash, hb, hf, hn, hr, ht⟩ := hshort
    by_cases hcontrol : c.toNat < 32
    · have hcode : hexQuad? '0' '0' (hexDigit (c.toNat / 16))
          (hexDigit (c.toNat % 16)) = some c.toNat := by
        have hzero : hexValue? '0' = some 0 := by decide
        simp only [hexQuad?, hzero, hexValue?_hexDigit (show c.toNat / 16 < 16 by omega),
          hexValue?_hexDigit (show c.toNat % 16 < 16 by omega), Option.bind_eq_bind,
          Option.bind_some, Option.pure_def, Option.some.injEq]
        omega
      simp [escape, readPieces, Piece.ofChar, *]
    · have hplain : escape c = [c] := by simp [escape, *]
      have hpiece : Piece.ofChar c = .char c := by simp [Piece.ofChar, hcontrol]
      rw [hplain, hpiece, List.singleton_append, readPieces.eq_def]
      split <;> simp_all

theorem readPieces_flatMap (cs rest : List Char) :
    readPieces (cs.flatMap escape ++ '"' :: rest) = some (cs.map ofChar, rest) := by
  induction cs with
  | nil => simp [readPieces]
  | cons c cs ih =>
    rw [flatMap_cons, List.append_assoc, readPieces_escape c ih, map_cons]

theorem readPieces_quote (s : String) (rest : List Char) :
    ∃ text, (quote s).toList ++ rest = '"' :: text ∧
      readPieces text = some (s.toList.map Piece.ofChar, rest) := by
  refine ⟨_, ?_, readPieces_flatMap s.toList rest⟩
  simp [quote]

/-! ### The structure of a written text -/

mutual

/-- The structure of the text of a value. -/
def source : Json → Source
  | null => .null
  | bool b => .bool b
  | int i => .number (numeralOf (toString i))
  | double x => .number (numeralOf (Layout.json.render x))
  | string s => .string (s.toList.map Piece.ofChar)
  | array items => .array (sources items)
  | object members => .object (memberSources members)

/-- The structures of some items. -/
def sources : List Json → List Source
  | [] => []
  | item :: rest => item.source :: sources rest

/-- The structures of some members. -/
def memberSources : List (String × Json) → List (List Piece × Source)
  | [] => []
  | (key, value) :: rest => (key.toList.map Piece.ofChar, value.source) :: memberSources rest

end

mutual

/-- Whether the doubles in a value are finite. -/
def isFinite : Json → Bool
  | null => true
  | bool _ => true
  | int _ => true
  | double x => x.isFinite
  | string _ => true
  | array items => areFinite items
  | object members => haveFinite members

/-- Whether the doubles in some items are finite. -/
def areFinite : List Json → Bool
  | [] => true
  | item :: rest => item.isFinite && areFinite rest

/-- Whether the doubles in some members are finite. -/
def haveFinite : List (String × Json) → Bool
  | [] => true
  | (_, value) :: rest => value.isFinite && haveFinite rest

end

theorem sources_eq (items : List Json) : sources items = items.map source := by
  induction items <;> simp [sources, *]

theorem memberSources_eq (members : List (String × Json)) :
    memberSources members = members.map fun member =>
      (member.1.toList.map Piece.ofChar, member.2.source) := by
  induction members <;> simp [memberSources, *]

theorem prettyItems_eq (margin : String) (items : List Json) :
    prettyItems margin items = items.map (prettyAt margin) := by
  induction items <;> simp [prettyItems, *]

theorem prettyMembers_eq (margin : String) (members : List (String × Json)) :
    prettyMembers margin members = members.map fun member =>
      quote member.1 ++ ": " ++ member.2.prettyAt margin := by
  induction members <;> simp [prettyMembers, *]

theorem areFinite_iff {items : List Json} :
    areFinite items = true ↔ ∀ item ∈ items, item.isFinite = true := by
  induction items with
  | nil => simp [areFinite]
  | cons item items ih => simp [areFinite, ih]

theorem haveFinite_iff {members : List (String × Json)} :
    haveFinite members = true ↔ ∀ member ∈ members, member.2.isFinite = true := by
  induction members with
  | nil => simp [haveFinite]
  | cons member members ih => simp [haveFinite, ih]

/-! ### Reading -/

/-- Line ends and margins. -/
def Blank (cs : List Char) : Prop := ∀ c ∈ cs, isBlank c = true

variable {blanks cs rest : List Char} {fuel : Nat} {n : Numeral}

theorem skipBlanks_append (h : Blank blanks) (cs : List Char) :
    skipBlanks (blanks ++ cs) = skipBlanks cs :=
  List.dropWhile_append_of_pos h

theorem skipBlanks_cons {c : Char} (h : isBlank c = false) : skipBlanks (c :: cs) = c :: cs := by
  rw [skipBlanks, List.dropWhile_cons, h]
  rfl

theorem readValue_append (h : Blank blanks) (fuel : Nat) (cs : List Char) :
    readValue fuel (blanks ++ cs) = readValue fuel cs := by
  cases fuel with
  | zero => rfl
  | succ fuel => rw [readValue, readValue, skipBlanks_append h]

theorem readItems_append (h : Blank blanks) (fuel : Nat) (cs : List Char) :
    readItems fuel (blanks ++ cs) = readItems fuel cs := by
  cases fuel with
  | zero => rfl
  | succ fuel => rw [readItems, readItems, readValue_append h]

theorem readEntries_append (h : Blank blanks) (fuel : Nat) (cs : List Char) :
    readEntries fuel (blanks ++ cs) = readEntries fuel cs := by
  cases fuel with
  | zero => rfl
  | succ fuel => rw [readEntries, readEntries, skipBlanks_append h]

theorem exists_head_of_readNumeral? (h : readNumeral? cs = some (n, rest)) :
    ∃ c text, cs = c :: text ∧ (c = '-' ∨ c.isDigit = true) := by
  cases cs with
  | nil => simp [readNumeral?, readUnsigned?, readWhole?, readDigits?, readDigits] at h
  | cons c text =>
    refine ⟨c, text, rfl, ?_⟩
    by_contra hc
    rw [not_or, Bool.not_eq_true] at hc
    rw [readNumeral?_of_ne (by simpa using hc.1)] at h
    have hzero : c ≠ '0' := by
      rintro rfl
      exact absurd hc.2 (by decide)
    have hnone : readWhole? (c :: text) = none := by
      unfold readWhole?
      split
      · next heq => exact absurd (List.cons.inj heq).1 hzero
      · simp [readDigits?, readDigits, hc.2]
    simp [readUnsigned?, hnone] at h

theorem readValue_numeral (h : readNumeral? cs = some (n, rest)) :
    readValue (fuel + 1) cs = some (.number n, rest) := by
  obtain ⟨c, text, rfl, hc⟩ := exists_head_of_readNumeral? h
  have hother : ∀ d : Char,
      d ∈ ['n', 't', 'f', '"', '[', '\x7b', ' ', '\n', '\t', '\r'] → c ≠ d := by
    rintro d hd rfl
    simp only [mem_cons, not_mem_nil, or_false] at hd
    rcases hd with rfl | rfl | rfl | rfl | rfl | rfl | rfl | rfl | rfl | rfl <;>
      exact absurd hc (by decide)
  have hblank : isBlank c = false := by
    simp [isBlank, hother]
  rw [readValue, skipBlanks_cons hblank]
  split
  all_goals first
    | next heq => exact absurd (cons.inj heq).1 (hother _ (by simp))
    | rw [h]; rfl

variable {after text : List Char} {item : Source} {items : List Source} {key : List Piece}
  {entries : List (List Piece × Source)} {closing : Char}

theorem head?_ne_of_readValue (h : readValue fuel cs = some (item, rest)) :
    (skipBlanks cs).head? ≠ some ']' := by
  intro hhead
  obtain ⟨text, htext⟩ := head?_eq_some_iff.1 hhead
  cases fuel with
  | zero => cases h
  | succ fuel =>
    rw [readValue, htext] at h
    simp [readNumeral?, readUnsigned?, readWhole?, readDigits?, readDigits] at h

theorem exists_blanks (cs : List Char) : ∃ blanks, Blank blanks ∧ blanks ++ skipBlanks cs = cs :=
  ⟨cs.takeWhile isBlank, List.all_eq_true.1 List.all_takeWhile, List.takeWhile_append_dropWhile⟩

theorem readValue_bracket (fuel : Nat) (cs : List Char) : readValue (fuel + 1) ('[' :: cs) =
    match skipBlanks cs with
    | ']' :: rest => some (.array [], rest)
    | rest => (fun (items, rest) => (.array items, rest)) <$> readItems fuel rest := by
  rw [readValue, skipBlanks_cons rfl]
  rfl

/-- An array is read by its items; the first of them does not start with the closing bracket. -/
theorem readValue_array (h : readItems fuel cs = some (items, rest)) :
    readValue (fuel + 1) ('[' :: cs) = some (.array items, rest) := by
  obtain ⟨blanks, hblanks, heq⟩ := exists_blanks cs
  have hskip : readItems fuel (skipBlanks cs) = some (items, rest) := by
    rw [← h, ← readItems_append hblanks, heq]
  rw [readValue_bracket]
  split
  · next text htext =>
    cases fuel with
    | zero => cases h
    | succ fuel =>
      rw [readItems] at h
      obtain ⟨⟨item, _⟩, hitem, -⟩ := Option.bind_eq_some_iff.1 h
      exact absurd (congrArg head? htext) (head?_ne_of_readValue hitem)
  · rw [hskip]
    rfl

theorem readValue_string (h : readPieces text = some (key, rest)) :
    readValue (fuel + 1) ('"' :: text) = some (.string key, rest) := by
  rw [readValue, skipBlanks_cons rfl]
  exact congrArg (Option.map _) h

theorem readValue_brace (fuel : Nat) (cs : List Char) : readValue (fuel + 1) ('\x7b' :: cs) =
    match skipBlanks cs with
    | '\x7d' :: rest => some (.object [], rest)
    | rest => (fun (entries, rest) => (.object entries, rest)) <$> readEntries fuel rest := by
  rw [readValue, skipBlanks_cons rfl]
  rfl

/-- An object is read by its entries; the first of them starts with a quote. -/
theorem readValue_object (h : readEntries fuel cs = some (entries, rest)) :
    readValue (fuel + 1) ('\x7b' :: cs) = some (.object entries, rest) := by
  obtain ⟨blanks, hblanks, heq⟩ := exists_blanks cs
  have hskip : readEntries fuel (skipBlanks cs) = some (entries, rest) := by
    rw [← h, ← readEntries_append hblanks, heq]
  rw [readValue_brace]
  split
  · next text htext =>
    cases fuel with
    | zero => cases h
    | succ fuel =>
      rw [readEntries, htext] at h
      cases h
  · rw [hskip]
    rfl

/-! ### Values -/

/-- A value whose text is read as the structure of the value. -/
def ReadsBack (j : Json) : Prop :=
  ∃ least, ∀ fuel ≥ least, ∀ margin rest, Blank margin.toList → Ends rest →
    readValue fuel ((j.prettyAt margin).toList ++ rest) = some (j.source, rest)

/-- Lines behind a margin, with commas between them. -/
def joinLines (margin : String) (lines : List String) : List Char :=
  (",\n".intercalate (lines.map (margin ++ ·))).toList

theorem joinLines_singleton (margin line : String) :
    joinLines margin [line] = margin.toList ++ line.toList := by
  simp [joinLines]

theorem joinLines_cons (margin line other : String) (lines : List String) :
    joinLines margin (line :: other :: lines) =
      margin.toList ++ (line.toList ++ ',' :: '\n' :: joinLines margin (other :: lines)) := by
  simp [joinLines, String.intercalate_cons_cons]

theorem toList_block (opening closing margin : String) {lines : List String} (h : lines ≠ []) :
    (block opening closing margin lines).toList = opening.toList ++
      '\n' :: (joinLines (margin ++ "  ") lines ++ '\n' :: (margin.toList ++ closing.toList)) := by
  simp [block, joinLines, h]

theorem blank_newline : Blank ['\n'] := by
  simp [Blank, isBlank]

/-- Behind the last line of a block, its closing bracket is found. -/
theorem skipBlanks_closing (hblanks : Blank blanks) (hclosing : isBlank closing = false) :
    skipBlanks ('\n' :: (blanks ++ closing :: rest)) = closing :: rest := by
  rw [← List.singleton_append, skipBlanks_append blank_newline, skipBlanks_append hblanks,
    skipBlanks_cons hclosing]

/-- A line that a reader of parts reads as one of them, the last one or one before others. -/
def ReadsLine {α : Type} (read : Nat → List Char → Option (List α × List Char)) (closing : Char)
    (line : String → String) (part : α) : Prop :=
  ∃ least, ∀ fuel ≥ least, ∀ margin after, Blank margin.toList →
  (∀ rest, Ends after → skipBlanks after = closing :: rest →
    read (fuel + 1) (margin.toList ++ ((line margin).toList ++ after)) = some ([part], rest)) ∧
  ∀ parts rest, read fuel after = some (parts, rest) →
    read (fuel + 1) (margin.toList ++ ((line margin).toList ++ ',' :: after)) =
    some (part :: parts, rest)

/-- The lines of a block are read if each of them is. -/
theorem exists_readLines {α β : Type} {read : Nat → List Char → Option (List β × List Char)}
    {part : α → β} {x : α} {xs : List α} (line : String → α → String)
    (hclosing : isBlank closing = false)
    (hskip : ∀ {blanks}, Blank blanks → ∀ fuel cs, read fuel (blanks ++ cs) = read fuel cs)
    (h : ∀ y ∈ x :: xs, ReadsLine read closing (line · y) (part y)) :
    ∃ least, ∀ fuel ≥ least, ∀ margin outer rest, Blank margin.toList → Blank outer →
      read fuel (joinLines margin ((x :: xs).map (line margin)) ++
      '\n' :: (outer ++ closing :: rest)) =
        some ((x :: xs).map part, rest) := by
  induction xs generalizing x with
  | nil =>
    obtain ⟨least, hread⟩ := h x List.mem_cons_self
    refine ⟨least + 1, fun fuel hfuel margin outer rest hmargin houter => ?_⟩
    obtain ⟨fuel, rfl⟩ := Nat.exists_eq_add_of_le' (Nat.le_of_add_left_le hfuel)
    rw [List.map_singleton, joinLines_singleton, List.append_assoc]
    exact (hread fuel (by omega) margin _ hmargin).1 rest (ends_cons rfl)
      (skipBlanks_closing houter hclosing)
  | cons other xs ih =>
    rw [List.forall_mem_cons] at h
    obtain ⟨⟨least, hread⟩, hothers⟩ := h
    obtain ⟨least', hrest⟩ := ih hothers
    refine ⟨max least least' + 1, fun fuel hfuel margin outer rest hmargin houter => ?_⟩
    obtain ⟨fuel, rfl⟩ := Nat.exists_eq_add_of_le' (Nat.le_of_add_left_le hfuel)
    rw [List.map_cons, List.map_cons, joinLines_cons]
    simp only [List.append_assoc, List.cons_append]
    refine (hread fuel (by omega) margin _ hmargin).2 _ rest ?_
    rw [← List.singleton_append, hskip blank_newline]
    exact hrest fuel (by omega) margin outer rest hmargin houter

theorem ReadsBack.readsItem (hj : j.ReadsBack) : ReadsLine readItems ']' j.prettyAt j.source := by
  obtain ⟨least, hread⟩ := hj
  refine ⟨least, fun fuel hfuel margin after hmargin => ?_⟩
  have hitem : ∀ behind, Ends behind →
    readValue fuel (margin.toList ++ ((j.prettyAt margin).toList ++ behind)) =
      some (j.source, behind) := by
    intro behind hbehind
    rw [readValue_append hmargin, hread fuel hfuel margin behind hmargin hbehind]
  refine ⟨fun rest hends hafter => ?_, fun parts rest hparts => ?_⟩
  · simp [readItems, hitem after hends, hafter]
  · simp [readItems, hitem (',' :: after) (ends_cons rfl),
      skipBlanks_cons (show isBlank ',' = false from rfl), hparts]

/-- The line of a member is read up to its value. -/
theorem exists_readKey (hblanks : Blank blanks) (key value : String) (after : List Char) :
    ∃ text, skipBlanks (blanks ++ ((quote key ++ ": " ++ value).toList ++ after)) = '"' :: text ∧
      readPieces text =
      some (key.toList.map ofChar, ':' :: ([' '] ++ (value.toList ++ after))) := by
  obtain ⟨text, htext, hkey⟩ := readPieces_quote key (':' :: ([' '] ++ (value.toList ++ after)))
  refine ⟨text, ?_, hkey⟩
  rw [skipBlanks_append hblanks, ← skipBlanks_cons (show isBlank '"' = false from rfl), ← htext]
  simp

theorem ReadsBack.readsEntry (hj : j.ReadsBack) (key : String) : ReadsLine readEntries '\x7d'
    (quote key ++ ": " ++ j.prettyAt ·) (key.toList.map Piece.ofChar, j.source) := by
  obtain ⟨least, hread⟩ := hj
  refine ⟨least, fun fuel hfuel margin after hmargin => ?_⟩
  have hspace : Blank [' '] := by simp [Blank, isBlank]
  have hitem : ∀ behind, Ends behind →
    readValue fuel ([' '] ++ ((j.prettyAt margin).toList ++ behind)) =
      some (j.source, behind) := by
    intro behind hbehind
    rw [readValue_append hspace, hread fuel hfuel margin behind hmargin hbehind]
  have hskip : ∀ c cs, isBlank c = false → skipBlanks (c :: cs) = c :: cs :=
    fun _ _ => skipBlanks_cons
  refine ⟨fun rest hends hafter => ?_, fun parts rest hparts => ?_⟩
  · obtain ⟨text, hquote, hkey⟩ := exists_readKey hmargin key (j.prettyAt margin) after
    simp only [readEntries, hquote, hkey, hskip ':' _ rfl, Option.bind_eq_bind,
      Option.bind_some, hitem after hends, hafter]
    rfl
  · obtain ⟨text, hquote, hkey⟩ := exists_readKey hmargin key (j.prettyAt margin) (',' :: after)
    simp only [readEntries, hquote, hkey, hskip ':' _ rfl, Option.bind_eq_bind, Option.bind_some,
      hitem (',' :: after) (ends_cons rfl), hskip ',' _ rfl, hparts]
    rfl

/-- What is read with one step is read with any fuel. -/
theorem readsBack_of_step (h : ∀ fuel margin rest, Ends rest →
    readValue (fuel + 1) ((j.prettyAt margin).toList ++ rest) =
      some (j.source, rest)) : j.ReadsBack := by
  refine ⟨1, fun fuel hfuel margin rest _ hrest => ?_⟩
  obtain ⟨fuel, rfl⟩ := Nat.exists_eq_add_of_le' hfuel
  exact h fuel margin rest hrest

theorem blank_indent {margin : String} (h : Blank margin.toList) :
    Blank (margin ++ "  ").toList := by
  intro c hc
  rw [String.toList_append, List.mem_append] at hc
  obtain hc | hc := hc
  · exact h c hc
  · obtain rfl : c = ' ' := by simpa using hc
    rfl

/-- **The structure of a written text is that of the value**, if its doubles are finite. -/
theorem readsBack (hj : j.isFinite = true) : j.ReadsBack := by
  induction j using induction with
  | null =>
    refine readsBack_of_step fun fuel margin rest _ => ?_
    simp [prettyAt, readValue, skipBlanks, isBlank, source]
  | bool b =>
    refine readsBack_of_step fun fuel margin rest _ => ?_
    cases b <;> simp [prettyAt, compact, readValue, skipBlanks, isBlank, source]
  | int i =>
    obtain ⟨n, -, -, hread⟩ := exists_readNumeral?_toString i
    refine readsBack_of_step fun fuel margin rest hrest => ?_
    rw [prettyAt, compact, source, numeralOf_eq hread]
    exact readValue_numeral (hread rest hrest)
  | double x =>
    obtain ⟨d, hd⟩ := Number.exists_ofFloat_of_isFinite hj
    obtain ⟨n, -, -, -, hread⟩ := exists_readNumeral?_render .json hd
    refine readsBack_of_step fun fuel margin rest hrest => ?_
    rw [prettyAt, compact, source, numeralOf_eq hread]
    exact readValue_numeral (hread rest hrest)
  | string s =>
    refine readsBack_of_step fun fuel margin rest _ => ?_
    obtain ⟨text, htext, hread⟩ := readPieces_quote s rest
    rw [prettyAt, htext, source]
    exact readValue_string hread
  | array items ih =>
    rw [isFinite, areFinite_iff] at hj
    cases items with
    | nil =>
      refine readsBack_of_step fun fuel margin rest _ => ?_
      simp [prettyAt, prettyItems, block, readValue, skipBlanks, isBlank, source, sources]
    | cons item items =>
      obtain ⟨least, hread⟩ := exists_readLines prettyAt rfl readItems_append fun other hother =>
        (ih other hother (hj other hother)).readsItem
      refine ⟨least + 1, fun fuel hfuel margin rest hmargin _ => ?_⟩
      obtain ⟨fuel, rfl⟩ := Nat.exists_eq_add_of_le' (Nat.le_of_add_left_le hfuel)
      rw [prettyAt, prettyItems_eq, toList_block _ _ _ (by simp), source, sources_eq]
      have hitems := hread fuel (by omega) (margin ++ "  ")
        margin.toList rest (blank_indent hmargin) hmargin
      rw [← readItems_append blank_newline] at hitems
      simpa using readValue_array hitems
  | object members ih =>
    rw [isFinite, haveFinite_iff] at hj
    cases members with
    | nil =>
      refine readsBack_of_step fun fuel margin rest _ => ?_
      simp [prettyAt, prettyMembers, block, readValue, skipBlanks, isBlank, source, memberSources]
    | cons member members =>
      obtain ⟨least, hread⟩ := exists_readLines _ rfl readEntries_append fun other hother =>
        (ih other hother (hj other hother)).readsEntry other.1
      refine ⟨least + 1, fun fuel hfuel margin rest hmargin _ => ?_⟩
      obtain ⟨fuel, rfl⟩ := Nat.exists_eq_add_of_le' (Nat.le_of_add_left_le hfuel)
      rw [prettyAt, prettyMembers_eq, toList_block _ _ _ (by simp), source, memberSources_eq]
      have hentries := hread fuel (by omega) (margin ++ "  ")
        margin.toList rest (blank_indent hmargin) hmargin
      rw [← readEntries_append blank_newline] at hentries
      simpa using readValue_object hentries

/-! ### The structure determines the value -/

variable {j j' : Json}

theorem eq_of_map {α β : Type} {f : α → β} {xs ys : List α} (h : xs.map f = ys.map f)
    (hf : ∀ x ∈ xs, ∀ y ∈ ys, f x = f y → x = y) : xs = ys := by
  induction xs generalizing ys with
  | nil => exact (List.map_eq_nil_iff.1 h.symm).symm
  | cons x xs ih =>
    obtain ⟨y, rest, rfl, hy, hrest⟩ := List.map_eq_cons_iff.1 h.symm
    rw [hf x List.mem_cons_self y List.mem_cons_self hy.symm, ih hrest.symm fun x hx y hmem =>
      hf x (List.mem_cons_of_mem _ hx) y (List.mem_cons_of_mem _ hmem)]

/-- **The structure of its text determines a value** whose doubles are finite. -/
theorem eq_of_source (hj : j.isFinite = true) (hj' : j'.isFinite = true)
    (h : j.source = j'.source) : j = j' := by
  induction j using induction generalizing j' with
  | null => cases j' <;> first | rfl | cases h
  | bool b => cases j' <;> cases h; rfl
  | int i =>
    cases j' with
    | int k => rw [eq_of_numeralOf_toString (Source.number.inj h)]
    | double y =>
      have hwhole := isWhole_numeralOf_toString i
      rw [Source.number.inj h, isWhole_numeralOf_render .json hj'] at hwhole
      cases hwhole
    | _ => cases h
  | double x =>
    cases j' with
    | int k =>
      have hwhole := isWhole_numeralOf_toString k
      rw [← Source.number.inj h, isWhole_numeralOf_render .json hj] at hwhole
      cases hwhole
    | double y => rw [eq_of_numeralOf_render .json hj hj' (Source.number.inj h)]
    | _ => cases h
  | string s =>
    cases j' with
    | string t => rw [eq_of_pieces (Source.string.inj h)]
    | _ => cases h
  | array items ih =>
    cases j' with
    | array items' =>
      rw [isFinite, areFinite_iff] at hj hj'
      simp only [source, sources_eq, Source.array.injEq] at h
      rw [eq_of_map h fun x hx y hy => ih x hx (hj x hx) (hj' y hy)]
    | _ => cases h
  | object members ih =>
    cases j' with
    | object members' =>
      rw [isFinite, haveFinite_iff] at hj hj'
      simp only [source, memberSources_eq, Source.object.injEq] at h
      rw [eq_of_map h fun x hx y hy hxy => Prod.ext (eq_of_pieces (Prod.mk.inj hxy).1)
        (ih x hx (hj x hx) (hj' y hy) (Prod.mk.inj hxy).2)]
    | _ => cases h

/-- **Different values have different texts**, if their doubles are finite. -/
theorem eq_of_pretty (hj : j.isFinite = true) (hj' : j'.isFinite = true)
    (h : j.pretty = j'.pretty) : j = j' := by
  obtain ⟨least, hread⟩ := readsBack hj
  obtain ⟨least', hread'⟩ := readsBack hj'
  have hsource := hread (max least least') (by omega) "" [] (by simp [Blank]) ends_nil
  have hsource' := hread' (max least least') (by omega) "" [] (by simp [Blank]) ends_nil
  unfold pretty at h
  rw [h, hsource', Option.some.injEq, Prod.mk.injEq] at hsource
  exact eq_of_source hj hj' hsource.1.symm

end Dataflow.Json
