/-
**JSON texts, read but not yet interpreted.**

Reading a JSON text has two parts.  The first finds its structure: numbers stay as they are spelled,
strings keep their escapes, objects keep all entries in order.  The second gives each part a value
and can fail too: a number may exceed every double, an escape may name half of a surrogate pair.  A
reader that skips a part of the text never asks for its value.
-/

import Dataflow.Json.Basic

namespace Dataflow.Json

structure Numeral where
  negative : Bool
  whole : List Nat
  /-- The digits behind the point, none without a point. -/
  fraction : List Nat
  /-- The sign and the digits of the exponent. -/
  exponent : Option (Bool × List Nat)
deriving DecidableEq, Repr

/-- A part of a quoted string: a character, or a code unit of UTF-16 given by an escape. -/
inductive Piece where
  | char (c : Char)
  | unit (code : Nat)
deriving DecidableEq, Repr

inductive Source where
  | null
  | bool (b : Bool)
  | number (n : Numeral)
  | string (pieces : List Piece)
  | array (items : List Source)
  | object (entries : List (List Piece × Source))

/-! ### Strings -/

/-- The characters of a quoted string.  Two escapes may stand for one character; a half of such a
pair on its own stands for none. -/
def decodePieces : List Piece → Option (List Char)
  | [] => some []
  | .char c :: rest => (c :: ·) <$> decodePieces rest
  | .unit high :: .unit low :: rest =>
    if 0xD800 ≤ high ∧ high < 0xDC00 then
      if 0xDC00 ≤ low ∧ low < 0xE000 then
        (Char.ofNat (0x10000 + (high - 0xD800) * 0x400 + (low - 0xDC00)) :: ·) <$> decodePieces rest
      else none
    else if 0xDC00 ≤ high ∧ high < 0xE000 then none
    else (Char.ofNat high :: ·) <$> decodePieces (.unit low :: rest)
  | .unit code :: rest =>
    if 0xD800 ≤ code ∧ code < 0xE000 then none
    else (Char.ofNat code :: ·) <$> decodePieces rest

def hexValue? (c : Char) : Option Nat :=
  if '0' ≤ c ∧ c ≤ '9' then some (c.toNat - 48)
  else if 'a' ≤ c ∧ c ≤ 'f' then some (c.toNat - 87)
  else if 'A' ≤ c ∧ c ≤ 'F' then some (c.toNat - 55)
  else none

/-- The number that four hexadecimal digits write. -/
def hexQuad? (a b c d : Char) : Option Nat := do
  return ((((← hexValue? a) * 16 + (← hexValue? b)) * 16 + (← hexValue? c)) * 16 + (← hexValue? d))

/-- The character that a one-letter escape stands for. -/
def shortEscape? (c : Char) : Option Char :=
  if c = '"' ∨ c = '\\' ∨ c = '/' then some c
  else if c = 'b' then some '\x08'
  else if c = 'f' then some '\x0c'
  else if c = 'n' then some '\n'
  else if c = 'r' then some '\r'
  else if c = 't' then some '\t'
  else none

/-- The pieces of a string up to its closing quote, and what follows the quote. -/
def readPieces : List Char → Option (List Piece × List Char)
  | [] => none
  | '"' :: rest => some ([], rest)
  | '\\' :: 'u' :: a :: b :: c :: d :: rest => do
    let code ← hexQuad? a b c d
    let (pieces, rest) ← readPieces rest
    return (.unit code :: pieces, rest)
  | '\\' :: e :: rest => do
    let c ← shortEscape? e
    let (pieces, rest) ← readPieces rest
    return (.char c :: pieces, rest)
  | c :: rest =>
    if c.toNat < 32 ∨ c = '\\' then none
    else do
      let (pieces, rest) ← readPieces rest
      return (.char c :: pieces, rest)

/-! ### Numbers -/

def readDigits : List Char → List Nat × List Char
  | [] => ([], [])
  | c :: rest =>
    if c.isDigit then
      let (digits, rest) := readDigits rest
      ((c.toNat - 48) :: digits, rest)
    else ([], c :: rest)

def readDigits? (cs : List Char) : Option (List Nat × List Char) :=
  match readDigits cs with
  | ([], _) => none
  | found => some found

def readFraction? : List Char → Option (List Nat × List Char)
  | '.' :: rest => readDigits? rest
  | cs => some ([], cs)

/-- The digits of an exponent, with the sign in front of them. -/
def readSigned? : List Char → Option ((Bool × List Nat) × List Char)
  | '-' :: rest => (fun (ds, rest) => ((true, ds), rest)) <$> readDigits? rest
  | '+' :: rest => (fun (ds, rest) => ((false, ds), rest)) <$> readDigits? rest
  | cs => (fun (ds, rest) => ((false, ds), rest)) <$> readDigits? cs

def readExponent? : List Char → Option (Option (Bool × List Nat) × List Char)
  | c :: rest =>
    if c = 'e' ∨ c = 'E' then (fun (e, rest) => (some e, rest)) <$> readSigned? rest
    else some (none, c :: rest)
  | [] => some (none, [])

/-- The digits before the point; a zero stands alone. -/
def readWhole? : List Char → Option (List Nat × List Char)
  | '0' :: rest => some ([0], rest)
  | cs => readDigits? cs

def readUnsigned? (negative : Bool) (cs : List Char) : Option (Numeral × List Char) := do
  let (whole, cs) ← readWhole? cs
  let (fraction, cs) ← readFraction? cs
  let (exponent, cs) ← readExponent? cs
  return (⟨negative, whole, fraction, exponent⟩, cs)

def readNumeral? : List Char → Option (Numeral × List Char)
  | '-' :: rest => readUnsigned? true rest
  | cs => readUnsigned? false cs

/-! ### Structure -/

/-- The characters that may stand between the parts of a text. -/
def isBlank (c : Char) : Bool :=
  c = ' ' || c = '\n' || c = '\t' || c = '\r'

/-- A text from its first character that is not blank. -/
def skipBlanks (cs : List Char) : List Char :=
  cs.dropWhile isBlank

namespace Source

mutual

/-- A value at the start of a text, and what follows it.  Every part takes at least one character,
so a fuel above the length of the text is never used up. -/
def readValue : Nat → List Char → Option (Source × List Char)
  | 0, _ => none
  | fuel + 1, cs =>
    match skipBlanks cs with
    | 'n' :: 'u' :: 'l' :: 'l' :: rest => some (null, rest)
    | 't' :: 'r' :: 'u' :: 'e' :: rest => some (bool true, rest)
    | 'f' :: 'a' :: 'l' :: 's' :: 'e' :: rest => some (bool false, rest)
    | '"' :: rest => (fun (pieces, rest) => (string pieces, rest)) <$> readPieces rest
    | '[' :: rest =>
      match skipBlanks rest with
      | ']' :: rest => some (array [], rest)
      | rest => (fun (items, rest) => (array items, rest)) <$> readItems fuel rest
    | '\x7b' :: rest =>
      match skipBlanks rest with
      | '\x7d' :: rest => some (object [], rest)
      | rest => (fun (entries, rest) => (object entries, rest)) <$> readEntries fuel rest
    | rest => (fun (n, rest) => (number n, rest)) <$> readNumeral? rest

def readItems : Nat → List Char → Option (List Source × List Char)
  | 0, _ => none
  | fuel + 1, cs => do
    let (item, cs) ← readValue fuel cs
    match skipBlanks cs with
    | ',' :: rest =>
      let (items, rest) ← readItems fuel rest
      return (item :: items, rest)
    | ']' :: rest => return ([item], rest)
    | _ => none

def readEntries : Nat → List Char → Option (List (List Piece × Source) × List Char)
  | 0, _ => none
  | fuel + 1, cs =>
    match skipBlanks cs with
    | '"' :: rest => do
      let (key, rest) ← readPieces rest
      match skipBlanks rest with
      | ':' :: rest =>
        let (value, rest) ← readValue fuel rest
        match skipBlanks rest with
        | ',' :: rest =>
          let (entries, rest) ← readEntries fuel rest
          return ((key, value) :: entries, rest)
        | '\x7d' :: rest => return ([(key, value)], rest)
        | _ => none
      | _ => none
    | _ => none

end

/-- The structure of a text that holds one value and nothing else. -/
def read? (text : String) : Option Source := do
  let cs := text.toList
  let (source, rest) ← readValue (2 * cs.length + 2) cs
  if (skipBlanks rest).isEmpty then some source else none

mutual

def depth : Source → Nat
  | array items => depthItems items + 1
  | object entries => depthEntries entries + 1
  | null => 0
  | bool _ => 0
  | number _ => 0
  | string _ => 0

def depthItems : List Source → Nat
  | [] => 0
  | item :: rest => max item.depth (depthItems rest)

def depthEntries : List (List Piece × Source) → Nat
  | [] => 0
  | (_, value) :: rest => max value.depth (depthEntries rest)

end

end Source

/-! ### Values of numbers -/

/-- Takes digits into a number while it stays below `2^64`; what is left over follows. -/
def takeDigits (n : Nat) : List Nat → Nat × List Nat
  | [] => (n, [])
  | d :: ds => if n * 10 + d < UInt64.size then takeDigits (n * 10 + d) ds else (n, d :: ds)

/-- `x · 10^e`, by one multiplication or division with a power of ten up to `10^308`, or by several
divisions for a smaller one.  A result beyond the largest double is none. -/
def scaleByTen (x : Float) (e : Int) : Option Float :=
  if e.natAbs ≤ 308 then
    if 0 ≤ e then
      let y := x * Float.ofScientific 1 false e.toNat
      if y.isFinite then some y else none
    else some (x / Float.ofScientific 1 false (-e).toNat)
  else if x == 0 then some x
  else if 0 ≤ e then none
  else scaleByTen (x / Float.ofScientific 1 false 308) (e + 308)
termination_by e.natAbs
decreasing_by omega

namespace Numeral

def isWhole (n : Numeral) : Bool :=
  n.fraction.isEmpty && n.exponent.isNone

def wholeValue (n : Numeral) : Nat :=
  n.whole.foldl (fun acc d => acc * 10 + d) 0

/-- The double that a spelling stands for: its leading digits as far as they fit into 64 bits,
scaled by the power of ten that the point, the other digits and the exponent give. -/
def double? (n : Numeral) : Option Float := do
  let (lead, left) := takeDigits 0 n.whole
  let (digits, rest) := takeDigits lead n.fraction
  let places : Int := left.length - (n.fraction.length - rest.length : Nat)
  let magnitude ← match n.exponent with
    | none => scaleByTen (Float.ofNat digits) places
    | some (negative, ds) =>
      let e : Nat := ds.foldl (fun acc d => acc * 10 + d) 0
      if (e : Int) ≤ Int32.maxValue.toInt then
        scaleByTen (Float.ofNat digits) (if negative then places - e else places + e)
      else if digits = 0 ∨ negative then some 0
      else none
  return if n.negative then -magnitude else magnitude

/-- The value of a number: an integer if it is spelled as one, is not a negative zero and fits into
64 bits with or without sign, otherwise a double. -/
def value? (n : Numeral) : Option Json :=
  let whole := n.wholeValue
  if n.isWhole ∧ n.negative = false ∧ whole < UInt64.size then some (.int whole)
  else if n.isWhole ∧ n.negative = true ∧ 0 < whole ∧ Int64.minValue.toInt ≤ -whole then
    some (.int (-whole))
  else .double <$> n.double?

end Numeral

/-! ### Values of texts -/

namespace Source

def text? (pieces : List Piece) : Option String :=
  String.ofList <$> decodePieces pieces

mutual

def value? : Source → Option Json
  | null => some .null
  | bool b => some (.bool b)
  | number n => n.value?
  | string pieces => .string <$> text? pieces
  | array items => .array <$> valueItems? items
  | object entries => Json.ofEntries <$> valueEntries? entries

def valueItems? : List Source → Option (List Json)
  | [] => some []
  | item :: rest => do
    let value ← item.value?
    let values ← valueItems? rest
    return value :: values

def valueEntries? : List (List Piece × Source) → Option (List (String × Json))
  | [] => some []
  | (pieces, source) :: rest => do
    let key ← text? pieces
    let value ← source.value?
    let values ← valueEntries? rest
    return (key, value) :: values

end

/-- The parts of a record with the given fields: the members of an object, none of them twice, or
the items of an array, in the order of the fields and not more of them.  Other members are left
alone. -/
def fields? (names : List String) : Source → Option (List (Option Source))
  | object entries => do
    let entries ← entries.mapM fun (pieces, value) => return (← text? pieces, value)
    if names.any fun name => 1 < entries.countP (·.1 == name) then none
    return names.map fun name => (entries.find? (·.1 == name)).map (·.2)
  | array items =>
    if items.length ≤ names.length then some ((List.range names.length).map (items[·]?)) else none
  | _ => none

end Source

/-- The depth from which a text counts as malformed. -/
def depthLimit : Nat := 128

def parse? (text : String) : Option Json := do
  let source ← Source.read? text
  if source.depth < depthLimit then source.value? else none

end Dataflow.Json
