/-
**JSON as text.**

Values are written on one line without blanks, or spread over lines with two blanks per level.
Strings escape quotes, backslashes and control characters, nothing else.
-/

import Dataflow.Json.Basic
import Dataflow.Number.Layout

namespace Dataflow.Json

def hexDigit (n : Nat) : Char :=
  if n < 10 then Char.ofNat (48 + n) else Char.ofNat (87 + n)

/-- A character inside a quoted string. -/
def escape (c : Char) : List Char :=
  if c = '"' then ['\\', '"']
  else if c = '\\' then ['\\', '\\']
  else if c = '\x08' then ['\\', 'b']
  else if c = '\x0c' then ['\\', 'f']
  else if c = '\n' then ['\\', 'n']
  else if c = '\r' then ['\\', 'r']
  else if c = '\t' then ['\\', 't']
  else if c.toNat < 32 then
    ['\\', 'u', '0', '0', hexDigit (c.toNat / 16), hexDigit (c.toNat % 16)]
  else [c]

def quote (s : String) : String :=
  "\"" ++ String.ofList (s.toList.flatMap escape) ++ "\""

mutual

/-- A value on one line, without blanks. -/
def compact : Json → String
  | null => "null"
  | bool b => if b then "true" else "false"
  | int i => toString i
  | double x => Number.Layout.json.render x
  | string s => quote s
  | array items => "[" ++ ",".intercalate (compactItems items) ++ "]"
  | object members => "\x7b" ++ ",".intercalate (compactMembers members) ++ "\x7d"

def compactItems : List Json → List String
  | [] => []
  | item :: rest => item.compact :: compactItems rest

def compactMembers : List (String × Json) → List String
  | [] => []
  | (key, value) :: rest => (quote key ++ ":" ++ value.compact) :: compactMembers rest

end

/-- Lines between brackets, the closing bracket below `margin`. -/
def block (opening closing margin : String) (lines : List String) : String :=
  if lines.isEmpty then opening ++ closing
  else
    opening ++ "\n" ++ ",\n".intercalate (lines.map (margin ++ "  " ++ ·)) ++ "\n" ++ margin
      ++ closing

mutual

/-- A value over several lines, all but the first behind `margin`. -/
def prettyAt (margin : String) : Json → String
  | array items => block "[" "]" margin (prettyItems (margin ++ "  ") items)
  | object members => block "\x7b" "\x7d" margin (prettyMembers (margin ++ "  ") members)
  | null => "null"
  | bool b => compact (bool b)
  | int i => compact (int i)
  | double x => compact (double x)
  | string s => quote s

def prettyItems (margin : String) : List Json → List String
  | [] => []
  | item :: rest => item.prettyAt margin :: prettyItems margin rest

def prettyMembers (margin : String) : List (String × Json) → List String
  | [] => []
  | (key, value) :: rest =>
    (quote key ++ ": " ++ value.prettyAt margin) :: prettyMembers margin rest

end

/-- A value over several lines, two blanks per level. -/
def pretty (j : Json) : String :=
  j.prettyAt ""

end Dataflow.Json
