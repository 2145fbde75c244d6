/-
**Quoted text.**

Diagnostics show a text between quotes so that all of its characters can be told apart: a character
that has no shape of its own, that may be left out, or that would change the shape of the one before
it is written as an escape.
-/

import Dataflow.Text.Combining
import Dataflow.Text.Ignorable

namespace Dataflow.Text

/-- The letter that stands for a character behind a backslash. -/
def letter? : Char → Option Char
  | '"' => some '"'
  | '\\' => some '\\'
  | '\n' => some 'n'
  | '\r' => some 'r'
  | '\t' => some 't'
  | '\x00' => some '0'
  | _ => none

/-- A character inside quotes: by its letter if it has one, by its code point in hexadecimal digits
if it would not be seen as a character, and otherwise as itself. -/
def escaped (c : Char) : String :=
  match letter? c with
  | some l => String.ofList ['\\', l]
  | none =>
    if isUnseen c || isIgnorable c || isCombining c then
      "\\u\x7b" ++ String.ofList (Nat.toDigits 16 c.toNat) ++ "\x7d"
    else String.ofList [c]

def quoted (text : String) : String :=
  "\"" ++ String.join (text.toList.map escaped) ++ "\""

end Dataflow.Text
