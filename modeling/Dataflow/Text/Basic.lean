/-
**Lines and parts of text.**

A text is a sequence of lines, each ended by a line feed.  A carriage return that stands directly
before the line feed belongs to the line end; the text after the last line feed is a line of its own
only if it is not empty.
-/

namespace Dataflow.Text

/-- The pieces of a text between its line feeds, the unended rest last. -/
def pieces : List Char → List (List Char)
  | [] => [[]]
  | c :: cs =>
    if c = '\n' then [] :: pieces cs
    else match pieces cs with
      | [] => [[c]]
      | p :: ps => (c :: p) :: ps

/-- An ended line without a carriage return before its end. -/
def dropReturn (line : List Char) : List Char :=
  if line.getLast? = some '\r' then line.dropLast else line

def lines (text : String) : List String :=
  let parts := pieces text.toList
  let ended := parts.dropLast.map dropReturn
  let rest := parts.getLast?.getD []
  (ended ++ if rest.isEmpty then [] else [rest]).map String.ofList

/-- Every line of `text` behind `margin`, the lines joined by line feeds. -/
def indent (text margin : String) : String :=
  "\n".intercalate ((lines text).map (margin ++ ·))

def braced (items : List String) : String :=
  "\x7b" ++ ", ".intercalate items ++ "\x7d"

def bracketed (items : List String) : String :=
  "[" ++ ", ".intercalate items ++ "]"

/-- Whether `part` stands somewhere in a sequence of characters. -/
def hasPart (part : List Char) : List Char → Bool
  | [] => part.isEmpty
  | c :: cs => part.isPrefixOf (c :: cs) || hasPart part cs

end Dataflow.Text
