/-
**Help.**

The help of a tool says what it does, how it is called, and what each of its options is for.
-/

import Dataflow.Tool.Arguments

namespace Dataflow

namespace OptionKey

/-- What stands for the value of an option: its name in capital letters. -/
def placeholder (key : OptionKey) : String :=
  String.ofList (key.name.toList.map fun c => if c = '-' then '_' else c.toUpper)

def pattern (key : OptionKey) : String :=
  "--" ++ key.name ++ if key.takesValue then " <" ++ key.placeholder ++ ">" else ""

end OptionKey

namespace Tool

def required : Tool → List OptionKey
  | optimize => []
  | generate => [.outputDirectory]

def usage (tool : Tool) : String :=
  " ".intercalate
    (["Usage:", tool.name, "[OPTIONS]"] ++ tool.required.map OptionKey.pattern) ++ "\n"

/-- An option in the help: its letter and its name, and what it is for on a line of its own. -/
def helpEntry (letter? : Option Char) (pattern about : String) : String :=
  let letter := match letter? with
    | some c => String.ofList ['-', c, ',', ' ']
    | none => "    "
  "  " ++ letter ++ pattern ++ "\n          " ++ about ++ "\n"

def help (tool : Tool) : String :=
  tool.about ++ "\n\n" ++ tool.usage ++ "\nOptions:\n"
    ++ String.join (tool.options.map fun key => helpEntry key.letter? key.pattern key.about)
    ++ helpEntry (some 'h') "--help" "Print help"
    ++ helpEntry (some 'V') "--version" "Print version"

end Tool

end Dataflow
