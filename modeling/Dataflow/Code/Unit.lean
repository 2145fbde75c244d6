/-
**Code units.**

A code unit holds all that a generated program is made of: includes, structs, the statements of the
function `execute`, its parameters, and the type of a result element.  The source and the header are
rendered from it.
-/

import Dataflow.Code.Struct
import Dataflow.NatSet

namespace Dataflow

inductive Statement where
  | comment (text : String)
  | declare (name expression : String)
  /-- Another name for a variable. -/
  | reference (name target : String)
  | line (text : String)
deriving DecidableEq, Repr

/-- A statement as text; comments may be left out. -/
def Statement.text? (comments : Bool) : Statement → Option String
  | comment text => if comments then some ("/* " ++ text ++ " */") else none
  | declare name expression => some ("auto " ++ name ++ " = " ++ expression ++ ";")
  | reference name target => some ("auto &" ++ name ++ " = " ++ target ++ ";")
  | line text => some text

structure CodeUnit where
  comments : Bool
  includes : List String := ["<cstdlib>"]
  structs : StructTable := []
  body : List Statement := []
  /-- The numbers of the parameters that `execute` takes. -/
  parameters : NatSet := []
  elementType : String := ""
  /-- The names of the structs that the element type needs. -/
  elementRoots : List String := []

namespace CodeUnit

def addInclude (u : CodeUnit) (target : String) : CodeUnit :=
  if target ∈ u.includes then u else { u with includes := u.includes ++ [target] }

def push (u : CodeUnit) (s : Statement) : CodeUnit :=
  { u with body := u.body ++ [s] }

/-- The parameters of `execute`: data and size of each input. -/
def signature (u : CodeUnit) : String :=
  if u.parameters.isEmpty then "void"
  else ", ".intercalate
    (u.parameters.map fun n => s!"void *input_{n}, unsigned long input_{n}_size")

def resultType (u : CodeUnit) : String :=
  "typedef struct \x7b\n    unsigned long size;\n    " ++ u.elementType
    ++ " *data;\n\x7d result_type;\n"

def freeResult : String :=
  "\n".intercalate
    ["void free_result(result_type *ptr) \x7b",
      "    if (ptr != nullptr && ptr->data != nullptr) \x7b",
      "        free(ptr->data);",
      "        ptr->data = nullptr;",
      "    \x7d",
      "    if (ptr != nullptr) \x7b",
      "        free(ptr);",
      "    \x7d",
      "\x7d",
      ""]

def source (u : CodeUnit) : String :=
  "/**\n * Auto-generated execution plan\n */\n"
    ++ String.join (u.includes.map fun target => "#include " ++ target ++ "\n")
    ++ "\n" ++ u.structs.render ++ "\n" ++ u.resultType
    ++ "\nextern \"C\" \x7b\n\n"
    ++ "result_type *execute(" ++ u.signature ++ ") \x7b\n"
    ++ String.join ((u.body.filterMap (Statement.text? u.comments)).map fun line =>
      "    " ++ line ++ "\n") ++ "\x7d\n\n" ++ freeResult ++ "\n\x7d // extern \"C\"\n"

/-- The header of a program.  The definition of arrays is included if a struct in it has one. -/
def header (u : CodeUnit) : String :=
  let structs := u.structs.renderNeeded u.elementRoots
  "#ifndef SLUICE_EXECUTE_H\n#define SLUICE_EXECUTE_H\n\n#include <stdbool.h>\n#include <stdint.h>\n"
    ++ (if Text.hasPart "Array<".toList structs.toList then "#include \"runtime/array.hpp\"\n"
      else "") ++ "\n" ++ structs ++ "\n" ++ u.resultType
    ++ "\n#ifdef __cplusplus\nextern \"C\" \x7b\n#endif\n\n"
    ++ "result_type *execute(" ++ u.signature ++ ");\nvoid free_result(result_type *ptr);\n"
    ++ "\n#ifdef __cplusplus\n\x7d\n#endif\n\n#endif // SLUICE_EXECUTE_H\n"

end CodeUnit

end Dataflow
