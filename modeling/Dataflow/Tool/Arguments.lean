/-
**Command lines.**

There are two tools: one optimizes a graph and writes it, the other generates the program of an
optimized graph.  Their options are read from left to right; each may be given once, and none of the
arguments stands outside an option.
-/

import Dataflow.Path

namespace Dataflow

inductive Tool where
  | optimize
  | generate
deriving DecidableEq, Repr

def Tool.name : Tool → String
  | optimize => "sluice-opt"
  | generate => "sluice-gen"

def Tool.ofName? (name : String) : Option Tool :=
  [optimize, generate].find? (·.name == name)

def Tool.about : Tool → String
  | optimize => "Optimize a Sluice operator DAG"
  | generate => "Generate a fused C++ execution plan from a Sluice operator DAG"

inductive OptionKey where
  | input
  | output
  | outputDirectory
  | level
  | settings
  | explain
deriving DecidableEq, Repr

namespace OptionKey

def name : OptionKey → String
  | input => "input"
  | output => "output"
  | outputDirectory => "output-dir"
  | level => "optimization-level"
  | settings => "config"
  | explain => "explain"

def letter? : OptionKey → Option Char
  | input => some 'i'
  | output => some 'o'
  | level => some 'O'
  | _ => none

def about : OptionKey → String
  | input => "Input DAG (wire format); stdin if omitted"
  | output => "Output file; stdout if omitted"
  | outputDirectory => "Directory receiving the generated source and header"
  | level => "Optimization level, overrides the configuration file"
  | settings => "JSON configuration file"
  | explain => "Print the DAG before and after optimization to stderr"

def takesValue (key : OptionKey) : Bool :=
  key ≠ .explain

end OptionKey

def Tool.options : Tool → List OptionKey
  | optimize => [.input, .output, .level, .settings, .explain]
  | generate => [.input, .outputDirectory, .level, .settings]

/-- Why a command line does not run a tool: it is wrong, or it only asks for the version or for
help. -/
inductive Stop where
  | usage
  | version
  | help
deriving DecidableEq, Repr

structure Options where
  input : Option Path := none
  output : Option Path := none
  level : Option Nat := none
  settings : Option Path := none
  explain : Bool := false
deriving Repr

namespace Options

def ofName? (tool : Tool) (name : String) : Option OptionKey :=
  tool.options.find? (·.name == name)

def ofLetter? (tool : Tool) (c : Char) : Option OptionKey :=
  tool.options.find? (·.letter? == some c)

/-- The digits of a number, or none. -/
def digits? (cs : List Char) : Option Nat :=
  if cs.isEmpty ∨ !cs.all Char.isDigit then none
  else some (cs.foldl (fun n c => n * 10 + (c.toNat - 48)) 0)

/-- An optimization level: a number of 32 bits, which may have a sign. -/
def level? (text : String) : Option Nat :=
  let n := match text.toList with
    | '+' :: cs => digits? cs
    | '-' :: cs => (digits? cs).filter (· = 0)
    | cs => digits? cs
  n.filter (· < UInt32.size)

/-- Whether a value is one of an option: a level, or a path, which is not empty. -/
def admits (key : OptionKey) (value : String) : Bool :=
  match key with
  | .level => (level? value).isSome
  | .explain => true
  | _ => value ≠ ""

abbrev Given := List (OptionKey × String)

/-- Gives an option that was not given before. -/
def give (given : Given) (key : OptionKey) (value : String) : Except Stop Given :=
  if given.any (·.1 = key) ∨ !admits key value then .error .usage
  else .ok (given ++ [(key, value)])

/-- Whether an argument begins an option and can be no value. -/
def beginsOption (arg : String) : Bool :=
  match arg.toList with
  | '-' :: _ :: _ => true
  | _ => false

/-- An argument as an option with the value attached to it.  None means that the option stands
alone. -/
def split? (tool : Tool) (arg : List Char) : Except Stop (OptionKey × Option String) :=
  match arg with
  | '-' :: '-' :: long =>
    let name := String.ofList (long.takeWhile (· ≠ '='))
    let attached := match long.dropWhile (· ≠ '=') with
      | '=' :: value => some (String.ofList value)
      | _ => none
    if name = "version" then .error (if attached.isSome then .usage else .version)
    else if name = "help" then .error (if attached.isSome then .usage else .help)
    else match ofName? tool name with
      | some key =>
        if attached.isSome ∧ !key.takesValue then .error .usage else .ok (key, attached)
      | none => .error .usage
  | '-' :: c :: more =>
    if c = 'V' then .error .version
    else if c = 'h' then .error .help
    else match ofLetter? tool c, more with
      | some key, [] => .ok (key, none)
      | some key, '=' :: value => .ok (key, some (String.ofList value))
      | some key, value => .ok (key, some (String.ofList value))
      | none, _ => .error .usage
  | _ => .error .usage

def scan (tool : Tool) (given : Given) : List String → Except Stop Given
  | [] => .ok given
  | [arg] => do
    if arg = "--" then return given
    match ← split? tool arg.toList with
    | (key, some value) => give given key value
    | (key, none) => if key.takesValue then .error .usage else give given key ""
  | arg :: next :: rest => do
    if arg = "--" then throw .usage
    match ← split? tool arg.toList with
    | (key, some value) => scan tool (← give given key value) (next :: rest)
    | (key, none) =>
      if !key.takesValue then scan tool (← give given key "") (next :: rest)
      else if beginsOption next then throw .usage
      else scan tool (← give given key next) rest

/-- The options of a command line.  Generating needs a directory. -/
def read (tool : Tool) (args : List String) : Except Stop Options := do
  let given ← scan tool [] args
  let value? (key : OptionKey) : Option String := (given.find? (·.1 = key)).map (·.2)
  let path? (key : OptionKey) : Option Path := (value? key).map Path.mk
  if tool = .generate ∧ (value? .outputDirectory).isNone then throw .usage
  return {
    input := path? .input
    output := if tool = .generate then path? .outputDirectory else path? .output
    level := (value? .level).bind level?
    settings := path? .settings
    explain := (value? .explain).isSome }

end Options

end Dataflow
