/-
**Catalogs of operators.**

A catalog says which sort of operator a tag stands for.  Several tags may stand for one sort, and
the tags keep the order in which they were first entered.
-/

import Dataflow.Operator.Basic
import Dataflow.Text.Quoted

namespace Dataflow

/-- Tags in the order of their entry, with the sorts of operators that they stand for. -/
abbrev Catalog := List (String × Tag)

namespace Catalog

def tag? (c : Catalog) (tag : String) : Option Tag :=
  (c.find? (·.1 == tag)).map (·.2)

def tags (c : Catalog) : List String :=
  c.map (·.1)

/-- Lets a tag stand for a sort of operator; a tag that is known already keeps its place. -/
def register (tag : String) (sort : Tag) : Catalog → Catalog
  | [] => [(tag, sort)]
  | (known, s) :: rest =>
    if known = tag then (tag, sort) :: rest else (known, s) :: register tag sort rest

/-- The catalog of all sorts of operators, each under its own name, and ranges also as
`range_source`. -/
def standard : Catalog :=
  [("range", .range), ("range_source", .range), ("constant_tuple", .constantTuple),
    ("parameter_lookup", .parameterLookup), ("row_scan", .rowScan), ("filter", .filter),
    ("map", .map), ("projection", .projection), ("reduce", .reduce),
    ("reduce_by_key", .reduceByKey), ("group_by", .groupBy), ("join", .join),
    ("cartesian", .cartesian), ("partition", .partition),
    ("materialize_row_vector", .materializeRowVector),
    ("ensure_single_tuple", .ensureSingleTuple), ("pipeline", .pipeline)]

def text (c : Catalog) : String :=
  "OperatorRegistry \x7b tags: " ++ Text.bracketed (c.tags.map Text.quoted) ++ " \x7d"

/-- A tag stands for what it was last entered for. -/
theorem tag?_register (c : Catalog) (tag other : String) (sort : Tag) :
    (c.register tag sort).tag? other = if tag = other then some sort else c.tag? other := by
  induction c with
  | nil => simp only [register, tag?, List.find?_cons]; grind
  | cons e rest ih =>
    obtain ⟨known, s⟩ := e
    unfold register
    split
    · next h => subst h; simp only [tag?, List.find?_cons]; grind
    · next h =>
      simp only [tag?, List.find?_cons] at *
      grind

end Catalog

end Dataflow
