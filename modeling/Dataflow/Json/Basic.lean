/-
**JSON values.**

Numbers are integers or doubles, by their spelling.  The members of an object made from entries are
in ascending order of their keys, and of two members with one key the later one stays; an object
that is only written, never read, may list its members in any order.

Main results:

* `Json.sizeOf_lt_of_get?` and `Json.sizeOf_lt_of_array?` — parts of a value are smaller than it.
-/

import Dataflow.Number.Binary64

namespace Dataflow

inductive Json where
  | null
  | bool (b : Bool)
  | int (i : Int)
  | double (x : Float)
  | string (s : String)
  | array (items : List Json)
  | object (members : List (String × Json))

namespace Json

/-! ### Making values -/

/-- A double; JSON writes `null` for one that is not finite. -/
def ofFloat (x : Float) : Json :=
  if x.isFinite then double x else null

def ofNat (n : Nat) : Json := int n

def ofOption {α : Type} (f : α → Json) : Option α → Json
  | some a => f a
  | none => null

/-- Puts a member into a list of members in ascending order, over one with the same key. -/
def putMember (key : String) (value : Json) : List (String × Json) → List (String × Json)
  | [] => [(key, value)]
  | (k, v) :: rest =>
    if key < k then (key, value) :: (k, v) :: rest
    else if key = k then (key, value) :: rest
    else (k, v) :: putMember key value rest

/-- The object of some entries: keys ascending, the last entry of a key. -/
def ofEntries (entries : List (String × Json)) : Json :=
  object (entries.foldl (fun members e => putMember e.1 e.2 members) [])

/-! ### Looking into values -/

/-- The member of an object under a key; other values have none. -/
def get? : Json → String → Option Json
  | object members, key => (members.find? (·.1 == key)).map (·.2)
  | _, _ => none

def array? : Json → Option (List Json)
  | array items => some items
  | _ => none

def string? : Json → Option String
  | string s => some s
  | _ => none

def bool? : Json → Option Bool
  | bool b => some b
  | _ => none

def nat? : Json → Option Nat
  | int (.ofNat n) => some n
  | _ => none

def int64? : Json → Option Int64
  | int i =>
    if Int64.minValue.toInt ≤ i ∧ i ≤ Int64.maxValue.toInt then some (Int64.ofInt i) else none
  | _ => none

def float? : Json → Option Float
  | int i => some (Number.ofInteger i)
  | double x => some x
  | _ => none

@[simp] theorem array?_array (items : List Json) : (array items).array? = some items := rfl

@[simp] theorem int64?_toInt (i : Int64) : (int i.toInt).int64? = some i := by
  rw [int64?, if_pos ⟨i.minValue_le_toInt, i.toInt_le⟩, Int64.ofInt_toInt]

theorem eq_array_of_array? {j : Json} {items : List Json} (h : j.array? = some items) :
    j = array items := by
  cases j <;> simp_all [array?]

theorem sizeOf_lt_of_get? {j v : Json} {key : String} (h : j.get? key = some v) :
    sizeOf v < sizeOf j := by
  cases j with
  | object members =>
    simp only [get?, Option.map_eq_some_iff] at h
    obtain ⟨⟨k, w⟩, hfind, rfl⟩ := h
    have hmem := List.sizeOf_lt_of_mem (List.mem_of_find?_eq_some hfind)
    simp only [Prod.mk.sizeOf_spec, object.sizeOf_spec] at *
    omega
  | _ => simp [get?] at h

theorem sizeOf_lt_of_array? {j v : Json} {items : List Json} (h : j.array? = some items)
    (hv : v ∈ items) : sizeOf v < sizeOf j := by
  rw [eq_array_of_array? h]
  have := List.sizeOf_lt_of_mem hv
  simp only [array.sizeOf_spec]
  omega

end Json

end Dataflow
