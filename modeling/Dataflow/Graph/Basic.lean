/-
**Graphs.**

A graph has nodes, each under its own number, and edges, each from an output slot of one node to an
input slot of another.  One node may be marked as the sink.  Nothing here depends on what a node
does.

Main results:

* `Graph.node?_insert`, `Graph.node?_modify` — the nodes after an update.
-/

import Dataflow.Column

namespace Dataflow

/-- A connection from an output slot of its source to an input slot of its target. -/
structure Edge where
  source : Nat
  sourceSlot : Nat
  target : Nat
  targetSlot : Nat
deriving DecidableEq, Repr

def Edge.enters (e : Edge) (target slot : Nat) : Bool :=
  e.target == target && e.targetSlot == slot

def Edge.touches (e : Edge) (id : Nat) : Bool :=
  e.source == id || e.target == id

/-- The other end of an edge, seen from one node. -/
structure Flow where
  operator : Nat
  slot : Nat
deriving DecidableEq, Repr

/-- What annotation finds out about a node: its output fields, the columns that it reads, those that
it originates, and those of its output that nothing after it reads. -/
structure Note where
  fields : List Field := []
  reads : Columns := []
  writes : Columns := []
  dead : Columns := []

/-- A node of a graph: what it does, under its number. -/
structure Node (κ : Type) where
  id : Nat
  kind : κ
  note : Note := {}

/-- A graph: nodes by ascending number, edges in the order in which they were added, the sink, the
number for the next node, and how many columns were given out. -/
structure Graph (κ : Type) where
  nodes : List (Node κ) := []
  edges : List Edge := []
  sink : Option Nat := none
  nextId : Nat := 0
  allocated : Nat := 0

namespace Graph

variable {κ : Type}

/-! ### Nodes -/

def empty : Graph κ := {}

def size (g : Graph κ) : Nat :=
  g.nodes.length

def ids (g : Graph κ) : List Nat :=
  g.nodes.map (·.id)

def node? (g : Graph κ) (id : Nat) : Option (Node κ) :=
  g.nodes.find? (·.id == id)

def contains (g : Graph κ) (id : Nat) : Bool :=
  (g.node? id).isSome

/-- Puts a node before the first one with a greater number. -/
def insertNode (node : Node κ) : List (Node κ) → List (Node κ)
  | [] => [node]
  | n :: rest => if node.id < n.id then node :: n :: rest else n :: insertNode node rest

def insert (g : Graph κ) (id : Nat) (kind : κ) : Graph κ :=
  { g with nodes := insertNode { id, kind } g.nodes, nextId := max g.nextId (id + 1) }

/-- A graph with the node under a number changed; the change keeps the number. -/
def modify (g : Graph κ) (id : Nat) (f : Node κ → Node κ) : Graph κ :=
  { g with nodes := g.nodes.map fun n => if n.id = id then { f n with id := n.id } else n }

/-- A graph without the node under a number, and without a sink if that was the sink. -/
def erase (g : Graph κ) (id : Nat) : Graph κ :=
  { g with
    nodes := g.nodes.filter (·.id != id)
    sink := if g.sink = some id then none else g.sink }

/-! ### Neighbours -/

def producer? (g : Graph κ) (id slot : Nat) : Option Nat :=
  (g.edges.find? (·.enters id slot)).map (·.source)

/-- Where the inputs of a node come from, by input slot. -/
def inFlows (g : Graph κ) (id : Nat) : List Flow :=
  let incoming := g.edges.filter (·.target == id)
  (incoming.mergeSort fun a b => a.targetSlot ≤ b.targetSlot).map fun e => ⟨e.source, e.sourceSlot⟩

/-- Where the outputs of a node go, by consumer and then by slot. -/
def outFlows (g : Graph κ) (id : Nat) : List Flow :=
  let outgoing := (g.edges.filter (·.source == id)).map fun e => Flow.mk e.target e.targetSlot
  outgoing.mergeSort fun a b =>
    a.operator < b.operator || (a.operator == b.operator && a.slot ≤ b.slot)

def producers (g : Graph κ) (id : Nat) : List Nat :=
  (g.inFlows id).map (·.operator)

def consumers (g : Graph κ) (id : Nat) : NatSet :=
  NatSet.ofList ((g.edges.filter (·.source == id)).map (·.target))

def degree (g : Graph κ) (id : Nat) : Nat :=
  g.edges.countP (·.touches id)

/-! ### Facts -/

theorem id_eq_of_node? {g : Graph κ} {id : Nat} {n : Node κ} (h : g.node? id = some n) :
    n.id = id := by
  simpa using List.find?_some h

theorem mem_of_node? {g : Graph κ} {id : Nat} {n : Node κ} (h : g.node? id = some n) :
    n ∈ g.nodes :=
  List.mem_of_find?_eq_some h

theorem contains_iff_mem_ids (g : Graph κ) (id : Nat) : g.contains id ↔ id ∈ g.ids := by
  simp [contains, node?, ids, List.find?_isSome]

theorem node?_insertNode (node : Node κ) (nodes : List (Node κ)) (id : Nat)
    (h : ∀ n ∈ nodes, n.id ≠ node.id) :
    (insertNode node nodes).find? (·.id == id) =
      if node.id = id then some node else nodes.find? (·.id == id) := by
  induction nodes with
  | nil => simp [insertNode, List.find?_cons]; grind
  | cons n rest ih =>
    have := ih fun m hm => h m (List.mem_cons_of_mem n hm)
    have hn := h n List.mem_cons_self
    unfold insertNode
    split
    · simp only [List.find?_cons]; grind
    · simp only [List.find?_cons, this]; grind

/-- After a node was put under a free number, it is found there and all others where they were. -/
theorem node?_insert (g : Graph κ) (id m : Nat) (kind : κ) (h : ¬g.contains id) :
    (g.insert id kind).node? m = if id = m then some { id, kind } else g.node? m := by
  rw [contains_iff_mem_ids] at h
  refine node?_insertNode { id, kind } g.nodes m fun n hn he => h ?_
  exact List.mem_map.2 ⟨n, hn, he⟩

/-- After a change of one node, it is found changed and all others as they were. -/
theorem node?_modify (g : Graph κ) (id m : Nat) (f : Node κ → Node κ) :
    (g.modify id f).node? m =
      (g.node? m).map fun n => if n.id = id then { f n with id := n.id } else n := by
  simp only [node?, modify, List.find?_map]
  congr 2
  funext n
  simp only [Function.comp]
  split <;> rfl

@[simp] theorem ids_modify (g : Graph κ) (id : Nat) (f : Node κ → Node κ) :
    (g.modify id f).ids = g.ids := by
  simp only [ids, modify, List.map_map]
  apply List.map_congr_left
  intro n _
  simp only [Function.comp]
  split <;> rfl

@[simp] theorem edges_modify (g : Graph κ) (id : Nat) (f : Node κ → Node κ) :
    (g.modify id f).edges = g.edges := rfl

end Graph

end Dataflow
