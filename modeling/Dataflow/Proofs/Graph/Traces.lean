/-
**What a recursive traversal does.**

A traversal that goes into pipelines is refused if any level has a cycle, however deep, before
anything is acted upon.  Otherwise it passes every operator of every level twice.  As two pipelines
may hold the same graph, the events are told apart by the pipelines around them: the numbers of
these, from the outside in, are the path to the level.  So the traversal is a list of stops, each a
path and an event.  No stop is made twice, the stops inside a pipeline are those between its entry
and its exit, and a consumer is entered after its producers are left.  The traversal against the
order is the same list backwards.

Main definitions:

* `Graph.at?` — the graph at a path;
* `TourStop` — an event, with the path to its graph;
* `Graph.Tour` — the stops of a traversal, made from those of the graphs inside;
* `Graph.Visits` — what the stops of a traversal are like;
* `observed` — actions that also note what they are called for;
* `Graph.checkAcyclic`, `Graph.walk` — the check for cycles, and acting on operators on the way.

Main results:

* `Graph.tour_of_trace` — the events of a traversal are those of a tour;
* `Graph.Tour.mem_iff`, `Graph.Tour.nodup` — **a tour passes every operator of every level**, and
  makes no stop twice;
* `Graph.Tour.brackets`, `Graph.Tour.exit_before_enter` — the stops at one operator, and at two that
  are joined;
* `Graph.trace_backward` — **the traversal against the order is the other one backwards**;
* `Graph.traverse_eq_walk` — a traversal checks for cycles and then walks;
* `Graph.traverse_recursive` — **what a recursive traversal does**, with actions that may fail.
-/

import Dataflow.Proofs.Graph.Reach
import Dataflow.Proofs.Graph.Traversal

namespace Dataflow

open List Option Outcome

variable {failure : Failure} {events : List Event} {P : Dag → Prop}

/-- Entering for leaving, and leaving for entering. -/
def Phase.swap : Phase → Phase
  | enter => exit
  | exit => enter

/-- The event with the other phase. -/
def Event.swap (event : Event) : Event := { event with phase := event.phase.swap }

/-- An event, with the numbers of the pipelines around its operator, from the outside in. -/
structure TourStop where
  path : List Nat
  event : Event

/-- A stop of a graph as one of the graph around the pipelines of a path. -/
def TourStop.below (path : List Nat) (stop : TourStop) : TourStop := ⟨path ++ stop.path, stop.event⟩

theorem TourStop.below_injective (path : List Nat) : Function.Injective (TourStop.below path) := by
  intro s t h
  obtain ⟨hpath, hevent⟩ := TourStop.mk.inj h
  obtain ⟨sPath, sEvent⟩ := s
  obtain ⟨tPath, tEvent⟩ := t
  rw [TourStop.mk.injEq]
  exact ⟨append_cancel_left hpath, hevent⟩

theorem TourStop.below_below (path path' : List Nat) (stops : List TourStop) :
    (stops.map (TourStop.below path')).map (TourStop.below path) =
      stops.map (TourStop.below (path ++ path')) := by
  rw [List.map_map]
  exact map_congr_left fun s _ => by simp [below, Function.comp]

theorem TourStop.events_below (path : List Nat) (stops : List TourStop) :
    (stops.map (TourStop.below path)).map (·.event) = stops.map (·.event) := by
  rw [List.map_map]
  rfl

/-- The operator of the outer level that a stop is at or inside of. -/
def TourStop.root (stop : TourStop) : Nat := stop.path.headD stop.event.node.id

namespace Graph

variable {g h k : Dag} {id : Nat} {path : List Nat} {direction : Direction} {stops : List TourStop}

/-! ### Paths -/

/-- The graph at a path: the graph inside the pipelines of these numbers, from the outside in. -/
def at? : Dag → List Nat → Option Dag
  | g, [] => some g
  | g, id :: path => (g.inner? id).bind (·.at? path)

theorem at?_append (g : Dag) (path path' : List Nat) :
    g.at? (path ++ path') = (g.at? path).bind (·.at? path') := by
  induction path generalizing g with
  | nil => rfl
  | cons id path ih =>
    rw [cons_append, at?, at?]
    cases g.inner? id with
    | none => rfl
    | some h => exact ih h

/-- What holds everywhere holds of the graphs at all paths. -/
theorem everywhere_iff_at? : g.Everywhere P ↔ ∀ path h, g.at? path = some h → P h := by
  constructor
  · intro hg path h hpath
    induction path generalizing g with
    | nil =>
      cases hpath
      exact hg.here
    | cons id path ih =>
      obtain ⟨k, hid, hpath⟩ := bind_eq_some_iff.1 hpath
      exact ih (hg.inside hid) hpath
  · intro hall
    induction g using levelInduction with
    | step g ih =>
      refine ⟨hall [] g rfl, fun id h hid => ih id h hid fun path k hpath => ?_⟩
      refine hall (id :: path) k ?_
      rw [at?, hid]
      exact hpath

/-! ### Tours -/

/-- The stops at one operator, around those of the graph inside it. -/
def stopsAt (g : Dag) (inside : Nat → List TourStop) (id : Nat) : List TourStop :=
  match g.node? id with
  | some node =>
    ⟨[], ⟨.enter, node, g⟩⟩ :: (inside id).map (TourStop.below [id]) ++ [⟨[], ⟨.exit, node, g⟩⟩]
  | none => []

/-- The stops of a traversal: at the operators in order, with those of the graph inside at a
pipeline. -/
inductive Tour (direction : Direction) : Dag → List TourStop → Prop
  | intro {g : Dag} {order : List Nat} {inside : Nat → List TourStop}
      (ordered : g.orderIn direction = .ok order)
      (inner : ∀ id h, g.inner? id = some h → Tour direction h (inside id))
      (bare : ∀ id, g.inner? id = none → inside id = []) :
      Tour direction g (order.flatMap (g.stopsAt inside))

variable {inside : Nat → List TourStop} {node : Node Operator} {order : List Nat} {stop : TourStop}

theorem stopsAt_eq (hnode : g.node? id = some node) :
    g.stopsAt inside id = ⟨[], ⟨.enter, node, g⟩⟩ :: (inside id).map (TourStop.below [id]) ++
      [⟨[], ⟨.exit, node, g⟩⟩] := by
  rw [stopsAt, hnode]

theorem events_stopsAt {inner : Table (List Event)}
    (hinside : (inside id).map (·.event) = (inner.get? id).getD []) :
    (g.stopsAt inside id).map (·.event) = g.eventsAt inner id := by
  unfold stopsAt eventsAt
  cases g.node? id with
  | none => rfl
  | some node =>
    simp only [map_append, map_cons, map_nil, TourStop.events_below, hinside]

/-- **The events of a traversal are those of a tour.** -/
theorem tour_of_trace (hg : g.Numbered) (h : g.trace direction = .ok events) :
    ∃ stops, Tour direction g stops ∧ stops.map (·.event) = events := by
  induction g using levelInduction generalizing events with
  | step g ih =>
    obtain ⟨order, inner, horder, rfl, hinner⟩ := trace_eq_ok hg.here h
    have hinside : ∀ id, ∃ inside : List TourStop, inside.map (·.event) = (inner.get? id).getD [] ∧
        (∀ h, g.inner? id = some h → Tour direction h inside) ∧
        (g.inner? id = none → inside = []) := by
      intro id
      rcases getD_of_traces hinner id with ⟨hnone, hnil⟩ | ⟨h, hsome, htrace⟩
      · exact ⟨[], hnil.symm, fun h hsome => (nomatch hnone.symm.trans hsome), fun _ => rfl⟩
      · obtain ⟨stops, htour, hevents⟩ := ih id h hsome (hg.inside hsome) htrace
        refine ⟨stops, hevents, fun k hk => ?_, fun hnone => (nomatch hnone.symm.trans hsome)⟩
        obtain rfl := mem_unique hsome hk
        exact htour
    choose inside hevents htours hbare using hinside
    refine ⟨_, .intro horder htours hbare, ?_⟩
    rw [map_flatMap]
    exact congrArg order.flatMap (funext fun id => events_stopsAt (hevents id))

theorem perm_of_orderIn (h : g.orderIn direction = .ok order) :
    ∃ forward, g.order = .ok forward ∧ order.Perm forward := by
  cases direction with
  | forward => exact ⟨order, h, .refl _⟩
  | backward =>
    obtain ⟨forward, hforward, hreverse⟩ := map_eq_ok_iff.1 h
    exact ⟨forward, hforward, hreverse ▸ reverse_perm _⟩

theorem Tour.orders (h : Tour direction g stops) :
    g.Everywhere fun k => ∃ order, k.order = .ok order := by
  induction h with
  | intro ordered _ _ ih =>
    obtain ⟨forward, hforward, -⟩ := perm_of_orderIn ordered
    exact ⟨⟨forward, hforward⟩, ih⟩

theorem Tour.trace (hg : g.Numbered) (h : Tour direction g stops) :
    g.trace direction = .ok (stops.map (·.event)) := by
  obtain ⟨events, htrace⟩ := exists_trace_of_orders hg h.orders direction
  rw [htrace]
  induction h generalizing events with
  | @intro g order inside ordered _ bare ih =>
    obtain ⟨order', inner, horder', rfl, hinner⟩ := trace_eq_ok hg.here htrace
    obtain rfl : order' = order := Except.ok.inj (horder'.symm.trans ordered)
    rw [map_flatMap]
    refine congrArg (fun f => Except.ok (order'.flatMap f))
      (funext fun id => (events_stopsAt ?_).symm)
    rcases getD_of_traces hinner id with ⟨hnone, hnil⟩ | ⟨h, hsome, htrace⟩
    · rw [hnil, bare id hnone, map_nil]
    · exact (Except.ok.inj (ih id h hsome (hg.inside hsome) _ htrace)).symm

/-! ### What a tour passes -/

theorem mem_stopsAt : stop ∈ g.stopsAt inside id ↔
    ∃ node, g.node? id = some node ∧ ((stop.path = [] ∧ ∃ phase, stop.event = ⟨phase, node, g⟩) ∨
      ∃ s ∈ inside id, stop = s.below [id]) := by
  obtain ⟨path, event⟩ := stop
  cases hnode : g.node? id with
  | none => simp [stopsAt, hnode]
  | some node =>
    simp only [stopsAt_eq hnode, cons_append, mem_cons, mem_append, List.mem_map, not_mem_nil,
      or_false, TourStop.mk.injEq, some.injEq, exists_eq_left']
    constructor
    · rintro (⟨rfl, rfl⟩ | ⟨s, hs, hbelow⟩ | ⟨rfl, rfl⟩)
      · exact .inl ⟨rfl, _, rfl⟩
      · exact .inr ⟨s, hs, hbelow.symm⟩
      · exact .inl ⟨rfl, _, rfl⟩
    · rintro (⟨rfl, phase, rfl⟩ | ⟨s, hs, hbelow⟩)
      · cases phase with
        | enter => exact .inl ⟨rfl, rfl⟩
        | exit => exact .inr (.inr ⟨rfl, rfl⟩)
      · exact .inr (.inl ⟨s, hs, hbelow.symm⟩)

theorem mem_orderIn_iff (h : g.orderIn direction = .ok order) : id ∈ order ↔ id ∈ g.ids := by
  obtain ⟨forward, hforward, hperm⟩ := perm_of_orderIn h
  rw [hperm.mem_iff, mem_order_iff hforward]

theorem nodup_orderIn (hascending : g.ids.Pairwise (· < ·)) (h : g.orderIn direction = .ok order) :
    order.Nodup := by
  obtain ⟨forward, hforward, hperm⟩ := perm_of_orderIn h
  exact (hperm.trans (perm_order hforward)).nodup_iff.2 (hascending.imp Nat.ne_of_lt)

/-- **A tour passes every operator of every level**, entering and leaving it. -/
theorem Tour.mem_iff (hg : g.Numbered) (h : Tour direction g stops) :
    stop ∈ stops ↔ g.at? stop.path = some stop.event.graph ∧
      stop.event.node ∈ stop.event.graph.nodes := by
  induction h generalizing stop with
  | @intro g order inside ordered inner bare ih =>
    obtain ⟨path, phase, node, k⟩ := stop
    simp only [mem_flatMap, mem_stopsAt, mem_orderIn_iff ordered]
    constructor
    · rintro ⟨id, -, n, hnode, ⟨rfl, _, hevent⟩ | ⟨s, hs, hbelow⟩⟩
      · cases hevent
        exact ⟨rfl, mem_of_node? hnode⟩
      · obtain ⟨inner, event⟩ := s
        cases hbelow
        cases hid : g.inner? id with
        | none =>
          rw [bare id hid] at hs
          cases hs
        | some h =>
          rw [cons_append, at?, hid]
          exact (ih id h hid (hg.inside hid)).1 hs
    · rintro ⟨hpath, hmem⟩
      cases path with
      | nil =>
        obtain rfl : g = k := some.inj hpath
        have hnode := node?_of_mem hg.here hmem
        exact ⟨node.id, mem_ids_of_node? hnode, node, hnode, .inl ⟨rfl, phase, rfl⟩⟩
      | cons id path =>
        obtain ⟨h, hid, hpath⟩ := bind_eq_some_iff.1 hpath
        obtain ⟨n, -, hnode, -⟩ := inner?_eq_some_iff.1 hid
        have hinside : ⟨path, phase, node, k⟩ ∈ inside id :=
          (ih id h hid (hg.inside hid)).2 ⟨hpath, hmem⟩
        exact ⟨id, mem_ids_of_node? hnode, n, hnode, .inr ⟨_, hinside, rfl⟩⟩

theorem root_of_mem_stopsAt (h : stop ∈ g.stopsAt inside id) : stop.root = id := by
  obtain ⟨node, hnode, ⟨hpath, phase, hevent⟩ | ⟨s, -, rfl⟩⟩ := mem_stopsAt.1 h
  · rw [TourStop.root, hpath, hevent]
    exact id_eq_of_node? hnode
  · rfl

/-- **A tour makes no stop twice.** -/
theorem Tour.nodup (hg : g.Numbered) (h : Tour direction g stops) : stops.Nodup := by
  induction h with
  | @intro g order inside ordered inner bare ih =>
    rw [nodup_flatMap]
    constructor
    · intro id _
      have hinside : (inside id).Nodup := by
        cases hid : g.inner? id with
        | none =>
          rw [bare id hid]
          exact nodup_nil
        | some h => exact ih id h hid (hg.inside hid)
      have hbelow : ∀ event, (⟨[], event⟩ : TourStop) ∉ (inside id).map (TourStop.below [id]) := by
        intro event hmem
        obtain ⟨s, -, hs⟩ := List.mem_map.1 hmem
        cases hs
      cases hnode : g.node? id with
      | none => simp [stopsAt, hnode]
      | some node =>
        rw [stopsAt_eq hnode, cons_append, nodup_cons, mem_append, not_or]
        refine ⟨⟨hbelow _, by simp⟩,
          (hinside.map (TourStop.below_injective [id])).append (by simp) ?_⟩
        rw [disjoint_singleton]
        exact hbelow _
    · refine (nodup_orderIn hg.here ordered).imp fun {a b} hne => ?_
      intro stop ha hb
      exact hne ((root_of_mem_stopsAt ha).symm.trans (root_of_mem_stopsAt hb))

/-! ### Where stops are made -/

/-- The stops at and inside one operator stand together. -/
theorem Tour.split (inside : Nat → List TourStop) (hnode : g.node? id = some node)
    (hmem : id ∈ order) :
    ∃ before after, order.flatMap (g.stopsAt inside) = before ++ ⟨[], ⟨.enter, node, g⟩⟩ ::
      (inside id).map (TourStop.below [id]) ++ ⟨[], ⟨.exit, node, g⟩⟩ :: after := by
  obtain ⟨left, right, rfl⟩ := append_of_mem hmem
  refine ⟨left.flatMap (g.stopsAt inside), right.flatMap (g.stopsAt inside), ?_⟩
  rw [flatMap_append, flatMap_cons, stopsAt_eq hnode]
  simp only [List.append_assoc, cons_append, nil_append]

/-- The stops of a level, at whatever path, stand together. -/
theorem Tour.exists_level (h : Tour direction g stops) (hpath : g.at? path = some k) :
    ∃ before level after, Tour direction k level ∧
      stops = before ++ level.map (TourStop.below path) ++ after := by
  induction path generalizing g stops with
  | nil =>
    cases hpath
    refine ⟨[], stops, [], h, ?_⟩
    rw [nil_append, append_nil]
    exact (List.map_id stops).symm
  | cons id path ih =>
    obtain ⟨inner, hid, hpath⟩ := bind_eq_some_iff.1 hpath
    cases h with
    | @intro _ order inside ordered hinner bare =>
      obtain ⟨node, -, hnode, -⟩ := inner?_eq_some_iff.1 hid
      obtain ⟨before, after, hsplit⟩ :=
        Tour.split inside hnode ((mem_orderIn_iff ordered).2 (mem_ids_of_node? hnode))
      obtain ⟨before', level, after', htour, hlevel⟩ := ih (hinner id inner hid) hpath
      refine ⟨before ++ ⟨[], ⟨.enter, node, g⟩⟩ :: before'.map (TourStop.below [id]), level,
        after'.map (TourStop.below [id]) ++ ⟨[], ⟨.exit, node, g⟩⟩ :: after, htour, ?_⟩
      rw [hsplit, hlevel, map_append, map_append, TourStop.below_below]
      simp only [List.append_assoc, cons_append, nil_append]

/-- The stops of a level at and inside one operator, with all stops between its entry and its
exit. -/
theorem Tour.brackets (hg : g.Numbered) (h : Tour direction g stops) (hpath : g.at? path = some k)
    (hnode : k.node? id = some node) :
    ∃ before between after, stops = before ++ ⟨path, ⟨.enter, node, k⟩⟩ :: between ++
        ⟨path, ⟨.exit, node, k⟩⟩ :: after ∧
      (∀ stop, stop ∈ between ↔ stop ∈ stops ∧ path ++ [id] <+: stop.path) ∧
      ∀ inner, k.inner? id = some inner → inner.trace direction = .ok (between.map (·.event)) := by
  obtain ⟨before, level, after, hlevel, hstops⟩ := h.exists_level hpath
  have hk : k.Numbered := everywhere_iff_at?.2 fun path' m hpath' =>
    everywhere_iff_at?.1 hg (path ++ path') m (by rw [at?_append, hpath]; exact hpath')
  have hall (stop : TourStop) : stop ∈ stops ↔ _ := h.mem_iff hg
  cases hlevel with
  | @intro _ order inside ordered inner bare =>
    obtain ⟨left, right, hsplit⟩ :=
      Tour.split inside hnode ((mem_orderIn_iff ordered).2 (mem_ids_of_node? hnode))
    refine ⟨before ++ left.map (TourStop.below path),
      (inside id).map (TourStop.below (path ++ [id])), right.map (TourStop.below path) ++ after, ?_,
      fun stop => ?_, fun m hm => ?_⟩
    · rw [hstops, hsplit]
      simp only [map_append, map_cons, TourStop.below_below, List.append_assoc, cons_append]
      simp only [TourStop.below, append_nil]
    · rw [hall, List.mem_map]
      obtain ⟨stopPath, event⟩ := stop
      constructor
      · rintro ⟨⟨sPath, sEvent⟩, hs, hbelow⟩
        cases hbelow
        cases hid : k.inner? id with
        | none =>
          rw [bare id hid] at hs
          cases hs
        | some m =>
          refine ⟨?_, prefix_append _ _⟩
          rw [List.append_assoc, at?_append, hpath, bind_some, singleton_append, at?, hid]
          exact ((inner id m hid).mem_iff (hk.inside hid)).1 hs
      · rintro ⟨⟨hat, hmem⟩, rest, hrest⟩
        obtain rfl : path ++ [id] ++ rest = stopPath := hrest
        rw [List.append_assoc, at?_append, hpath, bind_some, singleton_append, at?] at hat
        obtain ⟨m, hid, hat⟩ := bind_eq_some_iff.1 hat
        exact ⟨⟨rest, event⟩, ((inner id m hid).mem_iff (hk.inside hid)).2 ⟨hat, hmem⟩, rfl⟩
    · rw [TourStop.events_below]
      exact (inner id m hm).trace (hk.inside hm)

/-- **A consumer is entered after its producers are left**, in a tour along the order. -/
theorem Tour.exit_before_enter (h : Tour .forward g stops) (hpath : g.at? path = some k)
    {e : Edge} (he : e ∈ k.edges) {source target : Node Operator}
    (hsource : k.node? e.source = some source) (htarget : k.node? e.target = some target) :
    ∃ before between after, stops = before ++ ⟨path, ⟨.exit, source, k⟩⟩ :: between ++
      ⟨path, ⟨.enter, target, k⟩⟩ :: after := by
  obtain ⟨before, level, after, hlevel, hstops⟩ := h.exists_level hpath
  cases hlevel with
  | @intro _ order inside ordered inner bare =>
    have horder : k.order = .ok order := ordered
    obtain ⟨left, right, hsplit⟩ :=
      append_of_mem ((mem_order_iff horder).2 (mem_ids_of_node? htarget))
    have hbefore : e.source ∈ left :=
      source_mem_of_order horder hsplit (mem_producers.2 ⟨e, he, rfl, rfl⟩)
        (mem_ids_of_node? hsource)
    obtain ⟨left, middle, rfl⟩ := append_of_mem hbefore
    have hexit : ∃ before, k.stopsAt inside e.source = before ++ [⟨[], ⟨.exit, source, k⟩⟩] :=
      ⟨_, stopsAt_eq hsource⟩
    have henter : ∃ after, k.stopsAt inside e.target = ⟨[], ⟨.enter, target, k⟩⟩ :: after :=
      ⟨_, stopsAt_eq htarget⟩
    obtain ⟨first, hfirst⟩ := hexit
    obtain ⟨last, hlast⟩ := henter
    refine ⟨before ++ (left.flatMap (k.stopsAt inside) ++ first).map (TourStop.below path),
      (middle.flatMap (k.stopsAt inside)).map (TourStop.below path),
      (last ++ right.flatMap (k.stopsAt inside)).map (TourStop.below path) ++ after, ?_⟩
    rw [hstops, hsplit]
    simp only [flatMap_append, flatMap_cons, hfirst, hlast, map_append, map_cons, List.append_assoc,
      cons_append, nil_append]
    simp only [TourStop.below, append_nil]

/-! ### Both directions -/

/-- Events read backwards, with entries and exits exchanged. -/
def mirrored (events : List Event) : List Event := (events.map Event.swap).reverse

theorem mirrored_append (xs ys : List Event) :
    mirrored (xs ++ ys) = mirrored ys ++ mirrored xs := by
  rw [mirrored, map_append, reverse_append]
  rfl

theorem eventsAt_mirrored (g : Dag) (inner : Table (List Event)) (id : Nat) :
    g.eventsAt (inner.map fun e => (e.1, mirrored e.2)) id = mirrored (g.eventsAt inner id) := by
  cases hnode : g.node? id with
  | none =>
    unfold eventsAt
    rw [hnode]
    rfl
  | some node =>
    rw [eventsAt_eq hnode, eventsAt_eq hnode, mirrored_append, mirrored_append,
      Table.get?_map, List.append_assoc]
    cases inner.get? id with
    | none | some => rfl

theorem flatMap_mirrored (f : Nat → List Event) (order : List Nat) :
    order.reverse.flatMap (fun id => mirrored (f id)) = mirrored (order.flatMap f) := by
  induction order with
  | nil => rfl
  | cons id order ih =>
    rw [reverse_cons, flatMap_append, ih, flatMap_singleton, flatMap_cons, mirrored_append]

theorem mapM_mirrored (t : Table (Outcome (List Event))) :
    (t.map fun e => (e.1, mirrored <$> e.2)).mapM (fun (n, x) => return (n, ← x)) =
      (fun inner : Table (List Event) => inner.map fun e => (e.1, mirrored e.2)) <$>
        (t.mapM (fun (n, x) => return (n, ← x)) : Outcome (Table (List Event))) := by
  induction t with
  | nil => rfl
  | cons e t ih =>
    obtain ⟨n, x⟩ := e
    rw [map_cons, mapM_cons, mapM_cons, ih]
    cases x with
    | error failure => rfl
    | ok events =>
      cases t.mapM (fun (n, x) => return (n, ← x) : Nat × Outcome (List Event) → Outcome _) with
      | error | ok => rfl

/-- **The traversal against the order is the other one backwards**, with entries and exits
exchanged. -/
theorem trace_backward (g : Dag) : g.trace .backward = mirrored <$> g.trace .forward := by
  induction g using Graph.induction with
  | step g ih =>
    have hinner : (g.inner.map fun e => (e.1, e.2.trace .backward)) =
        (g.inner.map fun e => (e.1, e.2.trace .forward)).map fun e => (e.1, mirrored <$> e.2) := by
      rw [List.map_map]
      exact map_congr_left fun e he => congrArg (Prod.mk e.1) (ih e he)
    rw [trace_eq, trace_eq, hinner, mapM_mirrored, orderIn, orderIn]
    cases g.order with
    | error failure => rfl
    | ok order =>
      cases (g.inner.map fun e => (e.1, e.2.trace .forward)).mapM
          (fun (n, x) => return (n, ← x) : Nat × Outcome (List Event) → Outcome _) with
      | error failure => rfl
      | ok inner =>
        show Except.ok (order.reverse.flatMap (g.eventsAt _)) =
          Except.ok (mirrored (order.flatMap _))
        rw [← flatMap_mirrored]
        exact congrArg (fun f => Except.ok (order.reverse.flatMap f))
          (funext (eventsAt_mirrored g inner))

/-! ### Cycles -/

theorem trace_eq_error (h : g.trace direction = .error failure) :
    ∃ fault, failure = .cyclicGraph fault := by
  induction g using Graph.induction with
  | step g ih =>
    rw [trace_eq] at h
    cases horder : g.orderIn direction with
    | error other =>
      rw [horder, error_bind] at h
      cases h
      cases direction with
      | forward => exact order_eq_error horder
      | backward =>
        cases hforward : g.order with
        | ok order =>
          rw [orderIn, hforward] at horder
          cases horder
        | error other =>
          rw [orderIn, hforward] at horder
          cases horder
          exact order_eq_error hforward
    | ok order =>
      rw [horder, ok_bind] at h
      cases hinner : (g.inner.map fun e => (e.1, e.2.trace direction)).mapM
          (fun (id, events) => return (id, ← events) : Nat × Outcome (List Event) → Outcome _) with
      | ok inner =>
        rw [hinner] at h
        cases h
      | error other =>
        rw [hinner, error_bind] at h
        cases h
        obtain ⟨entry, hentry, hfails⟩ := mem_of_mapM_eq_error hinner
        obtain ⟨e, he, rfl⟩ := List.mem_map.1 hentry
        refine ih e he ?_
        cases htrace : e.2.trace direction with
        | ok events =>
          simp only [htrace] at hfails
          cases hfails
        | error other =>
          simp only [htrace] at hfails
          cases hfails
          rfl

/-- **A traversal is refused exactly if some level has a cycle**, and says so. -/
theorem trace_of_cyclic (hg : g.Numbered) (hpath : g.at? path = some k) (hcyclic : k.Cyclic)
    (direction : Direction) : ∃ fault, g.trace direction = .error (.cyclicGraph fault) := by
  cases htrace : g.trace direction with
  | error failure =>
    obtain ⟨fault, rfl⟩ := trace_eq_error htrace
    exact ⟨fault, rfl⟩
  | ok events =>
    obtain ⟨stops, htour, -⟩ := tour_of_trace hg htrace
    exact absurd hcyclic (exists_order_iff.1 (everywhere_iff_at?.1 htour.orders path k hpath))

theorem exists_tour (hg : g.Numbered) (hacyclic : ∀ path k, g.at? path = some k → ¬k.Cyclic)
    (direction : Direction) : ∃ stops, Tour direction g stops := by
  have horders : g.Everywhere fun k => ∃ order, k.order = .ok order :=
    everywhere_iff_at?.2 fun path k hpath => exists_order_iff.2 (hacyclic path k hpath)
  obtain ⟨events, htrace⟩ := exists_trace_of_orders hg horders direction
  obtain ⟨stops, htour, -⟩ := tour_of_trace hg htrace
  exact ⟨stops, htour⟩

end Graph

/-! ### Acting on events -/

section

variable {σ : Type} {visit : Event → ExceptT Failure (StateM σ) Unit} {events : List Event}

/-- An action that also notes the events that it is called for. -/
def observed (visit : Event → ExceptT Failure (StateM σ) Unit) (event : Event) :
    ExceptT Failure (StateM (List Event × σ)) Unit :=
  ExceptT.mk fun (seen, s) =>
    let (result, t) := (visit event).run.run s
    (result, (seen ++ [event], t))

theorem run_forM_cons (visit : Event → ExceptT Failure (StateM σ) Unit) (event : Event)
    (events : List Event) (s : σ) :
    ((event :: events).forM visit).run.run s = match (visit event).run.run s with
      | (.ok (), t) => (events.forM visit).run.run t
      | (.error failure, t) => (.error failure, t) := by
  show (visit event >>= fun _ => events.forM visit).run.run s = _
  rw [ExceptT.run_bind, StateT.run_bind]
  show (match ((visit event).run.run s) with | (a, t) => _) = _
  rcases (visit event).run.run s with ⟨_ | _, t⟩ <;> rfl

theorem run_observed (event : Event) (seen : List Event) (s : σ) :
    (observed visit event).run.run (seen, s) =
      (((visit event).run.run s).1, seen ++ [event], ((visit event).run.run s).2) :=
  rfl

/-- Actions that succeed note all events. -/
theorem run_forM_observed {s t : σ} (h : (events.forM visit).run.run s = (.ok (), t))
    (seen : List Event) :
    (events.forM (observed visit)).run.run (seen, s) = (.ok (), seen ++ events, t) := by
  induction events generalizing s seen with
  | nil =>
    cases h
    rw [append_nil]
    rfl
  | cons event events ih =>
    rw [run_forM_cons] at h
    rw [run_forM_cons, run_observed]
    rcases hvisit : (visit event).run.run s with ⟨_ | _, s'⟩
    · rw [hvisit] at h
      cases h
    · rw [hvisit] at h
      exact (ih h (seen ++ [event])).trans (by rw [List.append_assoc]; rfl)

/-- The first action that fails ends the walk; its event is the last one that is noted. -/
theorem run_forM_fails {before after : List Event} {event : Event} {s t t' : σ}
    (hbefore : (before.forM visit).run.run s = (.ok (), t))
    (hfails : (visit event).run.run t = (.error failure, t')) (seen : List Event) :
    ((before ++ event :: after).forM (observed visit)).run.run (seen, s) =
      (.error failure, seen ++ before ++ [event], t') := by
  induction before generalizing s seen with
  | nil =>
    cases hbefore
    rw [nil_append, run_forM_cons, run_observed, hfails, append_nil]
  | cons first before ih =>
    rw [run_forM_cons] at hbefore
    rw [cons_append, run_forM_cons, run_observed]
    rcases hvisit : (visit first).run.run s with ⟨_ | _, s'⟩
    · rw [hvisit] at hbefore
      cases hbefore
    · rw [hvisit] at hbefore
      exact (ih hbefore (seen ++ [first])).trans (by simp)

theorem exists_run_forM (hvisit : ∀ event s, ((visit event).run.run s).1 = .ok ())
    (events : List Event) (s : σ) : ∃ t, (events.forM visit).run.run s = (.ok (), t) := by
  induction events generalizing s with
  | nil => exact ⟨s, rfl⟩
  | cons event events ih =>
    rw [run_forM_cons]
    have hfirst := hvisit event s
    rcases hrun : (visit event).run.run s with ⟨_ | _, s'⟩
    · rw [hrun] at hfirst
      cases hfirst
    · exact ih s'

end

/-! ### Walks -/

/-- Outcomes that are only checked come out as the values do. -/
theorem Table.forM_eq_mapM {α β : Type} {t : Table α} {check : α → Outcome Unit}
    {f : α → Outcome β} (h : ∀ e ∈ t, check e.2 = (fun _ => ()) <$> f e.2) :
    (t.map fun e => (e.1, check e.2)).forM (·.2) =
      (fun _ => ()) <$> (t.map fun e => (e.1, f e.2)).mapM fun (n, x) => return (n, ← x) := by
  induction t with
  | nil => rfl
  | cons e t ih =>
    obtain ⟨he, hrest⟩ := forall_mem_cons.1 h
    show (do check e.2; (t.map fun (e : Nat × α) => (e.1, check e.2)).forM (·.2)) = _
    rw [map_cons, mapM_cons, he, ih hrest]
    simp only [← bind_pure_comp, LawfulMonad.bind_assoc, LawfulMonad.pure_bind]

namespace Graph

variable {g : Dag} {direction : Direction} {inner : Table (List Event)}

/-- The check before a traversal: every graph that it goes through has an order. -/
def checkAcyclic (recursive : Bool) : Dag → Outcome Unit :=
  fold fun g inner => do
    let _ ← g.order
    if recursive then inner.forM (·.2)

theorem checkAcyclic_eq (recursive : Bool) (direction : Direction) (g : Dag) :
    g.checkAcyclic recursive = (fun _ => ()) <$>
      if recursive then g.trace direction else g.level direction := by
  induction g using Graph.induction with
  | step g ih =>
    have horder : ∀ {α : Type} (next : List Nat → Outcome α) (rest : Outcome Unit),
        (∀ order, rest = (fun _ => ()) <$> next order) →
        (do let _ ← g.order; rest) = (fun _ => ()) <$> (g.orderIn direction >>= next) := by
      intro α next rest h
      cases direction <;> rw [orderIn] <;> cases g.order <;> first | rfl | exact h _
    rw [checkAcyclic, fold_eq]
    cases recursive with
    | false => exact horder _ _ fun _ => rfl
    | true =>
      rw [if_pos rfl, if_pos rfl, trace_eq]
      refine horder _ _ fun order => (Table.forM_eq_mapM ih).trans ?_
      rw [← bind_pure_comp, ← bind_pure_comp, LawfulMonad.bind_assoc]
      rfl

variable {m : Type → Type} [Monad m]

/-- Acting on one operator, around what is done inside it. -/
def visitAt (visit : Event → ExceptT Failure m Unit) (g : Dag)
    (inside : Nat → ExceptT Failure m Unit) (id : Nat) : ExceptT Failure m Unit := do
  let node ← lift (g.get id)
  visit ⟨.enter, node, g⟩
  inside id
  visit ⟨.exit, node, g⟩

/-- Acting on operators as a traversal comes to them: each is entered, and left after all inside it
were. -/
def walk (direction : Direction) (recursive : Bool) (visit : Event → ExceptT Failure m Unit) :
    Dag → ExceptT Failure m Unit :=
  fold fun g inner => do
    let order ← lift (g.orderIn direction)
    order.forM (visitAt visit g
      fun id => (if recursive then inner.get? id else none).getD (pure ()))

variable [LawfulMonad m] {recursive : Bool} {visit : Event → ExceptT Failure m Unit}

theorem lift_ok_bind {α β : Type} (a : α) (f : α → ExceptT Failure m β) :
    (lift (.ok a) >>= f) = f a := pure_bind a f

theorem lift_error_bind {α β : Type} (failure : Failure) (f : α → ExceptT Failure m β) :
    (lift (.error failure) >>= f) = lift (.error failure) :=
  pure_bind (.error failure : Outcome α) _

theorem forM_visitAt {order : List Nat} {inside : Nat → ExceptT Failure m Unit}
    (hnodes : ∀ id ∈ order, id ∈ g.ids)
    (hinside : ∀ id, inside id = ((inner.get? id).getD []).forM visit) :
    order.forM (visitAt visit g inside) = (order.flatMap (g.eventsAt inner)).forM visit := by
  induction order with
  | nil => rfl
  | cons id order ih =>
    obtain ⟨hid, hrest⟩ := forall_mem_cons.1 hnodes
    obtain ⟨node, hnode⟩ := node?_of_mem_ids hid
    have hget : g.get id = .ok node := ofOption_eq_ok_iff.2 hnode
    show (do visitAt visit g inside id; order.forM (visitAt visit g inside)) = _
    rw [ih hrest, visitAt, hget, lift_ok_bind, hinside, flatMap_cons, eventsAt_eq hnode]
    simp [List.forM_eq_forM]

omit [LawfulMonad m] in
theorem walk_eq (g : Dag) (hascending : g.ids.Pairwise (· < ·)) :
    g.walk direction recursive visit = (do
      let order ← lift (g.orderIn direction)
      order.forM (visitAt visit g fun id => (if recursive then
        (g.inner? id).map (walk direction recursive visit) else none).getD (pure ()))) := by
  rw [walk, fold_eq]
  simp only [Table.get?_map, get?_inner_eq hascending]

/-- **A walk acts on the events of the traversal.** -/
theorem walk_of_events (hg : g.Numbered)
    (h : (if recursive then g.trace direction else g.level direction) = .ok events) :
    g.walk direction recursive visit = events.forM visit := by
  induction g using levelInduction generalizing events with
  | step g ih =>
    rw [walk_eq g hg.here]
    cases recursive with
    | false =>
      obtain ⟨order, horder, hevents⟩ := bind_eq_ok_iff.1 h
      cases hevents
      rw [horder, lift_ok_bind]
      exact forM_visitAt (fun id hid => (mem_orderIn_iff horder).1 hid) fun _ => rfl
    | true =>
      obtain ⟨order, inner, horder, rfl, hinner⟩ := trace_eq_ok hg.here h
      rw [horder, lift_ok_bind]
      refine forM_visitAt (fun id hid => (mem_orderIn_iff horder).1 hid) fun id => ?_
      rcases getD_of_traces hinner id with ⟨hnone, hnil⟩ | ⟨inside, hinside, htrace⟩
      · rw [if_pos rfl, hnone, hnil]
        rfl
      · rw [if_pos rfl, hinside]
        exact ih id inside hinside (hg.inside hinside) htrace

/-- **A traversal checks for cycles and then walks.** -/
theorem traverse_eq_walk (hg : g.Numbered) (direction : Direction) (recursive : Bool)
    (visit : Event → ExceptT Failure m Unit) : g.traverse direction recursive visit = (do
      lift (g.checkAcyclic recursive)
      g.walk direction recursive visit) := by
  rw [traverse, checkAcyclic_eq recursive direction]
  cases h : if recursive then g.trace direction else g.level direction with
  | error failure =>
    rw [lift_error_bind]
    exact (lift_error_bind failure fun _ => g.walk direction recursive visit).symm
  | ok events =>
    rw [lift_ok_bind, ← walk_of_events hg h]
    exact (lift_ok_bind () fun _ => g.walk direction recursive visit).symm

end Graph

/-! ### Whole traversals -/

namespace Graph

variable {g : Dag} {direction : Direction} {stops : List TourStop}

/-- What the stops of a traversal are like: an operator is passed at every path to its level, once
in each phase; the stops inside it are those between its entry and its exit, and make up the
traversal of the graph inside it; and along the order, producers are left before their consumers are
entered. -/
structure Visits (direction : Direction) (g : Dag) (stops : List TourStop) : Prop where
  trace : g.trace direction = .ok (stops.map (·.event))
  mem_iff : ∀ stop, stop ∈ stops ↔ g.at? stop.path = some stop.event.graph ∧
    stop.event.node ∈ stop.event.graph.nodes
  once : stops.Nodup
  brackets : ∀ path h id node, g.at? path = some h → h.node? id = some node →
    ∃ before between after, stops = before ++ ⟨path, ⟨.enter, node, h⟩⟩ :: between ++
        ⟨path, ⟨.exit, node, h⟩⟩ :: after ∧
      (∀ stop, stop ∈ between ↔ stop ∈ stops ∧ path ++ [id] <+: stop.path) ∧
      ∀ inner, h.inner? id = some inner → inner.trace direction = .ok (between.map (·.event))
  ordered : direction = .forward → ∀ path h, g.at? path = some h → ∀ e ∈ h.edges, ∀ source target,
    h.node? e.source = some source → h.node? e.target = some target →
    ∃ before between after, stops = before ++ ⟨path, ⟨.exit, source, h⟩⟩ :: between ++
      ⟨path, ⟨.enter, target, h⟩⟩ :: after

theorem Tour.visits (hg : g.Numbered) (h : Tour direction g stops) : Visits direction g stops where
  trace := h.trace hg
  mem_iff := fun _ => h.mem_iff hg
  once := h.nodup hg
  brackets := fun _ _ _ _ hpath hnode => h.brackets hg hpath hnode
  ordered := by
    rintro rfl path k hpath e he source target hsource htarget
    exact h.exit_before_enter hpath he hsource htarget

/-- **What a recursive traversal does.**  If a level at any path has a cycle, it fails for that, and
no action is called.  Otherwise its stops are as they should be: actions that never fail are called
for their events, in order, and if the action for one of them is the first to fail, the events up to
that one are all that actions are called for, and the failure is returned.  The traversal against
the order is the one along it, backwards. -/
theorem traverse_recursive {σ : Type} (hg : g.Numbered) (direction : Direction)
    (visit : Event → ExceptT Failure (StateM σ) Unit) (s : σ) :
    ((∃ path h, g.at? path = some h ∧ h.Cyclic) → ∃ fault,
      (g.traverse direction true (observed visit)).run.run ([], s) =
      (.error (.cyclicGraph fault), [], s)) ∧
    ((∀ path h, g.at? path = some h → ¬h.Cyclic) → ∃ stops, Visits direction g stops ∧
      ((∀ event t, ((visit event).run.run t).1 = .ok ()) → ∃ t,
        (g.traverse direction true (observed visit)).run.run ([], s) =
        (.ok (), stops.map (·.event), t)) ∧
      ∀ k event t t' failure, (stops.map (·.event))[k]? = some event →
        (((stops.map (·.event)).take k).forM visit).run.run s = (.ok (), t) →
        (visit event).run.run t = (.error failure, t') →
        (g.traverse direction true (observed visit)).run.run ([], s) =
          (.error failure, (stops.map (·.event)).take (k + 1), t')) ∧
    g.trace .backward = mirrored <$> g.trace .forward := by
  refine ⟨?_, fun hacyclic => ?_, trace_backward g⟩
  · rintro ⟨path, h, hpath, hcyclic⟩
    obtain ⟨fault, htrace⟩ := trace_of_cyclic hg hpath hcyclic direction
    refine ⟨fault, ?_⟩
    rw [traverse, if_pos rfl, htrace]
    rfl
  · obtain ⟨stops, htour⟩ := exists_tour hg hacyclic direction
    have hrun : g.traverse direction true (observed visit) =
        (stops.map (·.event)).forM (observed visit) := by
      rw [traverse, if_pos rfl, htour.trace hg, lift_ok_bind]
    rw [hrun]
    refine ⟨stops, htour.visits hg, fun hvisit => ?_,
      fun k event t t' failure hevent hbefore hfails => ?_⟩
    · obtain ⟨t, ht⟩ := exists_run_forM hvisit (stops.map (·.event)) s
      exact ⟨t, run_forM_observed ht []⟩
    · obtain ⟨hlt, hget⟩ := List.getElem?_eq_some_iff.1 hevent
      have hsplit : stops.map (·.event) =
          (stops.map (·.event)).take k ++ event :: (stops.map (·.event)).drop (k + 1) := by
        rw [← hget, getElem_cons_drop, take_append_drop]
      rw [hsplit, run_forM_fails hbefore hfails, nil_append, ← hsplit, ← hget, take_append_getElem]

/-- The first field of the input, selected twice, in a pipeline; the two projections are joined by
the edge from the first to the second one and by some more. -/
def selectTwice (more : List Edge) : Dag where
  nodes := [⟨0, .primitive (.parameterLookup 0 none), {}⟩, ⟨1, .primitive (.projection [0]), {}⟩,
    ⟨2, .primitive (.projection [0]), {}⟩]
  edges := [⟨0, 0, 1, 0⟩, ⟨1, 0, 2, 0⟩] ++ more
  sink := some 2

/-- A range, whose numbers go through such a pipeline. -/
def rangeSelected (more : List Edge) : Dag where
  nodes := [⟨0, .pipeline 1 (selectTwice more), {}⟩, ⟨3, .primitive (.range ⟨0, 10, 2⟩), {}⟩]
  edges := [⟨3, 0, 0, 0⟩]
  sink := some 0

theorem everywhere_rangeSelected {more : List Edge} (hhere : P (rangeSelected more))
    (hinside : P (selectTwice more)) : (rangeSelected more).Everywhere P :=
  everywhere_of_inner hhere (forall_mem_singleton.2 (everywhere_of_inner hinside nofun))

/-- The traversal of such a graph, and its failure if an edge leads back inside the pipeline. -/
theorem rangeSelected_traverse :
    ((rangeSelected []).Numbered ∧ ∃ stops, Visits .forward (rangeSelected []) stops ∧
      stops.map (fun stop => (stop.event.phase, stop.event.node.name)) =
        [(.enter, "range_3"), (.exit, "range_3"), (.enter, "pipeline_0"),
          (.enter, "parameter_lookup_0"), (.exit, "parameter_lookup_0"), (.enter, "projection_1"),
          (.exit, "projection_1"), (.enter, "projection_2"), (.exit, "projection_2"),
          (.exit, "pipeline_0")]) ∧
    (rangeSelected [⟨2, 0, 1, 0⟩]).Numbered ∧ ∃ fault,
      ((rangeSelected [⟨2, 0, 1, 0⟩]).traverse .forward true (observed fun _ => pure ())).run.run
        ([], ()) = (.error (.cyclicGraph fault), [], ()) := by
  have hnumbered : ∀ more, (rangeSelected more).Numbered := fun more =>
    everywhere_rangeSelected (by simp [ids, rangeSelected]) (by simp [ids, selectTwice])
  have hacyclic : (rangeSelected []).Everywhere fun h => ¬h.Cyclic :=
    everywhere_rangeSelected (exists_order_iff.1 ⟨[3, 0], by cbv⟩)
      (exists_order_iff.1 ⟨[0, 1, 2], by cbv⟩)
  have hcyclic : (selectTwice [⟨2, 0, 1, 0⟩]).Cyclic :=
    ⟨1, .tail (.single ⟨⟨1, 0, 2, 0⟩, by decide, rfl, rfl⟩) ⟨⟨2, 0, 1, 0⟩, by decide, rfl, rfl⟩⟩
  refine ⟨⟨hnumbered [], ?_⟩, hnumbered _, ?_⟩
  · obtain ⟨stops, hvisits, -⟩ :=
      (traverse_recursive (hnumbered []) .forward (fun _ => pure ()) ()).2.1
        (everywhere_iff_at?.1 hacyclic)
    have hnames : (fun events : List Event => events.map fun event => (event.phase,
      event.node.name)) <$>
        (rangeSelected []).trace .forward = .ok
          [(.enter, "range_3"), (.exit, "range_3"), (.enter, "pipeline_0"),
          (.enter, "parameter_lookup_0"),
            (.exit, "parameter_lookup_0"), (.enter, "projection_1"), (.exit, "projection_1"),
            (.enter, "projection_2"), (.exit, "projection_2"), (.exit, "pipeline_0")] := by
      cbv
    rw [hvisits.trace] at hnames
    exact ⟨stops, hvisits, List.map_map.symm.trans (Except.ok.inj hnames)⟩
  · exact (traverse_recursive (hnumbered _) .forward (fun _ => pure ()) ()).1 ⟨[0], _, rfl, hcyclic⟩

end Graph

end Dataflow
