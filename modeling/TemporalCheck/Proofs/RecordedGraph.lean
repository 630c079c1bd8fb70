import Mathlib.Data.Set.Card
import TemporalCheck.Proofs.Frame
import TemporalCheck.Proofs.SearchRun
import TemporalCheck.Proofs.Sequence

namespace TemporalCheck

namespace Search

open Relation StateTable

variable {W S : Type} {p : Program W S} {valid : W → Prop} {b : Behaviour S} {f : Formula}
  {x x' x'' : Search W S} {id : Nat} {n : ProductNode} {g : NodeFacts → NodeFacts}
  {log log' : List LogEvent}

def core (x : Search W S) : StateTable ProductNode NodeFacts × List Nat × Nat :=
  (x.nodes, x.path, x.visitedNodes)

theorem blind_core : Blind (core : Search W S → _) := ⟨fun _ _ => rfl, fun _ _ => rfl⟩

/-- All of a search but its automata. -/
def books (x : Search W S) : StateSpace W S → PropertyAutomaton → Search W S :=
  fun space property => { x with space := space, property := property }

theorem blind_books : Blind (books : Search W S → _) := ⟨fun _ _ => rfl, fun _ _ => rfl⟩

theorem exists_of_books (h : x'.books = x.books) :
    ∃ space property, x' = { x with space := space, property := property } :=
  ⟨x'.space, x'.property, congrFun (congrFun h x'.space) x'.property⟩

/-- The way of the outer search: its path, how many nodes it has entered, and which ones. -/
def trail (x : Search W S) : List Nat × Nat × (Nat → Bool) :=
  (x.path, x.visitedNodes, fun id => (x.marks.facts id).outer)

theorem facts_of_nodes (h : x'.nodes = x.nodes) : x'.marks.facts = x.marks.facts := by
  simp only [marks, h]

theorem edge_congr {m m' : Marks} (h : ∀ i, (m'.facts i).successors = (m.facts i).successors) :
    m'.Edge = m.Edge := by
  funext i j
  simp only [Marks.Edge, h]

/-- `x'` has recorded more than `x`: what is newly stored was reached from what was there. -/
structure Extends (x x' : Search W S) : Prop where
  get : ∀ id n, x.nodes.get? id = some n → x'.nodes.get? id = some n
  edge : ∀ i j, x.marks.Edge i j → x'.marks.Edge i j
  reached : ∀ j, j < x'.nodes.size → ∃ i, i < x.nodes.size ∧ ReflTransGen x'.marks.Edge i j

namespace Extends

theorem trans (h : Extends x x') (h' : Extends x' x'') : Extends x x'' := by
  refine ⟨fun id n hn => h'.get id n (h.get id n hn), fun i j hij => h'.edge i j (h.edge i j hij),
    fun j hj => ?_⟩
  obtain ⟨k, hk, hkj⟩ := h'.reached j hj
  obtain ⟨i, hi, hik⟩ := h.reached k hk
  exact ⟨i, hi, (ReflTransGen.mono h'.edge _ _ hik).trans hkj⟩

theorem of_edge (hget : x'.nodes.get? = x.nodes.get?) (hedge : x'.marks.Edge = x.marks.Edge) :
    Extends x x' := by
  refine ⟨fun id n hn => hget ▸ hn, fun i j hij => hedge ▸ hij, fun j hj => ⟨j, ?_, .refl⟩⟩
  rw [← get?_isSome_iff] at hj ⊢
  rwa [hget] at hj

theorem of_core (h : x'.core = x.core) : Extends x x' := by
  obtain ⟨hnodes, -⟩ := Prod.mk.inj h
  exact of_edge (by rw [hnodes]) (edge_congr fun i => by rw [facts_of_nodes hnodes])

end Extends

theorem Extends.mark (hnodes : x'.nodes = x.nodes.modifyInfo id g)
    (hg : ∀ f, (g f).successors = f.successors) : Extends x x' := by
  refine .of_edge ?_ (edge_congr fun i => ?_)
  · funext j
    rw [hnodes, get?_modifyInfo]
  · rw [facts_of_nodes (show x'.nodes = ({ x with nodes := x.nodes.modifyInfo id g } :
      Search W S).nodes from hnodes)]
    exact marks_note_congr NodeFacts.successors hg x id i

theorem outer_mark (hnodes : x'.nodes = x.nodes.modifyInfo id g) (hg : ∀ f, (g f).outer = f.outer)
    (j : Nat) : (x'.marks.facts j).outer = (x.marks.facts j).outer := by
  rw [facts_of_nodes (show x'.nodes = ({ x with nodes := x.nodes.modifyInfo id g } :
    Search W S).nodes from hnodes)]
  exact marks_note_congr NodeFacts.outer hg x id j

section

variable [DecidableEq S] [HasDigest S]

/-- An ample set gives successors, and none of them closes a cycle. -/
theorem reducedSuccessors_clear {nodes : List ProductNode}
    (hok : reducedSuccessors p n ⟨x, log⟩ = .ok (some nodes) ⟨x', log'⟩) :
    nodes ≠ [] ∧ ∀ m ∈ nodes, x.closesCycle m = false := by
  have hx : x'.core = x.core := (blind_core.unmoved.reducedSuccessors n).ok hok
  have hcloses : x'.closesCycle = x.closesCycle := by
    funext m
    simp only [closesCycle, (Prod.mk.inj hx).1]
  simp only [reducedSuccessors, Task.bind_eq_ok, Task.read_eq_ok] at hok
  obtain ⟨_, _, ⟨rfl, rfl⟩, hok⟩ := hok
  split at hok
  · simp only [Task.bind_eq_ok] at hok
    obtain ⟨set, _, -, hok⟩ := hok
    cases set with
    | none =>
        obtain ⟨hnone, -⟩ := Task.pure_eq_ok.1 hok
        cases hnone
    | some ids =>
        simp only [Task.bind_eq_ok, Task.read_eq_ok, Task.pure_eq_ok] at hok
        obtain ⟨next, _, -, _, _, ⟨rfl, rfl⟩, hsome, rfl⟩ := hok
        split at hsome
        · cases hsome
        · rename_i hkeep
          cases hsome
          rw [hcloses] at hkeep
          simpa using hkeep
  · obtain ⟨hnone, -⟩ := Task.pure_eq_ok.1 hok
    cases hnone

/-- Expanding a node finds its successors recorded, or stores and records them. -/
theorem expand_cases {ids : List Nat} (hok : expand p id ⟨x, log⟩ = .ok ids ⟨x', log'⟩) :
    ((x.marks.facts id).successors = some ids ∧ x' = x) ∨
      (x.marks.facts id).successors = none ∧ (∃ n, x.nodes.get? id = some n) ∧
      ∃ nodes reduced space property count,
        ids = (x.nodes.insertAll nodes).1 ∧
        (reduced = true → nodes ≠ [] ∧ ∀ m ∈ nodes, x.closesCycle m = false) ∧
        x' = { x with
          space := space
          property := property
          nodes := (x.nodes.insertAll nodes).2.modifyInfo id fun facts =>
            { facts with reduced := some reduced, successors := some (x.nodes.insertAll nodes).1 }
          reducedNodes := count } := by
  simp only [expand, Task.bind_eq_ok, facts_eq_ok] at hok
  obtain ⟨facts, _, ⟨hfacts, rfl⟩, hok⟩ := hok
  cases hknown : facts.successors with
  | some known =>
      simp only [hknown, Task.pure_eq_ok, Logged.mk.injEq] at hok
      obtain ⟨rfl, rfl, -⟩ := hok
      exact .inl ⟨by rw [facts_marks hfacts, hknown], rfl⟩
  | none =>
      simp only [hknown, Task.bind_eq_ok, node_eq_ok] at hok
      obtain ⟨n, _, ⟨hn, rfl⟩, reduced, ⟨y, ylog⟩, hreduced, hok⟩ := hok
      obtain ⟨space, property, rfl⟩ : ∃ space property,
          y = { x with space := space, property := property } :=
        exists_of_books ((blind_books.unmoved.reducedSuccessors n).ok hreduced)
      refine .inr ⟨by rw [facts_marks hfacts, hknown], ⟨n, hn⟩, ?_⟩
      cases reduced with
      | some nodes =>
          simp only [Task.bind_eq_ok, Task.change_eq_ok, Task.pure_eq_ok, store_eq_ok,
            note_eq_ok] at hok
          obtain ⟨_, _, rfl, _, _, ⟨rfl, rfl⟩, _, _, ⟨rfl, rfl⟩, _, _, rfl, rfl, hx⟩ := hok
          cases hx
          exact ⟨nodes, true, space, property, x.reducedNodes + 1, rfl,
            fun _ => reducedSuccessors_clear hreduced, rfl⟩
      | none =>
          simp only [Task.bind_eq_ok, Task.pure_eq_ok, store_eq_ok, note_eq_ok] at hok
          obtain ⟨nodes, ⟨z, zlog⟩, hfull, _, _, ⟨rfl, rfl⟩, _, _, rfl, rfl, hx⟩ := hok
          cases hx
          obtain ⟨space, property, rfl⟩ : ∃ space property,
              z = { x with space := space, property := property } :=
            exists_of_books ((blind_books.unmoved.fullSuccessors n).ok hfull)
          exact ⟨nodes, false, space, property, x.reducedNodes, rfl, by rintro ⟨⟩, rfl⟩

theorem expand_extends {ids : List Nat} (hok : expand p id ⟨x, log⟩ = .ok ids ⟨x', log'⟩) :
    Extends x x' ∧ x'.trail = x.trail := by
  rcases expand_cases hok with ⟨-, rfl⟩ | ⟨hnone, ⟨n, hn⟩, nodes, reduced, space, property,
    count, -, -, hx⟩
  · exact ⟨.of_core rfl, rfl⟩
  · have hnodes := congrArg Search.nodes hx
    have hfacts : x'.marks.facts = (x.marks.record id reduced (x.nodes.insertAll nodes).1).facts :=
      (facts_of_nodes hnodes).trans (congrArg Marks.facts (marks_recorded hn nodes reduced))
    have hedge := edge_congr fun i => congrArg NodeFacts.successors (congrFun hfacts i)
    refine ⟨⟨fun j m hm => ?_, fun i j hij => ?_, fun j hj => ?_⟩, ?_⟩
    · rw [hnodes, get?_modifyInfo]
      exact (grows_insertAll x.nodes nodes).get j m hm
    · have hi : i ≠ id := by
        rintro rfl
        obtain ⟨ids, hids, -⟩ := hij
        rw [hnone] at hids
        cases hids
      rw [hedge]
      exact (Marks.edge_record_of_ne _ _ _ _ _ hi).2 hij
    · rw [hnodes, size_modifyInfo] at hj
      rw [hedge]
      rcases lt_size_insertAll hj with hj | hj
      · exact ⟨j, hj, .refl⟩
      · exact ⟨id, lt_size_of_get? hn, .single ((Marks.edge_record_self ..).2 hj)⟩
    · simp only [trail, hfacts, Marks.outer_record]
      rw [hx]

/-- What one step does to the way of the outer search: it enters a node that it has not entered
before, or its path gets no longer. -/
inductive Turn (x x' : Search W S) : Prop
  | enters (id : Nat) (hnew : (x.marks.facts id).outer = false)
      (htrail : x'.trail = (id :: x.path, x.visitedNodes + 1,
        fun j => decide (j = id) || (x.marks.facts j).outer))
  | stays (path : List Nat) (hshort : path.length ≤ x.path.length)
      (htrail : x'.trail = (path, x.visitedNodes, fun j => (x.marks.facts j).outer))

omit [DecidableEq S] [HasDigest S] in
theorem Turn.of_trail (h : x'.trail = x.trail) : Turn x x' := .stays x.path (Nat.le_refl _) h

omit [DecidableEq S] [HasDigest S] in
theorem Turn.congr (h : Turn x x') (htrail : x.trail = x''.trail) : Turn x'' x' := by
  simp only [trail, Prod.mk.injEq] at htrail
  obtain ⟨hpath, hvisited, houter⟩ := htrail
  cases h with
  | enters id hnew h =>
      exact .enters id (congrFun houter id ▸ hnew)
        (by simp only [h, hpath, hvisited, congrFun houter])
  | stays path hshort h =>
      exact .stays path (hpath ▸ hshort) (by simp only [h, hvisited, congrFun houter])

theorem enter_extends {frame : Frame} (hn : x.nodes.get? id = some n)
    (hok : enter p id ⟨x, log⟩ = .ok frame ⟨x', log'⟩) :
    Extends x x' ∧
      x'.trail = (id :: x.path, x.visitedNodes + 1,
        fun j => decide (j = id) || (x.marks.facts j).outer) := by
  obtain ⟨ids, elog, hids, -⟩ := expand_of_enter hok
  obtain ⟨hextends, htrail⟩ := expand_extends hids
  have hmark : (x.entered id).nodes =
      x.nodes.modifyInfo id fun facts => { facts with outer := true, onPath := true } := rfl
  refine ⟨.trans (.mark hmark fun _ => rfl) hextends, ?_⟩
  rw [htrail]
  simp only [trail, marks_entered hn, Marks.outer_enter]
  rfl

omit [DecidableEq S] [HasDigest S] in
theorem left_turn (x : Search W S) (id : Nat) : Extends x (x.left id) ∧ Turn x (x.left id) := by
  have hmark : (x.left id).nodes = x.nodes.modifyInfo id fun facts =>
      { facts with onPath := false } := rfl
  refine ⟨.mark hmark fun _ => rfl, .stays x.path.tail (by simp) ?_⟩
  simp only [trail, outer_mark hmark fun _ => rfl]
  rfl

theorem redden_extends {ids : List Nat}
    (hok : expand p id
      ⟨{ x with nodes := x.nodes.modifyInfo id fun facts => { facts with inner := true } }, log⟩ =
        .ok ids ⟨x', log'⟩) : Extends x x' ∧ x'.trail = x.trail := by
  let red : Search W S :=
    { x with nodes := x.nodes.modifyInfo id fun facts => { facts with inner := true } }
  have hmark : red.nodes = x.nodes.modifyInfo id fun facts => { facts with inner := true } := rfl
  obtain ⟨hextends, htrail⟩ := expand_extends hok
  refine ⟨.trans (.mark hmark fun _ => rfl) hextends, htrail.trans ?_⟩
  exact congrArg (fun outer => (x.path, x.visitedNodes, outer))
    (funext (outer_mark hmark fun _ => rfl))

theorem outerStep_turn {top : Frame} {below : List Frame} {progress : Progress S}
    (hok : outerStep p top below ⟨x, log⟩ = .ok progress ⟨x', log'⟩) :
    Extends x x' ∧ Turn x x' := by
  obtain ⟨node, rest⟩ := top
  cases rest with
  | cons id rest =>
      simp only [outerStep, countTransition, Task.bind_eq_ok, Task.change_eq_ok, facts_eq_ok] at hok
      obtain ⟨_, _, rfl, facts, _, ⟨hfacts, rfl⟩, hok⟩ := hok
      have hknown : x.marks.facts id = facts := facts_marks hfacts
      obtain ⟨n, hn⟩ := exists_get?_of_lt (lt_size_of_info? hfacts)
      have hcounted : Extends x { x with transitions := x.transitions + 1 } := .of_core rfl
      split at hok
      · obtain ⟨-, hx⟩ := Task.pure_eq_ok.1 hok
        cases hx
        exact ⟨hcounted, .of_trail rfl⟩
      · rename_i houter
        simp only [Task.bind_eq_ok, Task.pure_eq_ok] at hok
        obtain ⟨frame, _, hframe, -, rfl⟩ := hok
        obtain ⟨hextends, htrail⟩ := enter_extends hn hframe
        exact ⟨hcounted.trans hextends, .enters id (by rw [hknown]; simpa using houter) htrail⟩
  | nil =>
      simp only [outerStep, Task.bind_eq_ok] at hok
      obtain ⟨v, ⟨y, ylog⟩, hv, hok⟩ := hok
      have hkeeps : Task.Keeps (fun z : Search W S => z) (isAccepting node) :=
        keeps_isAccepting node
      obtain rfl : y = x := hkeeps.ok hv
      split at hok
      · simp only [Task.bind_eq_ok, startInner, Task.change_eq_ok, note_eq_ok,
          Task.pure_eq_ok] at hok
        obtain ⟨_, _, ⟨_, _, rfl, _, _, rfl, ids, _, hids, -, rfl⟩, -, rfl⟩ := hok
        have hcounted : Extends y { y with innerSearches := y.innerSearches + 1 } := .of_core rfl
        obtain ⟨hextends, htrail⟩ := redden_extends hids
        exact ⟨hcounted.trans hextends, .of_trail htrail⟩
      · simp only [Task.bind_eq_ok, leave_eq_ok, Task.pure_eq_ok] at hok
        obtain ⟨_, _, rfl, -, hx⟩ := hok
        cases hx
        exact left_turn y node

theorem innerStep_turn {below frames : List Frame} {seed : Nat} {top : Frame}
    {progress : Progress S}
    (hok : innerStep p below seed top frames ⟨x, log⟩ = .ok progress ⟨x', log'⟩) :
    Extends x x' ∧ Turn x x' := by
  obtain ⟨node, rest⟩ := top
  cases rest with
  | cons id rest =>
      simp only [innerStep, countTransition, Task.bind_eq_ok, Task.change_eq_ok, facts_eq_ok] at hok
      obtain ⟨_, _, rfl, facts, _, ⟨-, rfl⟩, hok⟩ := hok
      have hcounted : Extends x { x with transitions := x.transitions + 1 } := .of_core rfl
      split at hok
      · simp only [Task.bind_eq_ok, pathStates, Task.read_eq_ok, Task.pure_eq_ok] at hok
        obtain ⟨path, ⟨y, ylog⟩, ⟨_, _, ⟨rfl, rfl⟩, hpath⟩, cycle, _, hcycle, -, rfl⟩ := hok
        obtain ⟨rfl, -⟩ := productStates_spec hpath
        obtain ⟨rfl, -⟩ := productStates_spec hcycle
        exact ⟨hcounted, .of_trail rfl⟩
      · split at hok
        · obtain ⟨-, hx⟩ := Task.pure_eq_ok.1 hok
          cases hx
          exact ⟨hcounted, .of_trail rfl⟩
        · simp only [Task.bind_eq_ok, note_eq_ok, Task.pure_eq_ok] at hok
          obtain ⟨_, _, rfl, ids, _, hids, -, rfl⟩ := hok
          obtain ⟨hextends, htrail⟩ :=
            redden_extends (x := { x with transitions := x.transitions + 1 }) hids
          exact ⟨hcounted.trans hextends, .of_trail htrail⟩
  | nil =>
      simp only [innerStep] at hok
      split at hok
      · simp only [Task.bind_eq_ok, leave_eq_ok, Task.pure_eq_ok] at hok
        obtain ⟨_, _, rfl, -, hx⟩ := hok
        cases hx
        exact left_turn x seed
      · obtain ⟨-, hx⟩ := Task.pure_eq_ok.1 hok
        cases hx
        exact ⟨.of_core rfl, .of_trail rfl⟩

theorem step_turn {stage : Stage} {progress : Progress S}
    (hok : Search.step p stage ⟨x, log⟩ = .ok progress ⟨x', log'⟩) : Extends x x' ∧ Turn x x' := by
  rcases stage with (_ | ⟨top, below⟩) | ⟨below, seed, _ | ⟨top, frames⟩⟩
  · obtain ⟨-, hx⟩ := Task.pure_eq_ok.1 hok
    cases hx
    exact ⟨.of_core rfl, .of_trail rfl⟩
  · exact outerStep_turn hok
  · simp only [Search.step, Task.bind_eq_ok, leave_eq_ok, Task.pure_eq_ok] at hok
    obtain ⟨_, _, rfl, -, hx⟩ := hok
    cases hx
    exact left_turn x seed
  · exact innerStep_turn hok

structure Blank (x : Search W S) : Prop where
  nodes : x.nodes = .empty
  path : x.path = []
  visited : x.visitedNodes = 0

def IsRoot (x : Search W S) (id : Nat) : Prop := ∃ n, x.nodes.get? id = some n ∧ n.root = true

/-- All nodes are reached from the root, and the outer search has counted those it has entered. -/
structure Grown (x : Search W S) (root : Nat) : Prop where
  rooted : x.IsRoot root
  reached : ∀ id, id < x.nodes.size → ReflTransGen x.marks.Edge root id
  counted : ∃ seen : List Nat, seen.Nodup ∧ (∀ id, id ∈ seen ↔ (x.marks.facts id).outer = true) ∧
    seen.length = x.visitedNodes

omit [DecidableEq S] [HasDigest S] in
theorem Grown.step {root : Nat} (h : Grown x root) (hextends : Extends x x') (hturn : Turn x x') :
    Grown x' root := by
  obtain ⟨n, hn, hroot⟩ := h.rooted
  obtain ⟨seen, hnodup, hseen, hlength⟩ := h.counted
  refine ⟨⟨n, hextends.get root n hn, hroot⟩, fun j hj => ?_, ?_⟩
  · obtain ⟨i, hi, hij⟩ := hextends.reached j hj
    exact (ReflTransGen.mono hextends.edge _ _ (h.reached i hi)).trans hij
  · cases hturn with
    | enters id hnew htrail =>
        simp only [trail, Prod.mk.injEq] at htrail
        obtain ⟨-, hvisited, houter⟩ := htrail
        refine ⟨id :: seen, List.nodup_cons.2 ⟨?_, hnodup⟩,
          fun j => ?_, by simp [hlength, hvisited]⟩
        · simp [hseen, hnew]
        · rw [congrFun houter j]
          simp [hseen]
    | stays path hshort htrail =>
        simp only [trail, Prod.mk.injEq] at htrail
        obtain ⟨-, hvisited, houter⟩ := htrail
        exact ⟨seen, hnodup, fun j => by rw [congrFun houter j, hseen], by rw [hlength, hvisited]⟩

theorem start_turn {stage : Stage} (hx : Blank x) (hok : start p ⟨x, log⟩ = .ok stage ⟨x', log'⟩) :
    Turn x x' ∧ ∃ root, Grown x' root := by
  obtain ⟨program, space, slog, frame, -, hframe, rfl⟩ := enter_of_start hok
  let node : ProductNode := ⟨program, x.property.initial, 0, true⟩
  let table : StateTable ProductNode NodeFacts := .empty
  let first : Search W S :=
    ⟨space, x.property, x.reduction, x.printTree, (table.insert node).2, [], 0, 0, 0, 0, 0⟩
  have hget : first.nodes.get? (table.insert node).1 = some node :=
    (wellFormed_empty.insert node).2.2
  have hfacts : first.marks.facts = x.marks.facts := by
    have hfirst := marks_eq_of_grows (x := { first with nodes := table }) (grows_insert table node)
    exact (congrArg Marks.facts hfirst).trans (facts_of_nodes hx.nodes.symm)
  have houter (j : Nat) : (x.marks.facts j).outer = false := by
    simp only [marks, hx.nodes]
    rfl
  have htrail : first.trail = x.trail := by
    simp only [trail, hfacts, hx.path, hx.visited]
    rfl
  have hgrown : Grown first (table.insert node).1 := by
    refine ⟨⟨node, hget, rfl⟩, fun j hj => ?_, [], .nil, fun j => ?_, rfl⟩
    · change j < (table.insert node).2.size at hj
      obtain rfl := (lt_size_insert hj).resolve_left (Nat.not_lt_zero j)
      exact .refl
    · simp [hfacts, houter]
  obtain ⟨hextends, hentered⟩ := enter_extends (x := first) hget hframe
  have hturn : Turn first x' := .enters (table.insert node).1 (by rw [hfacts, houter]) hentered
  exact ⟨hturn.congr htrail, _, hgrown.step hextends hturn⟩

end

theorem Turn.enters_iff (h : Turn x x') :
    x'.path = id :: x.path ↔ (x.marks.facts id).outer = false ∧
    (x'.marks.facts id).outer = true := by
  cases h with
  | enters j hnew htrail =>
      simp only [trail, Prod.mk.injEq] at htrail
      obtain ⟨hpath, -, houter⟩ := htrail
      rw [hpath, congrFun houter id]
      by_cases hj : id = j
      · simp [hj, hnew]
      · simp [hj, Ne.symm hj]
  | stays path hshort htrail =>
      simp only [trail, Prod.mk.injEq] at htrail
      obtain ⟨hpath, -, houter⟩ := htrail
      rw [hpath, congrFun houter id]
      constructor
      · rintro rfl
        simp at hshort
      · simp_all

theorem Turn.outer (h : Turn x x') (hid : (x.marks.facts id).outer = true) :
    (x'.marks.facts id).outer = true := by
  cases h with
  | enters j hnew htrail =>
      simp only [trail, Prod.mk.injEq] at htrail
      simp [congrFun htrail.2.2 id, hid]
  | stays path hshort htrail =>
      simp only [trail, Prod.mk.injEq] at htrail
      rw [congrFun htrail.2.2 id, hid]

/-- A node that is new at first and old in the end has been entered by one step. -/
theorem existsUnique_enters {s : Nat → Search W S} (hturn : ∀ k, Turn (s k) (s (k + 1)))
    (last : Nat) (hfirst : ((s 0).marks.facts id).outer = false)
    (hlast : ((s last).marks.facts id).outer = true) :
    ∃! k, (s (k + 1)).path = id :: (s k).path := by
  simp only [(hturn _).enters_iff]
  have hmono : ∀ i j, i ≤ j → ((s i).marks.facts id).outer = true →
      ((s j).marks.facts id).outer = true := by
    intro i j hij hi
    induction hij with
    | refl => exact hi
    | step _ ih => exact (hturn _).outer ih
  have hfound : ∃ k, ((s k).marks.facts id).outer = true := ⟨last, hlast⟩
  -- the step that enters the node is the one after which it is old for the first time
  obtain ⟨k, hk⟩ : ∃ k, Nat.find hfound = k + 1 := by
    refine Nat.exists_eq_succ_of_ne_zero fun hzero => ?_
    rw [← hzero] at hfirst
    simp [Nat.find_spec hfound] at hfirst
  have hentered : ((s (k + 1)).marks.facts id).outer = true := hk ▸ Nat.find_spec hfound
  refine ⟨k, ⟨by simpa using Nat.find_min hfound (hk ▸ Nat.lt_succ_self k), hentered⟩,
    fun j hj => ?_⟩
  obtain ⟨hbefore, hafter⟩ := hj
  rcases Nat.lt_trichotomy j k with hlt | rfl | hgt
  · have hleast := Nat.find_min hfound (m := j + 1) (by omega)
    exact absurd hafter hleast
  · rfl
  · simp [hmono (k + 1) j hgt hentered] at hbefore

/-- A node accepts if it is not the root and there are no acceptance sets, or it meets set `0` in
phase `0`. -/
def IsAccepting (x : Search W S) (id : Nat) : Prop :=
  ∃ n, x.nodes.get? id = some n ∧ n.root = false ∧
    (x.property.acceptanceCount = 0 ∨ n.phase = 0 ∧ x.property.accepts? n.property 0 = some true)

section

variable [HasDigest S]

theorem isAccepting_iff (h : x.Sound valid b f) : x.IsAccepting id ↔ x.Accepting f id := by
  have hcount : x.property.acceptanceCount = f.promises.length := by
    rw [PropertyAutomaton.acceptanceCount, h.property.promises]
  have hnode (n : ProductNode) (u : Place S) (hu : x.Stands n u) : (n.root = false ∧
      (x.property.acceptanceCount = 0 ∨ n.phase = 0 ∧
        x.property.accepts? n.property 0 = some true)) ↔ u.Accepting f := by
    rw [hcount, accepts?_eq_meets h.property hu.property, Option.some.injEq, hu.root, hu.phase]
    rfl
  constructor
  · rintro ⟨n, hn, haccepts⟩
    obtain ⟨u, hu⟩ := h.stands id n hn
    exact ⟨u, ⟨n, hn, hu⟩, (hnode n u hu).1 haccepts⟩
  · rintro ⟨u, ⟨n, hn, hu⟩, haccepts⟩
    exact ⟨n, hn, (hnode n u hu).2 haccepts⟩

theorem Sound.not_isRoot_of_edge (h : x.Sound valid b f) {i j : Nat} (hedge : x.marks.Edge i j) :
    ¬ x.IsRoot j := by
  rintro ⟨n, hn, hroot⟩
  obtain ⟨ids, hids, hj⟩ := hedge
  obtain ⟨m, hm⟩ : ∃ m, x.nodes.get? i = some m := by
    cases hinfo : x.nodes.info? i with
    | none => simp [marks, hinfo] at hids
    | some facts => exact exists_get?_of_lt (lt_size_of_info? hinfo)
  obtain ⟨u, hu⟩ := h.stands i m hm
  obtain ⟨_, _, nodes, -, -, -, hyields, hnames⟩ := h.expanded i u ids ⟨m, hm, hu⟩ hids
  obtain ⟨v, hv, hleads, -⟩ := hyields.sound n (hnames.mem_of_get? hj hn)
  rw [hv.root, hleads.root] at hroot
  cases hroot

omit [HasDigest S] in
theorem Rooted.isRoot {root : Nat} (h : x.Rooted b f root) : x.IsRoot root := by
  obtain ⟨s, -, n, hn, hu⟩ := h
  exact ⟨n, hn, hu.root⟩

theorem Grown.isRoot_iff {root : Nat} (h : Grown x root) (hsound : x.Sound valid b f) :
    x.IsRoot id ↔ id = root := by
  constructor
  · intro hid
    have hlt : id < x.nodes.size := by
      obtain ⟨n, hn, -⟩ := hid
      exact lt_size_of_get? hn
    rcases ReflTransGen.cases_tail (h.reached id hlt) with rfl | ⟨j, -, hj⟩
    · rfl
    · exact absurd hid (hsound.not_isRoot_of_edge hj)
  · rintro rfl
    exact h.rooted

omit [HasDigest S] in
theorem Grown.passed {root : Nat} (h : Grown x root)
    (houter : Outer (x.Accepting f) root x.marks []) :
    ∃ reached : Finset Nat, (∀ id, id ∈ reached ↔ ReflTransGen x.marks.Edge root id) ∧
      x.visitedNodes = reached.card ∧ x.nodes.size = reached.card := by
  obtain ⟨seen, hnodup, hseen, hlength⟩ := h.counted
  have hreached (id : Nat) : id ∈ seen ↔ ReflTransGen x.marks.Edge root id := by
    rw [hseen]
    constructor
    · intro hid
      obtain ⟨n, hn⟩ := exists_node_of_outer hid
      exact h.reached id (lt_size_of_get? hn)
    · intro hid
      exact (houter.reachable hid).1.1
  have hrange : seen.toFinset = Finset.range x.nodes.size := by
    ext id
    rw [List.mem_toFinset, Finset.mem_range, hreached]
    refine ⟨fun hid => ?_, h.reached id⟩
    obtain ⟨n, hn⟩ := exists_node_of_outer ((hseen id).1 ((hreached id).2 hid))
    exact lt_size_of_get? hn
  refine ⟨seen.toFinset, fun id => by rw [List.mem_toFinset, hreached], ?_,
    by rw [hrange, Finset.card_range]⟩
  rw [List.toFinset_card_of_nodup hnodup, hlength]

end

theorem Closes.exists_cycle {accepting : Nat → Prop} {root : Nat} {m : Marks}
    {path cycle : List Nat} (h : Closes accepting root m path cycle) :
    ∃ seed, accepting seed ∧ ReflTransGen m.Edge root seed ∧ TransGen m.Edge seed seed := by
  obtain ⟨seed, hseed, hlast, hhead⟩ := h.seed
  obtain ⟨id, hid, hback⟩ := h.back
  obtain ⟨before, rfl⟩ := List.getLast?_eq_some_iff.1 hlast
  have hto (i : Nat) (hi : i ∈ before ++ [seed]) : ReflTransGen m.Edge i seed := by
    rcases List.mem_append.1 hi with hi | hi
    · have hpath := pairwise_transGen h.linked
      exact ((List.pairwise_append.1 hpath).2.2 i hi seed (by simp)).to_reflTransGen
    · rw [List.mem_singleton.1 hi]
  refine ⟨seed, hseed, hto root (List.mem_of_head? h.start), ?_⟩
  obtain ⟨inside, rfl⟩ := List.getLast?_eq_some_iff.1 hback
  have hcycle := pairwise_transGen h.looped
  have hlong := h.long
  have hinside : seed ∈ inside := by
    cases inside with
    | nil => simp at hlong
    | cons first rest =>
        obtain rfl : first = seed := by simpa using hhead
        exact List.mem_cons_self
  exact .trans_left ((List.pairwise_append.1 hcycle).2.2 seed hinside id (by simp)) (hto id hid)

end Search

namespace Run

open Search Relation

variable {W S η : Type} {p : Program W S} {valid : W → Prop} {b : Behaviour S} {f : Formula}
  {x : Search W S} {log : List LogEvent} {r : Run W S}

def Traced (x : Search W S) : RunStatus S → Prop
  | .going (.search _) _ | .ended (some .pass) | .ended (some (.violation _)) =>
      ∃ root, Grown x root
  | .going _ _ => Blank x
  | _ => True

variable [HasDigest S] [DecidableEq S]

theorem nextJob_turn {x' : Search W S} {log' : List LogEvent} {jobs : List Job}
    {status : RunStatus S} (hx : Blank x) (hok : nextJob p jobs ⟨x, log⟩ = .ok status ⟨x', log'⟩) :
    Turn x x' ∧ Traced x' status := by
  rcases jobs with _ | ⟨_ | _ | _, later⟩
  · obtain ⟨rfl, hx'⟩ := Task.pure_eq_ok.1 hok
    cases hx'
    exact ⟨.of_trail rfl, trivial⟩
  · simp only [nextJob, Task.bind_eq_ok, inSpace_eq_ok, Task.pure_eq_ok] at hok
    obtain ⟨id, _, ⟨m, -, rfl⟩, rfl, hx'⟩ := hok
    cases hx'
    exact ⟨.of_trail rfl, hx.nodes, hx.path, hx.visited⟩
  · simp only [nextJob, Task.bind_eq_ok, Task.read_eq_ok, Task.pure_eq_ok] at hok
    obtain ⟨_, _, ⟨rfl, rfl⟩, rfl, hx'⟩ := hok
    cases hx'
    exact ⟨.of_trail rfl, hx⟩
  · simp only [nextJob, Task.bind_eq_ok, Task.pure_eq_ok] at hok
    obtain ⟨stage, _, hstart, rfl, rfl⟩ := hok
    exact start_turn hx hstart

/-- The two kinds of sweep go on in the same way: with the next state, or with the next job. -/
theorem sweep_turn {x' y : Search W S} {log' : List LogEvent} {later : List Job}
    {next : Option (Nat × Sweep)} {message : String} {status : RunStatus S}
    (stage : Nat → Sweep → RunStage) (hy : Blank y) (htrail : y.trail = x.trail)
    (hstage : ∀ id sweep, Traced (S := S) y (.going (stage id sweep) later))
    (hok : (match next with
      | some (id, sweep) => pure (.going (stage id sweep) later)
      | none => Task.emit .debug message >>= fun _ => nextJob p later :
          Task (Search W S) (RunStatus S)) ⟨y, log⟩ =
        .ok status ⟨x', log'⟩) : Turn x x' ∧ Traced x' status := by
  cases next with
  | some next =>
      obtain ⟨rfl, hx'⟩ := Task.pure_eq_ok.1 hok
      cases hx'
      exact ⟨.of_trail htrail, hstage next.1 next.2⟩
  | none =>
      simp only [Task.bind_eq_ok, Task.emit_eq_ok] at hok
      obtain ⟨_, _, rfl, hok⟩ := hok
      obtain ⟨hturn, htraced⟩ := nextJob_turn hy hok
      exact ⟨hturn.congr htrail, htraced⟩

theorem act_turn {x' : Search W S} {log' : List LogEvent} {later : List Job} {stage : RunStage}
    {status : RunStatus S} (hx : Traced (S := S) x (.going stage later))
    (hok : act p later stage ⟨x, log⟩ = .ok status ⟨x', log'⟩) : Turn x x' ∧ Traced x' status := by
  cases stage with
  | program id sweep =>
      simp only [act, Task.bind_eq_ok, inSpace_eq_ok] at hok
      obtain ⟨ids, _, ⟨m, -, rfl⟩, hok⟩ := hok
      have hblank : Blank { x with space := m.state } := ⟨hx.nodes, hx.path, hx.visited⟩
      exact sweep_turn .program hblank rfl (fun _ _ => hblank) hok
  | property id sweep =>
      simp only [act, Task.bind_eq_ok, inProperty_eq_ok] at hok
      obtain ⟨ids, _, ⟨m, -, rfl⟩, hok⟩ := hok
      have hblank : Blank { x with property := m.state } := ⟨hx.nodes, hx.path, hx.visited⟩
      exact sweep_turn .property hblank rfl (fun _ _ => hblank) hok
  | search stage =>
      simp only [act, Task.bind_eq_ok, Task.pure_eq_ok] at hok
      obtain ⟨progress, _, hstep, rfl, rfl⟩ := hok
      obtain ⟨root, hgrown⟩ := hx
      obtain ⟨hextends, hturn⟩ := step_turn hstep
      have hgrown' : ∃ root, Grown x' root := ⟨root, hgrown.step hextends hturn⟩
      rcases progress with stage | _ | _ | _
      · exact ⟨hturn, hgrown'⟩
      · exact ⟨hturn, hgrown'⟩
      · exact ⟨hturn, hgrown'⟩
      · exact ⟨hturn, trivial⟩

omit [HasDigest S] [DecidableEq S] in
theorem settle_turn {t : Task (Search W S) (RunStatus S)}
    (h : ∀ status x' log', t ⟨x, log⟩ = .ok status ⟨x', log'⟩ → Turn x x' ∧ Traced x' status)
    (hfailed : ∀ fault, (settle x log t).status ≠ .failed fault) :
    Turn x (settle x log t).search ∧ Traced (settle x log t).search (settle x log t).status := by
  rw [settle] at hfailed ⊢
  split at hfailed
  · rename_i hok
    exact h _ _ _ hok
  · rename_i fault _ _ _
    exact absurd rfl (hfailed fault)

theorem run_step_turn (h : Traced r.search r.status)
    (hfailed : ∀ fault, (r.step p).status ≠ .failed fault) :
    Turn r.search (r.step p).search ∧ Traced (r.step p).search (r.step p).status := by
  obtain ⟨x, log, status⟩ := r
  cases status with
  | going stage later => exact settle_turn (fun _ _ _ hok => act_turn h hok) hfailed
  | ended verdict => exact ⟨.of_trail rfl, h⟩
  | failed fault => exact absurd rfl (hfailed fault)

def history (p : Program W S) (x : Search W S) (log : List LogEvent) (jobs : List Job) :
    Nat → Search W S
  | 0 => x
  | k + 1 => ((step p)^[k] (begin p x log jobs)).search

theorem iterate_step_eq_self (h : ∀ stage later, r.status ≠ .going stage later) (k : Nat) :
    (step p)^[k] r = r := by
  refine Function.iterate_fixed ?_ k
  obtain ⟨x, log, status⟩ := r
  cases status with
  | going stage later => exact absurd rfl (h stage later)
  | ended verdict => rfl
  | failed fault => rfl

/-- A run that comes to a verdict never fails, and each of its steps is a turn of the outer
search. -/
theorem history_turn {jobs : List Job} {last : Nat} {verdict : Option (Verdict S)} (hx : Blank x)
    (hended : ((step p)^[last] (begin p x log jobs)).status = .ended verdict) (k : Nat) :
    Turn (history p x log jobs k) (history p x log jobs (k + 1)) ∧
      Traced ((step p)^[k] (begin p x log jobs)).search
        ((step p)^[k] (begin p x log jobs)).status := by
  have hfailed (k : Nat) (fault : Fault) : ((step p)^[k] (begin p x log jobs)).status ≠
      .failed fault := by
    -- a run that has failed stays as it is, and so does one that has ended
    intro hfault
    rcases Nat.le_total k last with hle | hle
    · rw [← Nat.sub_add_cancel hle, Function.iterate_add_apply,
        iterate_step_eq_self (by simp [hfault]), hfault] at hended
      cases hended
    · rw [← Nat.sub_add_cancel hle, Function.iterate_add_apply,
        iterate_step_eq_self (by simp [hended]), hended] at hfault
      cases hfault
  induction k with
  | zero => exact settle_turn (fun _ _ _ hok => nextJob_turn hx hok) (hfailed 0)
  | succ k ih =>
      simp only [history, Function.iterate_succ_apply']
      refine run_step_turn ih.2 ?_
      simpa only [Function.iterate_succ_apply'] using hfailed (k + 1)

theorem drive_eq_iterate {tick : Search W S → η → Bool × η} (htick : ∀ x h, (tick x h).1 = true)
    (limit : Nat) (h : η) : (drive p tick limit r h).1 = (step p)^[limit] r := by
  induction limit generalizing r h with
  | zero => rfl
  | succ limit ih =>
      rw [drive]
      split
      · simp only [htick, if_true, ih, Function.iterate_succ_apply]
      · rename_i hover
        exact (iterate_step_eq_self hover _).symm

/-- The nested search decides the graph of the successors it has recorded, whatever ample sets the
program offers. After a pass, all nodes of the graph have been entered once each and counted, and
none of them is an accepting node on a cycle. After a violation, one of them is. -/
theorem decides_recorded_graph (hp : p.Behaves valid b) (f : Formula) {memory : W}
    (hmemory : valid memory) (reduction printTree : Bool) (log : List LogEvent) (jobs : List Job)
    (tick : Search W S → η → Bool × η) (htick : ∀ x h, (tick x h).1 = true) (limit : Nat) (h : η) :
    let first : Search W S :=
      { space := { memory }, property := .ofFormula f, reduction, printTree }
    let r := (drive p tick limit (begin p first log jobs) h).1
    let x := r.search
    (r.verdict? = some .pass → ∃ root, (∀ id, x.IsRoot id ↔ id = root) ∧
      (∀ id, ReflTransGen x.marks.Edge root id →
        ∃! k, (history p first log jobs (k + 1)).path = id :: (history p first log jobs k).path) ∧
      (∃ reached : Finset Nat, (∀ id, id ∈ reached ↔ ReflTransGen x.marks.Edge root id) ∧
        x.stats.visitedNodes = reached.card ∧ x.stats.productNodes = reached.card) ∧
      (∀ id, (x.marks.facts id).onPath = false) ∧ x.path = [] ∧
      ∀ id, ReflTransGen x.marks.Edge root id → x.IsAccepting id → ¬ TransGen x.marks.Edge id id) ∧
    ∀ c, r.verdict? = some (.violation c) → ∃ root, (∀ id, x.IsRoot id ↔ id = root) ∧
      ∃ id, ReflTransGen x.marks.Edge root id ∧ x.IsAccepting id ∧ TransGen x.marks.Edge id id := by
  intro first r x
  have hfirst : first.Sound valid b f :=
    sound_of_nodes_empty (StateSpace.sound_start hmemory) (PropertyAutomaton.sound_ofFormula f) rfl
  have hgood : Good valid b f reduction r := good_drive hp hfirst tick limit log jobs h
  have hr : r = (step p)^[limit] (begin p first log jobs) := drive_eq_iterate htick limit h
  constructor
  · intro hpass
    obtain ⟨hsound, -, -, root, hrooted, houter⟩ := hgood.of_verdict hpass
    rw [verdict?_eq_some_iff] at hpass
    have hturn := history_turn (p := p) (x := first) ⟨rfl, rfl, rfl⟩ (hr ▸ hpass)
    obtain ⟨root', hgrown⟩ : ∃ root, Grown x root := by
      have htraced := (hturn limit).2
      rwa [← hr, hpass] at htraced
    obtain rfl := (hgrown.isRoot_iff hsound).1 hrooted.isRoot
    have hlast : history p first log jobs (limit + 1) = x := congrArg Run.search hr.symm
    refine ⟨root, fun id => hgrown.isRoot_iff hsound, fun id hid => ?_, hgrown.passed houter,
      fun id => ?_, houter.walk.path, fun id hid haccepting => ?_⟩
    · refine existsUnique_enters (fun k => (hturn k).1) (limit + 1) rfl ?_
      rw [hlast]
      exact (houter.reachable hid).1.1
    · have honPath := houter.walk.onPath id
      rw [houter.walk.path] at honPath
      simpa using honPath
    · exact (houter.reachable hid).2.2 ((isAccepting_iff hsound).1 haccepting)
  · intro c hviolation
    obtain ⟨hsound, -, root, path, cycle, hrooted, hcloses, -⟩ := hgood.of_verdict hviolation
    rw [verdict?_eq_some_iff] at hviolation
    have hturn := history_turn (p := p) (x := first) ⟨rfl, rfl, rfl⟩ (hr ▸ hviolation)
    obtain ⟨root', hgrown⟩ : ∃ root, Grown x root := by
      have htraced := (hturn limit).2
      rwa [← hr, hviolation] at htraced
    obtain rfl := (hgrown.isRoot_iff hsound).1 hrooted.isRoot
    obtain ⟨id, haccepting, hreached, hcycle⟩ := hcloses.exists_cycle
    exact ⟨root, fun id => hgrown.isRoot_iff hsound, id, hreached,
      (isAccepting_iff hsound).2 haccepting, hcycle⟩

/-- The ample set of the first node leaves out the only node with `p`. -/
def fork : Graph := { initial := 0, edges := [(0, 1), (0, 2), (1, 1), (2, 2)], ample := [(0, [1])] }

def forkSearch (reduction : Bool) : Run Graph UInt32 :=
  (drive (Graph.program [(2, "p")]) (fun _ (h : Unit) => (true, h)) 100
    (begin (Graph.program [(2, "p")])
    { space := { memory := fork }, property := .ofFormula (.until .top (.prop "p")), reduction,
      printTree := false }
    [] [.search]) ()).1

theorem fork_decided :
    (forkSearch true).verdict? = some .pass ∧
    (∃ root, ∀ id, ReflTransGen (forkSearch true).search.marks.Edge root id →
      (forkSearch true).search.IsAccepting id →
      ¬ TransGen (forkSearch true).search.marks.Edge id id) ∧
    (∃ c, (forkSearch false).verdict? = some (.violation c)) ∧
      ∃ id, (forkSearch false).search.IsAccepting id ∧
        TransGen (forkSearch false).search.marks.Edge id id := by
  have hpass : (forkSearch true).verdict? = some .pass := by decide +kernel
  obtain ⟨c, hviolation⟩ : ∃ c, (forkSearch false).verdict? = some (.violation c) := by
    have hothers : (forkSearch false).verdict? ∉ [none, some .pass, some .cancelled] := by
      decide +kernel
    rcases hv : (forkSearch false).verdict? with _ | _ | c | _
    all_goals simp_all
  have htheorem (reduction : Bool) := decides_recorded_graph (fork.behaves [(2, "p")])
    (.until .top (.prop "p")) rfl reduction false [] [.search] (fun _ (h : Unit) => (true, h))
    (fun _ _ => rfl) 100 ()
  refine ⟨hpass, ?_, ⟨c, hviolation⟩, ?_⟩
  · unfold forkSearch at hpass ⊢
    obtain ⟨root, -, -, -, -, -, hnone⟩ := (htheorem true).1 hpass
    exact ⟨root, hnone⟩
  · unfold forkSearch at hviolation ⊢
    obtain ⟨root, -, id, -, haccepting, hcycle⟩ := (htheorem false).2 c hviolation
    exact ⟨id, haccepting, hcycle⟩

end Run

end TemporalCheck
