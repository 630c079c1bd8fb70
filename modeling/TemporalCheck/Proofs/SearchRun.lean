import TemporalCheck.Proofs.CycleProviso
import TemporalCheck.Proofs.Product
import TemporalCheck.Product.Run

namespace TemporalCheck

def Place.state {S : Type} (u : Place S) : ProductState S := ⟨u.program, u.property⟩

namespace Search

open StateTable

variable {W S : Type} {p : Program W S} {valid : W → Prop} {b : Behaviour S} {f : Formula}
  {x x' : Search W S} {id : Nat} {n : ProductNode} {u : Place S} {log log' : List LogEvent}

def Accepting (f : Formula) (x : Search W S) (id : Nat) : Prop := ∃ u, x.Stores id u ∧ u.Accepting f

def Shown (x : Search W S) (ids : List Nat) (states : List (ProductState S)) : Prop :=
  List.Forall₂ (fun id s => ∃ u, x.Stores id u ∧ u.state = s) ids states

inductive Reports (x : Search W S) : Outcome → Progress S → Prop
  | going (stage : Stage) : Reports x (.going stage) (.going stage)
  | passed : Reports x .passed (.decided .pass)
  | closed {path cycle : List Nat} {c : Counterexample S} (hpath : x.Shown path c.path)
      (hcycle : x.Shown cycle c.cycle) : Reports x (.closed path cycle) (.decided (.violation c))

theorem reports_resume (x : Search W S) (below : List Frame) :
    Reports x (.resume below) (Search.resume below : Progress S) := by
  cases below with
  | nil => exact .passed
  | cons t below => exact .going _

theorem productState_spec {s : ProductState S} (hok : productState id ⟨x, log⟩ = .ok s ⟨x', log'⟩) :
    x' = x ∧ ∃ u, x.Stores id u ∧ u.state = s := by
  simp only [productState, Task.bind_eq_ok, node_eq_ok, inSpace_eq_ok, inProperty_eq_ok,
    StateSpace.state_eq_ok, propertyState_eq_ok, Task.pure_eq_ok] at hok
  obtain ⟨n, _, ⟨hn, rfl⟩, program, _, ⟨_, ⟨hprogram, rfl⟩, rfl⟩, property, _,
      ⟨_, ⟨hproperty, rfl⟩, rfl⟩, rfl, hx⟩ := hok
  cases hx
  exact ⟨rfl, ⟨program, property, n.phase, n.root⟩, ⟨n, hn, hprogram, hproperty, rfl, rfl⟩, rfl⟩

theorem productStates_spec {ids : List Nat} {states : List (ProductState S)}
    (hok : productStates ids ⟨x, log⟩ = .ok states ⟨x', log'⟩) : x' = x ∧ x.Shown ids states := by
  induction ids generalizing log states with
  | nil =>
      obtain ⟨rfl, hx⟩ := Task.pure_eq_ok.1 hok
      cases hx
      exact ⟨rfl, .nil⟩
  | cons id ids ih =>
      simp only [productStates, Task.bind_eq_ok, Task.pure_eq_ok] at hok
      obtain ⟨s, ⟨y, ylog⟩, hs, rest, _, hrest, rfl, rfl⟩ := hok
      obtain ⟨rfl, hu⟩ := productState_spec hs
      obtain ⟨hx, hshown⟩ := ih hrest
      exact ⟨hx, .cons hu hshown⟩

theorem printNode_spec {o : Unit} (hok : printNode p id ⟨x, log⟩ = .ok o ⟨x', log'⟩) : x' = x := by
  simp only [printNode, Task.bind_eq_ok, node_eq_ok, Task.read_eq_ok, Task.emit_eq_ok] at hok
  obtain ⟨s, ⟨y, ylog⟩, hs, n, _, ⟨-, rfl⟩, _, _, ⟨-, rfl⟩, hx⟩ := hok
  obtain ⟨rfl, -⟩ := productState_spec hs
  cases hx
  rfl

theorem exists_node_of_outer (h : (x.marks.facts id).outer = true) :
    ∃ n, x.nodes.get? id = some n := by
  cases hinfo : x.nodes.info? id with
  | some facts => exact exists_get?_of_lt (lt_size_of_info? hinfo)
  | none =>
      simp only [marks, hinfo] at h
      cases h

theorem not_accepting (hgrows : Grows x x') (hu : x.Stores id u) (hacc : ¬ u.Accepting f) :
    ¬ x'.Accepting f id := by
  rintro ⟨v, hv, haccv⟩
  obtain rfl := (hgrows.stores hu).unique hv
  exact hacc haccv

theorem Sound.mark [HasDigest S] (h : Sound valid b f x) (hn : x.nodes.get? id = some n)
    (g : NodeFacts → NodeFacts)
    (hg : ∀ facts, (g facts).successors = facts.successors ∧ (g facts).reduced = facts.reduced) :
    Sound valid b f { x with nodes := x.nodes.modifyInfo id g } ∧
      Grows x { x with nodes := x.nodes.modifyInfo id g } := by
  refine h.note hn g fun u ids hu hids => ?_
  rw [(hg _).1] at hids
  obtain ⟨reduced, targets, nodes, hreduced, hrest⟩ := h.expanded id u ids hu hids
  exact ⟨reduced, targets, nodes, by rw [(hg _).2, hreduced], hrest⟩

def entered (x : Search W S) (id : Nat) : Search W S :=
  { x with
    nodes := x.nodes.modifyInfo id fun facts => { facts with outer := true, onPath := true }
    path := id :: x.path
    visitedNodes := x.visitedNodes + 1
    maxDepth := max x.maxDepth (x.path.length + 1) }

theorem marks_entered (hn : x.nodes.get? id = some n) :
    (x.entered id).marks = x.marks.enter id := by
  have hmarks := congrArg Marks.facts
    (marks_note hn fun facts => { facts with outer := true, onPath := true })
  simp only [marks, Marks.note] at hmarks
  simp only [marks, entered, Marks.enter, Marks.note, Marks.mk.injEq, and_true]
  exact hmarks

def left (x : Search W S) (id : Nat) : Search W S :=
  { x with
    nodes := x.nodes.modifyInfo id fun facts => { facts with onPath := false }
    path := x.path.tail }

theorem marks_left (hn : x.nodes.get? id = some n) : (x.left id).marks = x.marks.leave id := by
  have hmarks := congrArg Marks.facts (marks_note hn fun facts => { facts with onPath := false })
  simp only [marks, Marks.note] at hmarks
  simp only [marks, left, Marks.leave, Marks.note, Marks.mk.injEq, and_true]
  exact hmarks

theorem leave_eq_ok {o : Unit} {l l' : Logged (Search W S)} :
    leave id l = .ok o l' ↔ l' = ⟨l.state.left id, l.log⟩ := by
  simp only [leave, Task.bind_eq_ok, note_eq_ok, Task.change_eq_ok]
  constructor
  · rintro ⟨_, _, rfl, rfl⟩
    rfl
  · rintro rfl
    exact ⟨(), _, rfl, rfl⟩

section

variable [HasDigest S]

theorem Sound.entered (h : Sound valid b f x) (hn : x.nodes.get? id = some n) :
    Sound valid b f (x.entered id) ∧ Grows x (x.entered id) := by
  obtain ⟨hmarked, hgrows⟩ := h.mark hn (fun facts => { facts with outer := true, onPath := true })
    fun _ => ⟨rfl, rfl⟩
  obtain ⟨hentered, hgrows'⟩ := hmarked.congr (x.entered id) rfl rfl rfl rfl
  exact ⟨hentered, hgrows.trans hgrows'⟩

theorem Sound.left (h : Sound valid b f x) (hn : x.nodes.get? id = some n) :
    Sound valid b f (x.left id) ∧ Grows x (x.left id) := by
  obtain ⟨hmarked, hgrows⟩ :=
    h.mark hn (fun facts => { facts with onPath := false }) fun _ => ⟨rfl, rfl⟩
  obtain ⟨hleft, hgrows'⟩ := hmarked.congr (x.left id) rfl rfl rfl rfl
  exact ⟨hleft, hgrows.trans hgrows'⟩

variable [DecidableEq S]

/-- A node that is entered is expanded; a line of the search tree may be printed on the way. -/
theorem expand_of_enter {frame : Frame} (hok : enter p id ⟨x, log⟩ = .ok frame ⟨x', log'⟩) :
    ∃ ids elog, expand p id ⟨x.entered id, elog⟩ = .ok ids ⟨x', log'⟩ ∧ frame = ⟨id, ids⟩ := by
  simp only [enter, Task.bind_eq_ok, note_eq_ok, Task.change_eq_ok, Task.read_eq_ok] at hok
  obtain ⟨_, _, rfl, _, _, rfl, _, _, ⟨rfl, rfl⟩, hok⟩ := hok
  split at hok
  · simp only [Task.bind_eq_ok, Task.pure_eq_ok] at hok
    obtain ⟨_, ⟨y, ylog⟩, hprint, ids, _, hids, rfl, rfl⟩ := hok
    obtain rfl := printNode_spec hprint
    exact ⟨ids, ylog, hids, rfl⟩
  · simp only [Task.bind_eq_ok, Task.pure_eq_ok] at hok
    obtain ⟨ids, _, hids, rfl, rfl⟩ := hok
    exact ⟨ids, log, hids, rfl⟩

theorem enter_spec {frame : Frame} (hp : p.Behaves valid b) (h : Sound valid b f x)
    (hn : x.nodes.get? id = some n) (hok : enter p id ⟨x, log⟩ = .ok frame ⟨x', log'⟩) :
    Sound valid b f x' ∧ Grows x x' ∧ ∃ ids, frame = ⟨id, ids⟩ ∧
      (x.marks.enter id).Expand id ids x'.marks := by
  obtain ⟨ids, elog, hids, rfl⟩ := expand_of_enter hok
  obtain ⟨hentered, hegrows⟩ := h.entered hn
  obtain ⟨hsound, hgrows, hexpand⟩ := expand_spec hp hentered hids
  rw [marks_entered hn] at hexpand
  exact ⟨hsound, hegrows.trans hgrows, ids, rfl, hexpand⟩

theorem redden_spec {ids : List Nat} (hp : p.Behaves valid b) (h : Sound valid b f x)
    (hn : x.nodes.get? id = some n)
    (hok : expand p id
      ⟨{ x with nodes := x.nodes.modifyInfo id fun facts => { facts with inner := true } }, log⟩ =
        .ok ids ⟨x', log'⟩) :
    Sound valid b f x' ∧ Grows x x' ∧ (x.marks.redden id).Expand id ids x'.marks := by
  obtain ⟨hmarked, hmgrows⟩ :=
    h.mark hn (fun facts => { facts with inner := true }) fun _ => ⟨rfl, rfl⟩
  obtain ⟨hsound, hgrows, hexpand⟩ := expand_spec hp hmarked hok
  rw [marks_note hn] at hexpand
  exact ⟨hsound, hmgrows.trans hgrows, hexpand⟩

theorem outerStep_spec {top : Frame} {below : List Frame} {progress : Progress S}
    (hp : p.Behaves valid b) (h : Sound valid b f x)
    (hok : outerStep p top below ⟨x, log⟩ = .ok progress ⟨x', log'⟩) :
    Sound valid b f x' ∧ Grows x x' ∧ ∃ outcome,
      Move (x'.Accepting f) x.marks (.outer (top :: below)) x'.marks outcome ∧
      Reports x' outcome progress := by
  obtain ⟨node, rest⟩ := top
  cases rest with
  | cons id rest =>
      simp only [outerStep, countTransition, Task.bind_eq_ok, Task.change_eq_ok, facts_eq_ok] at hok
      obtain ⟨_, _, rfl, facts, _, ⟨hfacts, rfl⟩, hok⟩ := hok
      have hknown : x.marks.facts id = facts := facts_marks hfacts
      obtain ⟨hcounted, hcgrows⟩ :=
        h.congr { x with transitions := x.transitions + 1 } rfl rfl rfl rfl
      obtain ⟨n, hn⟩ := exists_get?_of_lt (lt_size_of_info? hfacts)
      split at hok
      · rename_i houter
        obtain ⟨rfl, hx⟩ := Task.pure_eq_ok.1 hok
        cases hx
        exact ⟨hcounted, hcgrows, _, .skip (by rw [hknown, houter]), .going _⟩
      · rename_i houter
        simp only [Task.bind_eq_ok, Task.pure_eq_ok] at hok
        obtain ⟨frame, _, hframe, rfl, rfl⟩ := hok
        obtain ⟨hsound, hgrows, ids, rfl, hexpand⟩ := enter_spec hp hcounted hn hframe
        exact ⟨hsound, hcgrows.trans hgrows, _, .enter (by rw [hknown]; simpa using houter) hexpand,
          .going _⟩
  | nil =>
      simp only [outerStep, Task.bind_eq_ok] at hok
      obtain ⟨v, ⟨y, ylog⟩, hv, hok⟩ := hok
      obtain ⟨rfl, u, hu, hacc⟩ := isAccepting_spec h.property h.stands hv
      obtain ⟨n, hn⟩ : ∃ n, y.nodes.get? node = some n := hu.imp fun _ hn => hn.1
      split at hok
      · rename_i htrue
        simp only [Task.bind_eq_ok, startInner, Task.change_eq_ok, note_eq_ok,
          Task.pure_eq_ok] at hok
        obtain ⟨_, _, ⟨_, _, rfl, _, _, rfl, ids, _, hids, rfl, rfl⟩, rfl, rfl⟩ := hok
        obtain ⟨hcounted, hcgrows⟩ :=
          h.congr { y with innerSearches := y.innerSearches + 1 } rfl rfl rfl rfl
        obtain ⟨hsound, hgrows, hexpand⟩ := redden_spec hp hcounted hn hids
        refine ⟨hsound, hcgrows.trans hgrows, _, .seed ?_ hexpand, .going _⟩
        exact ⟨u, (hcgrows.trans hgrows).stores hu, hacc.1 htrue⟩
      · rename_i hfalse
        simp only [Task.bind_eq_ok, leave_eq_ok, Task.pure_eq_ok] at hok
        obtain ⟨_, _, rfl, rfl, hx⟩ := hok
        cases hx
        obtain ⟨hleft, hgrows⟩ := h.left hn
        refine ⟨hleft, hgrows, _, ?_, reports_resume _ below⟩
        rw [marks_left hn]
        exact .leave (not_accepting hgrows hu (by simpa [hacc] using hfalse))

theorem innerStep_spec {below frames : List Frame} {seed : Nat} {top : Frame}
    {progress : Progress S} (hp : p.Behaves valid b) (h : Sound valid b f x)
    (hseed : ∃ n, x.nodes.get? seed = some n)
    (hok : innerStep p below seed top frames ⟨x, log⟩ = .ok progress ⟨x', log'⟩) :
    Sound valid b f x' ∧ Grows x x' ∧ ∃ outcome,
      Move (x'.Accepting f) x.marks (.inner below seed (top :: frames)) x'.marks outcome ∧
        Reports x' outcome progress := by
  obtain ⟨node, rest⟩ := top
  cases rest with
  | cons id rest =>
      simp only [innerStep, countTransition, Task.bind_eq_ok, Task.change_eq_ok, facts_eq_ok] at hok
      obtain ⟨_, _, rfl, facts, _, ⟨hfacts, rfl⟩, hok⟩ := hok
      have hknown : x.marks.facts id = facts := facts_marks hfacts
      obtain ⟨hcounted, hcgrows⟩ :=
        h.congr { x with transitions := x.transitions + 1 } rfl rfl rfl rfl
      obtain ⟨n, hn⟩ := exists_get?_of_lt (lt_size_of_info? hfacts)
      split at hok
      · rename_i hon
        simp only [Task.bind_eq_ok, pathStates, Task.read_eq_ok, Task.pure_eq_ok] at hok
        obtain ⟨path, ⟨y, ylog⟩, ⟨_, _, ⟨rfl, rfl⟩, hpath⟩, cycle, _, hcycle, rfl, rfl⟩ := hok
        obtain ⟨rfl, hshown⟩ := productStates_spec hpath
        obtain ⟨rfl, hcshown⟩ := productStates_spec hcycle
        exact ⟨hcounted, hcgrows, _, .close (by rw [hknown, hon]), .closed hshown hcshown⟩
      · rename_i hoff
        have hoff : (x.marks.facts id).onPath = false := by rw [hknown]; simpa using hoff
        split at hok
        · rename_i hred
          obtain ⟨rfl, hx⟩ := Task.pure_eq_ok.1 hok
          cases hx
          exact ⟨hcounted, hcgrows, _, .skipInner hoff (by rw [hknown, hred]), .going _⟩
        · rename_i hred
          simp only [Task.bind_eq_ok, note_eq_ok, Task.pure_eq_ok] at hok
          obtain ⟨_, _, rfl, ids, _, hids, rfl, rfl⟩ := hok
          obtain ⟨hsound, hgrows, hexpand⟩ := redden_spec hp hcounted hn hids
          exact ⟨hsound, hcgrows.trans hgrows, _,
            .enterInner hoff (by rw [hknown]; simpa using hred) hexpand, .going _⟩
  | nil =>
      obtain ⟨n, hn⟩ := hseed
      simp only [innerStep] at hok
      split at hok
      · rename_i hempty
        obtain rfl := List.isEmpty_iff.1 hempty
        simp only [Task.bind_eq_ok, leave_eq_ok, Task.pure_eq_ok] at hok
        obtain ⟨_, _, rfl, rfl, hx⟩ := hok
        cases hx
        obtain ⟨hleft, hgrows⟩ := h.left hn
        refine ⟨hleft, hgrows, _, ?_, reports_resume _ below⟩
        rw [marks_left hn]
        exact .leaveSeed (.inr ⟨node, rfl⟩)
      · rename_i hne
        obtain ⟨rfl, hx⟩ := Task.pure_eq_ok.1 hok
        cases hx
        exact ⟨h, .refl _, _, .back (by simpa using hne), .going _⟩

theorem exists_move {root : Nat} {stage : Stage} {progress : Progress S} (hp : p.Behaves valid b)
    (h : Sound valid b f x) (hinv : Invariant (x.Accepting f) root x.marks stage)
    (hok : Search.step p stage ⟨x, log⟩ = .ok progress ⟨x', log'⟩) :
    Sound valid b f x' ∧ Grows x x' ∧ Invariant (x'.Accepting f) root x.marks stage ∧ ∃ outcome,
      Move (x'.Accepting f) x.marks stage x'.marks outcome ∧ Reports x' outcome progress := by
  obtain ⟨hsound, hgrows, hmove⟩ : Sound valid b f x' ∧ Grows x x' ∧ ∃ outcome,
      Move (x'.Accepting f) x.marks stage x'.marks outcome ∧ Reports x' outcome progress := by
    rcases stage with (_ | ⟨top, below⟩) | ⟨below, seed, _ | ⟨top, frames⟩⟩
    · obtain ⟨rfl, hx⟩ := Task.pure_eq_ok.1 hok
      cases hx
      exact ⟨h, .refl x, _, .done, .passed⟩
    · exact outerStep_spec hp h hok
    · simpa using Inner.bottom hinv
    · have hseed := (Inner.walk hinv).visited seed (by simp [(Inner.walk hinv).path])
      exact innerStep_spec hp h (exists_node_of_outer hseed) hok
  refine ⟨hsound, hgrows, hinv.congr (x'.Accepting f) fun id hid => ?_, hmove⟩
  obtain ⟨n, hn⟩ := exists_node_of_outer hid
  obtain ⟨u, hu⟩ := h.stands id n hn
  constructor
  · rintro ⟨v, hv, hacc⟩
    exact ⟨v, hgrows.stores hv, hacc⟩
  · rintro ⟨v, hv, hacc⟩
    obtain rfl := (hgrows.stores ⟨n, hn, hu⟩).unique hv
    exact ⟨u, ⟨n, hn, hu⟩, hacc⟩

/-- A step of the search keeps the invariant, and what it answers is justified. -/
theorem step_spec {root : Nat} {stage : Stage} {progress : Progress S} (hp : p.Behaves valid b)
    (h : Sound valid b f x) (hinv : Invariant (x.Accepting f) root x.marks stage)
    (hproviso : Proviso x.marks) (hok : Search.step p stage ⟨x, log⟩ = .ok progress ⟨x', log'⟩) :
    Sound valid b f x' ∧ Grows x x' ∧ Proviso x'.marks ∧ ∃ outcome : Outcome,
      outcome.Shows (x'.Accepting f) root x'.marks ∧ Reports x' outcome progress := by
  obtain ⟨hsound, hgrows, hinv', outcome, hmove, hreports⟩ := exists_move hp h hinv hok
  exact ⟨hsound, hgrows, hmove.proviso hinv' hproviso, outcome, hmove.shows hinv', hreports⟩

def Rooted (b : Behaviour S) (f : Formula) (x : Search W S) (root : Nat) : Prop :=
  ∃ s, b.initial = some s ∧ x.Stores root ⟨s, .ofList [.next f], 0, true⟩

omit [DecidableEq S] in
theorem sound_of_nodes_empty (hspace : x.space.Sound valid b) (hproperty : x.property.Sound f)
    (hnodes : x.nodes = .empty) : Sound valid b f x := by
  refine ⟨hspace, hproperty, hnodes ▸ wellFormed_empty, fun id n hn => ?_, fun id u ids hu => ?_⟩
  · simp [hnodes] at hn
  · obtain ⟨n, hn, -⟩ := hu
    simp [hnodes] at hn

theorem enter_first_spec {frame : Frame} (hp : p.Behaves valid b) (h : Sound valid b f x)
    (hnodes : x.nodes = .empty) (hpath : x.path = []) (hn : x.Stands n u)
    (hok : enter p (x.nodes.insert n).1 ⟨{ x with nodes := (x.nodes.insert n).2 }, log⟩ =
      .ok frame ⟨x', log'⟩) :
    Sound valid b f x' ∧ x'.reduction = x.reduction ∧ Proviso x'.marks ∧
      ∃ root, x'.Stores root u ∧ Outer (x'.Accepting f) root x'.marks [frame] := by
  have hfacts : ∀ i, x.marks.facts i = default := fun i => by simp [marks, hnodes]
  obtain ⟨-, -, hget⟩ := h.nodes.insert n
  have hstands : ∀ m ∈ [n], ∃ v, x.Stands m v := by simpa using ⟨u, hn⟩
  obtain ⟨hstored, hgrows, hmarks⟩ := h.store hstands
  obtain ⟨hsound, hgrows', ids, rfl, hexpand⟩ := enter_spec hp hstored hget hok
  rw [hmarks] at hexpand
  have hgrows := hgrows.trans hgrows'
  obtain ⟨reduced, heq, hreduced⟩ := hexpand.eq_of_new (by rw [Marks.successors_enter, hfacts]; rfl)
  have hoff : ∀ i, (x.marks.facts i).onPath = true ↔ i ∈ x.marks.path := by
    intro i
    rw [hfacts]
    simp [marks, hpath, default]
  refine ⟨hsound, hgrows.reduction, ?_, (x.nodes.insert n).1,
    ⟨n, hgrows'.nodes _ n hget, hgrows.stands hn⟩, ?_⟩
  · rw [heq]
    exact (Proviso.start hpath hfacts).enter hoff (by rw [hfacts]; rfl)
      (by simp [marks, hpath]) hreduced
  · rw [heq]
    exact Outer.start hpath hfacts reduced ids

def cleared (x : Search W S) : Search W S :=
  { x with
    nodes := .empty, path := [], visitedNodes := 0, transitions := 0, innerSearches := 0,
    reducedNodes := 0, maxDepth := 0 }

/-- A search starts by entering the root, the only node there is then. -/
theorem enter_of_start {stage : Stage} (hok : start p ⟨x, log⟩ = .ok stage ⟨x', log'⟩) :
    ∃ program space slog frame, StateSpace.initial p ⟨x.space, log⟩ = .ok program ⟨space, slog⟩ ∧
      enter p (x.cleared.nodes.insert ⟨program, x.property.initial, 0, true⟩).1
        ⟨{ x.cleared with
            space := space
            nodes := (x.cleared.nodes.insert ⟨program, x.property.initial, 0, true⟩).2 }, slog⟩ =
          .ok frame ⟨x', log'⟩ ∧
      stage = .outer [frame] := by
  simp only [start, clear, Task.bind_eq_ok, Task.change_eq_ok, inSpace_eq_ok, Task.read_eq_ok,
    store_eq_ok] at hok
  obtain ⟨_, _, rfl, program, _, ⟨⟨space, slog⟩, hspace, rfl⟩, _, _, ⟨rfl, rfl⟩, _, _,
      ⟨rfl, rfl⟩, hok⟩ := hok
  simp only [insertAll, Task.bind_eq_ok, Task.pure_eq_ok] at hok
  obtain ⟨frame, _, hframe, rfl, rfl⟩ := hok
  exact ⟨program, space, slog, frame, hspace, hframe, rfl⟩

theorem start_spec {stage : Stage} (hp : p.Behaves valid b) (h : Sound valid b f x)
    (hok : start p ⟨x, log⟩ = .ok stage ⟨x', log'⟩) :
    Sound valid b f x' ∧ x'.reduction = x.reduction ∧ Proviso x'.marks ∧
      ∃ root, Rooted b f x' root ∧ Invariant (x'.Accepting f) root x'.marks stage := by
  obtain ⟨program, space, slog, frame, hspace, hframe, rfl⟩ := enter_of_start hok
  obtain ⟨hspace, -, s, hs, hprogram⟩ := StateSpace.initial_spec hp h.space hspace
  let first : Search W S := { x.cleared with space := space }
  have hfirst : Sound valid b f first := sound_of_nodes_empty hspace h.property rfl
  have hstands : first.Stands ⟨program, x.property.initial, 0, true⟩
      ⟨s, .ofList [.next f], 0, true⟩ :=
    ⟨hprogram, h.property.initial, rfl, rfl⟩
  obtain ⟨hsound, hreduction, hproviso, root, hroot, houter⟩ :=
    enter_first_spec hp hfirst rfl rfl hstands hframe
  exact ⟨hsound, hreduction, hproviso, root, ⟨s, hs, hroot⟩, houter⟩

end

end Search

namespace Run

open Search

variable {W S η : Type} {p : Program W S} {valid : W → Prop} {b : Behaviour S} {f : Formula}
  {reduction : Bool} {x x' : Search W S} {log log' : List LogEvent} {r : Run W S}

def verdict? (r : Run W S) : Option (Verdict S) :=
  match r.status with
  | .ended verdict => verdict
  | _ => none

theorem verdict?_eq_some_iff {v : Verdict S} :
    r.verdict? = some v ↔ r.status = .ended (some v) := by
  obtain ⟨x, log, status⟩ := r
  cases status <;> simp [verdict?]

theorem search_cancel (r : Run W S) : r.cancel.search = r.search := by
  rw [Run.cancel]
  split <;> rfl

/-- What the search has established where a run stands. -/
def Justified (b : Behaviour S) (f : Formula) (x : Search W S) : RunStatus S → Prop
  | .going (.search stage) _ => Proviso x.marks ∧
      ∃ root, x.Rooted b f root ∧ Invariant (x.Accepting f) root x.marks stage
  | .ended (some .pass) =>
      Proviso x.marks ∧ ∃ root, x.Rooted b f root ∧ Outer (x.Accepting f) root x.marks []
  | .ended (some (.violation c)) => ∃ root path cycle, x.Rooted b f root ∧
      Closes (x.Accepting f) root x.marks path cycle ∧ x.Shown path c.path ∧ x.Shown cycle c.cycle
  | _ => True

section

variable [HasDigest S]

/-- A run that has not failed knows only what is right. -/
def Good (valid : W → Prop) (b : Behaviour S) (f : Formula) (reduction : Bool) (r : Run W S) :
    Prop :=
  (∃ fault, r.status = .failed fault) ∨
    r.search.Sound valid b f ∧ r.search.reduction = reduction ∧ Justified b f r.search r.status

theorem good_settle {t : Task (Search W S) (RunStatus S)}
    (h : ∀ status x' log', t ⟨x, log⟩ = .ok status ⟨x', log'⟩ →
      x'.Sound valid b f ∧ x'.reduction = reduction ∧ Justified b f x' status) :
    Good valid b f reduction (settle x log t) := by
  rw [settle]
  split
  · rename_i status x' log' hok
    exact .inr (h status x' log' hok)
  · rename_i fault _ _ _
    exact .inl ⟨fault, rfl⟩

theorem Good.of_verdict {v : Verdict S} (h : Good valid b f reduction r)
    (hv : r.verdict? = some v) :
    r.search.Sound valid b f ∧ r.search.reduction = reduction ∧
    Justified b f r.search (.ended (some v)) := by
  rw [verdict?_eq_some_iff] at hv
  rcases h with ⟨fault, hfault⟩ | h
  · rw [hv] at hfault
    cases hfault
  · rwa [hv] at h

theorem Good.cancel (h : Good valid b f reduction r) : Good valid b f reduction r.cancel := by
  rw [Run.cancel]
  split
  · rename_i stage later hstatus
    rcases h with ⟨fault, hfault⟩ | ⟨hsound, hreduction, -⟩
    · simp [hstatus] at hfault
    · exact .inr ⟨hsound, hreduction, trivial⟩
  · exact h

variable [DecidableEq S]

theorem nextJob_spec {jobs : List Job} {status : RunStatus S} (hp : p.Behaves valid b)
    (h : x.Sound valid b f) (hok : nextJob p jobs ⟨x, log⟩ = .ok status ⟨x', log'⟩) :
    x'.Sound valid b f ∧ x'.reduction = x.reduction ∧ Justified b f x' status := by
  cases jobs with
  | nil =>
      obtain ⟨rfl, hx⟩ := Task.pure_eq_ok.1 hok
      cases hx
      exact ⟨h, rfl, trivial⟩
  | cons job later =>
      cases job with
      | expandProgram =>
          simp only [nextJob, Task.bind_eq_ok, inSpace_eq_ok, Task.pure_eq_ok] at hok
          obtain ⟨id, _, ⟨⟨space, slog⟩, hid, rfl⟩, rfl, hx⟩ := hok
          cases hx
          obtain ⟨hspace, hgrows, -⟩ := StateSpace.initial_spec hp h.space hid
          exact ⟨h.grow hspace h.property ⟨hgrows, .refl _, fun _ _ h => h, rfl⟩, rfl, trivial⟩
      | expandProperty =>
          simp only [nextJob, Task.bind_eq_ok, Task.read_eq_ok, Task.pure_eq_ok] at hok
          obtain ⟨_, _, ⟨rfl, rfl⟩, rfl, hx⟩ := hok
          cases hx
          exact ⟨h, rfl, trivial⟩
      | search =>
          simp only [nextJob, Task.bind_eq_ok, Task.pure_eq_ok] at hok
          obtain ⟨stage, _, hstart, rfl, rfl⟩ := hok
          obtain ⟨hsound, hreduction, hproviso, root, hroot, hinv⟩ := start_spec hp h hstart
          exact ⟨hsound, hreduction, hproviso, root, hroot, hinv⟩

theorem act_spec {later : List Job} {stage : RunStage} {status : RunStatus S}
    (hp : p.Behaves valid b) (h : x.Sound valid b f) (hj : Justified b f x (.going stage later))
    (hok : act p later stage ⟨x, log⟩ = .ok status ⟨x', log'⟩) :
    x'.Sound valid b f ∧ x'.reduction = x.reduction ∧ Justified b f x' status := by
  cases stage with
  | program id sweep =>
      simp only [act, Task.bind_eq_ok, inSpace_eq_ok] at hok
      obtain ⟨ids, _, ⟨⟨space, slog⟩, hids, rfl⟩, hok⟩ := hok
      obtain ⟨hspace, hgrows, -⟩ := StateSpace.successors_spec hp h.space hids
      have hy := h.grow hspace h.property ⟨hgrows, .refl _, fun _ _ h => h, rfl⟩
      cases hnext : (sweep.push ids).next? with
      | some next =>
          obtain ⟨id, sweep⟩ := next
          simp only [hnext, Task.pure_eq_ok] at hok
          obtain ⟨rfl, hx⟩ := hok
          cases hx
          exact ⟨hy, rfl, trivial⟩
      | none =>
          simp only [hnext, Task.bind_eq_ok, Task.emit_eq_ok] at hok
          obtain ⟨_, _, rfl, hok⟩ := hok
          have hjob := nextJob_spec hp hy hok
          exact hjob
  | property id sweep =>
      simp only [act, Task.bind_eq_ok, inProperty_eq_ok] at hok
      obtain ⟨ids, _, ⟨⟨a, alog⟩, hids, rfl⟩, hok⟩ := hok
      obtain ⟨hproperty, hgrows, -⟩ := PropertyAutomaton.successors_spec h.property hids
      have hy := h.grow h.space hproperty ⟨fun _ _ h => h, hgrows, fun _ _ h => h, rfl⟩
      cases hnext : (sweep.push ids).next? with
      | some next =>
          obtain ⟨id, sweep⟩ := next
          simp only [hnext, Task.pure_eq_ok] at hok
          obtain ⟨rfl, hx⟩ := hok
          cases hx
          exact ⟨hy, rfl, trivial⟩
      | none =>
          simp only [hnext, Task.bind_eq_ok, Task.emit_eq_ok] at hok
          obtain ⟨_, _, rfl, hok⟩ := hok
          have hjob := nextJob_spec hp hy hok
          exact hjob
  | search stage =>
      simp only [act, Task.bind_eq_ok, Task.pure_eq_ok] at hok
      obtain ⟨progress, _, hstep, rfl, rfl⟩ := hok
      obtain ⟨hproviso, root, ⟨s, hs, hroot⟩, hinv⟩ := hj
      obtain ⟨hsound, hgrows, hproviso', outcome, hshows, hreports⟩ :=
        step_spec hp h hinv hproviso hstep
      have hroot' : x'.Rooted b f root := ⟨s, hs, hgrows.stores hroot⟩
      refine ⟨hsound, hgrows.reduction, ?_⟩
      cases hreports with
      | going => exact ⟨hproviso', root, hroot', hshows⟩
      | passed => exact ⟨hproviso', root, hroot', hshows⟩
      | closed hpath hcycle => exact ⟨root, _, _, hroot', hshows, hpath, hcycle⟩

theorem Good.step (hp : p.Behaves valid b) (h : Good valid b f reduction r) :
    Good valid b f reduction (r.step p) := by
  obtain ⟨x, log, status⟩ := r
  cases status with
  | going stage later =>
      rcases h with ⟨fault, hfault⟩ | ⟨hsound, hreduction, hj⟩
      · cases hfault
      · refine good_settle fun status x' log' hok => ?_
        obtain ⟨hsound', hreduction', hj'⟩ := act_spec hp hsound hj hok
        exact ⟨hsound', hreduction'.trans hreduction, hj'⟩
  | ended verdict => exact h
  | failed fault => exact h

/-- What steps and stopping keep, a whole run keeps, whoever drives it. -/
theorem drive_induction {P : Run W S → Prop} (hstep : ∀ r, P r → P (r.step p))
    (hcancel : ∀ r, P r → P r.cancel) (tick : Search W S → η → Bool × η) (limit : Nat) (h : η)
    (hr : P r) : P (drive p tick limit r h).1 := by
  induction limit generalizing r h with
  | zero => exact hr
  | succ limit ih =>
      rw [drive]
      split
      · cases hgo : (tick r.search h).1 with
        | true => simpa only [hgo, if_true] using ih (tick r.search h).2 (hstep r hr)
        | false => simpa [hgo] using hcancel r hr
      · exact hr

/-- Lets a tick keep something of all that it is shown and answers, the latest first. -/
def recording {β : Type} (keep : Search W S → Bool → β) (tick : Search W S → η → Bool × η)
    (x : Search W S) (h : η × List β) : Bool × η × List β :=
  ((tick x h.1).1, (tick x h.1).2, keep x (tick x h.1).1 :: h.2)

section

variable {β : Type} (keep : Search W S → Bool → β)

/-- A tick that records decides as it did without. -/
theorem drive_recording (tick : Search W S → η → Bool × η) (limit : Nat) (r : Run W S) (h : η)
    (kept : List β) :
    (drive p (recording keep tick) limit r (h, kept)).1 = (drive p tick limit r h).1 ∧
      (drive p (recording keep tick) limit r (h, kept)).2.1 = (drive p tick limit r h).2 := by
  induction limit generalizing r h kept with
  | zero => exact ⟨rfl, rfl⟩
  | succ limit ih =>
      rw [drive, drive]
      split
      · by_cases hgo : (tick r.search h).1 = true
        · simp only [recording, hgo, if_true]
          exact ih _ _ _
        · simp [recording, hgo]
      · exact ⟨rfl, rfl⟩

/-- What steps and stopping keep while they are recorded, a whole run keeps. -/
theorem recording_induction {P : Run W S → List β → Prop}
    (hstep : ∀ r kept stage later, r.status = .going stage later → P r kept →
      P (r.step p) (keep r.search true :: kept))
    (hcancel : ∀ r kept stage later, r.status = .going stage later → P r kept →
      P r.cancel (keep r.search false :: kept))
    (tick : Search W S → η → Bool × η) (limit : Nat) (h : η) {kept : List β} (hr : P r kept) :
    P (drive p (recording keep tick) limit r (h, kept)).1
      (drive p (recording keep tick) limit r (h, kept)).2.2 := by
  induction limit generalizing r h kept with
  | zero => exact hr
  | succ limit ih =>
      rw [drive]
      split
      · rename_i stage later hgoing
        cases hgo : (tick r.search h).1 with
        | true =>
            simp only [recording, hgo, if_true]
            exact ih _ (hstep r kept stage later hgoing hr)
        | false => simpa [recording, hgo] using hcancel r kept stage later hgoing hr
      · exact hr

end

theorem good_drive (hp : p.Behaves valid b) (hx : x.Sound valid b f)
    (tick : Search W S → η → Bool × η) (limit : Nat) (log : List LogEvent)
    (jobs : List Job) (h : η) :
    Good valid b f x.reduction (drive p tick limit (begin p x log jobs) h).1 :=
  drive_induction (fun _ hr => hr.step hp) (fun _ hr => hr.cancel) tick limit h
    (good_settle fun _ _ _ hok => nextJob_spec hp hx hok)

def Searching : RunStatus S → Prop
  | .going (.search _) _ => True
  | .going _ later => .search ∈ later
  | .ended verdict => verdict ≠ none
  | .failed _ => True

omit [HasDigest S] [DecidableEq S] in
theorem searching_settle {t : Task (Search W S) (RunStatus S)}
    (h : ∀ status l, t ⟨x, log⟩ = .ok status l → Searching status) :
    Searching (settle x log t).status := by
  rw [settle]
  split
  · rename_i hok
    exact h _ _ hok
  · trivial

theorem searching_nextJob {jobs : List Job} {status : RunStatus S} {l l' : Logged (Search W S)}
    (hjobs : .search ∈ jobs) (hok : nextJob p jobs l = .ok status l') : Searching status := by
  cases jobs with
  | nil => cases hjobs
  | cons job later =>
      cases job <;> simp only [nextJob, Task.bind_eq_ok, Task.pure_eq_ok] at hok
      · obtain ⟨_, _, -, rfl, -⟩ := hok
        simpa [Searching] using hjobs
      · obtain ⟨_, _, -, rfl, -⟩ := hok
        simpa [Searching] using hjobs
      · obtain ⟨_, _, -, rfl, -⟩ := hok
        trivial

theorem searching_act {later : List Job} {stage : RunStage} {status : RunStatus S}
    {l l' : Logged (Search W S)} (h : Searching (S := S) (.going stage later))
    (hok : act p later stage l = .ok status l') : Searching status := by
  cases stage with
  | program id sweep | property id sweep =>
      simp only [act, Task.bind_eq_ok] at hok
      obtain ⟨ids, _, -, hok⟩ := hok
      cases hnext : (sweep.push ids).next? with
      | some next =>
          simp only [hnext, Task.pure_eq_ok] at hok
          obtain ⟨rfl, -⟩ := hok
          exact h
      | none =>
          simp only [hnext, Task.bind_eq_ok] at hok
          obtain ⟨_, _, -, hok⟩ := hok
          exact searching_nextJob h hok
  | search stage =>
      simp only [act, Task.bind_eq_ok, Task.pure_eq_ok] at hok
      obtain ⟨progress, _, -, rfl, -⟩ := hok
      cases progress <;> simp [ofProgress, Searching]

/-- A run that has a search among its jobs does not end without a verdict. -/
theorem searching_drive (tick : Search W S → η → Bool × η) (limit : Nat) {jobs : List Job}
    (hjobs : .search ∈ jobs) (h : η) :
    Searching (drive p tick limit (begin p x log jobs) h).1.status := by
  refine drive_induction (P := fun r => Searching r.status) (fun r hr => ?_)
    (fun r hr => ?_) tick limit h (searching_settle fun _ _ hok => searching_nextJob hjobs hok)
  · obtain ⟨x, log, status⟩ := r
    cases status with
    | going stage later => exact searching_settle fun _ _ hok => searching_act hr hok
    | ended verdict => exact hr
    | failed fault => trivial
  · rw [Run.cancel]
    split
    · simp [Searching]
    · exact hr

end

end Run

end TemporalCheck
