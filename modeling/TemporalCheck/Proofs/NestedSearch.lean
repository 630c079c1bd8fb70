import Mathlib.Data.List.Chain
import Mathlib.Logic.Relation
import Mathlib.Tactic.Common
import TemporalCheck.Product.Search

/-!
Nested depth first search by the marks it sets on nodes. Main statements: a search that comes to
its end has met every node that can be reached, and no accepting node lies on a cycle; a search
that stops early stands at an accepting node that lies on one.
-/

namespace TemporalCheck

namespace Search

structure Marks where
  facts : Nat → NodeFacts
  path : List Nat

namespace Marks

def note (m : Marks) (id : Nat) (f : NodeFacts → NodeFacts) : Marks :=
  { m with facts := fun j => if j = id then f (m.facts j) else m.facts j }

def enter (m : Marks) (id : Nat) : Marks :=
  { m.note id fun f => { f with outer := true, onPath := true } with path := id :: m.path }

def leave (m : Marks) (id : Nat) : Marks :=
  { m.note id fun f => { f with onPath := false } with path := m.path.tail }

def redden (m : Marks) (id : Nat) : Marks := m.note id fun f => { f with inner := true }

def record (m : Marks) (id : Nat) (reduced : Bool) (ids : List Nat) : Marks :=
  m.note id fun f => { f with reduced := some reduced, successors := some ids }

def Edge (m : Marks) (i j : Nat) : Prop := ∃ ids, (m.facts i).successors = some ids ∧ j ∈ ids

def Finished (m : Marks) (id : Nat) : Prop :=
  (m.facts id).outer = true ∧ (m.facts id).onPath = false

/-- The successors of a node are known, or are recorded now. Those by an ample set are some, and
none of them is on the path. -/
inductive Expand (id : Nat) (ids : List Nat) (m : Marks) : Marks → Prop
  | known (h : (m.facts id).successors = some ids) : Expand id ids m m
  | new (reduced : Bool) (h : (m.facts id).successors = none)
      (hreduced : reduced = true → ids ≠ [] ∧ ∀ j ∈ ids, (m.facts j).onPath = false) :
      Expand id ids m (m.record id reduced ids)

section

variable (m : Marks) (id j : Nat) (reduced : Bool) (ids : List Nat)

@[simp] theorem path_enter : (m.enter id).path = id :: m.path := rfl
@[simp] theorem path_leave : (m.leave id).path = m.path.tail := rfl
@[simp] theorem path_redden : (m.redden id).path = m.path := rfl
@[simp] theorem path_record : (m.record id reduced ids).path = m.path := rfl

@[simp]
theorem outer_enter : ((m.enter id).facts j).outer = (decide (j = id) || (m.facts j).outer) := by
  by_cases h : j = id <;> simp [enter, note, h]

@[simp]
theorem onPath_enter : ((m.enter id).facts j).onPath = (decide (j = id) || (m.facts j).onPath) := by
  by_cases h : j = id <;> simp [enter, note, h]

@[simp]
theorem inner_enter : ((m.enter id).facts j).inner = (m.facts j).inner := by
  by_cases h : j = id <;> simp [enter, note, h]

@[simp]
theorem reduced_enter : ((m.enter id).facts j).reduced = (m.facts j).reduced := by
  by_cases h : j = id <;> simp [enter, note, h]

@[simp]
theorem successors_enter : ((m.enter id).facts j).successors = (m.facts j).successors := by
  by_cases h : j = id <;> simp [enter, note, h]

@[simp]
theorem outer_leave : ((m.leave id).facts j).outer = (m.facts j).outer := by
  by_cases h : j = id <;> simp [leave, note, h]

@[simp]
theorem onPath_leave : ((m.leave id).facts j).onPath =
    (!decide (j = id) && (m.facts j).onPath) := by
  by_cases h : j = id <;> simp [leave, note, h]

@[simp]
theorem inner_leave : ((m.leave id).facts j).inner = (m.facts j).inner := by
  by_cases h : j = id <;> simp [leave, note, h]

@[simp]
theorem reduced_leave : ((m.leave id).facts j).reduced = (m.facts j).reduced := by
  by_cases h : j = id <;> simp [leave, note, h]

@[simp]
theorem successors_leave : ((m.leave id).facts j).successors = (m.facts j).successors := by
  by_cases h : j = id <;> simp [leave, note, h]

@[simp]
theorem outer_redden : ((m.redden id).facts j).outer = (m.facts j).outer := by
  by_cases h : j = id <;> simp [redden, note, h]

@[simp]
theorem onPath_redden : ((m.redden id).facts j).onPath = (m.facts j).onPath := by
  by_cases h : j = id <;> simp [redden, note, h]

@[simp]
theorem inner_redden : ((m.redden id).facts j).inner = (decide (j = id) || (m.facts j).inner) := by
  by_cases h : j = id <;> simp [redden, note, h]

@[simp]
theorem reduced_redden : ((m.redden id).facts j).reduced = (m.facts j).reduced := by
  by_cases h : j = id <;> simp [redden, note, h]

@[simp]
theorem successors_redden : ((m.redden id).facts j).successors = (m.facts j).successors := by
  by_cases h : j = id <;> simp [redden, note, h]

@[simp]
theorem outer_record : ((m.record id reduced ids).facts j).outer = (m.facts j).outer := by
  by_cases h : j = id <;> simp [record, note, h]

@[simp]
theorem onPath_record : ((m.record id reduced ids).facts j).onPath = (m.facts j).onPath := by
  by_cases h : j = id <;> simp [record, note, h]

@[simp]
theorem inner_record : ((m.record id reduced ids).facts j).inner = (m.facts j).inner := by
  by_cases h : j = id <;> simp [record, note, h]

@[simp]
theorem reduced_record :
    ((m.record id reduced ids).facts j).reduced = if j =
      id then some reduced else (m.facts j).reduced := by
  by_cases h : j = id <;> simp [record, note, h]

@[simp]
theorem successors_record :
    ((m.record id reduced ids).facts j).successors = if j =
      id then some ids else (m.facts j).successors := by
  by_cases h : j = id <;> simp [record, note, h]

@[simp] theorem edge_enter : (m.enter id).Edge = m.Edge := by simp [Edge, funext_iff]
@[simp] theorem edge_leave : (m.leave id).Edge = m.Edge := by simp [Edge, funext_iff]
@[simp] theorem edge_redden : (m.redden id).Edge = m.Edge := by simp [Edge, funext_iff]

theorem edge_record_of_ne {i : Nat} (h : i ≠ id) :
    (m.record id reduced ids).Edge i j ↔ m.Edge i j := by
  simp [Edge, h]

theorem edge_record_self : (m.record id reduced ids).Edge id j ↔ j ∈ ids := by simp [Edge]

@[simp]
theorem finished_redden : (m.redden id).Finished j ↔ m.Finished j := by simp [Finished]

theorem finished_leave : (m.leave id).Finished j ↔ (m.facts j).outer = true ∧
    (j = id ∨ m.Finished j) := by
  simp only [Finished, outer_leave, onPath_leave]
  by_cases h : j = id <;> simp [h]

end

end Marks

inductive Outcome where
  | going (stage : Stage)
  | passed
  | closed (path cycle : List Nat)

def Outcome.resume : List Frame → Outcome
  | [] => .passed
  | frames => .going (.outer frames)

inductive Move (accepting : Nat → Prop) (m : Marks) : Stage → Marks → Outcome → Prop
  | done : Move accepting m (.outer []) m .passed
  | skip {n id rest below} (h : (m.facts id).outer = true) :
      Move accepting m (.outer (⟨n, id :: rest⟩ :: below)) m (.going (.outer (⟨n, rest⟩ :: below)))
  | enter {n id rest below ids m'} (h : (m.facts id).outer = false)
      (hids : (m.enter id).Expand id ids m') :
      Move accepting m (.outer (⟨n, id :: rest⟩ :: below)) m'
        (.going (.outer (⟨id, ids⟩ :: ⟨n, rest⟩ :: below)))
  | leave {n below} (h : ¬ accepting n) :
      Move accepting m (.outer (⟨n, []⟩ :: below)) (m.leave n) (.resume below)
  | seed {n below ids m'} (h : accepting n) (hids : (m.redden n).Expand n ids m') :
      Move accepting m (.outer (⟨n, []⟩ :: below)) m' (.going (.inner below n [⟨n, ids⟩]))
  | close {below seed n id rest frames} (h : (m.facts id).onPath = true) :
      Move accepting m (.inner below seed (⟨n, id :: rest⟩ :: frames)) m
        (.closed m.path.reverse ((n :: frames.map Frame.node).reverse ++ [id]))
  | skipInner {below seed n id rest frames} (h : (m.facts id).onPath = false)
      (hred : (m.facts id).inner = true) :
      Move accepting m (.inner below seed (⟨n, id :: rest⟩ :: frames)) m
        (.going (.inner below seed (⟨n, rest⟩ :: frames)))
  | enterInner {below seed n id rest frames ids m'} (h : (m.facts id).onPath = false)
      (hred : (m.facts id).inner = false) (hids : (m.redden id).Expand id ids m') :
      Move accepting m (.inner below seed (⟨n, id :: rest⟩ :: frames)) m'
        (.going (.inner below seed (⟨id, ids⟩ :: ⟨n, rest⟩ :: frames)))
  | back {below seed n frames} (h : frames ≠ []) :
      Move accepting m (.inner below seed (⟨n, []⟩ :: frames)) m (.going (.inner below seed frames))
  | leaveSeed {below seed frames} (h : frames = [] ∨ ∃ n, frames = [⟨n, []⟩]) :
      Move accepting m (.inner below seed frames) (m.leave seed) (.resume below)

/-- The outer search and its path: every frame has its first successors behind it, and so have
the nodes that are finished with all of theirs. -/
structure Walk (root : Nat) (m : Marks) (frames : List Frame) : Prop where
  path : m.path = frames.map Frame.node
  onPath : ∀ id, (m.facts id).onPath = true ↔ id ∈ m.path
  nodup : m.path.Nodup
  chain : m.path.IsChain fun j i => m.Edge i j
  bottom : m.path = [] ∨ m.path.getLast? = some root
  visited : ∀ id ∈ m.path, (m.facts id).outer = true
  expanded : ∀ id, (m.facts id).outer = (m.facts id).successors.isSome
  tried : ∀ t ∈ frames, ∃ done, (m.facts t.node).successors = some (done ++ t.rest) ∧
    ∀ j ∈ done, (m.facts j).outer = true
  closed : ∀ i j, m.Finished i → m.Edge i j → (m.facts j).outer = true
  root : (m.facts root).outer = true

/-- Accepting nodes that are finished are red, that is, an inner search has met them, and lie on
no cycle. -/
def Harmless (accepting : Nat → Prop) (m : Marks) : Prop :=
  ∀ a, m.Finished a → accepting a → (m.facts a).inner = true ∧ ¬ Relation.TransGen m.Edge a a

/-- Between inner searches: red nodes are finished and lead to red nodes only. -/
structure Outer (accepting : Nat → Prop) (root : Nat) (m : Marks) (frames : List Frame) : Prop where
  walk : Walk root m frames
  finished : ∀ i, (m.facts i).inner = true → m.Finished i
  closed : ∀ i j, (m.facts i).inner = true → m.Edge i j → (m.facts j).inner = true
  harmless : Harmless accepting m

/-- During an inner search: what a red node leads to is red and off the path, or the inner search
has still to try it. -/
structure Inner (accepting : Nat → Prop) (root : Nat) (m : Marks) (below : List Frame) (seed : Nat)
    (frames : List Frame) : Prop where
  walk : Walk root m (⟨seed, []⟩ :: below)
  accepts : accepting seed
  finished : ∀ i, (m.facts i).inner = true → i = seed ∨ m.Finished i
  closed : ∀ i j, (m.facts i).inner = true → m.Edge i j →
    (m.facts j).inner = true ∧ (m.facts j).onPath = false ∨ ∃ rest, ⟨i, rest⟩ ∈ frames ∧ j ∈ rest
  harmless : Harmless accepting m
  red : ∀ t ∈ frames, (m.facts t.node).inner = true
  ahead : ∀ t ∈ frames, ∀ j ∈ t.rest, m.Edge t.node j
  chain : (frames.map Frame.node).IsChain fun j i => m.Edge i j
  bottom : (frames.map Frame.node).getLast? = some seed

section

variable {accepting : Nat → Prop} {root n id seed : Nat} {m m' : Marks} {rest ids : List Nat}
  {below frames : List Frame} {reduced : Bool}

namespace Walk

theorem successors_eq_none (h : Walk root m frames) (hid : (m.facts id).outer = false) :
    (m.facts id).successors = none := by
  have := h.expanded id
  rw [hid] at this
  simpa using this.symm

theorem exists_successors (h : Walk root m frames) (hid : (m.facts id).outer = true) :
    ∃ ids, (m.facts id).successors = some ids := by
  rw [h.expanded] at hid
  exact Option.isSome_iff_exists.1 hid

theorem not_mem_path (h : Walk root m frames) (hid : (m.facts id).outer = false) : id ∉ m.path := by
  intro hmem
  rw [h.visited id hmem] at hid
  cases hid

theorem finished_or_mem (h : Walk root m frames) (hid : (m.facts id).outer = true) :
    m.Finished id ∨ id ∈ m.path := by
  cases hon : (m.facts id).onPath with
  | true => exact .inr ((h.onPath id).1 hon)
  | false => exact .inl ⟨hid, hon⟩

theorem skip (h : Walk root m (⟨n, id :: rest⟩ :: below)) (hid : (m.facts id).outer = true) :
    Walk root m (⟨n, rest⟩ :: below) := by
  refine { h with path := h.path, tried := fun t ht => ?_ }
  rcases List.mem_cons.1 ht with rfl | ht
  · obtain ⟨done, hdone, houter⟩ := h.tried _ List.mem_cons_self
    refine ⟨done ++ [id], by simpa using hdone, fun j hj => ?_⟩
    rcases List.mem_append.1 hj with hj | hj
    · exact houter j hj
    · exact List.mem_singleton.1 hj ▸ hid
  · exact h.tried t (List.mem_cons_of_mem _ ht)

theorem redden (h : Walk root m frames) (id : Nat) : Walk root (m.redden id) frames := by
  constructor <;> simp only [Marks.path_redden, Marks.onPath_redden, Marks.outer_redden,
    Marks.successors_redden, Marks.edge_redden, Marks.finished_redden]
  · exact h.path
  · exact h.onPath
  · exact h.nodup
  · exact h.chain
  · exact h.bottom
  · exact h.visited
  · exact h.expanded
  · exact h.tried
  · exact h.closed
  · exact h.root

theorem enter (h : Walk root m (⟨n, id :: rest⟩ :: below)) (hid : (m.facts id).outer = false)
    (reduced : Bool) (ids : List Nat) :
    Walk root ((m.enter id).record id reduced ids) (⟨id, ids⟩ :: ⟨n, rest⟩ :: below) := by
  have hnone := h.successors_eq_none hid
  have hnew := h.not_mem_path hid
  have hne : ∀ t ∈ (⟨n, id :: rest⟩ :: below : List Frame), t.node ≠ id := by
    rintro t ht rfl
    exact hnew (h.path ▸ List.mem_map_of_mem ht)
  have hedge : ∀ i j, m.Edge i j → ((m.enter id).record id reduced ids).Edge i j := by
    intro i j hij
    have hi : i ≠ id := by
      rintro rfl
      obtain ⟨ids, hids, -⟩ := hij
      rw [hnone] at hids
      cases hids
    rw [Marks.edge_record_of_ne _ _ _ _ _ hi]
    simpa using hij
  obtain ⟨done, hdone, houter⟩ := h.tried _ List.mem_cons_self
  refine ⟨?_, ?_, ?_, ?_, ?_, ?_, ?_, ?_, ?_, ?_⟩
  · simpa using h.path
  · intro j
    simp [h.onPath j]
  · simpa using ⟨hnew, h.nodup⟩
  · have hchain := h.chain.imp fun _ _ => hedge _ _
    simp only [Marks.path_record, Marks.path_enter]
    rw [h.path] at hchain ⊢
    exact List.IsChain.cons_cons (hedge _ _ ⟨_, hdone, by simp⟩) hchain
  · have hlast := h.bottom
    rw [h.path] at hlast
    simpa [h.path] using hlast
  · intro j hj
    simp only [Marks.path_record, Marks.path_enter, List.mem_cons] at hj
    rcases hj with rfl | hj
    · simp
    · simp [h.visited j hj]
  · intro j
    by_cases hj : j = id <;> simp [hj, h.expanded]
  · intro t ht
    rcases List.mem_cons.1 ht with rfl | ht
    · exact ⟨[], by simp, by simp⟩
    · rcases List.mem_cons.1 ht with rfl | ht
      · refine ⟨done ++ [id], ?_, fun j hj => ?_⟩
        · simpa [hne _ List.mem_cons_self] using hdone
        · rcases List.mem_append.1 hj with hj | hj
          · simp [houter j hj]
          · simp [List.mem_singleton.1 hj]
      · obtain ⟨done, hdone, houter⟩ := h.tried t (List.mem_cons_of_mem _ ht)
        refine ⟨done, ?_, fun j hj => by simp [houter j hj]⟩
        simpa [hne t (List.mem_cons_of_mem _ ht)] using hdone
  · rintro i j ⟨hi, hoff⟩ hij
    simp only [Marks.onPath_record, Marks.onPath_enter, Bool.or_eq_false_iff,
      decide_eq_false_iff_not] at hoff
    rw [Marks.edge_record_of_ne _ _ _ _ _ hoff.1, Marks.edge_enter] at hij
    have hi' : (m.facts i).outer = true := by simpa [hoff.1] using hi
    simp [h.closed i j ⟨hi', hoff.2⟩ hij]
  · simp [h.root]

theorem leave (h : Walk root m (⟨n, []⟩ :: below)) : Walk root (m.leave n) below := by
  have hpath := h.path
  have hnodup := h.nodup
  rw [h.path] at hnodup
  simp only [List.map_cons, List.nodup_cons] at hpath hnodup
  obtain ⟨done, hdone, houter⟩ := h.tried _ List.mem_cons_self
  refine ⟨?_, ?_, ?_, ?_, ?_, ?_, ?_, ?_, ?_, ?_⟩
  · simp [hpath]
  · intro j
    have hj := h.onPath j
    rw [hpath] at hj
    by_cases heq : j = n
    · simp [heq, hpath, hnodup.1]
    · simpa [heq, hpath] using hj
  · simpa [hpath] using hnodup.2
  · have hchain := h.chain
    rw [hpath] at hchain
    simpa [hpath] using hchain.tail
  · have hlast := h.bottom
    rw [hpath] at hlast
    cases below with
    | nil => simp [hpath]
    | cons t below => simpa [hpath] using hlast
  · intro j hj
    simpa using h.visited j (List.mem_of_mem_tail hj)
  · simpa using h.expanded
  · intro t ht
    simpa using h.tried t (List.mem_cons_of_mem _ ht)
  · intro i j hi hij
    rw [Marks.finished_leave] at hi
    rw [Marks.edge_leave] at hij
    rw [Marks.outer_leave]
    rcases hi with ⟨-, rfl | hi⟩
    · obtain ⟨ids, hids, hj⟩ := hij
      rw [hdone, Option.some.injEq] at hids
      exact houter j (by simpa [← hids] using hj)
    · exact h.closed i j hi hij
  · simpa using h.root

end Walk

theorem Marks.Expand.eq_of_known {done : List Nat} (h : m.Expand id ids m')
    (hdone : (m.facts id).successors = some done) : m' = m ∧ ids = done := by
  cases h with
  | known hids =>
      rw [hids, Option.some.injEq] at hdone
      exact ⟨rfl, hdone⟩
  | new reduced hnone => simp [hnone] at hdone

theorem Marks.Expand.eq_of_new (h : m.Expand id ids m') (hnone : (m.facts id).successors = none) :
    ∃ reduced, m' = m.record id reduced ids ∧
      (reduced = true → ids ≠ [] ∧ ∀ j ∈ ids, (m.facts j).onPath = false) := by
  cases h with
  | known hids => simp [hids] at hnone
  | new reduced _ hreduced => exact ⟨reduced, rfl, hreduced⟩

theorem Harmless.mono (h : Harmless accepting m)
    (hclosed : ∀ i j, (m.facts i).inner = true → m.Edge i j → (m.facts j).inner = true)
    (hedge : ∀ i j, (m.facts i).inner = true → m'.Edge i j → m.Edge i j)
    (hfinished : ∀ a, m'.Finished a → m.Finished a)
    (hred : ∀ a, (m.facts a).inner = true → (m'.facts a).inner = true) : Harmless accepting m' := by
  intro a ha hacc
  obtain ⟨hinner, hcycle⟩ := h a (hfinished a ha) hacc
  refine ⟨hred a hinner, fun hnew => hcycle ?_⟩
  have hold : ∀ b, Relation.TransGen m'.Edge a b → Relation.TransGen m.Edge a b ∧
      (m.facts b).inner = true := by
    intro b hb
    induction hb with
    | single hab =>
        have hab := hedge _ _ hinner hab
        exact ⟨.single hab, hclosed _ _ hinner hab⟩
    | tail _ hbc ih =>
        have hbc := hedge _ _ ih.2 hbc
        exact ⟨ih.1.tail hbc, hclosed _ _ ih.2 hbc⟩
  exact (hold a hnew).1

namespace Outer

theorem skip (h : Outer accepting root m (⟨n, id :: rest⟩ :: below))
    (hid : (m.facts id).outer = true) : Outer accepting root m (⟨n, rest⟩ :: below) :=
  { h with walk := h.walk.skip hid }

theorem enter (h : Outer accepting root m (⟨n, id :: rest⟩ :: below))
    (hid : (m.facts id).outer = false) (reduced : Bool) (ids : List Nat) :
    Outer accepting root ((m.enter id).record id reduced ids)
      (⟨id, ids⟩ :: ⟨n, rest⟩ :: below) := by
  have hne : ∀ i, (m.facts i).inner = true → i ≠ id := by
    rintro i hi rfl
    rw [(h.finished i hi).1] at hid
    cases hid
  have hedge : ∀ i j, (m.facts i).inner = true → ((m.enter id).record id reduced ids).Edge i j →
      m.Edge i j := by
    intro i j hi hij
    rwa [Marks.edge_record_of_ne _ _ _ _ _ (hne i hi), Marks.edge_enter] at hij
  refine ⟨h.walk.enter hid reduced ids, fun i hi => ?_, fun i j hi hij => ?_, ?_⟩
  · have hi : (m.facts i).inner = true := by simpa using hi
    obtain ⟨houter, hoff⟩ := h.finished i hi
    simp [Marks.Finished, houter, hoff, hne i hi]
  · have hi : (m.facts i).inner = true := by simpa using hi
    simpa using h.closed i j hi (hedge i j hi hij)
  · refine h.harmless.mono h.closed hedge (fun a ha => ?_) (fun a ha => by simpa using ha)
    simp only [Marks.Finished, Marks.outer_record, Marks.outer_enter, Marks.onPath_record,
      Marks.onPath_enter, Bool.or_eq_false_iff, decide_eq_false_iff_not] at ha
    exact ⟨by simpa [ha.2.1] using ha.1, ha.2.2⟩

theorem leave (h : Outer accepting root m (⟨n, []⟩ :: below)) (hn : ¬ accepting n) :
    Outer accepting root (m.leave n) below := by
  refine ⟨h.walk.leave, fun i hi => ?_, fun i j hi hij => ?_, fun a ha hacc => ?_⟩
  · have hi := h.finished i (by simpa using hi)
    exact (Marks.finished_leave ..).2 ⟨hi.1, .inr hi⟩
  · rw [Marks.inner_leave] at hi ⊢
    rw [Marks.edge_leave] at hij
    exact h.closed i j hi hij
  · rcases ((Marks.finished_leave ..).1 ha).2 with rfl | ha
    · exact absurd hacc hn
    · simpa using h.harmless a ha hacc

theorem startInner (h : Outer accepting root m (⟨n, []⟩ :: below)) (hn : accepting n)
    (hids : (m.facts n).successors = some ids) :
    Inner accepting root (m.redden n) below n [⟨n, ids⟩] := by
  refine ⟨h.walk.redden n, hn, fun i hi => ?_, fun i j hi hij => ?_, ?_, ?_, ?_, ?_, ?_⟩
  · simp only [Marks.inner_redden, Bool.or_eq_true, decide_eq_true_eq] at hi
    exact hi.imp_right fun hi => (Marks.finished_redden ..).2 (h.finished i hi)
  · simp only [Marks.inner_redden, Bool.or_eq_true, decide_eq_true_eq] at hi
    rw [Marks.edge_redden] at hij
    rcases hi with rfl | hi
    · obtain ⟨ids', hids', hj⟩ := hij
      rw [hids, Option.some.injEq] at hids'
      exact .inr ⟨ids, List.mem_singleton.2 rfl, hids' ▸ hj⟩
    · have hj := h.closed i j hi hij
      exact .inl ⟨by simp [hj], by simpa using (h.finished j hj).2⟩
  · exact h.harmless.mono h.closed (fun i j _ hij => by simpa using hij)
      (fun a ha => by simpa using ha)
      fun a ha => by simp [ha]
  · simp
  · intro t ht j hj
    rw [List.mem_singleton.1 ht] at hj ⊢
    rw [Marks.edge_redden]
    exact ⟨ids, hids, hj⟩
  · exact .singleton _
  · rfl

end Outer

namespace Inner

theorem skip (h : Inner accepting root m below seed (⟨n, id :: rest⟩ :: frames))
    (hoff : (m.facts id).onPath = false) (hred : (m.facts id).inner = true) :
    Inner accepting root m below seed (⟨n, rest⟩ :: frames) := by
  refine { h with
    closed := fun i j hi hij => ?_
    red := fun t ht => ?_
    ahead := fun t ht j hj => ?_ }
  · rcases h.closed i j hi hij with hj | ⟨r, hr, hj⟩
    · exact .inl hj
    · rcases List.mem_cons.1 hr with heq | hr
      · cases heq
        rcases List.mem_cons.1 hj with rfl | hj
        · exact .inl ⟨hred, hoff⟩
        · exact .inr ⟨rest, List.mem_cons_self, hj⟩
      · exact .inr ⟨r, List.mem_cons_of_mem _ hr, hj⟩
  · rcases List.mem_cons.1 ht with rfl | ht
    · exact h.red ⟨n, id :: rest⟩ List.mem_cons_self
    · exact h.red t (List.mem_cons_of_mem _ ht)
  · rcases List.mem_cons.1 ht with rfl | ht
    · exact h.ahead ⟨n, id :: rest⟩ List.mem_cons_self j (List.mem_cons_of_mem _ hj)
    · exact h.ahead t (List.mem_cons_of_mem _ ht) j hj

theorem outer_of_mem (h : Inner accepting root m below seed (⟨n, id :: rest⟩ :: frames)) :
    (m.facts id).outer = true := by
  have hedge := h.ahead _ List.mem_cons_self id List.mem_cons_self
  rcases h.finished n (h.red _ List.mem_cons_self) with rfl | hn
  · obtain ⟨done, hdone, houter⟩ := h.walk.tried _ List.mem_cons_self
    obtain ⟨ids, hids, hid⟩ := hedge
    rw [hdone, Option.some.injEq] at hids
    exact houter id (by simpa [← hids] using hid)
  · exact h.walk.closed n id hn hedge

theorem enter (h : Inner accepting root m below seed (⟨n, id :: rest⟩ :: frames))
    (hoff : (m.facts id).onPath = false) (hids : (m.facts id).successors = some ids) :
    Inner accepting root (m.redden id) below seed (⟨id, ids⟩ :: ⟨n, rest⟩ :: frames) := by
  have houter := h.outer_of_mem
  have hedge := h.ahead _ List.mem_cons_self id List.mem_cons_self
  have hred : ∀ i, (m.facts i).inner = true → ((m.redden id).facts i).inner = true :=
    fun i hi => by simp [hi]
  refine ⟨h.walk.redden id, h.accepts, fun i hi => ?_, fun i j hi hij => ?_, ?_, ?_, ?_, ?_, ?_⟩
  · simp only [Marks.inner_redden, Bool.or_eq_true, decide_eq_true_eq] at hi
    rw [Marks.finished_redden]
    rcases hi with rfl | hi
    · exact .inr ⟨houter, hoff⟩
    · exact h.finished i hi
  · simp only [Marks.inner_redden, Bool.or_eq_true, decide_eq_true_eq] at hi
    rw [Marks.edge_redden] at hij
    rw [Marks.onPath_redden]
    rcases hi with rfl | hi
    · obtain ⟨ids', hids', hj⟩ := hij
      rw [hids, Option.some.injEq] at hids'
      exact .inr ⟨ids, List.mem_cons_self, hids' ▸ hj⟩
    · rcases h.closed i j hi hij with ⟨hj, hjoff⟩ | ⟨r, hr, hj⟩
      · exact .inl ⟨hred j hj, hjoff⟩
      · rcases List.mem_cons.1 hr with heq | hr
        · cases heq
          rcases List.mem_cons.1 hj with rfl | hj
          · exact .inl ⟨by simp, hoff⟩
          · exact .inr ⟨rest, by simp, hj⟩
        · exact .inr ⟨r, by simp [hr], hj⟩
  · exact fun a ha hacc => by
      rw [Marks.finished_redden] at ha
      rw [Marks.edge_redden]
      exact (h.harmless a ha hacc).imp_left (hred a)
  · intro t ht
    rcases List.mem_cons.1 ht with rfl | ht
    · simp
    · rcases List.mem_cons.1 ht with rfl | ht
      · exact hred n (h.red _ List.mem_cons_self)
      · exact hred _ (h.red t (List.mem_cons_of_mem _ ht))
  · intro t ht j hj
    rw [Marks.edge_redden]
    rcases List.mem_cons.1 ht with rfl | ht
    · exact ⟨ids, hids, hj⟩
    · rcases List.mem_cons.1 ht with rfl | ht
      · exact h.ahead ⟨n, id :: rest⟩ List.mem_cons_self j (List.mem_cons_of_mem _ hj)
      · exact h.ahead t (List.mem_cons_of_mem _ ht) j hj
  · have hchain : (id :: n :: frames.map Frame.node).IsChain fun j i => m.Edge i j :=
      .cons_cons hedge h.chain
    simpa using hchain
  · simpa using h.bottom

theorem back (h : Inner accepting root m below seed (⟨n, []⟩ :: frames)) (hne : frames ≠ []) :
    Inner accepting root m below seed frames := by
  refine { h with
    closed := fun i j hi hij => ?_
    red := fun t ht => h.red t (List.mem_cons_of_mem _ ht)
    ahead := fun t ht => h.ahead t (List.mem_cons_of_mem _ ht)
    chain := h.chain.tail
    bottom := ?_ }
  · rcases h.closed i j hi hij with hj | ⟨r, hr, hj⟩
    · exact .inl hj
    · rcases List.mem_cons.1 hr with heq | hr
      · cases heq
        cases hj
      · exact .inr ⟨r, hr, hj⟩
  · obtain ⟨t, frames, rfl⟩ := List.exists_cons_of_ne_nil hne
    simpa using h.bottom

/-- An inner search that has tried everything shows that its seed lies on no cycle. -/
theorem leave (h : Inner accepting root m below seed [⟨n, []⟩]) :
    Outer accepting root (m.leave seed) below := by
  have hclosed : ∀ i j, (m.facts i).inner = true → m.Edge i j →
      (m.facts j).inner = true ∧ (m.facts j).onPath = false := by
    intro i j hi hij
    rcases h.closed i j hi hij with hj | ⟨r, hr, hj⟩
    · exact hj
    · rw [List.mem_singleton, Frame.mk.injEq] at hr
      simp [hr.2] at hj
  have hseed : (m.facts seed).inner = true := by
    have hn : n = seed := by simpa using h.bottom
    exact hn ▸ h.red _ List.mem_cons_self
  have hmem : seed ∈ m.path := by simp [h.walk.path]
  have hcycle : ¬ Relation.TransGen m.Edge seed seed := by
    intro hcycle
    have hoff : ∀ b, Relation.TransGen m.Edge seed b → (m.facts b).inner = true ∧
        (m.facts b).onPath = false := by
      intro b hb
      induction hb with
      | single hab => exact hclosed _ _ hseed hab
      | tail _ hbc ih => exact hclosed _ _ ih.1 hbc
    have hon := (h.walk.onPath seed).2 hmem
    simp [(hoff seed hcycle).2] at hon
  refine ⟨h.walk.leave, fun i hi => ?_, fun i j hi hij => ?_, fun a ha hacc => ?_⟩
  · rw [Marks.inner_leave] at hi
    rw [Marks.finished_leave]
    rcases h.finished i hi with rfl | hi
    · exact ⟨h.walk.visited i hmem, .inl rfl⟩
    · exact ⟨hi.1, .inr hi⟩
  · rw [Marks.inner_leave] at hi ⊢
    rw [Marks.edge_leave] at hij
    exact (hclosed i j hi hij).1
  · rw [Marks.inner_leave, Marks.edge_leave]
    rcases ((Marks.finished_leave ..).1 ha).2 with rfl | ha
    · exact ⟨hseed, hcycle⟩
    · exact h.harmless a ha hacc

end Inner

def Invariant (accepting : Nat → Prop) (root : Nat) (m : Marks) : Stage → Prop
  | .outer frames => Outer accepting root m frames
  | .inner below seed frames => Inner accepting root m below seed frames

/-- Only the nodes that the outer search has met matter. -/
theorem Invariant.congr {stage : Stage} (h : Invariant accepting root m stage)
    (accepting' : Nat → Prop)
    (hacc : ∀ i, (m.facts i).outer = true → (accepting i ↔ accepting' i)) :
    Invariant accepting' root m stage := by
  have hharmless : Harmless accepting m → Harmless accepting' m := fun h a ha hacc' =>
    h a ha ((hacc a ha.1).2 hacc')
  cases stage with
  | outer frames =>
      exact ⟨h.walk, h.finished, h.closed, hharmless h.harmless⟩
  | inner below seed frames =>
      have hseed : (m.facts seed).outer = true := h.walk.visited seed (by simp [h.walk.path])
      exact { h with accepts := (hacc seed hseed).1 h.accepts, harmless := hharmless h.harmless }

/-- A path from the root to an accepting node, and a cycle from there back to the path. -/
structure Closes (accepting : Nat → Prop) (root : Nat) (m : Marks) (path cycle : List Nat) :
    Prop where
  linked : path.IsChain m.Edge
  start : path.head? = some root
  looped : cycle.IsChain m.Edge
  seed : ∃ seed, accepting seed ∧ path.getLast? = some seed ∧ cycle.head? = some seed
  long : 2 ≤ cycle.length
  back : ∃ id ∈ path, cycle.getLast? = some id

def Outcome.Shows (accepting : Nat → Prop) (root : Nat) (m : Marks) : Outcome → Prop
  | .going stage => Invariant accepting root m stage
  | .passed => Outer accepting root m []
  | .closed path cycle => Closes accepting root m path cycle

theorem Outer.resume (h : Outer accepting root m below) :
    (Outcome.resume below).Shows accepting root m := by
  cases below with
  | nil => exact h
  | cons t below => exact h

theorem Inner.closes (h : Inner accepting root m below seed (⟨n, id :: rest⟩ :: frames))
    (hid : (m.facts id).onPath = true) :
    Closes accepting root m m.path.reverse ((n :: frames.map Frame.node).reverse ++ [id]) := by
  have hpath := h.walk.path
  have hchain := h.chain
  have hedge := h.ahead _ List.mem_cons_self id List.mem_cons_self
  refine ⟨?_, ?_, ?_, ⟨seed, h.accepts, ?_, ?_⟩, by simp, id, ?_, by simp⟩
  · rw [List.isChain_reverse]
    exact h.walk.chain
  · rw [List.head?_reverse]
    refine h.walk.bottom.resolve_left ?_
    simp [hpath]
  · rw [← List.reverse_cons, List.isChain_reverse]
    exact .cons_cons hedge hchain
  · simp [hpath]
  · have hbottom := h.bottom
    rw [List.map_cons] at hbottom
    rw [List.head?_append, List.head?_reverse, hbottom]
    rfl
  · simpa using (h.walk.onPath id).1 hid

theorem Outer.start (hpath : m.path = []) (hfacts : ∀ i, m.facts i = default) (reduced : Bool)
    (ids : List Nat) :
    Outer accepting root ((m.enter root).record root reduced ids) [⟨root, ids⟩] := by
  have houter : ∀ i, (m.facts i).outer = false := fun i => by rw [hfacts]; rfl
  have hoff : ∀ i, (m.facts i).onPath = false := fun i => by rw [hfacts]; rfl
  have hinner : ∀ i, (m.facts i).inner = false := fun i => by rw [hfacts]; rfl
  have hnone : ∀ i, (m.facts i).successors = none := fun i => by rw [hfacts]; rfl
  have hfinished : ∀ i, ¬ ((m.enter root).record root reduced ids).Finished i := by
    intro i
    by_cases hi : i = root <;> simp [Marks.Finished, hi, houter]
  refine ⟨⟨?_, ?_, ?_, ?_, ?_, ?_, ?_, ?_, ?_, ?_⟩, ?_, ?_, fun a ha => absurd ha (hfinished a)⟩
  · simp [hpath]
  · simp [hpath, hoff]
  · simp [hpath]
  · simp [hpath]
  · simp [hpath]
  · simp [hpath]
  · intro i
    by_cases hi : i = root <;> simp [hi, houter, hnone]
  · intro t ht
    rw [List.mem_singleton.1 ht]
    exact ⟨[], by simp, by simp⟩
  · exact fun i j hi => absurd hi (hfinished i)
  · simp
  · simp [hinner]
  · simp [hinner]

/-- Every step of the search keeps the invariant, and what it ends with is justified. -/
theorem Move.shows {stage : Stage} {outcome : Outcome} (h : Move accepting m stage m' outcome)
    (hinv : Invariant accepting root m stage) : outcome.Shows accepting root m' := by
  cases h with
  | done => exact hinv
  | skip hid => exact Outer.skip hinv hid
  | enter hid hids =>
      have hnone := (Outer.walk hinv).successors_eq_none hid
      obtain ⟨reduced, rfl, -⟩ := hids.eq_of_new (by simpa using hnone)
      exact Outer.enter hinv hid reduced _
  | leave hn => exact (Outer.leave hinv hn).resume
  | seed hn hids =>
      obtain ⟨done, hdone, -⟩ := (Outer.walk hinv).tried _ List.mem_cons_self
      obtain ⟨rfl, rfl⟩ := hids.eq_of_known (by simpa using hdone)
      exact Outer.startInner hinv hn (by simpa using hdone)
  | close hid => exact Inner.closes hinv hid
  | skipInner hoff hred => exact Inner.skip hinv hoff hred
  | enterInner hoff hred hids =>
      obtain ⟨done, hdone⟩ := (Inner.walk hinv).exists_successors (Inner.outer_of_mem hinv)
      obtain ⟨rfl, rfl⟩ := hids.eq_of_known (by simpa using hdone)
      exact Inner.enter hinv hoff hdone
  | back hne => exact Inner.back hinv hne
  | leaveSeed hframes =>
      rcases hframes with rfl | ⟨n, rfl⟩
      · simpa using Inner.bottom hinv
      · exact (Inner.leave hinv).resume

/-- A search that has passed has finished every node it can reach, and has found no accepting
node on a cycle. -/
theorem Outer.reachable (h : Outer accepting root m []) {j : Nat}
    (hj : Relation.ReflTransGen m.Edge root j) :
    m.Finished j ∧ (∃ ids, (m.facts j).successors = some ids) ∧
      (accepting j → ¬ Relation.TransGen m.Edge j j) := by
  have hpath : m.path = [] := h.walk.path
  have houter : ∀ j, (m.facts j).outer = true → m.Finished j := fun j hj =>
    (h.walk.finished_or_mem hj).resolve_right (by simp [hpath])
  have hfinished : m.Finished j := by
    induction hj with
    | refl => exact houter root h.walk.root
    | tail _ hij ih => exact houter _ (h.walk.closed _ _ ih hij)
  exact ⟨hfinished, h.walk.exists_successors hfinished.1,
    fun hacc => (h.harmless j hfinished hacc).2⟩

end

end Search

end TemporalCheck
