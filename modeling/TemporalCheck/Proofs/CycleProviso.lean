import TemporalCheck.Proofs.NestedSearch

namespace TemporalCheck

namespace Search

open Relation

namespace Marks

def ReducedEdge (m : Marks) (i j : Nat) : Prop := (m.facts i).reduced = some true ∧ m.Edge i j

@[simp] theorem reducedEdge_leave (m : Marks) (id : Nat) :
    (m.leave id).ReducedEdge = m.ReducedEdge := by
  simp [ReducedEdge, funext_iff]

@[simp] theorem reducedEdge_redden (m : Marks) (id : Nat) :
    (m.redden id).ReducedEdge = m.ReducedEdge := by
  simp [ReducedEdge, funext_iff]

theorem reducedEdge_record_of_ne (m : Marks) {id i j : Nat} (reduced : Bool) (ids : List Nat)
    (h : i ≠ id) : ((m.enter id).record id reduced ids).ReducedEdge i j ↔ m.ReducedEdge i j := by
  simp only [ReducedEdge, reduced_record, reduced_enter, h, if_false, edge_record_of_ne _ _ _ _ _ h,
    edge_enter]

end Marks

/-- Ample sets lead somewhere, on the path they lead upwards only, and from finished nodes to
finished nodes, without a cycle. -/
structure Proviso (m : Marks) : Prop where
  nonempty : ∀ i, (m.facts i).reduced = some true → ∃ j, m.Edge i j
  above : ∀ pre i post, m.path = pre ++ i :: post → ∀ j, m.ReducedEdge i j → j ∉ i :: post
  finished : ∀ i j, m.Finished i → m.ReducedEdge i j → m.Finished j
  acyclic : ∀ i, m.Finished i → ¬ TransGen m.ReducedEdge i i

namespace Proviso

variable {accepting : Nat → Prop} {root n id : Nat} {m m' : Marks} {ids : List Nat}
  {below : List Frame}

theorem start (hpath : m.path = []) (hfacts : ∀ i, m.facts i = default) : Proviso m := by
  have hreduced : ∀ i, (m.facts i).reduced = none := fun i => by rw [hfacts]; rfl
  refine ⟨fun i hi => ?_, fun pre i post hi => ?_, fun i j hi hij => ?_, fun i hi => ?_⟩
  · simp [hreduced] at hi
  · simp [hpath] at hi
  · simp [Marks.ReducedEdge, hreduced] at hij
  · have : (m.facts i).outer = false := by rw [hfacts]; rfl
    simp [Marks.Finished, this] at hi

theorem redden (h : Proviso m) (id : Nat) : Proviso (m.redden id) := by
  constructor <;> simp only [Marks.path_redden, Marks.reduced_redden, Marks.edge_redden,
    Marks.reducedEdge_redden, Marks.finished_redden]
  · exact h.nonempty
  · exact h.above
  · exact h.finished
  · exact h.acyclic

theorem transGen_of_finished (h : Proviso m)
    (hedge : ∀ i j, m.Finished i → m'.ReducedEdge i j → m.ReducedEdge i j) {i j : Nat}
    (hi : m.Finished i) (hij : TransGen m'.ReducedEdge i j) :
    TransGen m.ReducedEdge i j ∧ m.Finished j := by
  induction hij with
  | single hij =>
      have hij := hedge _ _ hi hij
      exact ⟨.single hij, h.finished _ _ hi hij⟩
  | tail _ hjk ih =>
      have hjk := hedge _ _ ih.2 hjk
      exact ⟨ih.1.tail hjk, h.finished _ _ ih.2 hjk⟩

theorem enter (h : Proviso m) (honPath : ∀ i, (m.facts i).onPath = true ↔ i ∈ m.path)
    (hid : (m.facts id).outer = false) (hnew : id ∉ m.path) {reduced : Bool}
    (hreduced : reduced = true → ids ≠ [] ∧ ∀ j ∈ ids, ((m.enter id).facts j).onPath = false) :
    Proviso ((m.enter id).record id reduced ids) := by
  have hfinished : ∀ i, ((m.enter id).record id reduced ids).Finished i ↔ m.Finished i := by
    intro i
    by_cases hi : i = id
    · simp [Marks.Finished, hi, hid]
    · simp [Marks.Finished, hi]
  have hne : ∀ i, m.Finished i → i ≠ id := by
    rintro i hi rfl
    simp [hi.1] at hid
  have hedge : ∀ i j, m.Finished i → ((m.enter id).record id reduced ids).ReducedEdge i j →
      m.ReducedEdge i j :=
    fun i j hi => (Marks.reducedEdge_record_of_ne _ _ _ (hne i hi)).1
  refine ⟨fun i hi => ?_, fun pre i post hpath j hij => ?_, fun i j hi hij => ?_,
    fun i hi hcycle => ?_⟩
  · by_cases heq : i = id
    · subst heq
      obtain ⟨j, hj⟩ := List.exists_mem_of_ne_nil _ (hreduced (by simpa using hi)).1
      exact ⟨j, (Marks.edge_record_self ..).2 hj⟩
    · obtain ⟨j, hj⟩ := h.nonempty i (by simpa [heq] using hi)
      exact ⟨j, (Marks.edge_record_of_ne _ _ _ _ _ heq).2 (by simpa using hj)⟩
  · simp only [Marks.path_record, Marks.path_enter] at hpath
    cases pre with
    | nil =>
        simp only [List.nil_append, List.cons.injEq] at hpath
        obtain ⟨rfl, rfl⟩ := hpath
        have hj := (hreduced (by simpa using hij.1)).2 j ((Marks.edge_record_self ..).1 hij.2)
        have hoff := honPath j
        simp_all
    | cons first pre =>
        simp only [List.cons_append, List.cons.injEq] at hpath
        obtain ⟨rfl, hpath⟩ := hpath
        have hi : i ≠ id := by
          rintro rfl
          simp [hpath] at hnew
        exact h.above pre i post hpath j ((Marks.reducedEdge_record_of_ne _ _ _ hi).1 hij)
  · rw [hfinished] at hi ⊢
    exact h.finished i j hi (hedge i j hi hij)
  · rw [hfinished] at hi
    exact h.acyclic i hi (h.transGen_of_finished hedge hi hcycle).1

theorem leave (h : Proviso m) (hwalk : Walk root m (⟨n, []⟩ :: below)) : Proviso (m.leave n) := by
  have hpath : m.path = n :: below.map Frame.node := hwalk.path
  have hfinished : ∀ i, m.Finished i → (m.leave n).Finished i := fun i hi =>
    (Marks.finished_leave ..).2 ⟨hi.1, .inr hi⟩
  -- what the node leads to by an ample set is finished before it
  have hbefore : ∀ j, m.ReducedEdge n j → m.Finished j := by
    intro j hj
    obtain ⟨done, hdone, houter⟩ := hwalk.tried _ List.mem_cons_self
    obtain ⟨ids, hids, hmem⟩ := hj.2
    rw [hdone, Option.some.injEq] at hids
    refine (hwalk.finished_or_mem (houter j (by simpa [← hids] using hmem))).resolve_right ?_
    rw [hpath]
    exact h.above [] n _ hpath j hj
  have hn : ¬ m.Finished n := by
    rintro ⟨-, hoff⟩
    have hon := (hwalk.onPath n).2 (by simp [hpath])
    simp [hoff] at hon
  refine ⟨fun i hi => ?_, fun pre i post hi j hij => ?_, fun i j hi hij => ?_,
    fun i hi hcycle => ?_⟩
  · simpa using h.nonempty i (by simpa using hi)
  · rw [Marks.reducedEdge_leave] at hij
    refine h.above (n :: pre) i post ?_ j hij
    rw [hpath, List.cons_append, ← hi]
    simp [hpath]
  · rw [Marks.reducedEdge_leave] at hij
    rcases ((Marks.finished_leave ..).1 hi).2 with rfl | hi
    · exact hfinished j (hbefore j hij)
    · exact hfinished j (h.finished i j hi hij)
  · rw [Marks.reducedEdge_leave] at hcycle
    rcases ((Marks.finished_leave ..).1 hi).2 with rfl | hi
    · obtain ⟨j, hij, hji⟩ := TransGen.head'_iff.1 hcycle
      rcases reflTransGen_iff_eq_or_transGen.1 hji with rfl | hji
      · exact hn (hbefore _ hij)
      · exact hn (h.transGen_of_finished (fun _ _ _ h => h) (hbefore j hij) hji).2
    · exact h.acyclic i hi hcycle

/-- On the path ample sets lead upwards, and from finished nodes they do not lead back to it, so no
cycle is made of them. -/
theorem not_reducedCycle {frames : List Frame} (h : Proviso m) (hwalk : Walk root m frames)
    (i : Nat) : ¬ TransGen m.ReducedEdge i i := by
  intro hcycle
  have houter : ∀ j k, m.ReducedEdge j k → (m.facts j).outer = true := by
    rintro j k ⟨-, ids, hids, -⟩
    rw [hwalk.expanded, hids]
    rfl
  have hmem : ∀ j, TransGen m.ReducedEdge j i → j ∈ m.path := by
    intro j hj
    obtain ⟨k, hjk, -⟩ := TransGen.head'_iff.1 hj
    refine (hwalk.finished_or_mem (houter j k hjk)).resolve_left fun hfinished => ?_
    obtain ⟨-, hi⟩ := h.transGen_of_finished (fun _ _ _ h => h) hfinished hj
    exact h.acyclic i hi hcycle
  have hdeeper : ∀ j k, j ∈ m.path → k ∈ m.path → m.ReducedEdge j k →
      m.path.idxOf k < m.path.idxOf j := by
    intro j k hj hk hjk
    obtain ⟨pre, post, hpath⟩ := List.append_of_mem hj
    have hnodup := hwalk.nodup
    have hnot := h.above pre j post hpath k hjk
    rw [hpath] at hk hnodup ⊢
    have hpre : k ∈ pre := (List.mem_append.1 hk).resolve_right hnot
    have hj : j ∉ pre := fun hj => (List.nodup_append.1 hnodup).2.2 j hj j List.mem_cons_self rfl
    rw [List.idxOf_append_of_mem hpre, List.idxOf_append_of_notMem hj]
    exact Nat.lt_add_right _ (List.idxOf_lt_length_iff.2 hpre)
  have hbelow : ∀ j, TransGen m.ReducedEdge i j → TransGen m.ReducedEdge j i →
      m.path.idxOf j < m.path.idxOf i := by
    intro j hij hji
    induction hij with
    | single hij => exact hdeeper _ _ (hmem i hcycle) (hmem _ hji) hij
    | tail _ hkj ih =>
        have hki := TransGen.head hkj hji
        exact (hdeeper _ _ (hmem _ hki) (hmem _ hji) hkj).trans (ih hki)
  exact Nat.lt_irrefl _ (hbelow i hcycle hcycle)

end Proviso

theorem Invariant.exists_walk {accepting : Nat → Prop} {root : Nat} {m : Marks} {stage : Stage}
    (h : Invariant accepting root m stage) : ∃ frames, Walk root m frames := by
  cases stage with
  | outer frames => exact ⟨frames, h.walk⟩
  | inner below seed frames => exact ⟨_, h.walk⟩

/-- Every step of the search keeps the proviso. -/
theorem Move.proviso {accepting : Nat → Prop} {root : Nat} {m m' : Marks} {stage : Stage}
    {outcome : Outcome} (h : Move accepting m stage m' outcome)
    (hinv : Invariant accepting root m stage) (hm : Proviso m) : Proviso m' := by
  cases h with
  | done => exact hm
  | skip => exact hm
  | enter hid hids =>
      have hwalk := Outer.walk hinv
      obtain ⟨reduced, rfl, hreduced⟩ :=
        hids.eq_of_new (by simpa using hwalk.successors_eq_none hid)
      exact hm.enter hwalk.onPath hid (hwalk.not_mem_path hid) hreduced
  | leave => exact hm.leave (Outer.walk hinv)
  | seed hn hids =>
      obtain ⟨done, hdone, -⟩ := (Outer.walk hinv).tried _ List.mem_cons_self
      obtain ⟨rfl, rfl⟩ := hids.eq_of_known (by simpa using hdone)
      exact hm.redden _
  | close => exact hm
  | skipInner => exact hm
  | enterInner hoff hred hids =>
      obtain ⟨done, hdone⟩ := (Inner.walk hinv).exists_successors (Inner.outer_of_mem hinv)
      obtain ⟨rfl, rfl⟩ := hids.eq_of_known (by simpa using hdone)
      exact hm.redden _
  | back => exact hm
  | leaveSeed => exact hm.leave (Inner.walk hinv)

/-- Nothing changes when a cycle is closed. -/
theorem Move.eq_of_closed {accepting : Nat → Prop} {m m' : Marks} {stage : Stage}
    {outcome : Outcome} {path cycle : List Nat} (h : Move accepting m stage m' outcome)
    (hclosed : outcome = .closed path cycle) : m' = m := by
  cases h with
  | @leave n below | @leaveSeed below => cases below <;> cases hclosed
  | _ => first | rfl | cases hclosed

theorem Move.not_reducedCycle {accepting : Nat → Prop} {root : Nat} {m m' : Marks} {stage : Stage}
    {outcome : Outcome} (h : Move accepting m stage m' outcome)
    (hinv : Invariant accepting root m stage) (hm : Proviso m) (i : Nat) :
    ¬ TransGen m'.ReducedEdge i i := by
  have hm' := h.proviso hinv hm
  have hshows := h.shows hinv
  cases outcome with
  | going stage =>
      obtain ⟨frames, hwalk⟩ := Invariant.exists_walk hshows
      exact hm'.not_reducedCycle hwalk i
  | passed => exact hm'.not_reducedCycle (Outer.walk hshows) i
  | closed path cycle =>
      obtain rfl := h.eq_of_closed rfl
      obtain ⟨frames, hwalk⟩ := hinv.exists_walk
      exact hm.not_reducedCycle hwalk i

end Search

end TemporalCheck
