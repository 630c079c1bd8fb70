import Mathlib.Order.Bounds.Basic
import TemporalCheck.Proofs.SearchSteps

namespace TemporalCheck

namespace Search

variable {W S : Type} {root : Nat} {y z : Search W S} {seen earlier : List (Search W S)}

def lengths (seen : List (Search W S)) : Set Nat := {n | ∃ y ∈ seen, y.path.length = n}

theorem Follows.greatest (h : Follows z y) (hz : IsGreatest (lengths (z :: earlier)) z.maxDepth) :
    IsGreatest (lengths (y :: z :: earlier)) y.maxDepth := by
  rw [h.depth]
  constructor
  · by_cases hle : y.path.length ≤ z.maxDepth
    · obtain ⟨w, hw, hlength⟩ := hz.1
      rw [max_eq_left hle]
      exact ⟨w, List.mem_cons_of_mem _ hw, hlength⟩
    · rw [max_eq_right (Nat.le_of_not_le hle)]
      exact ⟨y, List.mem_cons_self, rfl⟩
  · rintro n ⟨w, hw, rfl⟩
    rcases List.mem_cons.1 hw with rfl | hw
    · exact Nat.le_max_right _ _
    · exact (hz.2 ⟨w, hw, rfl⟩).trans (Nat.le_max_left _ _)

structure Looks (root : Nat) (seen : List (Search W S)) : Prop where
  treads : ∀ y ∈ seen, Treads root y
  linked : seen.IsChain fun y z => Follows z y
  greatest : ∀ y earlier, y :: earlier <:+ seen → IsGreatest (lengths (y :: earlier)) y.maxDepth

namespace Looks

theorem singleton (h : Treads root y) (hdepth : y.maxDepth = y.path.length) : Looks root [y] := by
  refine ⟨by simpa using h, .singleton y, fun z earlier hsuffix => ?_⟩
  have heq : z :: earlier = [y] := by
    rcases List.suffix_cons_iff.1 hsuffix with heq | hnil
    · exact heq
    · simp at hnil
  cases heq
  refine ⟨⟨y, List.mem_cons_self, hdepth.symm⟩, ?_⟩
  rintro n ⟨w, hw, rfl⟩
  rw [List.mem_singleton.1 hw]
  exact h.depth

theorem cons (h : Looks root (z :: seen)) (hfollows : Follows z y) (htreads : Treads root y) :
    Looks root (y :: z :: seen) := by
  refine ⟨List.forall_mem_cons.2 ⟨htreads, h.treads⟩, .cons_cons hfollows h.linked,
    fun w earlier hsuffix => ?_⟩
  rcases List.suffix_cons_iff.1 hsuffix with heq | hsuffix
  · cases heq
    exact hfollows.greatest (h.greatest z seen (List.suffix_refl _))
  · exact h.greatest w earlier hsuffix

end Looks

end Search

namespace Run

open Search TemporalCheck.Task

variable {W S η : Type} {p : Program W S} {x : Search W S} {log : List LogEvent}
  {r : Run W S} {root : Nat} {seen : List (Search W S)}

theorem settle_meets {P : Run W S → Prop} {t : Task (Search W S) (RunStatus S)}
    (h : t.Meets ⟨x, log⟩ (fun status l => P ⟨l.state, l.log, status⟩)
      fun e l => P ⟨l.state, l.log, .failed e⟩) :
    P (settle x log t) := by
  rw [settle]
  split
  · rename_i hok
    exact h.ok hok
  · rename_i herror
    exact h.error herror

def Stays (root : Nat) (x : Search W S) : RunStatus S → Prop
  | .going (.search stage) _ => Standing root x stage
  | .going _ _ => False
  | .ended (some .pass) => x.path = []
  | _ => True

structure Watched (root : Nat) (r : Run W S) (seen : List (Search W S)) : Prop where
  looks : Looks root (r.search :: seen)
  away : ∀ y ∈ seen, y.path ≠ []
  stays : Stays root r.search r.status

theorem treads_of_arrives {progress : Progress S} (h : Arrives root x progress) :
    Treads root x ∧ Stays root x (ofProgress progress) := by
  rcases progress with stage | _ | _ | _
  · exact ⟨h.toTreads, h⟩
  · exact h
  · exact ⟨h, trivial⟩
  · exact ⟨h, trivial⟩

section

variable [DecidableEq S] [HasDigest S]

namespace Watched

omit [DecidableEq S] [HasDigest S] in
theorem away_cons {stage : RunStage} {later : List Job} (h : Watched root r seen)
    (hgoing : r.status = .going stage later) :
    ∃ s, stage = .search s ∧ Standing root r.search s ∧ ∀ y ∈ r.search :: seen, y.path ≠ [] := by
  have hstays := h.stays
  rw [hgoing] at hstays
  cases stage with
  | program | property => exact hstays.elim
  | search s => exact ⟨s, rfl, hstays, List.forall_mem_cons.2 ⟨hstays.away, h.away⟩⟩

theorem step {stage : RunStage} {later : List Job} (h : Watched root r seen)
    (hgoing : r.status = .going stage later) : Watched root (r.step p) (r.search :: seen) := by
  obtain ⟨s, rfl, hstanding, haway⟩ := h.away_cons hgoing
  obtain ⟨x, log, status⟩ := r
  obtain rfl : status = .going (.search s) later := hgoing
  change Watched root (settle x log (act p later (.search s))) (x :: seen)
  refine settle_meets (P := fun r => Watched root r (x :: seen)) ?_
  rw [act, meets_bind]
  refine (step_ends hstanding).mono (fun progress l hl => ?_) fun e l hl => ?_
  · obtain ⟨htreads, hstays⟩ := treads_of_arrives hl.2
    exact ⟨h.looks.cons hl.1 htreads, haway, hstays⟩
  · exact ⟨h.looks.cons hl.1 hl.2, haway, trivial⟩

omit [DecidableEq S] [HasDigest S] in
theorem cancel {stage : RunStage} {later : List Job} (h : Watched root r seen)
    (hgoing : r.status = .going stage later) : Watched root r.cancel (r.search :: seen) := by
  obtain ⟨_, -, hstanding, haway⟩ := h.away_cons hgoing
  obtain ⟨hfollows, htreads⟩ := hstanding.unmoved rfl
  rw [Run.cancel, hgoing]
  exact ⟨h.looks.cons hfollows htreads, haway, trivial⟩

end Watched

theorem watched_begin (p : Program W S) (x : Search W S) (log : List LogEvent) :
    ∃ root, Watched root (begin p x log [.search]) [] := by
  refine settle_meets (P := fun r => ∃ root, Watched root r []) ?_
  rw [nextJob, meets_bind]
  refine start_ends.mono (fun stage l hl => ?_) fun e l hl => ?_
  · obtain ⟨root, _, -, hstanding, hdepth⟩ := hl
    exact ⟨root, .singleton hstanding.toTreads hdepth, by simp, hstanding⟩
  · obtain ⟨root, htreads, hdepth⟩ := hl
    exact ⟨root, .singleton htreads hdepth, by simp, trivial⟩

/-- Whatever the program answers and whoever drives the run, the path of the outer search is a
simple path from the root wherever one looks, at every tick and in the end. The greatest depth is
the length of the longest path seen so far, from one look to the next the path grows or shrinks by a
node at most, and it is empty only when all is over. -/
theorem paths_simple (p : Program W S) (x : Search W S) (log : List LogEvent)
    (tick : Search W S → η → Bool × η) (limit : Nat) (h : η) :
    let r := (drive p tick limit (begin p x log [.search]) h).1
    let seen :=
      (drive p (recording (fun y _ => y) tick) limit (begin p x log [.search]) (h, [])).2.2
    (∃ root, ∀ y ∈ r.search :: seen,
      (y.path = [] ∨ y.path.reverse.head? = some root ∧ y.IsRoot root) ∧ y.path.Nodup ∧
        y.path.reverse.IsChain y.marks.Edge ∧
        (∀ id, (y.marks.facts id).onPath = true ↔ id ∈ y.path) ∧
        (∀ id ∈ y.path, (y.marks.facts id).outer = true) ∧ y.path.length ≤ y.maxDepth) ∧
    (∀ y earlier, y :: earlier <:+ r.search :: seen →
      IsGreatest {n | ∃ z ∈ y :: earlier, z.path.length = n} y.maxDepth) ∧
    ((r.search :: seen).IsChain fun y z =>
      y.path = z.path ∨ (∃ id, y.path = id :: z.path) ∨ y.path = z.path.tail) ∧
    (∀ y ∈ seen, y.path ≠ []) ∧ (r.verdict? = some .pass → r.search.path = []) := by
  intro r seen
  obtain ⟨root, hbegin⟩ := watched_begin p x log
  have hwatched : Watched root r seen := by
    have hrun := recording_induction (fun y _ => y)
      (fun _ _ _ _ hgoing hr => hr.step (p := p) hgoing)
      (fun _ _ _ _ hgoing hr => hr.cancel hgoing) tick limit h hbegin
    rwa [(drive_recording _ tick limit _ h []).1] at hrun
  refine ⟨⟨root, fun y hy => ?_⟩, hwatched.looks.greatest,
    hwatched.looks.linked.imp fun _ _ hyz => hyz.path, hwatched.away,
    fun hpass => ?_⟩
  · have htreads := hwatched.looks.treads y hy
    refine ⟨?_, htreads.simple.nodup, ?_, htreads.simple.onPath, htreads.simple.visited,
      htreads.depth⟩
    · by_cases hnil : y.path = []
      · exact .inl hnil
      · rw [List.head?_reverse]
        exact .inr ⟨htreads.simple.bottom.resolve_left hnil, htreads.rooted.resolve_left hnil⟩
    · rw [List.isChain_reverse]
      exact htreads.simple.linked
  · have hstays := hwatched.stays
    rw [verdict?_eq_some_iff.1 hpass] at hstays
    exact hstays

end

end Run

end TemporalCheck
