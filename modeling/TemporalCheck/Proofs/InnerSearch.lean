import TemporalCheck.Proofs.LastingAnswers
import TemporalCheck.Proofs.SearchPath

namespace TemporalCheck

namespace Task

variable {σ α β : Type} {l : Logged σ}

theorem bind_apply_congr {t : Task σ α} {f g : α → Task σ β}
    (h : ∀ a m, t l = .ok a m → f a m = g a m) : (t >>= f) l = (t >>= g) l := by
  change EStateM.bind t f l = EStateM.bind t g l
  rw [EStateM.bind, EStateM.bind]
  split
  · rename_i hok
    exact h _ _ hok
  · rfl

theorem bind_apply_congr_left {t t' : Task σ α} {f : α → Task σ β} (h : t l = t' l) :
    (t >>= f) l = (t' >>= f) l := by
  change EStateM.bind t f l = EStateM.bind t' f l
  rw [EStateM.bind, EStateM.bind, h]

end Task

namespace Search

open Relation TemporalCheck.Task

section

variable {accepting : Nat → Prop} {root seed id : Nat} {m m' : Marks}
  {frames below inner : List Frame} {outcome : Outcome}

/-- Nodes off the path have been left with all their successors visited, and so has the seed but for
being on it. -/
theorem Outer.outer_of_reachable (h : Outer accepting root m (⟨seed, []⟩ :: below))
    (hid : ReflTransGen (fun i j => m.Edge i j ∧ (i = seed ∨ i ∉ m.path)) seed id) :
    (m.facts id).outer = true := by
  induction hid with
  | refl => exact h.walk.visited seed (by simp [h.walk.path])
  | @tail i j _ hij ih =>
      obtain ⟨hedge, rfl | hoff⟩ := hij
      · obtain ⟨done, hdone, houter⟩ := h.walk.tried _ List.mem_cons_self
        obtain ⟨ids, hids, hj⟩ := hedge
        rw [hdone, Option.some.injEq] at hids
        exact houter j (by simpa [← hids] using hj)
      · exact h.walk.closed i j ((h.walk.finished_or_mem ih).resolve_right hoff) hedge

theorem Outer.seed_not_inner (h : Outer accepting root m (⟨seed, []⟩ :: below)) :
    (m.facts seed).inner = false := by
  have hon : (m.facts seed).onPath = true := (h.walk.onPath seed).2 (by simp [h.walk.path])
  by_contra hinner
  have hoff := (h.finished seed (by simpa using hinner)).2
  rw [hon] at hoff
  cases hoff

theorem Move.eq_of_inner (h : Move accepting m (.outer frames) m' outcome)
    (hinner : outcome = .going (.inner below seed inner)) : frames = ⟨seed, []⟩ :: below := by
  cases h with
  | done | skip | enter => cases hinner
  | @leave n below => cases below <;> cases hinner
  | seed =>
      cases hinner
      rfl

end

variable {W S : Type} [DecidableEq S] [HasDigest S] {p : Program W S} {x : Search W S}
  {root seed n : Nat} {ids : List Nat} {below frames : List Frame} {log : List LogEvent}

theorem outerStep_congr (q : Program W S) (h : (x.marks.facts n).successors = some ids) :
    outerStep p ⟨n, []⟩ below ⟨x, log⟩ = outerStep q ⟨n, []⟩ below ⟨x, log⟩ := by
  refine bind_apply_congr fun v m hv => ?_
  obtain ⟨y, ylog⟩ := m
  have hkeeps : Keeps (fun z : Search W S => z) (isAccepting n) := keeps_isAccepting n
  obtain rfl : y = x := hkeeps.ok hv
  split
  · refine bind_apply_congr_left ?_
    rw [startInner_known h, startInner_known h]
  · rfl

theorem innerStep_congr {top : Frame} {accepting : Nat → Prop} (q : Program W S)
    (h : Inner accepting root x.marks below seed (top :: frames)) :
    innerStep p below seed top frames ⟨x, log⟩ = innerStep q below seed top frames ⟨x, log⟩ := by
  obtain ⟨node, rest⟩ := top
  cases rest with
  | nil => rfl
  | cons id rest =>
      obtain ⟨ids, hids⟩ := h.walk.exists_successors h.outer_of_mem
      refine bind_apply_congr fun _ m hm => ?_
      obtain rfl := Task.change_eq_ok.1 hm
      refine bind_apply_congr fun facts m hfacts => ?_
      obtain ⟨-, rfl⟩ := facts_eq_ok.1 hfacts
      dsimp only
      split
      · rfl
      · split
        · rfl
        · refine bind_apply_congr fun _ m hm => bind_apply_congr_left ?_
          obtain rfl := note_eq_ok.1 hm
          exact (expand_reddened (x := { x with transitions := x.transitions + 1 }) hids log).trans
            (expand_reddened (x := { x with transitions := x.transitions + 1 }) hids log).symm

end Search

namespace Run

open Search Relation TemporalCheck.Task

variable {W S : Type} {p : Program W S} {x : Search W S} {log : List LogEvent} {r : Run W S}
  {root seed : Nat} {frames below : List Frame} {stage : Stage} {later : List Job}

def seed? (r : Run W S) : Option Nat :=
  match r.status with
  | .going (.search (.inner _ seed _)) _ => some seed
  | _ => none

theorem seed?_eq_some_iff : r.seed? = some seed ↔
    ∃ below frames later, r.status = .going (.search (.inner below seed frames)) later := by
  rw [seed?]
  split
  · rename_i below seed' frames later hstatus
    rw [hstatus, Option.some.injEq]
    constructor
    · rintro rfl
      exact ⟨below, frames, later, rfl⟩
    · rintro ⟨_, _, _, ⟨⟩⟩
      rfl
  · rename_i hother
    simp only [reduceCtorEq, false_iff]
    rintro ⟨below, frames, later, hstatus⟩
    exact hother below seed frames later hstatus

def Placed (r : Run W S) : Prop :=
  ∀ stage later, r.status = .going (.search stage) later → ∃ root, Standing root r.search stage

variable [DecidableEq S] [HasDigest S]

theorem nextJob_placed (jobs : List Job) (l : Logged (Search W S)) :
    (nextJob p jobs).Meets l (fun status l => Placed ⟨l.state, l.log, status⟩ ∧
      seed? ⟨l.state, l.log, status⟩ = none)
      fun e l => Placed ⟨l.state, l.log, .failed e⟩ := by
  have hfailed (e : Fault) (l : Logged (Search W S)) : Placed ⟨l.state, l.log, .failed e⟩ := by
    rintro _ _ ⟨⟩
  rcases jobs with _ | ⟨_ | _ | _, later⟩
  · exact ⟨by rintro _ _ ⟨⟩, rfl⟩
  · rw [nextJob, meets_bind]
    exact .of_forall (fun _ _ => ⟨by rintro _ _ ⟨⟩, rfl⟩) hfailed
  · exact ⟨by rintro _ _ ⟨⟩, rfl⟩
  · rw [nextJob, meets_bind]
    refine start_ends.mono (fun stage l hl => ?_) fun e l _ => hfailed e l
    obtain ⟨root, frames, rfl, hstanding, -⟩ := hl
    refine ⟨?_, rfl⟩
    rintro _ _ ⟨⟩
    exact ⟨root, hstanding⟩

theorem act_placed (h : Placed r) {stage : RunStage} (hgoing : r.status = .going stage later) :
    (act p later stage).Meets ⟨r.search, r.log⟩ (fun status l => Placed ⟨l.state, l.log, status⟩ ∧
      ((∀ s, stage ≠ .search s) → seed? ⟨l.state, l.log, status⟩ = none)) fun e l =>
        Placed ⟨l.state, l.log, .failed e⟩ := by
  have hfailed (e : Fault) (l : Logged (Search W S)) : Placed ⟨l.state, l.log, .failed e⟩ := by
    rintro _ _ ⟨⟩
  cases stage with
  | program id sweep | property id sweep =>
      rw [act, meets_bind]
      refine .of_forall (fun ids l => ?_) hfailed
      dsimp only
      split
      · exact ⟨by rintro _ _ ⟨⟩, fun _ => rfl⟩
      · rw [meets_bind]
        exact (nextJob_placed later _).imp fun _ _ hl => ⟨hl.1, fun _ => hl.2⟩
  | search stage =>
      obtain ⟨root, hstanding⟩ := h stage later hgoing
      rw [act, meets_bind]
      refine (step_ends hstanding).mono
        (fun progress l hl => ⟨?_, fun hother => absurd rfl (hother stage)⟩)
        fun e l _ => hfailed e l
      intro stage' later' hstatus
      rcases progress with s | verdict
      · cases hstatus
        exact ⟨root, hl.2⟩
      · cases hstatus

theorem Placed.step (h : Placed r) : Placed (r.step p) := by
  obtain ⟨x, log, status⟩ := r
  cases status with
  | going stage later => exact settle_meets ((act_placed h rfl).imp fun _ _ hl => hl.1)
  | ended verdict => exact h
  | failed fault => exact h

theorem placed_runAt (p : Program W S) (l : Logged (Search W S)) (jobs : List Job) (k : Nat) :
    Placed (runAt p l jobs k) := by
  induction k with
  | zero => exact settle_meets ((nextJob_placed jobs l).imp fun _ _ hl => hl.1)
  | succ k ih =>
      rw [runAt, Function.iterate_succ_apply']
      exact ih.step

/-- An inner search starts where the outer search stands. -/
theorem Placed.exists_outer (h : Placed r) (hnone : r.seed? = none)
    (hsome : (r.step p).seed? = some seed) :
    ∃ frames later, r.status = .going (.search (.outer frames)) later := by
  obtain ⟨x, log, status⟩ := r
  have hsweep (stage : RunStage) (later : List Job) (hstatus : status = .going stage later)
      (hother : ∀ s, stage ≠ .search s) : (settle x log (act p later stage)).seed? = none := by
    subst hstatus
    exact settle_meets (P := fun r => r.seed? = none)
      ((act_placed h rfl).mono (fun _ _ hl => hl.2 hother) fun _ _ _ => rfl)
  rcases status with ⟨(⟨id, sweep⟩ | ⟨id, sweep⟩ | (frames | ⟨below, seed', frames⟩)),
    later⟩ | verdict | fault
  · cases (hsweep (.program id sweep) later rfl (by rintro _ ⟨⟩)).symm.trans hsome
  · cases (hsweep (.property id sweep) later rfl (by rintro _ ⟨⟩)).symm.trans hsome
  · exact ⟨frames, later, rfl⟩
  · cases hnone
  · cases hsome
  · cases hsome

theorem step_eq_of_search (q : Program W S) (hgoing : r.status = .going (.search stage) later)
    (h : Search.step p stage ⟨r.search, r.log⟩ = Search.step q stage ⟨r.search, r.log⟩) :
    r.step q = r.step p := by
  obtain ⟨x, log, status⟩ := r
  obtain rfl : status = .going (.search stage) later := hgoing
  have hact : act p later (.search stage) ⟨x, log⟩ = act q later (.search stage) ⟨x, log⟩ :=
    bind_apply_congr_left h
  change settle x log (act q later (.search stage)) = settle x log (act p later (.search stage))
  rw [settle, settle, hact]

theorem eq_of_step_inner (hgoing : r.status = .going (.search (.outer frames)) later)
    (h : Standing root r.search (.outer frames)) (hsome : (r.step p).seed? = some seed) :
    ∃ below, frames = ⟨seed, []⟩ :: below ∧ Rewalks r.search (r.step p).search := by
  obtain ⟨x, log, status⟩ := r
  obtain rfl : status = .going (.search (.outer frames)) later := hgoing
  cases frames with
  | nil =>
      obtain ⟨accepting, hinv⟩ := h.steady
      exact absurd (Outer.walk hinv).path h.away
  | cons top rest =>
      revert hsome
      refine settle_meets
        (P := fun r => r.seed? = some seed → ∃ below, top :: rest = ⟨seed, []⟩ :: below ∧
          Rewalks x r.search) ?_
      rw [act, meets_bind]
      refine (outerStep_ends h).mono (fun progress l hl hsome => ?_) fun e l _ hsome => ?_
      · obtain ⟨below, inner, later', hstatus⟩ := seed?_eq_some_iff.1 hsome
        cases progress with
        | decided verdict => cases hstatus
        | going stage =>
            cases hstatus
            obtain ⟨accepting, outcome, hmove, hreports⟩ := hl.1.move
            cases hreports
            exact ⟨below, hmove.eq_of_inner rfl, hl.2 _ _ _ rfl⟩
      · cases hsome

theorem step_of_inner (hgoing : r.status = .going (.search (.inner below seed frames)) later)
    (h : Standing root r.search (.inner below seed frames)) :
    (∀ q, r.step q = r.step p) ∧ (Rewalks r.search (r.step p).search ∨
      (r.step p).search = r.search.left seed ∧ (r.step p).seed? = none) := by
  obtain ⟨accepting, hinv⟩ := h.steady
  cases frames with
  | nil => simpa using Inner.bottom hinv
  | cons top frames =>
      refine ⟨fun q => step_eq_of_search q hgoing (innerStep_congr q hinv), ?_⟩
      obtain ⟨x, log, status⟩ := r
      obtain rfl : status = .going (.search (.inner below seed (top :: frames))) later := hgoing
      refine settle_meets (P := fun r => Rewalks x r.search ∨ r.search = x.left seed ∧
        r.seed? = none) ?_
      rw [act, meets_bind]
      refine (innerStep_ends h).mono (fun progress l hl => ?_) fun e l hl => .inl hl
      rcases hl.2 with hrewalks | ⟨hleft, rfl⟩
      · exact .inl hrewalks
      · refine .inr ⟨hleft, ?_⟩
        cases below <;> rfl

/-- As long as an inner search goes on, all that it does is walk again. -/
theorem rewalks_runAt {l : Logged (Search W S)} {jobs : List Job} {k n : Nat} {y : Search W S}
    (h : Rewalks y (runAt p l jobs k).search)
    (hn : ∀ i ≤ n, (runAt p l jobs (k + i)).seed? = some seed) :
    Rewalks y (runAt p l jobs (k + n)).search := by
  induction n with
  | zero => exact h
  | succ n ih =>
      obtain ⟨below, frames, later, hinner⟩ := seed?_eq_some_iff.1 (hn n (Nat.le_succ n))
      obtain ⟨root, hstanding⟩ := placed_runAt p l jobs (k + n) _ _ hinner
      have hlater := hn (n + 1) (Nat.le_refl _)
      rw [← Nat.add_assoc, runAt, Function.iterate_succ_apply'] at hlater ⊢
      rcases (step_of_inner (p := p) hinner hstanding).2 with hstep | ⟨-, hover⟩
      · exact (ih fun i hi => hn i (Nat.le_succ_of_le hi)).trans hstep
      · cases hover.symm.trans hlater

/-- When an inner search starts, its seed is the deepest node of the path and has not been met by an
inner search, and every node that recorded successors lead to from there is expanded, as long as
they leave the path aside. Hence the inner search goes on in the same way whatever the program is.
It changes nothing but red marks and the counters of transitions and inner searches until it leaves
its seed, and goes through the successors as they have been recorded. -/
theorem inner_search_rewalks (p : Program W S) (x : Search W S) (log : List LogEvent)
    (jobs : List Job) {k seed : Nat} (hbefore : (runAt p ⟨x, log⟩ jobs k).seed? = none)
    (hafter : (runAt p ⟨x, log⟩ jobs (k + 1)).seed? = some seed) :
    let r := runAt p ⟨x, log⟩ jobs
    let y := (r k).search
    (y.path.head? = some seed ∧ (y.marks.facts seed).inner = false ∧
      ∀ id, ReflTransGen (fun i j => y.marks.Edge i j ∧ (i = seed ∨ i ∉ y.path)) seed id →
        ∃ ids, (y.marks.facts id).successors = some ids) ∧
    (∀ q, (r k).step q = r (k + 1)) ∧
    ∀ n, (∀ i ≤ n, (r (k + 1 + i)).seed? = some seed) →
      Rewalks y (r (k + 1 + n)).search ∧
      (∀ below frames later,
        (r (k + 1 + n)).status = .going (.search (.inner below seed frames)) later →
        ∀ t ∈ frames, ∃ done, (y.marks.facts t.node).successors = some (done ++ t.rest)) ∧
      (∀ q, (r (k + 1 + n)).step q = r (k + 1 + n + 1)) ∧
      (Rewalks y (r (k + 1 + n + 1)).search ∨
        (r (k + 1 + n + 1)).search = (r (k + 1 + n)).search.left seed) := by
  intro r y
  have hnext (i : Nat) : r (i + 1) = (r i).step p := Function.iterate_succ_apply' _ _ _
  have hplaced (i : Nat) : Placed (r i) := placed_runAt p ⟨x, log⟩ jobs i
  change (r (k + 1)).seed? = some seed at hafter
  rw [hnext] at hafter
  obtain ⟨frames, later, hgoing⟩ := (hplaced k).exists_outer hbefore hafter
  obtain ⟨root, hstanding⟩ := hplaced k _ _ hgoing
  obtain ⟨below, rfl, hfirst⟩ := eq_of_step_inner hgoing hstanding hafter
  obtain ⟨accepting, hinv⟩ := hstanding.steady
  have houter : Outer accepting root y.marks (⟨seed, []⟩ :: below) := hinv
  obtain ⟨ids, hids⟩ := houter.walk.exists_successors (houter.outer_of_reachable .refl)
  refine ⟨⟨?_, houter.seed_not_inner, fun id hid => ?_⟩, fun q => ?_, fun n hn => ?_⟩
  · have hpath : y.path = seed :: below.map Frame.node := houter.walk.path
    rw [hpath]
    rfl
  · exact houter.walk.exists_successors (houter.outer_of_reachable hid)
  · rw [hnext]
    exact step_eq_of_search q hgoing (outerStep_congr q hids)
  · rw [← hnext] at hfirst
    have hrewalks : Rewalks y (r (k + 1 + n)).search := rewalks_runAt hfirst hn
    obtain ⟨below, frames, later, hinner⟩ := seed?_eq_some_iff.1 (hn n (Nat.le_refl n))
    obtain ⟨root, hstanding⟩ := hplaced _ _ _ hinner
    obtain ⟨hcongr, hcases⟩ := step_of_inner (p := p) hinner hstanding
    rw [hnext]
    refine ⟨hrewalks, fun below' frames' later' hstatus t ht => ?_, hcongr,
      hcases.imp hrewalks.trans And.left⟩
    obtain ⟨root', hstanding'⟩ := hplaced _ _ _ hstatus
    obtain ⟨done, hdone⟩ := hstanding'.retraces t ht
    exact ⟨done, (hrewalks.successors t.node).symm.trans hdone⟩

/-- A search with reduction for a run on which p keeps recurring. There is none: p holds at the
first of four states alone, and both ways on from there, of which one is ample, meet in a state
without successors. -/
def detourSearch : Search Graph UInt32 where
  space := {
    memory := { initial := 0, edges := [(0, 1), (0, 2), (1, 3), (2, 3)], ample := [(0, [1])] } }
  property := .ofFormula (.release .bot (.until .top (.prop "p")))
  reduction := true
  printTree := false

def detour (k : Nat) : Run Graph UInt32 :=
  runAt (Graph.program [(0, "p")]) ⟨detourSearch, []⟩ [.search] k

/-- The inner search from node 1 takes six steps, over whichever program. -/
theorem detour_rewalked : (∀ i ≤ 5, (detour (7 + i)).seed? = some 1) ∧
    Rewalks (detour 6).search (detour 12).search ∧
    ∀ q, (detour 12).step q = detour 13 := by
  have hinner : ∀ i ≤ 5, (detour (7 + i)).seed? = some 1 := by decide +kernel
  obtain ⟨-, -, h⟩ := inner_search_rewalks (Graph.program [(0, "p")]) detourSearch [] [.search]
    (by decide +kernel : (detour 6).seed? = none) (hinner 0 (Nat.zero_le 5))
  obtain ⟨hrewalks, -, hstep, -⟩ := h 5 hinner
  exact ⟨hinner, hrewalks, hstep⟩

end Run

end TemporalCheck
