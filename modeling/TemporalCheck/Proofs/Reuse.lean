import TemporalCheck.Proofs.RecordedGraph
import TemporalCheck.Proofs.Renumbering
import TemporalCheck.Proofs.Termination

namespace TemporalCheck

namespace Program

variable {W S : Type} {p : Program W S} {valid : W → Prop} {range : S → Prop}

/-- A program that answers with states in a range, and none of whose calls about such states
fails. -/
def Reliable (p : Program W S) (valid : W → Prop) (range : S → Prop) : Prop :=
  p.Confined range (fun l => valid l.state) fun _ _ => False

theorem Reliable.closed (hp : p.Reliable valid range) : p.Closed valid range := by
  refine ⟨fun l hl => ?_, fun s l hs hl => ?_, fun s l hs hl => ?_,
    fun s name l hs hl => ?_, hp.emit⟩
  · exact (hp.initial l hl).mono (fun _ _ h => h) nofun
  · exact (hp.successors s l hs hl).mono (fun _ _ h => h) nofun
  · exact (hp.ample s l hs hl).mono (fun _ _ h => h) nofun
  · exact (hp.holds s name l hs hl).mono (fun _ _ h => h) nofun

end Program

namespace Graph

theorem reliable (g : Graph) (labels : List (UInt32 × String)) :
    (program labels).Reliable (· = g) fun _ => True := by
  refine ⟨fun l hl => ?_, fun s l _ hl => ?_, fun s l _ hl => ?_, fun s name l _ hl => hl,
    fun l event hl => hl⟩
  · exact ⟨hl, trivial⟩
  · exact ⟨hl, fun _ _ => trivial⟩
  · exact ⟨hl, fun _ _ => trivial⟩

end Graph

structure Search.Ready {W S : Type} [HasDigest S] (valid : W → Prop) (range : S → Prop)
    (b : Behaviour S) (f : Formula) (reduction : Bool) (x : Search W S) : Prop where
  sound : x.Sound valid b f
  fits : x.Fits range f
  reduction : x.reduction = reduction

namespace Run

open Search TemporalCheck.Task

variable {W S η : Type} {p : Program W S} {valid : W → Prop} {range : S → Prop} {b : Behaviour S}
  {f : Formula} {reduction : Bool} {x x' y y' : Search W S} {xlog xlog' ylog ylog' : List LogEvent}
  {r r' : Run W S} {jobs later : List Job} {status : RunStatus S} {stage : Stage}

def Preparing : RunStatus S → Prop
  | .going (.program _ _) later => .search ∈ later
  | .going (.property _ _) later => .search ∈ later
  | _ => False

theorem settle_cases {t : Task (Search W S) (RunStatus S)}
    (h : ∀ fault, (settle x xlog t).status ≠ .failed fault) :
    ∃ status y ylog, t ⟨x, xlog⟩ = .ok status ⟨y, ylog⟩ ∧ settle x xlog t = ⟨y, ylog, status⟩ := by
  cases ht : t ⟨x, xlog⟩ with
  | ok status l => exact ⟨status, l.state, l.log, rfl, settle_of_ok ht⟩
  | error e l =>
      refine absurd ?_ (h e)
      rw [settle_of_error ht]

section

variable [HasDigest S]

structure Twins (valid : W → Prop) (b : Behaviour S) (f : Formula) (r r' : Run W S) : Prop where
  search : r.search.Twins valid b f r'.search
  status : r.status = r'.status
  searching : Searching r.status
  started : ¬ Preparing r.status

structure Steady (valid : W → Prop) (range : S → Prop) (b : Behaviour S) (f : Formula)
    (reduction : Bool) (r : Run W S) : Prop where
  good : Good valid b f reduction r
  fits : Fits range (fun l => valid l.state) (fun _ _ => False) f r

theorem Steady.ne_failed (h : Steady valid range b f reduction r) (fault : Fault) :
    r.status ≠ .failed fault := by
  intro hfault
  have hfits := h.fits
  rw [Fits, hfault] at hfits
  exact hfits.1

theorem Steady.sound (h : Steady valid range b f reduction r) :
    r.search.Sound valid b f ∧ r.search.reduction = reduction := by
  rcases h.good with ⟨fault, hfault⟩ | ⟨hsound, hreduction, -⟩
  · exact absurd hfault (h.ne_failed fault)
  · exact ⟨hsound, hreduction⟩

variable [DecidableEq S]

theorem Steady.iterate (hp : p.Behaves valid b) (hr : p.Reliable valid range)
    (h : Steady valid range b f reduction r) (k : Nat) :
    Steady valid range b f reduction ((step p)^[k] r) := by
  refine ⟨?_, h.fits.iterate hr k⟩
  induction k with
  | zero => exact h.good
  | succ k ih =>
      rw [Function.iterate_succ_apply']
      exact ih.step hp

theorem steady_begin (hp : p.Behaves valid b) (hr : p.Reliable valid range)
    (hx : x.Ready valid range b f reduction) (log : List LogEvent) (jobs : List Job) (k : Nat) :
    Steady valid range b f reduction ((step p)^[k] (begin p x log jobs)) := by
  refine Steady.iterate hp hr ⟨good_settle fun status x' log' hok => ?_, ?_⟩ k
  · obtain ⟨hsound, hreduction, hjustified⟩ := nextJob_spec hp hx.sound hok
    exact ⟨hsound, hreduction.trans hx.reduction, hjustified⟩
  · exact fits_begin hr ⟨hx.sound.space.memory, hx.fits⟩ jobs

theorem Twins.step (hp : p.Behaves valid b) (h : Twins valid b f r r')
    (hfailed : ∀ fault, (r.step p).status ≠ .failed fault)
    (hfailed' : ∀ fault, (r'.step p).status ≠ .failed fault) :
    Twins valid b f (r.step p) (r'.step p) := by
  obtain ⟨x, xlog, status⟩ := r
  obtain ⟨y, ylog, status'⟩ := r'
  obtain ⟨hsearch, rfl, hsearching, hstarted⟩ := h
  cases status with
  | going stage later =>
      cases stage with
      | program id sweep => exact absurd hsearching hstarted
      | property id sweep => exact absurd hsearching hstarted
      | search stage =>
          obtain ⟨status, x', xlog', hok, hr⟩ := settle_cases hfailed
          obtain ⟨status', y', ylog', hok', hr'⟩ := settle_cases hfailed'
          have hact : Respects (Search.Twins valid b f) (act p later (.search stage)) :=
            .bind (respects_step hp stage) fun progress => .pure (ofProgress progress)
          obtain ⟨rfl, hsame⟩ := hact hsearch hok hok'
          rw [Run.step, Run.step, hr, hr']
          refine ⟨hsame, rfl, searching_act hsearching hok, ?_⟩
          simp only [act, bind_eq_ok, pure_eq_ok] at hok
          obtain ⟨progress, _, -, rfl, -⟩ := hok
          cases progress with
          | going stage => exact not_false
          | decided verdict => exact not_false
  | ended verdict => exact ⟨hsearch, rfl, hsearching, hstarted⟩
  | failed fault => exact ⟨hsearch, rfl, hsearching, hstarted⟩

/-- The next job expands one of the automata, or starts the search. -/
theorem nextJob_twins (hp : p.Behaves valid b) (hx : x.Sound valid b f) (hy : y.Sound valid b f)
    (hreduction : x.reduction = y.reduction) (hstart : start p ⟨y, ylog⟩ = .ok stage ⟨y', ylog'⟩)
    (hjobs : .search ∈ jobs) (hok : nextJob p jobs ⟨x, xlog⟩ = .ok status ⟨x', xlog'⟩) :
    Preparing status ∨ Twins valid b f ⟨x', xlog', status⟩
      ⟨y', ylog', .going (.search stage) []⟩ := by
  cases jobs with
  | nil => cases hjobs
  | cons job later =>
      cases job with
      | expandProgram | expandProperty =>
          simp only [nextJob, bind_eq_ok, pure_eq_ok] at hok
          obtain ⟨_, _, -, rfl, -⟩ := hok
          exact .inl (by simpa [Preparing] using hjobs)
      | search =>
          simp only [nextJob, bind_eq_ok, pure_eq_ok] at hok
          obtain ⟨stage', _, hstart', rfl, rfl⟩ := hok
          obtain ⟨rfl, htwins⟩ := start_twins hp hx hy hreduction hstart' hstart
          exact .inr ⟨htwins, rfl, trivial, not_false⟩

theorem sweep_twins (expand : Nat → Sweep → RunStage) {sweep : Sweep} {message : String}
    (hp : p.Behaves valid b) (hx : x.Sound valid b f) (hy : y.Sound valid b f)
    (hreduction : x.reduction = y.reduction) (hstart : start p ⟨y, ylog⟩ = .ok stage ⟨y', ylog'⟩)
    (hlater : .search ∈ later)
    (hexpand : ∀ id sweep, Preparing (S := S) (.going (expand id sweep) later))
    (hok : (match sweep.next? with
      | some (id, sweep) => pure (.going (expand id sweep) later)
      | none => Task.emit .debug message >>= fun _ => nextJob p later :
          Task (Search W S) (RunStatus S)) ⟨x, xlog⟩ =
        .ok status ⟨x', xlog'⟩) :
    Preparing status ∨ Twins valid b f ⟨x', xlog', status⟩
      ⟨y', ylog', .going (.search stage) []⟩ := by
  cases hnext : sweep.next? with
  | some next =>
      simp only [hnext, pure_eq_ok] at hok
      obtain ⟨rfl, -⟩ := hok
      exact .inl (hexpand next.1 next.2)
  | none =>
      simp only [hnext, bind_eq_ok, emit_eq_ok] at hok
      obtain ⟨_, _, rfl, hok⟩ := hok
      exact nextJob_twins hp hx hy hreduction hstart hlater hok

theorem act_twins {expanding : RunStage} (hp : p.Behaves valid b) (hx : x.Sound valid b f)
    (hy : y.Sound valid b f) (hreduction : x.reduction = y.reduction)
    (hstart : start p ⟨y, ylog⟩ = .ok stage ⟨y', ylog'⟩)
    (hexpanding : Preparing (S := S) (.going expanding later))
    (hok : act p later expanding ⟨x, xlog⟩ = .ok status ⟨x', xlog'⟩) :
    Preparing status ∨ Twins valid b f ⟨x', xlog', status⟩
      ⟨y', ylog', .going (.search stage) []⟩ := by
  cases expanding with
  | program id sweep =>
      simp only [act, bind_eq_ok, inSpace_eq_ok] at hok
      obtain ⟨ids, _, ⟨⟨space, slog⟩, hids, rfl⟩, hok⟩ := hok
      obtain ⟨hspace, hgrows, -⟩ := StateSpace.successors_spec hp hx.space hids
      have hgrown := hx.grow hspace hx.property ⟨hgrows, .refl _, fun _ _ h => h, rfl⟩
      exact sweep_twins .program hp hgrown hy hreduction hstart hexpanding
        (fun _ _ => hexpanding) hok
  | property id sweep =>
      simp only [act, bind_eq_ok, inProperty_eq_ok] at hok
      obtain ⟨ids, _, ⟨⟨a, alog⟩, hids, rfl⟩, hok⟩ := hok
      obtain ⟨hproperty, hgrows, -⟩ := PropertyAutomaton.successors_spec hx.property hids
      have hgrown := hx.grow hx.space hproperty ⟨fun _ _ h => h, hgrows, fun _ _ h => h, rfl⟩
      exact sweep_twins .property hp hgrown hy hreduction hstart hexpanding
        (fun _ _ => hexpanding) hok
  | search stage => exact hexpanding.elim

theorem begin_search (hp : p.Behaves valid b) (hr : p.Reliable valid range)
    (hx : x.Ready valid range b f reduction) (log : List LogEvent) :
    ∃ stage x' log', start p ⟨x, log⟩ = .ok stage ⟨x', log'⟩ ∧
      begin p x log [.search] = ⟨x', log', .going (.search stage) []⟩ := by
  obtain ⟨status, x', log', hok, hbegin⟩ :=
    settle_cases (steady_begin hp hr hx log [.search] 0).ne_failed
  simp only [nextJob, bind_eq_ok, pure_eq_ok] at hok
  obtain ⟨stage, _, hstart, rfl, rfl⟩ := hok
  exact ⟨stage, x', log', hstart, hbegin⟩

theorem twins_iterate (hp : p.Behaves valid b) (hr : p.Reliable valid range)
    (hx : x.Ready valid range b f reduction) (hy : y.Ready valid range b f reduction)
    (xlog ylog : List LogEvent) (k : Nat) :
    Twins valid b f ((step p)^[k] (begin p x xlog [.search]))
      ((step p)^[k] (begin p y ylog [.search])) := by
  induction k with
  | zero =>
      obtain ⟨stage, x', xlog', hstart, hbegin⟩ := begin_search hp hr hx xlog
      obtain ⟨stage', y', ylog', hstart', hbegin'⟩ := begin_search hp hr hy ylog
      obtain ⟨rfl, htwins⟩ :=
        start_twins hp hx.sound hy.sound (hx.reduction.trans hy.reduction.symm) hstart hstart'
      rw [Function.iterate_zero, id_eq, id_eq, hbegin, hbegin']
      exact ⟨htwins, rfl, trivial, not_false⟩
  | succ k ih =>
      have hfailed := (steady_begin hp hr hx xlog [.search] (k + 1)).ne_failed
      have hfailed' := (steady_begin hp hr hy ylog [.search] (k + 1)).ne_failed
      rw [Function.iterate_succ_apply'] at hfailed hfailed' ⊢
      rw [Function.iterate_succ_apply']
      exact ih.step hp hfailed hfailed'

/-- A run is twin to one that only searches as soon as it has done its preparations. -/
theorem exists_twin (hp : p.Behaves valid b) (hr : p.Reliable valid range)
    (hx : x.Ready valid range b f reduction) (hy : y.Ready valid range b f reduction)
    (hjobs : .search ∈ jobs) (xlog ylog : List LogEvent) (k : Nat) :
    Preparing ((step p)^[k] (begin p x xlog jobs)).status ∨
      ∃ j ≤ k, Twins valid b f ((step p)^[k] (begin p x xlog jobs))
        ((step p)^[j] (begin p y ylog [.search])) := by
  obtain ⟨stage, y', ylog', hstart, hbegin⟩ := begin_search hp hr hy ylog
  -- sweeps take steps of their own, so the run may have taken more steps than its twin
  induction k with
  | zero =>
      obtain ⟨status, x', xlog', hok, hx'⟩ :=
        settle_cases (steady_begin hp hr hx xlog jobs 0).ne_failed
      rw [Function.iterate_zero, id_eq, begin, hx']
      refine (nextJob_twins hp hx.sound hy.sound (hx.reduction.trans hy.reduction.symm) hstart hjobs
        hok).imp_right ?_
      intro htwins
      exact ⟨0, Nat.le_refl 0, by rwa [Function.iterate_zero, id_eq, hbegin]⟩
  | succ k ih =>
      have hsteady := steady_begin hp hr hx xlog jobs k
      have hfailed := (steady_begin hp hr hx xlog jobs (k + 1)).ne_failed
      rw [Function.iterate_succ_apply'] at hfailed ⊢
      generalize (step p)^[k] (begin p x xlog jobs) = r at ih hsteady hfailed
      rcases ih with hpreparing | ⟨j, hj, htwins⟩
      · obtain ⟨z, zlog, status⟩ := r
        obtain ⟨hz, hreduction⟩ := hsteady.sound
        cases status with
        | going expanding later =>
            obtain ⟨status, z', zlog', hok, hz'⟩ := settle_cases hfailed
            rw [Run.step, hz']
            refine (act_twins hp hz hy.sound (hreduction.trans hy.reduction.symm) hstart hpreparing
              hok).imp_right ?_
            intro htwins
            exact ⟨0, Nat.zero_le _, by rwa [Function.iterate_zero, id_eq, hbegin]⟩
        | ended verdict => exact hpreparing.elim
        | failed fault => exact hpreparing.elim
      · have hfailed' := (steady_begin hp hr hy ylog [.search] (j + 1)).ne_failed
        refine .inr ⟨j + 1, Nat.succ_le_succ hj, ?_⟩
        rw [Function.iterate_succ_apply'] at hfailed' ⊢
        exact htwins.step hp hfailed hfailed'

end

end Run

namespace Search

variable {W S : Type} {p : Program W S} {valid : W → Prop} {range : S → Prop} {b : Behaviour S}
  {f : Formula} {memory : W} {reduction printTree : Bool} {x : Search W S} [DecidableEq S]
  [HasDigest S]

theorem Used.ready (hp : p.Behaves valid b) (hr : p.Reliable valid range) (hmemory : valid memory)
    (hx : Used p memory f reduction printTree x) : x.Ready valid range b f.negate reduction := by
  induction hx with
  | fresh =>
      have hfresh : Used p memory f reduction printTree _ := .fresh
      refine ⟨sound_of_nodes_empty (StateSpace.sound_start hmemory) ?_ rfl,
        (hfresh.fits hr.closed hmemory).2, rfl⟩
      exact PropertyAutomaton.sound_ofFormula f.negate
  | @again x η hx log jobs tick limit h ih =>
      have hsteady := Run.steady_begin hp hr ih log jobs
      have hfits := ((hx.again log jobs tick limit h).fits hr.closed hmemory).2
      obtain ⟨k, -, ⟨hend, -⟩ | ⟨hend, -⟩⟩ :=
        Run.drive_cases (p := p) tick limit (Run.begin p x log jobs) h
      · rw [hend] at hfits ⊢
        exact ⟨(hsteady k).sound.1, hfits, (hsteady k).sound.2⟩
      · rw [hend, Run.search_cancel] at hfits ⊢
        exact ⟨(hsteady k).sound.1, hfits, (hsteady k).sound.2⟩

end Search

namespace Run

variable {W S η θ : Type} {p : Program W S} {valid : W → Prop} {range : S → Prop} {b : Behaviour S}
  {f : Formula} {memory memory' : W} {reduction printTree : Bool} {x : Search W S} {r r' : Run W S}

theorem Twins.same [HasDigest S] (h : Twins valid b f r r') :
    r.verdict? = r'.verdict? ∧ r.search.stats.counters = r'.search.stats.counters := by
  rw [verdict?, verdict?, h.status]
  exact ⟨rfl, h.search.alike.counters_eq⟩

/-- A search comes to the verdict and the counters of a fresh one, whatever has been expanded and
searched before. A run that expands one or both of the automata first does, too. -/
theorem drive_eq_fresh [DecidableEq S] [HasDigest S] (hp : p.Behaves valid b)
    (hr : p.Reliable valid range) (hmemory : valid memory)
    (hx : Search.Used p memory f reduction printTree x) (hmemory' : valid memory')
    (log log' : List LogEvent) (tick : Search W S → η → Bool × η)
    (htick : ∀ x h, (tick x h).1 = true) (h : η) (tick' : Search W S → θ → Bool × θ)
    (htick' : ∀ x h, (tick' x h).1 = true) (h' : θ) :
    let fresh : Search W S :=
      { space := { memory := memory' }, property := .ofViolations f, reduction, printTree }
    let again := fun jobs limit => (drive p tick limit (begin p x log jobs) h).1
    let first := fun limit => (drive p tick' limit (begin p fresh log' [.search]) h').1
    (∀ limit, (again [.search] limit).verdict? = (first limit).verdict? ∧
      (again [.search] limit).search.stats.counters = (first limit).search.stats.counters) ∧
    ∀ jobs limit v, .search ∈ jobs → (again jobs limit).verdict? = some v →
      (first limit).verdict? = some v ∧
        (again jobs limit).search.stats.counters = (first limit).search.stats.counters := by
  intro fresh again first
  have hready := hx.ready hp hr hmemory
  have hused : Search.Used p memory' f reduction printTree fresh := .fresh
  have hfresh := hused.ready hp hr hmemory'
  have hagain : ∀ jobs limit, again jobs limit = (step p)^[limit] (begin p x log jobs) :=
    fun jobs limit => drive_eq_iterate htick limit h
  have hfirst : ∀ limit, first limit = (step p)^[limit] (begin p fresh log' [.search]) :=
    fun limit => drive_eq_iterate htick' limit h'
  constructor
  · intro limit
    rw [hagain, hfirst]
    exact (twins_iterate hp hr hready hfresh log log' limit).same
  · intro jobs limit v hjobs hv
    rw [hagain] at hv ⊢
    rcases exists_twin hp hr hready hfresh hjobs log log' limit with hpreparing | ⟨j, hj, htwins⟩
    · rw [verdict?_eq_some_iff.1 hv] at hpreparing
      exact hpreparing.elim
    · obtain ⟨hverdict, hcounters⟩ := htwins.same
      -- the fresh search is over by then, and stays as it is
      have hover := verdict?_eq_some_iff.1 (hverdict.symm.trans hv)
      have hstays : first limit = (step p)^[j] (begin p fresh log' [.search]) := by
        rw [hfirst, ← Nat.sub_add_cancel hj, Function.iterate_add_apply]
        exact iterate_step_eq_self (by simp [hover]) _
      rw [hstays]
      exact ⟨hverdict.symm.trans hv, hcounters⟩

def branch : Graph :=
  { initial := 0, edges := [(0, 1), (0, 2), (1, 1), (2, 2)], ample := [(0, [2])] }

def branchFresh : Search Graph UInt32 :=
  { space := { memory := branch }, property := .ofViolations (.until .top (.prop "p")),
    reduction := true }

def branchUsed : Search Graph UInt32 :=
  (drive (Graph.program [(1, "p")]) countdown 100
    (begin (Graph.program [(1, "p")]) branchFresh [] [.expandProgram]) 1).1.search

def branchRun (x : Search Graph UInt32) (jobs : List Job) (limit : Nat) : Run Graph UInt32 :=
  (drive (Graph.program [(1, "p")]) (fun _ (h : Unit) => (true, h)) limit
    (begin (Graph.program [(1, "p")]) x [] jobs) ()).1

theorem branch_renumbered :
    branchUsed.space.table.get? 1 = some 1 ∧
    (branchRun branchFresh [.search] 100).search.space.table.get? 1 = some 2 ∧
    (∀ limit, (branchRun branchUsed [.search] limit).verdict? =
      (branchRun branchFresh [.search] limit).verdict? ∧
      (branchRun branchUsed [.search] limit).search.stats.counters =
        (branchRun branchFresh [.search] limit).search.stats.counters) ∧
    ∃ c, (branchRun branchUsed [.expandProgram, .expandProperty, .search] 100).verdict? =
      some (.violation c) ∧
      (branchRun branchFresh [.search] 100).verdict? = some (.violation c) := by
  have hused : Search.Used (Graph.program [(1, "p")]) branch (.until .top (.prop "p")) true
      false branchUsed :=
    .again .fresh [] [.expandProgram] countdown 100 1
  have hsame := drive_eq_fresh (branch.behaves [(1, "p")]) (branch.reliable [(1, "p")]) rfl
    hused rfl [] [] (fun _ (h : Unit) => (true, h)) (fun _ _ => rfl) ()
    (fun _ (h : Unit) => (true, h)) (fun _ _ => rfl) ()
  refine ⟨by decide +kernel, by decide +kernel, hsame.1, ?_⟩
  have hothers : (branchRun branchUsed [.expandProgram, .expandProperty, .search] 100).verdict? ∉
      [none, some .pass, some .cancelled] := by decide +kernel
  rcases hv : (branchRun branchUsed [.expandProgram, .expandProperty, .search] 100).verdict?
    with _ | _ | c | _
  case some.violation => exact ⟨c, rfl, (hsame.2 _ 100 _ (by decide) hv).1⟩
  all_goals simp [hv] at hothers

end Run

end TemporalCheck
