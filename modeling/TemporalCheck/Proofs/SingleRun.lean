import TemporalCheck.Proofs.Release

namespace TemporalCheck

open TemporalCheck.Task

structure CallRecord where
  callback : Callback
  fault : Option Fault

structure Journaled (W : Type) where
  memory : W
  calls : List CallRecord := []

def Clean (calls : List CallRecord) : Prop := ∀ c ∈ calls, c.callback ≠ .dispose ∧ c.fault = none

/-- The first call that failed is the latest one, and it has reported an error. -/
def FailedLast (fault : Fault) (calls : List CallRecord) : Prop :=
  ∃ callback error older, calls = ⟨callback, some fault⟩ :: older ∧ fault = .error error ∧
    callback ≠ .dispose ∧ Clean older

namespace Task

variable {σ α : Type}

def NeverPanics (t : Task σ α) : Prop := ∀ l text l', t l ≠ .error (.crash text) l'

end Task

namespace Program

variable {W S α : Type} {p : Program W S} {t : Task W α} {l : Logged (Journaled W)}

def noted (callback : Callback) (t : Task W α) : Task (Journaled W) α :=
  fun ⟨⟨memory, calls⟩, log⟩ => match t ⟨memory, log⟩ with
  | .ok a ⟨memory, log⟩ => .ok a ⟨⟨memory, ⟨callback, none⟩ :: calls⟩, log⟩
  | .error fault ⟨memory, log⟩ => .error fault ⟨⟨memory, ⟨callback, some fault⟩ :: calls⟩, log⟩

def journaled (p : Program W S) : Program (Journaled W) S where
  configure options := noted .configure (p.configure options)
  initial := noted .initial p.initial
  successors s := noted .successors (p.successors s)
  ample s := noted .ample (p.ample s)
  holds s name := noted .holds (p.holds s name)
  constructs w := p.constructs w.memory
  dispose := noted .dispose p.dispose
  describe := p.describe

structure Panicless (p : Program W S) : Prop where
  initial : NeverPanics p.initial
  successors : ∀ s, NeverPanics (p.successors s)
  ample : ∀ s, NeverPanics (p.ample s)
  holds : ∀ s name, NeverPanics (p.holds s name)
  dispose : NeverFails p.dispose

theorem noted_of_ok {callback : Callback} {memory : W} {calls : List CallRecord}
    {log : List LogEvent} {a : α} {m : Logged W} (h : t ⟨memory, log⟩ = .ok a m) :
    noted callback t ⟨⟨memory, calls⟩, log⟩ =
      .ok a ⟨⟨m.state, ⟨callback, none⟩ :: calls⟩, m.log⟩ := by
  simp only [noted, h]

theorem noted_meets (callback : Callback) (t : Task W α) (l : Logged (Journaled W)) :
    (noted callback t).Meets l (fun _ m => m.state.calls = ⟨callback, none⟩ :: l.state.calls)
      fun fault m =>
      m.state.calls = ⟨callback, some fault⟩ :: l.state.calls ∧
      ∃ m', t ⟨l.state.memory, l.log⟩ = .error fault m' := by
  obtain ⟨⟨memory, calls⟩, log⟩ := l
  simp only [Meets, noted]
  cases ht : t ⟨memory, log⟩ with
  | ok a m => rfl
  | error fault m => exact ⟨rfl, m, rfl⟩

theorem calls_of_configure {options : ProgramOptions} {u : Unit} {m : Logged (Journaled W)}
    (h : p.journaled.configure options l = .ok u m) :
    m.state.calls = ⟨.configure, none⟩ :: l.state.calls :=
  (noted_meets .configure (p.configure options) l).ok h

theorem noted_confined (callback : Callback) (hcallback : callback ≠ .dispose) (ht : NeverPanics t)
    (hl : Clean l.state.calls) :
    (noted callback t).Meets l (fun _ m => Clean m.state.calls) fun fault m =>
      FailedLast fault m.state.calls := by
  refine (noted_meets callback t l).mono (fun _ m hm => ?_) ?_
  · rw [hm]
    exact List.forall_mem_cons.2 ⟨⟨hcallback, rfl⟩, hl⟩
  · rintro fault m ⟨hm, m', herror⟩
    cases fault with
    | error e => exact ⟨callback, e, _, hm, rfl, hcallback, hl⟩
    | crash text => exact absurd herror (ht _ text m')

theorem Panicless.confined (hp : p.Panicless) :
    p.journaled.Confined (fun _ => True) (fun l => Clean l.state.calls) fun fault l =>
      FailedLast fault l.state.calls where
  initial _ hl := (noted_confined .initial nofun hp.initial hl).imp fun _ _ hm => ⟨hm, trivial⟩
  successors s _ _ hl :=
    (noted_confined .successors nofun (hp.successors s) hl).imp fun _ _ hm =>
      ⟨hm, fun _ _ => trivial⟩
  ample s _ _ hl := (noted_confined .ample nofun (hp.ample s) hl).imp fun _ _ hm =>
    ⟨hm, fun _ _ => trivial⟩
  holds s name _ _ hl := noted_confined .holds nofun (hp.holds s name) hl
  emit _ _ hl := hl

/-- Nothing is seen of the memory. -/
theorem spares_trivial (p : Program W S) : p.Spares fun _ => () :=
  ⟨⟨fun _ => rfl, fun _ => rfl⟩, fun _ => ⟨fun _ => rfl, fun _ => rfl⟩,
    fun _ => ⟨fun _ => rfl, fun _ => rfl⟩,
    fun _ _ => ⟨fun _ => rfl, fun _ => rfl⟩⟩

end Program

namespace Run

open Search

variable {W S η : Type} [DecidableEq S] [HasDigest S] {p : Program W S} {r : Run W S}

/-- A run has gone as far as its steps led it, or to where a tick has stopped it. -/
theorem drive_answers (tick : Search W S → η → Bool × η) (limit : Nat) (r : Run W S) (h : η) :
    let answers := (drive p (recording (fun _ go => go) tick) limit r (h, [])).2.2
    ∃ k, false ∉ answers ∧ (drive p tick limit r h).1 = (Run.step p)^[k] r ∨
      false ∈ answers ∧ (drive p tick limit r h).1 = ((Run.step p)^[k] r).cancel ∧
        ∃ stage later, ((Run.step p)^[k] r).status = .going stage later := by
  rw [← (drive_recording (fun _ go => go) tick limit r h []).1]
  have hstopped : ∀ k stage later,
      (∃ stage' later', ((Run.step p)^[k] r).status = .going stage' later') →
      ((Run.step p)^[k] r).cancel.status ≠ .going stage later := by
    rintro k stage later ⟨_, _, hgoing⟩ hcancel
    simp [Run.cancel, hgoing] at hcancel
  refine recording_induction _ (P := fun r' answers => ∃ k, false ∉ answers ∧
    r' = (Run.step p)^[k] r ∨ false ∈ answers ∧ r' = ((Run.step p)^[k] r).cancel ∧
      ∃ stage later, ((Run.step p)^[k] r).status = .going stage later) ?_ ?_ tick limit h
      ⟨0, .inl ⟨by simp, rfl⟩⟩
  · rintro r' answers stage later hgoing ⟨k, ⟨htrue, rfl⟩ | ⟨-, rfl, hwas⟩⟩
    · exact ⟨k + 1, .inl ⟨by simpa using htrue, (Function.iterate_succ_apply' _ _ _).symm⟩⟩
    · exact absurd hgoing (hstopped k stage later hwas)
  · rintro r' answers stage later hgoing ⟨k, ⟨-, rfl⟩ | ⟨-, rfl, hwas⟩⟩
    · exact ⟨k, .inr ⟨by simp, rfl, stage, later, hgoing⟩⟩
    · exact absurd hgoing (hstopped k stage later hwas)

end Run

namespace Verification

variable {W S η : Type} {p : Program W S} {v : Verification (Journaled W) S} {log : List LogEvent}

def calls (v : Verification (Journaled W) S) : List CallRecord := v.search.space.memory.calls

/-- The outcome of a run that was stopped or not, as told by the calls that failed in it. -/
structure Explains (stopped : Prop) (calls : List CallRecord) (outcome : Outcome S) : Prop where
  cancelled : outcome = .cancelled ↔ stopped ∨ ∃ c ∈ calls, c.fault = some (.error .cancelled)
  error : ∀ e, e ≠ .cancelled → (outcome = .error e ↔ ∃ c ∈ calls, c.fault = some (.error e))

theorem explains_of_clean {calls : List CallRecord} {outcome : Outcome S} (h : Clean calls)
    (hcancelled : outcome ≠ .cancelled) (herror : ∀ e, outcome ≠ .error e) :
    Explains False calls outcome where
  cancelled := by
    refine iff_of_false hcancelled ?_
    rintro (hstopped | ⟨c, hc, hfault⟩)
    · exact hstopped
    · rw [(h c hc).2] at hfault
      cases hfault
  error e _ := by
    refine iff_of_false (herror e) ?_
    rintro ⟨c, hc, hfault⟩
    rw [(h c hc).2] at hfault
    cases hfault

theorem explains_of_failedLast {calls : List CallRecord} {e : CheckError}
    (h : FailedLast (.error e) calls) :
    Explains False calls (.ofSearch (.error e) : Outcome S) := by
  obtain ⟨callback, _, older, rfl, -, -, holder⟩ := h
  have hfault (e' : CheckError) :
      (∃ c ∈ ⟨callback, some (.error e)⟩ :: older, c.fault = some (.error e')) ↔ e = e' := by
    constructor
    · rintro ⟨c, hc, h⟩
      rcases List.mem_cons.1 hc with rfl | hc
      · cases h
        rfl
      · rw [(holder c hc).2] at h
        cases h
    · rintro rfl
      exact ⟨_, List.mem_cons_self, rfl⟩
  by_cases he : e = .cancelled
  · subst he
    exact ⟨iff_of_true rfl (.inr ((hfault _).2 rfl)), fun e hne =>
      iff_of_false nofun fun h => hne ((hfault e).1 h).symm⟩
  · have houtcome : (.ofSearch (.error e) : Outcome S) = .error e := by
      cases e <;> first | rfl | exact absurd rfl he
    rw [houtcome]
    refine ⟨iff_of_false nofun ?_, fun e' _ => by rw [hfault, Outcome.error.injEq]⟩
    rintro (h | h)
    · exact h
    · exact he ((hfault _).1 h)

structure Finished (stopped : Prop) (r : Run (Journaled W) S) (outcome : Outcome S) : Prop where
  result : result r.status = .ok outcome
  unreleased : r.search.space.disposed = false
  calls : ∀ c ∈ r.search.space.memory.calls, c.callback ≠ .dispose
  explains : Explains stopped r.search.space.memory.calls outcome

theorem dispose_of_disposed (p : Program W S) (log : List LogEvent) {v : Verification W S}
    (h : v.isDisposed = true) : v.dispose p log = ⟨v, log⟩ := by
  have hquiet : Search.inSpace (StateSpace.dispose p) ⟨v.search, log⟩ = .ok () ⟨v.search, log⟩ := by
    rw [Search.inSpace_eq_ok]
    refine ⟨⟨v.search.space, log⟩, ?_, rfl⟩
    simp only [StateSpace.dispose, bind_eq_ok, read_eq_ok]
    exact ⟨_, _, ⟨rfl, rfl⟩, by rw [show v.search.space.disposed = true from h]; rfl⟩
  rw [dispose, hquiet]

theorem exists_dispose (hp : NeverFails p.dispose) (h : v.isDisposed = false)
    (log : List LogEvent) : ∃ memory log', v.dispose p.journaled log =
      ⟨{ v with
        search := { v.search with
          space := { v.search.space with
            memory := ⟨memory, ⟨.dispose, none⟩ :: v.calls⟩, disposed := true } } },
        log'⟩ := by
  cases hcall : p.dispose ⟨v.search.space.memory.memory, log⟩ with
  | error fault m => exact absurd hcall (hp _ fault m)
  | ok _ m =>
      have hnoted : Search.inSpace (StateSpace.dispose p.journaled) ⟨v.search, log⟩ =
          .ok () ⟨{ v.search with
            space := { v.search.space with
              memory := ⟨m.state, ⟨.dispose, none⟩ :: v.calls⟩
              disposed := true } },
            m.log⟩ := by
        rw [Search.inSpace_eq_ok]
        refine ⟨⟨{ v.search.space with
          memory := ⟨m.state, ⟨.dispose, none⟩ :: v.calls⟩
          disposed := true }, m.log⟩, ?_, rfl⟩
        simp only [StateSpace.dispose, bind_eq_ok, read_eq_ok]
        refine ⟨_, _, ⟨rfl, rfl⟩, ?_⟩
        rw [show v.search.space.disposed = false from h]
        simp only [Bool.not_false, if_true, bind_eq_ok, change_eq_ok, StateSpace.call_eq_ok]
        exact ⟨(), _, rfl, _, Program.noted_of_ok hcall, rfl⟩
      exact ⟨m.state, m.log, by rw [dispose, hnoted]⟩

section

variable [DecidableEq S] [HasDigest S]

inductive Use (W S : Type) : Type 1
  | run {η : Type} (runId : String) (tick : Search W S → η → Bool × η) (limit : Nat) (now : η)
  | dispose

namespace Use

def after (p : Program W S) (l : Logged (Verification W S)) : Use W S → Logged (Verification W S)
  | run runId tick limit now => (l.state.runWith p runId tick limit l.log now).2.1
  | dispose => l.state.dispose p l.log

def Returns (p : Program W S) (l : Logged (Verification W S)) : Use W S → Prop
  | run runId tick limit now =>
    ∀ stage later, (Run.drive p tick limit (l.state.begin p runId l.log) now).1.status ≠
      .going stage later
  | dispose => True

instance decidableReturns (p : Program W S) (l : Logged (Verification W S)) :
    (u : Use W S) → Decidable (u.Returns p l)
  | run runId tick limit now =>
    match h : (Run.drive p tick limit (l.state.begin p runId l.log) now).1.status with
    | .going stage later => .isFalse fun hreturns => hreturns stage later h
    | .ended _ => .isTrue fun _ _ hgoing => nomatch h.symm.trans hgoing
    | .failed _ => .isTrue fun _ _ hgoing => nomatch h.symm.trans hgoing
  | dispose => .isTrue trivial

end Use

/-- Once the program has been released, a run is cancelled before its first tick. -/
theorem runWith_of_disposed (p : Program W S) (runId : String) (tick : Search W S → η → Bool × η)
    (limit : Nat) (log : List LogEvent) (now : η) {v : Verification W S} (h : v.isDisposed = true) :
    ∃ log', v.runWith p runId tick limit log now =
      (.ok (v.summary .cancelled), ⟨v, log'⟩, now) := by
  have hdrive : ∃ log', Run.drive p tick limit (v.begin p runId log) now =
      (⟨v.search, log', .ended (some .cancelled)⟩, now) := by
    rw [begin, if_pos h]
    cases limit <;> exact ⟨_, rfl⟩
  obtain ⟨log', hdrive⟩ := hdrive
  simp only [runWith, hdrive, result, Outcome.ofSearch, conclude, dispose_of_disposed p log' h]
  exact ⟨_, rfl⟩

theorem after_of_disposed (u : Use W S) {l : Logged (Verification W S)}
    (h : l.state.isDisposed = true) : (u.after p l).state = l.state := by
  cases u with
  | run runId tick limit now =>
      obtain ⟨log', hrun⟩ := runWith_of_disposed p runId tick limit l.log now h
      rw [Use.after, hrun]
  | dispose => rw [Use.after, dispose_of_disposed p l.log h]

theorem foldl_after_of_disposed (uses : List (Use W S)) {l : Logged (Verification W S)}
    (h : l.state.isDisposed = true) : (uses.foldl (Use.after p) l).state = l.state := by
  induction uses generalizing l with
  | nil => rfl
  | cons u uses ih =>
      have hsame := after_of_disposed (p := p) u h
      rw [List.foldl_cons, ih (hsame ▸ h), hsame]

structure New (v : Verification (Journaled W) S) : Prop where
  unreleased : v.isDisposed = false
  clean : Clean v.calls
  fits : ∃ f, v.search.Fits (fun _ => True) f

omit [DecidableEq S] in
theorem new_of_create {memory : W} {log : List LogEvent} {property : String}
    {directives : Directives} {l : Logged (Verification (Journaled W) S)}
    (h : create p.journaled ⟨memory, []⟩ log property directives = .ok l) : l.state.New := by
  obtain ⟨f, -, h⟩ := except_bind_eq_ok.1 h
  dsimp only at h
  split at h
  · cases h
  · rename_i hconfigure
    cases h
    obtain ⟨m, hm, hspace⟩ := StateSpace.call_eq_ok.1 hconfigure
    cases hspace
    have hcalls := Program.calls_of_configure hm
    refine ⟨rfl, ?_, _, Search.fits_fresh (StateSpace.fits_start _) f.negate _ _⟩
    rw [calls, hcalls]
    simp [Clean]

structure Runs (r : Run (Journaled W) S) : Prop where
  fits : ∃ f, Run.Fits (fun _ => True) (fun l => Clean l.state.calls)
    (fun fault l => FailedLast fault l.state.calls) f r
  unreleased : r.search.space.disposed = false

omit [DecidableEq S] [HasDigest S] in
theorem unreleased_of_beside {x y : Search (Journaled W) S} (hx : x.space.disposed = false)
    (h : Search.Beside (Same (StateSpace.custody fun _ => ())) (Same fun _ => ()) x y) :
    y.space.disposed = false :=
  (Prod.mk.inj h.1).1.trans hx

theorem New.begin (hp : p.Panicless) (hv : v.New) (runId : String) (log : List LogEvent) :
    Runs (v.begin p.journaled runId log) := by
  obtain ⟨f, hf⟩ := hv.fits
  have hcustody := Search.consults_custody p.journaled.spares_trivial
  rw [Verification.begin, if_neg (by simp [hv.unreleased])]
  exact ⟨⟨f, Run.fits_begin hp.confined ⟨hv.clean, hf⟩ _⟩,
    unreleased_of_beside hv.unreleased (hcustody.begin _ _ _)⟩

theorem Runs.iterate (hp : p.Panicless) {r : Run (Journaled W) S} (h : Runs r) (k : Nat) :
    Runs ((Run.step p.journaled)^[k] r) := by
  obtain ⟨f, hf⟩ := h.fits
  have hcustody := Search.consults_custody p.journaled.spares_trivial
  exact ⟨⟨f, hf.iterate hp.confined k⟩, unreleased_of_beside h.unreleased (hcustody.iterate r k)⟩

omit [DecidableEq S] in
theorem Runs.calls {r : Run (Journaled W) S} (h : Runs r) :
    ∀ c ∈ r.search.space.memory.calls, c.callback ≠ .dispose := by
  obtain ⟨f, hf⟩ := h.fits
  let valid (w : Journaled W) : Prop := ∀ c ∈ w.calls, c.callback ≠ .dispose
  have hkept (l : Logged (Journaled W)) (hl : Clean l.state.calls) : valid l.state :=
    fun c hc => (hl c hc).1
  refine (hf.settled hkept ?_).1
  rintro fault l ⟨callback, error, older, hcalls, -, hcallback, holder⟩ c hc
  rw [hcalls, List.mem_cons] at hc
  rcases hc with rfl | hc
  · exact hcallback
  · exact (holder c hc).1

omit [DecidableEq S] in
/-- A run that nobody stops ends with a verdict, or with the error of the first call that fails. -/
theorem Runs.finished {r : Run (Journaled W) S} (h : Runs r)
    (hover : ∀ stage later, r.status ≠ .going stage later) :
    ∃ outcome, Finished False r outcome := by
  have hcalls := h.calls
  have hunreleased := h.unreleased
  obtain ⟨f, hf⟩ := h.fits
  obtain ⟨x, log, status⟩ := r
  cases status with
  | going stage later => exact absurd rfl (hover stage later)
  | ended verdict =>
      have hclean : Clean x.space.memory.calls := hf.1.1
      rcases verdict with _ | _ | c | _
      · exact ⟨.pass, rfl, hunreleased, hcalls, explains_of_clean hclean nofun nofun⟩
      · exact ⟨.pass, rfl, hunreleased, hcalls, explains_of_clean hclean nofun nofun⟩
      · exact ⟨.violation c, rfl, hunreleased, hcalls, explains_of_clean hclean nofun nofun⟩
      · exact absurd rfl hf.2
  | failed fault =>
      have hfailed : FailedLast fault x.space.memory.calls := hf.1
      obtain ⟨e, rfl⟩ : ∃ e, fault = .error e := by
        obtain ⟨_, e, _, _, he, _⟩ := hfailed
        exact ⟨e, he⟩
      exact ⟨.ofSearch (.error e), rfl, hunreleased, hcalls, explains_of_failedLast hfailed⟩

omit [DecidableEq S] in
theorem Runs.finished_cancel {r : Run (Journaled W) S} {stage : RunStage} {later : List Job}
    (h : Runs r) (hgoing : r.status = .going stage later) : Finished True r.cancel .cancelled := by
  have hclean : Clean r.search.space.memory.calls := by
    obtain ⟨f, hf⟩ := h.fits
    rw [Run.Fits, hgoing] at hf
    exact hf.1.1
  have hcancel : r.cancel = { r with status := .ended (some .cancelled) } := by
    rw [Run.cancel, hgoing]
  rw [hcancel]
  refine ⟨rfl, h.unreleased, h.calls, iff_of_true rfl (.inl trivial), fun e _ => iff_of_false ?_ ?_⟩
  · rintro ⟨⟩
  · rintro ⟨c, hc, hfault⟩
    rw [(hclean c hc).2] at hfault
    cases hfault

/-- The end of a run releases the program, and the outcome is that of its search. -/
theorem Finished.runWith {stopped : Prop} {outcome : Outcome S} {runId : String}
    {tick : Search (Journaled W) S → η → Bool × η} {limit : Nat} {log : List LogEvent} {now : η}
    (hp : NeverFails p.dispose)
    (h : Finished stopped (Run.drive p.journaled tick limit (v.begin p.journaled runId log) now).1
      outcome) :
    ∃ v' log', v.runWith p.journaled runId tick limit log now =
      (.ok (v'.summary outcome), ⟨v', log'⟩,
        (Run.drive p.journaled tick limit (v.begin p.journaled runId log) now).2) ∧
      v'.isDisposed = true ∧ v'.calls = ⟨.dispose, none⟩ ::
        (Run.drive p.journaled tick limit (v.begin p.journaled runId log)
          now).1.search.space.memory.calls := by
  rcases hdrive : Run.drive p.journaled tick limit (v.begin p.journaled runId log) now
    with ⟨r, now'⟩
  rw [hdrive] at h
  obtain ⟨memory, log', hdispose⟩ :=
    exists_dispose (v := { v with search := r.search }) hp h.unreleased r.log
  have hresult := h.result
  dsimp only at hresult
  simp only [Verification.runWith, hdrive, hresult, conclude, hdispose]
  exact ⟨_, _, rfl, rfl, rfl⟩

omit [DecidableEq S] [HasDigest S] in
theorem Explains.release {stopped stopped' : Prop} {calls : List CallRecord} {outcome : Outcome S}
    (h : Explains stopped calls outcome) (hstopped : stopped' ↔ stopped) :
    Explains stopped' (⟨.dispose, none⟩ :: calls) outcome where
  cancelled := by simpa [hstopped] using h.cancelled
  error e he := by simpa using h.error e he

/-- A verification that can do no more than answer that it was cancelled. -/
structure Spent (v : Verification (Journaled W) S) : Prop where
  disposed : v.isDisposed = true
  released : ∃ calls, v.calls = ⟨.dispose, none⟩ :: calls ∧ ∀ c ∈ calls, c.callback ≠ .dispose

theorem New.spent (hp : p.Panicless) {l : Logged (Verification (Journaled W) S)} (hv : l.state.New)
    (first : Use (Journaled W) S) (hreturns : first.Returns p.journaled l) :
    (first.after p.journaled l).state.Spent := by
  cases first with
  | run runId tick limit now =>
      have hruns := (hv.begin hp runId l.log).iterate hp
      obtain ⟨stopped, outcome, hend⟩ : ∃ stopped outcome, Finished stopped
          (Run.drive p.journaled tick limit (l.state.begin p.journaled runId l.log) now).1
          outcome := by
        obtain ⟨k, -, ⟨hdrive, -⟩ | ⟨hdrive, ⟨stage, later, hgoing⟩, -⟩⟩ :=
          Run.drive_cases (p := p.journaled) tick limit (l.state.begin p.journaled runId l.log) now
        · rw [Use.Returns, hdrive] at hreturns
          exact ⟨False, hdrive ▸ (hruns k).finished hreturns⟩
        · exact ⟨True, .cancelled, hdrive ▸ (hruns k).finished_cancel hgoing⟩
      obtain ⟨v', log', hrun, hdisposed, hcalls⟩ := hend.runWith hp.dispose
      rw [Use.after, hrun]
      exact ⟨hdisposed, _, hcalls, hend.calls⟩
  | dispose =>
      obtain ⟨memory, log', hdispose⟩ := exists_dispose hp.dispose hv.unreleased l.log
      rw [Use.after, hdispose]
      exact ⟨rfl, _, rfl, fun c hc => (hv.clean c hc).1⟩

theorem runWith_recording {β : Type} {keep : Search (Journaled W) S → Bool → β} {kept : List β}
    {runId : String} {tick : Search (Journaled W) S → η → Bool × η} {limit : Nat} {now : η} :
    v.runWith p.journaled runId (Run.recording keep tick) limit log (now, kept) =
      ((v.runWith p.journaled runId tick limit log now).1,
        (v.runWith p.journaled runId tick limit log now).2.1,
        (v.runWith p.journaled runId tick limit log now).2.2,
        (Run.drive p.journaled (Run.recording keep tick) limit (v.begin p.journaled runId log)
          (now, kept)).2.2) := by
  obtain ⟨kept', hdrive⟩ : ∃ kept', Run.drive p.journaled (Run.recording keep tick) limit
      (v.begin p.journaled runId log) (now, kept) =
        ((Run.drive p.journaled tick limit (v.begin p.journaled runId log) now).1,
          (Run.drive p.journaled tick limit (v.begin p.journaled runId log) now).2, kept') := by
    obtain ⟨hrun, hnow⟩ := Run.drive_recording (p := p.journaled) keep tick limit
      (v.begin p.journaled runId log) now kept
    exact ⟨_, Prod.ext hrun (Prod.ext hnow rfl)⟩
  simp only [runWith, hdrive]
  split <;> rfl

/-- The first use of a verification releases its program, as the last call that the program hears;
from then on nothing changes but the log, and a run is cancelled before its first tick. A first run
is cancelled if a tick or a call cancels it, and ends with the error of a call that fails
otherwise. -/
theorem runs_and_releases_once (hp : p.Panicless) {memory : W} {log : List LogEvent}
    {property : String} {directives : Directives} {l : Logged (Verification (Journaled W) S)}
    (hcreate : create p.journaled ⟨memory, []⟩ log property directives = .ok l) :
    (∀ first : Use (Journaled W) S, first.Returns p.journaled l →
      ∀ later : List (Use (Journaled W) S),
      let l₁ := first.after p.journaled l
      let l₂ := later.foldl (Use.after p.journaled) l₁
      (∃ calls, l₁.state.calls = ⟨.dispose, none⟩ :: calls ∧ ∀ c ∈ calls, c.callback ≠ .dispose) ∧
      l₂.state = l₁.state ∧
      ∀ (η : Type) (runId : String) (tick : Search (Journaled W) S → η → Bool × η)
        (limit : Nat) (now : η),
        ∃ log', l₂.state.runWith p.journaled runId tick limit l₂.log now =
          (.ok (l₁.state.summary .cancelled), ⟨l₁.state, log'⟩, now)) ∧
    ∀ (η : Type) (runId : String) (tick : Search (Journaled W) S → η → Bool × η)
      (limit : Nat) (now : η),
      (Use.run runId tick limit now).Returns p.journaled l →
      ∃ outcome l₁ now' answers,
        l.state.runWith p.journaled runId tick limit l.log now =
          (.ok (l₁.state.summary outcome), l₁, now') ∧
        l.state.runWith p.journaled runId (Run.recording (fun _ go => go) tick) limit l.log
            (now, []) =
          (.ok (l₁.state.summary outcome), l₁, now', answers) ∧
        Explains (false ∈ answers) l₁.state.calls outcome := by
  have hv := new_of_create hcreate
  refine ⟨fun first hreturns later => ?_, fun η runId tick limit now hreturns => ?_⟩
  · obtain ⟨hdisposed, hreleased⟩ := hv.spent hp first hreturns
    have hsame := foldl_after_of_disposed (p := p.journaled) later hdisposed
    refine ⟨hreleased, hsame, fun η runId tick limit now => ?_⟩
    rw [hsame]
    exact runWith_of_disposed p.journaled runId tick limit _ now hdisposed
  · have hruns := (hv.begin hp runId l.log).iterate hp
    obtain ⟨k, ⟨htrue, hdrive⟩ | ⟨hfalse, hdrive, stage, later, hgoing⟩⟩ :=
      Run.drive_answers (p := p.journaled) tick limit (l.state.begin p.journaled runId l.log) now
    · rw [Use.Returns, hdrive] at hreturns
      obtain ⟨outcome, hend⟩ := (hruns k).finished hreturns
      rw [← hdrive] at hend
      obtain ⟨v', log', hrun, -, hcalls⟩ := hend.runWith hp.dispose
      refine ⟨outcome, ⟨v', log'⟩, _, _, hrun, by rw [runWith_recording, hrun],
        hcalls ▸ hend.explains.release ?_⟩
      simpa using htrue
    · have hend := (hruns k).finished_cancel hgoing
      rw [← hdrive] at hend
      obtain ⟨v', log', hrun, -, hcalls⟩ := hend.runWith hp.dispose
      refine ⟨.cancelled, ⟨v', log'⟩, _, _, hrun, by rw [runWith_recording, hrun],
        hcalls ▸ hend.explains.release ?_⟩
      simpa using hfalse

end

def dumbstruck : Program Unit UInt32 where
  configure _ := return ()
  initial := return 0
  successors _ := Task.fail (.programStep "lost for words")
  ample _ := return none
  holds _ _ := return false
  constructs _ := []
  dispose := return ()
  describe _ := "silence"

theorem dumbstruck_panicless : dumbstruck.Panicless where
  initial := nofun
  successors _ := nofun
  ample _ := nofun
  holds _ _ := nofun
  dispose := nofun

def patient (_ : Search (Journaled Unit) UInt32) (n : Nat) : Bool × Nat := (true, n + 1)

def attempt : Use (Journaled Unit) UInt32 := .run "1" patient 9 0

theorem dumbstruck_runs_once : ∃ l, create dumbstruck.journaled ⟨(), []⟩ [] "[] heard" {} = .ok l ∧
    attempt.Returns dumbstruck.journaled l ∧
    (attempt.after dumbstruck.journaled l).state.calls.map (·.callback) =
      [.dispose, .successors, .holds, .initial, .configure] ∧
    ([.dispose, attempt].foldl (Use.after dumbstruck.journaled)
      (attempt.after dumbstruck.journaled l)).state =
      (attempt.after dumbstruck.journaled l).state ∧
    ∃ l₁ n, ∃ answers : List Bool, l.state.runWith dumbstruck.journaled "1" patient 9 l.log 0 =
        (.ok (l₁.state.summary (.error (.programStep "lost for words"))), l₁, n) ∧
      Explains (false ∈ answers) l₁.state.calls (.error (.programStep "lost for words") :
        Outcome UInt32) := by
  have hrun : (create dumbstruck.journaled ⟨(), []⟩ [] "[] heard" {}).toOption.map (fun l =>
      (decide (attempt.Returns dumbstruck.journaled l),
        (attempt.after dumbstruck.journaled l).state.calls.map (·.callback),
        (l.state.runWith dumbstruck.journaled "1" patient 9 l.log 0).1.toOption.map
          Summary.outcome)) =
      some (true, [.dispose, .successors, .holds, .initial, .configure],
        some (.error (.programStep "lost for words"))) := by decide +kernel
  obtain ⟨l, hl, hends⟩ := Option.map_eq_some_iff.1 hrun
  have hcreate := except_toOption_eq_some.1 hl
  simp only [Prod.mk.injEq, decide_eq_true_eq] at hends
  obtain ⟨hreturns, hcalls, houtcome⟩ := hends
  obtain ⟨honce, hfirst⟩ := runs_and_releases_once dumbstruck_panicless hcreate
  obtain ⟨-, hsame, -⟩ := honce attempt hreturns [.dispose, attempt]
  obtain ⟨outcome, l₁, n, answers, hrunWith, -, hexplains⟩ := hfirst Nat "1" patient 9 0 hreturns
  rw [hrunWith] at houtcome
  obtain rfl : outcome = .error (.programStep "lost for words") := Option.some.inj houtcome
  exact ⟨l, hcreate, hreturns, hcalls, hsame, l₁, n, answers, hrunWith, hexplains⟩

end Verification

end TemporalCheck
