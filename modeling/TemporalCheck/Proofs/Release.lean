import TemporalCheck.Program.Faulty
import TemporalCheck.Proofs.Consultation
import TemporalCheck.Proofs.Termination
import TemporalCheck.Run.Verification

namespace TemporalCheck

open TemporalCheck.Task

namespace Program

variable {W S α γ : Type} {p : Program W S} {seen : W → γ}

/-- A program of whose memory a search never changes what `seen` shows. -/
structure Spares (p : Program W S) (seen : W → γ) : Prop where
  initial : Keeps seen p.initial
  successors : ∀ s, Keeps seen (p.successors s)
  ample : ∀ s, Keeps seen (p.ample s)
  holds : ∀ s name, Keeps seen (p.holds s name)

theorem Spares.entails (hp : p.Spares seen) (s : S) (f : Formula) : Keeps seen (p.entails s f) := by
  have hfail (e : CheckError) : Keeps seen (Task.fail e : Task W Bool) :=
    ⟨nofun, fun h => by cases h; rfl⟩
  cases f with
  | prop name => exact hp.holds s name
  | neg f =>
      cases f with
      | prop name => exact .bind (hp.holds s name) fun _ => .pure _
      | _ => exact hfail _
  | top => exact .pure _
  | bot => exact .pure _
  | _ => exact hfail _

theorem Spares.entailsAll (hp : p.Spares seen) (s : S) (fs : List Formula) :
    Keeps seen (p.entailsAll s fs) := by
  induction fs with
  | nil => exact .pure _
  | cons f fs ih =>
      refine .bind (hp.entails s f) fun holds => ?_
      split
      · exact ih
      · exact .pure _

/-- Nothing at all is asked of the calls. -/
theorem confined_trivial (p : Program W S) :
    p.Confined (fun _ => True) (fun _ => True) fun _ _ => True where
  initial _ _ := .of_forall (fun _ _ => ⟨trivial, trivial⟩) fun _ _ => trivial
  successors _ _ _ _ := .of_forall (fun _ _ => ⟨trivial, fun _ _ => trivial⟩) fun _ _ => trivial
  ample _ _ _ _ := .of_forall (fun _ _ => ⟨trivial, fun _ _ => trivial⟩) fun _ _ => trivial
  holds _ _ _ _ _ := .of_forall (fun _ _ => trivial) fun _ _ => trivial
  emit _ _ _ := trivial

theorem counted_meets (plan : List PlannedFault) (callback : Callback) (t : Task W α)
    (l : Logged (Counted W)) :
    (counted plan callback t).Meets l (fun _ m => m.state.counts = l.state.counts.bump callback)
      fun _ m => m.state.counts = l.state.counts.bump callback := by
  obtain ⟨⟨memory, counts⟩, log⟩ := l
  simp only [Meets, counted]
  cases plannedFor plan callback ((counts.bump callback).get callback) with
  | some fault => rfl
  | none => cases t ⟨memory, log⟩ <;> rfl

theorem get_bump (counts : CallCounts) {callback other : Callback} (h : other ≠ callback) :
    (counts.bump callback).get other = counts.get other := by
  cases callback <;> cases other <;> first | rfl | exact absurd rfl h

theorem keeps_counted (plan : List PlannedFault) {callback : Callback} (t : Task W α)
    (h : .dispose ≠ callback) :
    Keeps (fun m : Counted W => m.counts.get .dispose) (counted plan callback t) := by
  constructor
  · intro l a l' hok
    rw [(counted_meets plan callback t l).ok hok, get_bump _ h]
  · intro l e l' herror
    rw [(counted_meets plan callback t l).error herror, get_bump _ h]

theorem spares_withFaults (plan : List PlannedFault) (p : Program W S) :
    (p.withFaults plan).Spares fun m => m.counts.get .dispose where
  initial := keeps_counted plan _ nofun
  successors _ := keeps_counted plan _ nofun
  ample _ := keeps_counted plan _ nofun
  holds _ _ := keeps_counted plan _ nofun

theorem keeps_configure (plan : List PlannedFault) (p : Program W S) (options : ProgramOptions) :
    Keeps (fun m => m.counts.get .dispose) ((p.withFaults plan).configure options) :=
  keeps_counted plan _ nofun

end Program

namespace StateSpace

variable {W S α γ : Type} {p : Program W S} {seen : W → γ}

def custody (seen : W → γ) (x : StateSpace W S) : Bool × γ := (x.disposed, seen x.memory)

theorem keeps_call {t : Task W α} (ht : Keeps seen t) :
    Keeps (custody seen) (call t : Task (StateSpace W S) α) := by
  constructor
  · intro l a l' h
    obtain ⟨m, hm, rfl⟩ := call_eq_ok.1 h
    exact congrArg (l.state.disposed, ·) (ht.ok hm)
  · rintro ⟨x, log⟩ e l' h
    simp only [call] at h
    split at h
    · cases h
    · rename_i hm
      cases h
      exact congrArg (x.disposed, ·) (ht.error hm)

theorem keeps_state (id : Nat) : Keeps (custody seen) (state id : Task (StateSpace W S) S) :=
  .bind .read fun _ => .require _

theorem keeps_facts (id : Nat) :
    Keeps (custody seen) (facts id : Task (StateSpace W S) StateFacts) :=
  .bind .read fun _ => .require _

theorem keeps_entailsAll (hp : p.Spares seen) (id : Nat) (literals : List Formula) :
    Keeps (custody seen) (entailsAll p id literals) := by
  have hcall : Keeps (custody seen) (do call (p.entailsAll (← state id) literals) :
      Task (StateSpace W S) Bool) :=
    .bind (keeps_state id) fun s => keeps_call (hp.entailsAll s literals)
  refine .bind (keeps_facts id) fun facts => ?_
  dsimp only
  split
  · exact .bind (.change fun _ => rfl) fun _ => .bind (.change fun _ => rfl) fun _ => hcall
  · exact hcall

variable [DecidableEq S] [HasDigest S]

theorem keeps_store (states : List S) :
    Keeps (custody seen) (store states : Task (StateSpace W S) (List Nat)) :=
  .bind .read fun _ => .bind (.change fun _ => rfl) fun _ => .pure _

theorem keeps_initial (hp : p.Spares seen) : Keeps (custody seen) (initial p) := by
  refine .bind .read fun x => ?_
  split
  · exact .pure _
  · exact .bind (keeps_call hp.initial) fun _ => .bind .read fun _ => .bind (.change fun _ => rfl)
      fun _ => .pure _

theorem keeps_successors (hp : p.Spares seen) (id : Nat) :
    Keeps (custody seen) (successors p id) := by
  have hrecord (ids : List Nat) : Keeps (custody seen) (do
      note id fun f => { f with successors := some ids }
      Task.change fun s => { s with expanded := s.expanded + 1 }
      return ids : Task (StateSpace W S) (List Nat)) :=
    .bind (.change fun _ => rfl) fun _ => .bind (.change fun _ => rfl) fun _ => .pure _
  refine .bind (keeps_facts id) fun facts => ?_
  split
  · exact .pure _
  · refine .bind (keeps_state id) fun s => .bind (keeps_call (hp.successors s)) fun next => ?_
    split
    · exact .bind (.pure _) hrecord
    · exact .bind (keeps_store next) hrecord

theorem keeps_ample (hp : p.Spares seen) (id : Nat) : Keeps (custody seen) (ample p id) := by
  have hrecord (ids : Option (List Nat)) : Keeps (custody seen) (do
      note id fun f => { f with ample := some ids }
      return ids : Task (StateSpace W S) (Option (List Nat))) :=
    .bind (.change fun _ => rfl) fun _ => .pure _
  refine .bind (keeps_facts id) fun facts => ?_
  split
  · exact .pure _
  · refine .bind (keeps_state id) fun s => .bind (keeps_call (hp.ample s)) fun reduced => ?_
    split
    · exact .bind (.pure _) hrecord
    · exact .bind (.map (keeps_store _)) hrecord

end StateSpace

namespace Search

variable {W S γ : Type} [DecidableEq S] [HasDigest S] {p : Program W S} {seen : W → γ}
  {x : Search W S} {log : List LogEvent}

/-- No question of a search changes who has the program or what is seen of it. -/
theorem consults_custody (hp : p.Spares seen) :
    Consults p (Same (StateSpace.custody seen)) (Same fun _ => ()) where
  initial := .of_view (StateSpace.keeps_initial hp)
  successors id := .of_view (StateSpace.keeps_successors hp id)
  ample id := .of_view (StateSpace.keeps_ample hp id)
  entailsAll id literals := .of_view (StateSpace.keeps_entailsAll hp id literals)
  property _ := ⟨fun _ => rfl, fun _ => rfl⟩

end Search

namespace StateSpace

variable {W S : Type} {p : Program W S} {plan : List PlannedFault} {x x' : StateSpace (Counted W) S}
  {log : List LogEvent}

def Tallied (x : StateSpace (Counted W) S) : Prop :=
  x.memory.counts.dispose = if x.disposed then 1 else 0

theorem Tallied.congr (hx : x.Tallied)
    (h : x'.custody (fun m => m.counts.get .dispose) = x.custody fun m => m.counts.get .dispose) :
    x'.Tallied := by
  obtain ⟨hdisposed, hcount⟩ := Prod.mk.inj h
  rw [Tallied, hdisposed]
  exact Eq.trans hcount hx

/-- `x'` is `x` after a release, of which the program is told unless it has been before. -/
structure Released (x x' : StateSpace (Counted W) S) : Prop where
  rest : x' = { x with memory := x'.memory, disposed := true }
  counts : x'.memory.counts = if x.disposed then x.memory.counts else x.memory.counts.bump .dispose

theorem dispose_meets : (dispose (p.withFaults plan)).Meets ⟨x, log⟩ (fun _ l => Released x l.state)
    fun _ l => Released x l.state := by
  rw [dispose, meets_bind, meets_read]
  cases hx : x.disposed with
  | false =>
      simp only [Bool.not_false, if_true]
      rw [meets_bind, meets_change, meets_call]
      refine (Program.counted_meets plan .dispose p.dispose ⟨x.memory, log⟩).mono (fun _ m hm => ?_)
        fun _ m hm => ?_
      all_goals exact ⟨rfl, by rw [hx]; exact hm⟩
  | true =>
      simp only [Bool.not_true, Bool.false_eq_true, if_false]
      exact ⟨by rw [← hx], by rw [hx]; rfl⟩

theorem Released.tallied (h : Released x x') (hx : x.Tallied) : x'.Tallied := by
  have hdisposed : x'.disposed = true := by rw [h.rest]
  rw [Tallied] at hx ⊢
  rw [hdisposed, h.counts]
  cases hd : x.disposed with
  | false =>
      rw [hd] at hx
      exact congrArg (· + 1) hx
  | true =>
      rw [hd] at hx
      exact hx

end StateSpace

namespace Search

variable {W S : Type} [HasDigest S] {f : Formula} {x : Search (Counted W) S}
  {space : StateSpace (Counted W) S}

structure Orderly (f : Formula) (x : Search (Counted W) S) : Prop where
  tallied : x.space.Tallied
  fits : x.Fits (fun _ => True) f

theorem Orderly.released (h : x.Orderly f) (hspace : x.space.Released space) :
    Orderly f { x with space } := by
  refine ⟨hspace.tallied h.tallied, ?_⟩
  rw [hspace.rest]
  exact h.fits.inSpace ⟨h.fits.space.table, h.fits.space.states, h.fits.space.initial,
    h.fits.space.facts⟩ (Nat.le_refl _)

end Search

namespace Run

open Search

variable {W S η : Type} [HasDigest S] {p : Program W S} {plan : List PlannedFault} {f : Formula}
  {x : Search (Counted W) S} {log : List LogEvent} {r : Run (Counted W) S}

structure Orderly (f : Formula) (r : Run (Counted W) S) : Prop where
  search : r.search.Orderly f
  stage : ∀ stage later, r.status = .going stage later → StageFits r.search stage

theorem Orderly.of_fits (h : Fits (fun _ => True) (fun _ => True) (fun _ _ => True) f r)
    (htallied : r.search.space.Tallied) : Orderly f r := by
  have hfits : r.search.Fits (fun _ => True) f := by
    rw [Fits] at h
    split at h
    · exact h.2
    · exact h.1.2
  refine ⟨⟨htallied, hfits⟩, ?_⟩
  intro stage later hgoing
  rw [Fits, hgoing] at h
  exact h.2

theorem Orderly.cancel (h : Orderly f r) : Orderly f r.cancel := by
  obtain ⟨x, log, status⟩ := r
  cases status with
  | going stage later => exact ⟨h.search, nofun⟩
  | ended verdict => exact h
  | failed fault => exact h

variable [DecidableEq S]

theorem orderly_begin (h : x.Orderly f) (log : List LogEvent) (jobs : List Job) :
    Orderly f (Run.begin (p.withFaults plan) x log jobs) := by
  apply Orderly.of_fits
  · exact fits_begin (Program.confined_trivial _) ⟨trivial, h.fits⟩ jobs
  · exact h.tallied.congr ((consults_custody (p.spares_withFaults plan)).begin x log jobs).1

theorem Orderly.step (h : Orderly f r) : Orderly f (r.step (p.withFaults plan)) := by
  have htallied := h.search.tallied.congr
    ((consults_custody (p.spares_withFaults plan)).runStep r).1
  obtain ⟨x, log, status⟩ := r
  cases status with
  | going stage later =>
      refine .of_fits (Fits.step (Program.confined_trivial _) ?_) htallied
      exact ⟨⟨trivial, h.search.fits⟩, h.stage stage later rfl⟩
  | ended verdict => exact h
  | failed fault => exact h

theorem Orderly.drive (h : Orderly f r) (tick : Search (Counted W) S → η → Bool × η)
    (limit : Nat) (now : η) : Orderly f (Run.drive (p.withFaults plan) tick limit r now).1 := by
  induction limit generalizing r now with
  | zero => exact h
  | succ limit ih =>
      rw [Run.drive]
      split
      · dsimp only
        split
        · exact ih h.step _
        · exact h.cancel
      · exact h

end Run

namespace Verification

open StateSpace

variable {W S η : Type} {p : Program W S} {plan : List PlannedFault} {v : Verification W S}
  {log : List LogEvent}

def outcome (status : RunStatus S) : Outcome S :=
  match result status with
  | .ok outcome => outcome
  | .error text => .error (.other ("search panicked: " ++ crashCause text))

theorem finish_eq (p : Program W S) (runId : String) (v : Verification W S) (r : Run W S) :
    ∃ log, v.finish p runId r =
      (({ v with search := r.search }.dispose p r.log).state.summary (outcome r.status),
        ⟨({ v with search := r.search }.dispose p r.log).state, log⟩) := by
  rw [finish, outcome]
  cases result r.status with
  | ok outcome => exact ⟨_, rfl⟩
  | error text => exact ⟨_, rfl⟩

theorem dispose_eq (p : Program W S) (plan : List PlannedFault) (v : Verification (Counted W) S)
    (log : List LogEvent) : ∃ space, Released v.search.space space ∧
      (v.dispose (p.withFaults plan) log).state = { v with search := { v.search with space } } := by
  have hmeets : (Search.inSpace (StateSpace.dispose (p.withFaults plan))).Meets ⟨v.search, log⟩
      (fun _ l => ∃ space, Released v.search.space space ∧ l.state = { v.search with space })
      fun _ l => ∃ space, Released v.search.space space ∧ l.state = { v.search with space } := by
    rw [Search.meets_inSpace]
    exact dispose_meets.mono (fun _ m hm => ⟨m.state, hm, rfl⟩) fun _ m hm => ⟨m.state, hm, rfl⟩
  rw [dispose]
  split
  · rename_i hok
    obtain ⟨space, hspace, hsearch⟩ := hmeets.ok hok
    exact ⟨space, hspace, congrArg ({ v with search := · }) hsearch⟩
  · rename_i herror
    obtain ⟨space, hspace, hsearch⟩ := hmeets.error herror
    exact ⟨space, hspace, congrArg ({ v with search := · }) hsearch⟩

section

variable [DecidableEq S] [HasDigest S]

/-- A verification that was created, and perhaps run on the spot or released, any number of
times. -/
inductive Usable (p : Program W S) (memory : W) : Verification W S → Prop
  | created {log log' : List LogEvent} {property : String} {directives : Directives}
      {v : Verification W S} (h : create p memory log property directives = .ok ⟨v, log'⟩) :
      Usable p memory v
  | ran {v : Verification W S} {η : Type} (hv : Usable p memory v) (runId : String)
      (tick : Search W S → η → Bool × η) (limit : Nat) (log : List LogEvent) (now : η) :
      Usable p memory (v.runWith p runId tick limit log now).2.1.state
  | disposed {v : Verification W S} (hv : Usable p memory v) (log : List LogEvent) :
      Usable p memory (v.dispose p log).state

variable {f : Formula} {v : Verification (Counted W) S} {memory : W}

omit [DecidableEq S] in
theorem orderly_dispose (h : v.search.Orderly f) (log : List LogEvent) :
    (v.dispose (p.withFaults plan) log).state.search.Orderly f := by
  obtain ⟨space, hspace, heq⟩ := dispose_eq p plan v log
  rw [heq]
  exact h.released hspace

theorem orderly_begin (h : v.search.Orderly f) (runId : String) (log : List LogEvent) :
    (v.begin (p.withFaults plan) runId log).Orderly f := by
  rw [begin]
  split
  · exact ⟨h, nofun⟩
  · exact Run.orderly_begin h _ _

omit [DecidableEq S] in
theorem orderly_create {log log' : List LogEvent} {property : String} {directives : Directives}
    (h : create (p.withFaults plan) ⟨memory, {}⟩ log property directives = .ok ⟨v, log'⟩) :
    ∃ f, v.search.Orderly f := by
  obtain ⟨f, -, h⟩ := except_bind_eq_ok.1 h
  dsimp only at h
  split at h
  · cases h
  · rename_i hconfigure
    cases h
    obtain ⟨m, hm, hspace⟩ := call_eq_ok.1 hconfigure
    cases hspace
    have hcount := (p.keeps_configure plan _).ok hm
    exact ⟨_, hcount, Search.fits_fresh (fits_start _) f.negate _ _⟩

theorem Usable.orderly (h : Usable (p.withFaults plan) ⟨memory, {}⟩ v) :
    ∃ f, v.search.Orderly f := by
  induction h with
  | created h => exact orderly_create h
  | @ran v η hv runId tick limit log now ih =>
      obtain ⟨f, hf⟩ := ih
      have hrun : (Run.drive (p.withFaults plan) tick limit (v.begin (p.withFaults plan) runId log)
          now).1.Orderly f :=
        (orderly_begin hf runId log).drive tick limit now
      refine ⟨f, ?_⟩
      -- a crash leaves the program unreleased, so that it may be run again
      rw [runWith]
      dsimp only
      split
      · exact orderly_dispose hrun.search _
      · exact hrun.search
  | disposed hv log ih =>
      obtain ⟨f, hf⟩ := ih
      exact ⟨f, orderly_dispose hf log⟩

end

end Verification

end TemporalCheck
