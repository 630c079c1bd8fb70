import TemporalCheck.Graph
import TemporalCheck.Proofs.Release
import TemporalCheck.Run.Session

namespace TemporalCheck

open TemporalCheck.Task

def Answer.query {S : Type} : Answer S → Query
  | .path _ => .path
  | .stats _ => .stats

def WorkerPhase.report? {S : Type} : WorkerPhase S → Option (Summary S)
  | .closing summary | .draining summary | .telling summary | .over summary => some summary
  | .starting | .answering | .looking | .stepping => none

def SessionMove.isWork : SessionMove → Bool
  | .work => true
  | _ => false

namespace Verification

variable {W S : Type}

structure Concluded (v : Verification W S) (status : RunStatus S) (summary : Summary S) : Prop where
  ended : ∀ stage later, status ≠ .going stage later
  released : v.search.space.disposed = true
  summary : summary = v.summary (outcome status)

end Verification

namespace Session

section

variable {W S : Type} {p : Program W S} {runId : String} {x : Search W S} {s : Session W S}

def served (s : Session W S) : List (Nat × Query) := s.answers.reverse.map fun a => (a.1, a.2.query)

def accepts (s : Session W S) : SessionMove → List (Nat × Query)
  | .ask q => ((s.ask q).1.map fun number => (number, q)).toList
  | .work | .dispose => []

def Shows (x : Search W S) : Answer S → Prop
  | .path states => Search.pathStates ⟨x, []⟩ = .ok states ⟨x, []⟩
  | .stats counters => counters = x.stats

theorem query_answer (x : Search W S) (q : Query) : (answer x q).query = q := by
  cases q <;> rfl

theorem shows_answer [HasDigest S] {range : S → Prop} {f : Formula} (h : x.Fits range f)
    (q : Query) : Shows x (answer x q) := by
  cases q with
  | stats => rfl
  | path =>
      have hpath : Search.pathStates.Meets ⟨x, []⟩ (fun _ l => l = ⟨x, []⟩) fun _ _ => False := by
        rw [Search.pathStates, meets_bind, meets_read]
        exact Search.productStates_meets h fun id hid => h.path id (List.mem_reverse.1 hid)
      rw [answer, Shows, firstPath]
      split
      · rename_i hok
        exact hpath.ok hok ▸ hok
      · rename_i herror
        exact (hpath.error herror).elim

theorem answerNext_served (s : Session W S) :
    s.answerNext.served ++ s.answerNext.queue = s.served ++ s.queue := by
  obtain ⟨v, run, phase, cancelled, closed, asked, queue, answers, heard⟩ := s
  cases queue with
  | nil => rfl
  | cons next rest =>
      obtain ⟨number, q⟩ := next
      simp [answerNext, served, query_answer]

theorem mem_answerNext {a : Nat × Answer S} (h : a ∈ s.answerNext.answers) :
    a ∈ s.answers ∨ ∃ q, a.2 = answer s.run.search q := by
  rw [answerNext] at h
  split at h
  · exact .inl h
  · rename_i number q rest hqueue
    rcases List.mem_cons.1 h with rfl | h
    · exact .inr ⟨q, rfl⟩
    · exact .inl h

theorem closed_answerNext (s : Session W S) : s.answerNext.closed = s.closed := by
  rw [answerNext]
  split <;> rfl

variable [DecidableEq S] [HasDigest S]

def play (p : Program W S) (runId : String) (s : Session W S) (moves : List SessionMove) :
    Session W S :=
  moves.foldl (move p runId) s

/-- The queries that are taken while some moves are made. -/
def sent (p : Program W S) (runId : String) : Session W S → List SessionMove → List (Nat × Query)
  | _, [] => []
  | s, m :: moves => s.accepts m ++ sent p runId (s.move p runId m) moves

theorem play_concat (moves : List SessionMove) (m : SessionMove) :
    s.play p runId (moves ++ [m]) = (s.play p runId moves).move p runId m := by
  rw [play, List.foldl_append]
  rfl

theorem sent_concat (moves : List SessionMove) (m : SessionMove) :
    s.sent p runId (moves ++ [m]) = s.sent p runId moves ++ (s.play p runId moves).accepts m := by
  induction moves generalizing s with
  | nil => exact List.append_nil _
  | cons first moves ih =>
      rw [List.cons_append, sent, sent, ih, List.append_assoc]
      rfl

inductive Worked (p : Program W S) (runId : String) (s : Session W S) : Session W S → Prop
  | starts (hphase : s.phase = .starting) :
      Worked p runId s { s with run := s.verification.begin p runId s.run.log, phase := .answering }
  | answers (hphase : s.phase = .answering ∨ ∃ summary, s.phase = .draining summary)
      (hqueue : s.queue ≠ []) : Worked p runId s s.answerNext
  | looks {stage : RunStage} {later : List Job} (hphase : s.phase = .answering)
      (hqueue : s.queue = []) (hgoing : s.run.status = .going stage later) :
      Worked p runId s { s with phase := .looking }
  | finishes (hphase : s.phase = .answering)
      (hover : ∀ stage later, s.run.status ≠ .going stage later) :
      Worked p runId s (s.finishRun p runId)
  | stops (hphase : s.phase = .looking) (hcancelled : s.cancelled = true) :
      Worked p runId s { s with run := s.run.cancel, phase := .answering }
  | goesOn (hphase : s.phase = .looking) (hcancelled : s.cancelled = false) :
      Worked p runId s { s with phase := .stepping }
  | steps (hphase : s.phase = .stepping) :
      Worked p runId s { s with run := s.run.step p, phase := .answering }
  | closes {summary : Summary S} (hphase : s.phase = .closing summary) :
      Worked p runId s { s with closed := true, phase := .draining summary }
  | drains {summary : Summary S} (hphase : s.phase = .draining summary) (hqueue : s.queue = []) :
      Worked p runId s { s with phase := .telling summary }
  | tells {summary : Summary S} (hphase : s.phase = .telling summary) :
      Worked p runId s
        { s with
          heard := s.heard ++ [(summary, s.run.search.space.memory)]
          phase := .over summary }
  | rests {summary : Summary S} (hphase : s.phase = .over summary) : Worked p runId s s

theorem worked (p : Program W S) (runId : String) (s : Session W S) :
    Worked p runId s (s.work p runId) := by
  rw [work]
  split
  · exact .starts ‹_›
  · rename_i hphase
    split
    · rename_i hgoing
      split
      · rename_i hqueue
        exact .looks hphase (List.isEmpty_iff.1 hqueue) hgoing
      · rename_i hqueue
        exact .answers (.inl hphase) fun hempty => hqueue (List.isEmpty_iff.2 hempty)
    · exact .finishes hphase ‹_›
  · rename_i hphase
    split
    · exact .stops hphase ‹_›
    · exact .goesOn hphase (Bool.eq_false_iff.2 ‹_›)
  · exact .steps ‹_›
  · exact .closes ‹_›
  · rename_i summary hphase
    split
    · rename_i hqueue
      exact .drains hphase (List.isEmpty_iff.1 hqueue)
    · rename_i hqueue
      exact .answers (.inr ⟨summary, hphase⟩) fun hempty => hqueue (List.isEmpty_iff.2 hempty)
  · exact .tells ‹_›
  · exact .rests ‹_›

/-- New answers show the search as it is. -/
theorem mem_answers_move {a : Nat × Answer S} {m : SessionMove}
    (h : a ∈ (s.move p runId m).answers) : a ∈ s.answers ∨ ∃ q, a.2 = answer s.run.search q := by
  cases m with
  | work =>
      have ht := worked p runId s
      rw [move] at h
      generalize s.work p runId = t at h ht
      cases ht with
      | answers => exact mem_answerNext h
      | _ => exact .inl h
  | dispose =>
      rw [move, dispose] at h
      split at h <;> exact .inl h
  | ask q =>
      rw [move, ask] at h
      split at h <;> exact .inl h

/-- A worker that takes no more queries will never take one again. -/
theorem closed_move (h : s.closed = true) (m : SessionMove) : (s.move p runId m).closed = true := by
  cases m with
  | work =>
      have ht := worked p runId s
      rw [move]
      generalize s.work p runId = t at ht
      cases ht with
      | answers => exact (closed_answerNext s).trans h
      | closes => rfl
      | _ => exact h
  | dispose =>
      rw [move, dispose]
      split <;> exact h
  | ask q =>
      rw [move, ask]
      split <;> exact h

theorem closed_play (h : s.closed = true) (moves : List SessionMove) :
    (s.play p runId moves).closed = true := by
  induction moves using List.reverseRecOn with
  | nil => exact h
  | append_singleton moves m ih =>
      rw [play_concat]
      exact closed_move ih m

theorem move_over {summary : Summary S} (h : s.phase = .over summary) (m : SessionMove) :
    (s.move p runId m).phase = .over summary := by
  cases m with
  | work =>
      rw [move, work, h]
      exact h
  | dispose =>
      rw [move, dispose]
      split <;> exact h
  | ask q =>
      rw [move, ask]
      split <;> exact h

end

variable {W S : Type} {p : Program W S} {plan : List PlannedFault} {runId : String} {f : Formula}
  {sent : List (Nat × Query)} {x : Search (Counted W) S} {s t : Session (Counted W) S}

/-- The program is released when the run ends, and the result says how its search went. -/
theorem exists_finishRun (p : Program W S) (plan : List PlannedFault) (runId : String)
    (s : Session (Counted W) S) :
    ∃ v log, (∃ space, s.run.search.space.Released space ∧ v.search = { s.run.search with space }) ∧
      s.finishRun (p.withFaults plan) runId =
        { s with
          verification := v
          run := { s.run with search := v.search, log }
          phase := .closing (v.summary (Verification.outcome s.run.status)) } := by
  obtain ⟨log, hfinish⟩ := Verification.finish_eq (p.withFaults plan) runId s.verification s.run
  obtain ⟨space, hspace, hdispose⟩ :=
    Verification.dispose_eq p plan { s.verification with search := s.run.search } s.run.log
  refine ⟨_, log, ⟨space, hspace, ?_⟩, by rw [finishRun, hfinish]⟩
  rw [hdispose]

/-- A worker that will find the flag raised, or has found it, while its search stands at `x`. -/
def Stopping (x : Search (Counted W) S) (s : Session (Counted W) S) : Prop :=
  s.cancelled = true ∧
  match s.phase with
  | .starting | .stepping => False
  | .answering => s.run.search = x ∧
      ((∃ stage later, s.run.status = .going stage later) ∨ s.run.status = .ended (some .cancelled))
  | .looking => s.run.search = x ∧ ∃ stage later, s.run.status = .going stage later
  | .closing summary | .draining summary | .telling summary | .over summary =>
      (∃ space, x.space.Released space ∧ s.run.search = { x with space }) ∧
        summary.outcome = .cancelled

theorem Stopping.answerNext (h : s.Stopping x) : s.answerNext.Stopping x := by
  obtain ⟨v, run, phase, cancelled, closed, asked, queue, answers, heard⟩ := s
  cases queue with
  | nil => exact h
  | cons next rest => cases phase <;> exact h

theorem Stopping.finishRun (h : s.Stopping x) (hphase : s.phase = .answering)
    (hover : ∀ stage later, s.run.status ≠ .going stage later) :
    (s.finishRun (p.withFaults plan) runId).Stopping x := by
  obtain ⟨v, log, hreleased, hfinish⟩ := exists_finishRun p plan runId s
  obtain ⟨hcancelled, hstopping⟩ := h
  rw [hphase] at hstopping
  obtain ⟨rfl, ⟨stage, later, hgoing⟩ | hended⟩ := hstopping
  · exact absurd hgoing (hover stage later)
  · rw [hfinish, hended]
    exact ⟨hcancelled, hreleased, rfl⟩

theorem Stopping.search_eq (h : s.Stopping x) :
    s.run.search = x ∨ ∃ space, x.space.Released space ∧ s.run.search = { x with space } := by
  have hstopping := h.2
  cases hphase : s.phase with
  | starting | stepping =>
      rw [hphase] at hstopping
      exact hstopping.elim
  | answering | looking =>
      rw [hphase] at hstopping
      exact .inl hstopping.1
  | closing summary | draining summary | telling summary | «over» summary =>
      rw [hphase] at hstopping
      exact .inr hstopping.1

theorem Stopping.outcome_eq {summary : Summary S} (h : s.Stopping x)
    (hreport : s.phase.report? = some summary) : summary.outcome = .cancelled := by
  have hstopping := h.2
  cases hphase : s.phase with
  | starting | answering | looking | stepping =>
      rw [hphase] at hreport
      cases hreport
  | closing summary' | draining summary' | telling summary' | «over» summary' =>
      rw [hphase] at hreport hstopping
      cases hreport
      exact hstopping.2

def remaining (s : Session (Counted W) S) : Nat :=
  s.queue.length +
    match s.phase, s.run.status with
    | .answering, .going _ _ => 6
    | .answering, _ => 4
    | .closing _, _ => 3
    | .draining _, _ => 2
    | .telling _, _ => 1
    | .over _, _ => 0
    | _, _ => 5

theorem remaining_le (t : Session (Counted W) S) : t.remaining ≤ t.queue.length + 6 := by
  rw [remaining]
  split <;> omega

theorem over_of_remaining (h : s.remaining = 0) : ∃ summary, s.phase = .over summary := by
  obtain ⟨-, hrest⟩ := Nat.add_eq_zero_iff.1 h
  split at hrest
  · cases hrest
  · cases hrest
  · cases hrest
  · cases hrest
  · cases hrest
  · rename_i hphase
    exact ⟨_, hphase⟩
  · cases hrest

theorem remaining_answerNext (hqueue : s.queue ≠ []) :
    s.answerNext.remaining + 1 = s.remaining := by
  obtain ⟨v, run, phase, cancelled, closed, asked, queue, answers, heard⟩ := s
  cases queue with
  | nil => exact absurd rfl hqueue
  | cons next rest =>
      simp only [Session.answerNext, remaining, List.length_cons]
      omega

theorem remaining_ask (s : Session (Counted W) S) (q : Query) :
    (s.ask q).2.remaining = s.remaining + (s.accepts (.ask q)).length := by
  rw [accepts, Session.ask]
  split
  · rfl
  · simp only [remaining, List.length_append, List.length_singleton, Option.map_some,
      Option.toList_some]
    omega

/-- What is the case in each phase of a worker. -/
def Stands (s : Session (Counted W) S) : Prop :=
  match s.phase with
  | .starting =>
      s.closed = false ∧ s.heard = [] ∧ s.verification.search = s.run.search ∧
        s.run.status = .ended none
  | .answering => s.closed = false ∧ s.heard = []
  | .looking | .stepping =>
      s.closed = false ∧ s.heard = [] ∧ ∃ stage later, s.run.status = .going stage later
  | .closing summary => s.closed = false ∧ s.heard = [] ∧ s.verification.search = s.run.search ∧
      s.verification.Concluded s.run.status summary
  | .draining summary => s.closed = true ∧ s.heard = [] ∧ s.verification.search = s.run.search ∧
      s.verification.Concluded s.run.status summary
  | .telling summary => s.closed = true ∧ s.heard = [] ∧ s.verification.search = s.run.search ∧
      s.verification.Concluded s.run.status summary ∧ s.queue = []
  | .over summary => s.closed = true ∧ s.heard = [(summary, s.run.search.space.memory)] ∧
      s.verification.search = s.run.search ∧ s.verification.Concluded s.run.status summary ∧
      s.queue = []

variable [HasDigest S]

structure Reliable (f : Formula) (sent : List (Nat × Query)) (s : Session (Counted W) S) :
    Prop where
  run : s.run.Orderly f
  stands : s.Stands
  served : s.served ++ s.queue = sent
  numbered : sent.map Prod.fst = List.range s.asked

theorem reliable_ofVerification {v : Verification (Counted W) S} (h : v.search.Orderly f)
    (log : List LogEvent) : (ofVerification v log).Reliable f [] :=
  ⟨⟨h, nofun⟩, ⟨rfl, rfl, rfl, rfl⟩, rfl, rfl⟩

theorem Reliable.ask (h : s.Reliable f sent) (q : Query) :
    (s.ask q).2.Reliable f (sent ++ s.accepts (.ask q)) := by
  obtain ⟨hrun, hstands, hserved, hnumbered⟩ := h
  obtain ⟨v, run, phase, cancelled, closed, asked, queue, answers, heard⟩ := s
  cases closed with
  | true =>
      simp only [accepts, Session.ask, if_true, Option.map_none, Option.toList_none,
        List.append_nil]
      exact ⟨hrun, hstands, hserved, hnumbered⟩
  | false =>
      refine ⟨hrun, ?_, ?_, ?_⟩
      -- only phases that say nothing about the queue go with an open worker
      · cases phase with
        | draining | telling | «over» => exact (Bool.false_ne_true hstands.1).elim
        | _ => exact hstands
      · subst hserved
        exact (List.append_assoc _ _ _).symm
      · simp [accepts, Session.ask, hnumbered, List.range_succ]

theorem Reliable.dispose (h : s.Reliable f sent) : s.dispose.Reliable f sent := by
  obtain ⟨hrun, hstands, hserved, hnumbered⟩ := h
  rw [Session.dispose]
  split
  · exact ⟨hrun, hstands, hserved, hnumbered⟩
  · refine ⟨⟨hrun.search, hrun.stage⟩, ?_, hserved, hnumbered⟩
    obtain ⟨v, run, phase, cancelled, closed, asked, queue, answers, heard⟩ := s
    cases phase <;> exact hstands

theorem Reliable.answerNext (h : s.Reliable f sent)
    (hphase : s.phase = .answering ∨ ∃ summary, s.phase = .draining summary) :
    s.answerNext.Reliable f sent := by
  obtain ⟨hrun, hstands, hserved, hnumbered⟩ := h
  have hserved' := s.answerNext_served.trans hserved
  obtain ⟨v, run, phase, cancelled, closed, asked, queue, answers, heard⟩ := s
  cases queue with
  | nil => exact ⟨hrun, hstands, hserved, hnumbered⟩
  | cons next rest =>
      refine ⟨hrun, ?_, hserved', hnumbered⟩
      rcases hphase with rfl | ⟨summary, rfl⟩
      · exact hstands
      · exact hstands

theorem Reliable.finishRun (h : s.Reliable f sent) (hphase : s.phase = .answering)
    (hover : ∀ stage later, s.run.status ≠ .going stage later) :
    (s.finishRun (p.withFaults plan) runId).Reliable f sent := by
  obtain ⟨hrun, hstands, hserved, hnumbered⟩ := h
  obtain ⟨v, log, ⟨space, hspace, hsearch⟩, hfinish⟩ := exists_finishRun p plan runId s
  rw [Stands, hphase] at hstands
  have horderly := hrun.search.released hspace
  rw [← hsearch] at horderly
  rw [hfinish]
  refine ⟨⟨horderly, fun stage later hgoing => absurd hgoing (hover stage later)⟩, ?_,
    hserved, hnumbered⟩
  refine ⟨hstands.1, hstands.2, rfl, hover, ?_, rfl⟩
  rw [hsearch, hspace.rest]

theorem Reliable.heard_eq_nil (h : t.Reliable f sent)
    (hphase : ∀ summary, t.phase ≠ .over summary) : t.heard = [] := by
  have hstands := h.stands
  rw [Stands] at hstands
  cases hnow : t.phase with
  | answering =>
      rw [hnow] at hstands
      exact hstands.2
  | starting | looking | stepping | closing summary | draining summary | telling summary =>
      rw [hnow] at hstands
      exact hstands.2.1
  | «over» summary => exact absurd hnow (hphase summary)

theorem Reliable.heard_over {summary : Summary S} (h : t.Reliable f sent)
    (hphase : t.phase = .over summary) :
    ∃ memory, t.heard = [(summary, memory)] ∧ memory.counts.dispose = 1 ∧
      t.wait? false = some (.ok summary) ∧
      t.verification.Concluded t.run.status summary := by
  have hstands := h.stands
  rw [Stands, hphase] at hstands
  obtain ⟨-, hheard, hsearch, hconcluded, -⟩ := hstands
  refine ⟨t.run.search.space.memory, hheard, ?_, ?_, hconcluded⟩
  · have hreleased := hconcluded.released
    rw [hsearch] at hreleased
    rw [h.run.search.tallied, hreleased]
    rfl
  · rw [wait?, hphase]
    rfl

theorem Reliable.served_eq {summary : Summary S} (h : t.Reliable f sent)
    (hphase : t.phase = .telling summary ∨ t.phase = .over summary) : t.served = sent := by
  have hstands := h.stands
  have hserved := h.served
  have hqueue : t.queue = [] := by
    rw [Stands] at hstands
    rcases hphase with hphase | hphase
    all_goals
      rw [hphase] at hstands
      obtain ⟨-, -, -, -, hqueue⟩ := hstands
      exact hqueue
  rw [hqueue, List.append_nil] at hserved
  exact hserved

/-- A raised flag is seen by a worker that is not in the middle of a step. -/
theorem Reliable.stopping (h : t.Reliable f sent) (hcancelled : t.cancelled = true)
    (hgoing : ∃ stage later, t.run.status = .going stage later) (hphase : t.phase ≠ .stepping) :
    t.Stopping t.run.search := by
  have hstands := h.stands
  obtain ⟨stage, later, hgoing⟩ := hgoing
  rw [Stands] at hstands
  refine ⟨hcancelled, ?_⟩
  cases hnow : t.phase with
  | starting =>
      rw [hnow] at hstands
      obtain ⟨-, -, -, hended⟩ := hstands
      cases hgoing.symm.trans hended
  | answering => exact ⟨rfl, .inl ⟨stage, later, hgoing⟩⟩
  | looking => exact ⟨rfl, stage, later, hgoing⟩
  | stepping => exact absurd hnow hphase
  | closing summary | draining summary =>
      rw [hnow] at hstands
      obtain ⟨-, -, -, hconcluded⟩ := hstands
      exact absurd hgoing (hconcluded.ended stage later)
  | telling summary | «over» summary =>
      rw [hnow] at hstands
      obtain ⟨-, -, -, hconcluded, -⟩ := hstands
      exact absurd hgoing (hconcluded.ended stage later)

variable [DecidableEq S]

theorem Reliable.work (h : s.Reliable f sent) (ht : Worked (p.withFaults plan) runId s t) :
    t.Reliable f sent := by
  have hstands := h.stands
  rw [Stands] at hstands
  cases ht with
  | starts hphase =>
      rw [hphase] at hstands
      obtain ⟨hclosed, hheard, hsearch, -⟩ := hstands
      refine ⟨Verification.orderly_begin ?_ runId _, ⟨hclosed, hheard⟩, h.served, h.numbered⟩
      rw [hsearch]
      exact h.run.search
  | answers hphase => exact h.answerNext hphase
  | looks hphase hqueue hgoing =>
      rw [hphase] at hstands
      exact ⟨h.run, ⟨hstands.1, hstands.2, _, _, hgoing⟩, h.served, h.numbered⟩
  | finishes hphase hover => exact h.finishRun hphase hover
  | stops hphase =>
      rw [hphase] at hstands
      exact ⟨h.run.cancel, ⟨hstands.1, hstands.2.1⟩, h.served, h.numbered⟩
  | goesOn hphase =>
      rw [hphase] at hstands
      exact ⟨h.run, hstands, h.served, h.numbered⟩
  | steps hphase =>
      rw [hphase] at hstands
      exact ⟨h.run.step, ⟨hstands.1, hstands.2.1⟩, h.served, h.numbered⟩
  | closes hphase =>
      rw [hphase] at hstands
      exact ⟨h.run, ⟨rfl, hstands.2⟩, h.served, h.numbered⟩
  | drains hphase hqueue =>
      rw [hphase] at hstands
      obtain ⟨hclosed, hheard, hsearch, hconcluded⟩ := hstands
      exact ⟨h.run, ⟨hclosed, hheard, hsearch, hconcluded, hqueue⟩, h.served, h.numbered⟩
  | tells hphase =>
      rw [hphase] at hstands
      obtain ⟨hclosed, hheard, hrest⟩ := hstands
      exact ⟨h.run, ⟨hclosed, by rw [hheard]; rfl, hrest⟩, h.served, h.numbered⟩
  | rests => exact h

theorem Reliable.move (h : s.Reliable f sent) (m : SessionMove) :
    (s.move (p.withFaults plan) runId m).Reliable f (sent ++ s.accepts m) := by
  cases m with
  | work => exact (List.append_nil sent).symm ▸ h.work (worked _ _ s)
  | dispose => exact (List.append_nil sent).symm ▸ h.dispose
  | ask q => exact h.ask q

theorem Reliable.play (h : s.Reliable f sent) (moves : List SessionMove) :
    (s.play (p.withFaults plan) runId moves).Reliable f
      (sent ++ s.sent (p.withFaults plan) runId moves) := by
  induction moves using List.reverseRecOn with
  | nil => exact (List.append_nil sent).symm ▸ h
  | append_singleton moves m ih =>
      rw [play_concat, sent_concat, ← List.append_assoc]
      exact ih.move m

/-- Every answer is true of the search as it was at some moment before. -/
theorem Reliable.shows (h : s.Reliable f []) {moves : List SessionMove} {a : Nat × Answer S}
    (ha : a ∈ (s.play (p.withFaults plan) runId moves).answers) :
    ∃ before, before <+: moves ∧
      Shows (s.play (p.withFaults plan) runId before).run.search a.2 := by
  induction moves using List.reverseRecOn with
  | nil =>
      have hserved : s.answers.reverse.map _ = [] := (List.append_eq_nil_iff.1 h.served).1
      rw [List.map_eq_nil_iff, List.reverse_eq_nil_iff] at hserved
      exact absurd (hserved ▸ ha) List.not_mem_nil
  | append_singleton moves m ih =>
      rw [play_concat] at ha
      rcases mem_answers_move ha with ha | ⟨q, hq⟩
      · obtain ⟨before, hbefore, hshows⟩ := ih ha
        exact ⟨before, hbefore.trans (List.prefix_append moves [m]), hshows⟩
      · refine ⟨moves, List.prefix_append moves [m], ?_⟩
        rw [hq]
        exact shows_answer (h.play moves).run.search.fits q

theorem Stopping.work (h : s.Stopping x) (ht : Worked (p.withFaults plan) runId s t) :
    t.Stopping x := by
  have hcancelled := h.1
  have hstopping := h.2
  cases ht with
  | starts hphase | steps hphase =>
      rw [hphase] at hstopping
      exact hstopping.elim
  | answers => exact h.answerNext
  | looks hphase hqueue hgoing =>
      rw [hphase] at hstopping
      exact ⟨hcancelled, hstopping.1, _, _, hgoing⟩
  | finishes hphase hover => exact h.finishRun hphase hover
  | stops hphase =>
      rw [hphase] at hstopping
      obtain ⟨hsearch, stage, later, hgoing⟩ := hstopping
      refine ⟨hcancelled, (Run.search_cancel s.run).trans hsearch, .inr ?_⟩
      rw [Run.cancel, hgoing]
  | goesOn hphase hraised => exact (Bool.false_ne_true (hraised.symm.trans hcancelled)).elim
  | closes hphase | drains hphase | tells hphase =>
      rw [hphase] at hstopping
      exact ⟨hcancelled, hstopping⟩
  | rests => exact h

theorem Stopping.move (h : s.Stopping x) (m : SessionMove) :
    (s.move (p.withFaults plan) runId m).Stopping x := by
  cases m with
  | work => exact h.work (worked _ _ s)
  | dispose =>
      rw [Session.move, Session.dispose, if_pos h.1]
      exact h
  | ask q =>
      rw [Session.move, Session.ask]
      split
      · exact h
      · obtain ⟨v, run, phase, cancelled, closed, asked, queue, answers, heard⟩ := s
        cases phase <;> exact h

theorem Stopping.remaining_work (h : s.Stopping x) (hgoes : ∀ summary, s.phase ≠ .over summary)
    (ht : Worked (p.withFaults plan) runId s t) : t.remaining + 1 ≤ s.remaining := by
  have hstopping := h.2
  cases ht with
  | starts hphase | steps hphase =>
      rw [hphase] at hstopping
      exact hstopping.elim
  | answers hphase hqueue => exact Nat.le_of_eq (remaining_answerNext hqueue)
  | looks hphase hqueue hgoing =>
      simp only [remaining, hphase, hgoing]
      exact Nat.le_refl _
  | finishes hphase hover =>
      rw [hphase] at hstopping
      obtain ⟨-, ⟨stage, later, hgoing⟩ | hended⟩ := hstopping
      · exact absurd hgoing (hover stage later)
      · simp only [remaining, hphase, hended]
        exact Nat.le_refl _
  | stops hphase =>
      rw [hphase] at hstopping
      obtain ⟨-, stage, later, hgoing⟩ := hstopping
      simp only [remaining, hphase, Run.cancel, hgoing]
      exact Nat.le_refl _
  | goesOn hphase hraised => exact (Bool.false_ne_true (hraised.symm.trans h.1)).elim
  | closes hphase | drains hphase | tells hphase =>
      simp only [remaining, hphase]
      exact Nat.le_refl _
  | rests hphase => exact absurd hphase (hgoes _)

/-- Each step of the worker makes what remains less, and each query that is taken adds one. -/
theorem Stopping.play (h : s.Stopping x) (moves : List SessionMove) :
    (s.play (p.withFaults plan) runId moves).Stopping x ∧
      ((∃ summary, (s.play (p.withFaults plan) runId moves).phase = .over summary) ∨
        (s.play (p.withFaults plan) runId moves).remaining + moves.countP SessionMove.isWork ≤
          s.remaining + (s.sent (p.withFaults plan) runId moves).length) := by
  induction moves using List.reverseRecOn with
  | nil => exact ⟨h, .inr (Nat.le_refl _)⟩
  | append_singleton moves m ih =>
      obtain ⟨hstopping, hremaining⟩ := ih
      rw [play_concat, sent_concat, List.countP_append, List.length_append]
      refine ⟨hstopping.move m, ?_⟩
      -- a worker that is over stays over and takes no more queries, so the count matters before
      by_cases hover : ∃ summary, (s.play (p.withFaults plan) runId moves).phase = .over summary
      · obtain ⟨summary, hover⟩ := hover
        exact .inl ⟨summary, move_over hover m⟩
      have hremaining := hremaining.resolve_left hover
      refine .inr ?_
      cases m with
      | work =>
          have hwork := hstopping.remaining_work (fun summary hphase => hover ⟨summary, hphase⟩)
            (worked (p.withFaults plan) runId _)
          simp only [Session.move, accepts, List.countP_singleton, SessionMove.isWork, if_true,
            List.length_nil]
          omega
      | dispose =>
          rw [Session.move, Session.dispose, if_pos hstopping.1]
          exact hremaining
      | ask q =>
          rw [Session.move, remaining_ask]
          simp only [List.countP_singleton, SessionMove.isWork, Bool.false_eq_true, if_false]
          omega

/-- Whatever happens from now on, nothing but the release of the program happens to the search, the
run is reported as cancelled, and it is over after enough steps of the worker. -/
def Halts (p : Program (Counted W) S) (runId : String) (s : Session (Counted W) S) : Prop :=
  ∀ moves,
    (s.play p runId moves).phase ≠ .stepping ∧
    ((s.play p runId moves).run.search = s.run.search ∨ ∃ space, s.run.search.space.Released space ∧
      (s.play p runId moves).run.search = { s.run.search with space }) ∧
    (∀ summary, (s.play p runId moves).phase.report? = some summary →
      summary.outcome = .cancelled) ∧
    (s.queue.length + (s.sent p runId moves).length + 6 ≤ moves.countP SessionMove.isWork →
      ∃ summary, (s.play p runId moves).phase = .over summary)

theorem Stopping.halts (h : t.Stopping t.run.search) : t.Halts (p.withFaults plan) runId := by
  intro moves
  obtain ⟨hstopping, hover⟩ := h.play (p := p) moves
  refine ⟨fun hphase => ?_, hstopping.search_eq, fun summary => hstopping.outcome_eq,
    fun hworks => ?_⟩
  · have hstepping := hstopping.2
    rw [hphase] at hstepping
    exact hstepping
  · rcases hover with hover | hremaining
    · exact hover
    · apply over_of_remaining
      have hle := t.remaining_le
      omega

/-- What is promised of a worker that was started as `s` and has come to `t` by some moves. -/
structure Safe (p : Program (Counted W) S) (runId : String) (s : Session (Counted W) S)
    (moves : List SessionMove) (t : Session (Counted W) S) : Prop where
  silent : (∀ summary, t.phase ≠ .over summary) → t.heard = []
  told : ∀ summary, t.phase = .over summary → ∃ memory, t.heard = [(summary, memory)] ∧
    memory.counts.dispose = 1 ∧
    t.wait? false = some (.ok summary) ∧ t.verification.Concluded t.run.status summary
  answered : ∀ summary, t.phase = .telling summary ∨ t.phase = .over summary →
    t.served = s.sent p runId moves
  numbered : ((s.sent p runId moves).map Prod.fst).Nodup
  truthful : ∀ a ∈ t.answers, ∃ before, before <+: moves ∧
    Shows (s.play p runId before).run.search a.2
  refused : t.closed = true → ∀ later q, ((t.play p runId later).ask q).1 = none
  stopped : t.cancelled = true → (∃ stage later, t.run.status = .going stage later) →
    t.phase ≠ .stepping → t.Halts p runId

/-- However the calls of those outside fall between the steps of the worker, and whatever the
program does, a worker keeps what is promised of it. -/
theorem safe_of_usable {memory : W} {v : Verification (Counted W) S}
    (hv : v.Usable (p.withFaults plan) ⟨memory, {}⟩) (log : List LogEvent) (runId : String)
    (moves : List SessionMove) :
    Safe (p.withFaults plan) runId (ofVerification v log) moves
      ((ofVerification v log).play (p.withFaults plan) runId moves) := by
  obtain ⟨f, hf⟩ := hv.orderly
  have hstart := reliable_ofVerification hf log
  have h : ((ofVerification v log).play (p.withFaults plan) runId moves).Reliable f _ :=
    hstart.play moves
  exact
    { silent := h.heard_eq_nil
      told := fun summary => h.heard_over
      answered := fun summary => h.served_eq
      numbered := by
        have hnumbered := h.numbered
        rw [List.nil_append] at hnumbered
        rw [hnumbered]
        exact List.nodup_range
      truthful := fun a => hstart.shows
      refused := by
        intro hclosed later q
        rw [ask, if_pos (closed_play hclosed later)]
      stopped := fun hcancelled hgoing hphase => (h.stopping hcancelled hgoing hphase).halts }

def beacon : Program (Counted Graph) UInt32 := (Graph.program [(0, "lit")]).withFaults []

def interrupted : List SessionMove :=
  [.ask .path, .work, .ask .stats, .work, .work, .work, .work, .dispose, .work, .work, .work, .work,
    .ask .path, .work, .ask .stats, .work, .work, .work]

theorem beacon_safe : ∃ v log, Verification.create beacon ⟨{ initial := 0, edges := [(0, 0)] }, {}⟩
    [] "[] lit" {} =
      .ok ⟨v, log⟩ ∧
    ((((ofVerification v log).play beacon "7" interrupted).wait? false).bind Except.toOption).map
      Summary.outcome =
      some .cancelled ∧
    (ofVerification v log).sent beacon "7" interrupted = [(0, .path), (1, .stats), (2, .path)] ∧
    Safe beacon "7" (ofVerification v log) interrupted
      ((ofVerification v log).play beacon "7" interrupted) := by
  have hrun : (Verification.create beacon ⟨{ initial := 0, edges := [(0, 0)] }, {}⟩
      [] "[] lit" {}).toOption.map
      (fun l => (((((ofVerification l.state l.log).play beacon "7" interrupted).wait? false).bind
          Except.toOption).map Summary.outcome,
        (ofVerification l.state l.log).sent beacon "7" interrupted)) =
      some (some .cancelled, [(0, .path), (1, .stats), (2, .path)]) := by decide +kernel
  obtain ⟨⟨v, log⟩, hv, hpair⟩ := Option.map_eq_some_iff.1 hrun
  obtain ⟨houtcome, hsent⟩ := Prod.mk.inj hpair
  have hcreate := except_toOption_eq_some.1 hv
  exact ⟨v, log, hcreate, houtcome, hsent, safe_of_usable (.created hcreate) log "7" interrupted⟩

end Session

end TemporalCheck
