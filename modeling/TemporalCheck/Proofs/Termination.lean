import Mathlib.Data.Finset.Prod
import Mathlib.Data.Prod.Lex
import TemporalCheck.Proofs.RecordedGraph
import TemporalCheck.Proofs.SearchTotality

/-!
A search of a program with finitely many states comes to an end. Each step of it enters a node,
finishes a part of the outer search, marks a node for the inner search, or finishes a part of that;
the product has finitely many nodes, though none of them is known before the search.
-/

namespace TemporalCheck

namespace Search

open TemporalCheck.Task StateTable

variable {W S : Type} {p : Program W S} {x x' : Search W S} {id bound : Nat} {stage stage' : Stage}
  {log log' : List LogEvent}

def shades (x : Search W S) : Nat → Bool × Bool :=
  fun id => ((x.marks.facts id).outer, (x.marks.facts id).inner)

theorem blind_shades : Blind (shades : Search W S → _) := ⟨fun _ _ => rfl, fun _ _ => rfl⟩

theorem shades_note {g : NodeFacts → NodeFacts}
    (hg : ∀ f, (g f).outer = f.outer ∧ (g f).inner = f.inner) :
    ({ x with nodes := x.nodes.modifyInfo id g } : Search W S).shades = x.shades := by
  funext j
  exact marks_note_congr (fun f => (f.outer, f.inner)) (fun f => Prod.ext (hg f).1 (hg f).2) x id j

theorem shades_left : (x.left id).shades = x.shades := shades_note fun _ => ⟨rfl, rfl⟩

theorem keeps_store (nodes : List ProductNode) :
    Keeps shades (store nodes : Task (Search W S) (List Nat)) := by
  refine ⟨fun {l ids l'} h => ?_, fun h => absurd h (neverFails_store nodes _ _ _)⟩
  obtain ⟨-, rfl⟩ := store_eq_ok.1 h
  have hmarks := marks_eq_of_grows (x := l.state) (grows_insertAll l.state.nodes nodes)
  funext j
  rw [shades, hmarks]
  rfl

theorem keeps_expand [DecidableEq S] [HasDigest S] (id : Nat) : Keeps shades (expand p id) := by
  apply blind_shades.unmoved.keeps_expand
  · intro x k
    rfl
  · intro reduced nodes
    refine .bind (keeps_store nodes) fun ids => .bind (.change fun x => ?_) fun _ => .pure ids
    exact shades_note fun _ => ⟨rfl, rfl⟩

def unmarked (mark : Bool × Bool → Bool) (bound : Nat) (x : Search W S) : Nat :=
  ((Finset.range bound).filter fun id => mark (x.shades id) = false).card

theorem unmarked_congr {mark : Bool × Bool → Bool}
    (h : ∀ id, mark (x'.shades id) = mark (x.shades id)) :
    unmarked mark bound x' = unmarked mark bound x := by
  simp only [unmarked, h]

theorem unmarked_lt {mark : Bool × Bool → Bool} (hid : id < bound)
    (hold : mark (x.shades id) = false) (hnew : mark (x'.shades id) = true)
    (hothers : ∀ j, j ≠ id → x'.shades j = x.shades j) :
    unmarked mark bound x' < unmarked mark bound x := by
  apply Finset.card_lt_card
  refine (Finset.ssubset_iff_of_subset fun j hj => ?_).2 ⟨id, ?_, ?_⟩
  · simp only [Finset.mem_filter, Finset.mem_range] at hj ⊢
    have hne : j ≠ id := by
      rintro rfl
      rw [hnew] at hj
      cases hj.2
    rw [← hothers j hne]
    exact hj
  · exact Finset.mem_filter.2 ⟨Finset.mem_range.2 hid, hold⟩
  · intro hmem
    rw [(Finset.mem_filter.1 hmem).2] at hnew
    cases hnew

def work (frames : List Frame) : Nat := (frames.map fun t => t.rest.length + 1).sum

def Stage.outerWork : Stage → Nat
  | .outer frames => 2 * work frames
  | .inner below _ _ => 2 * work below + 1

def Stage.innerWork : Stage → Nat
  | .outer _ => 0
  | .inner _ _ frames => work frames

/-- What each step of a search makes smaller. -/
def rank (bound : Nat) (x : Search W S) (stage : Stage) : Nat ×ₗ Nat ×ₗ Nat ×ₗ Nat :=
  toLex (unmarked Prod.fst bound x,
    toLex (stage.outerWork, toLex (unmarked Prod.snd bound x, stage.innerWork)))

theorem rank_lt_of_outerWork (houter : ∀ j, (x'.shades j).1 = (x.shades j).1)
    (h : stage'.outerWork < stage.outerWork) : rank bound x' stage' < rank bound x stage := by
  simp only [rank, Prod.Lex.toLex_lt_toLex]
  exact .inr ⟨unmarked_congr houter, .inl h⟩

theorem rank_lt_of_innerWork (hshades : x'.shades = x.shades)
    (houter : stage'.outerWork = stage.outerWork) (h : stage'.innerWork < stage.innerWork) :
    rank bound x' stage' < rank bound x stage := by
  have hsame (mark : Bool × Bool → Bool) : unmarked mark bound x' = unmarked mark bound x :=
    unmarked_congr fun j => by rw [hshades]
  simp only [rank, Prod.Lex.toLex_lt_toLex]
  exact .inr ⟨hsame _, .inr ⟨houter, .inr ⟨hsame _, h⟩⟩⟩

theorem rank_lt_of_entered (hlt : id < x.nodes.size) (hbound : x.nodes.size ≤ bound)
    (hold : (x.shades id).1 = false) (hshades : x'.shades = (x.entered id).shades) :
    rank bound x' stage' < rank bound x stage := by
  obtain ⟨n, hn⟩ := exists_get?_of_lt hlt
  have hfacts : ∀ j, x'.shades j = if j = id then (true, (x.shades j).2) else x.shades j := by
    intro j
    rw [hshades]
    simp only [shades, marks_entered hn, Marks.enter, Marks.note]
    split <;> rfl
  have hless : unmarked Prod.fst bound x' < unmarked Prod.fst bound x := by
    apply unmarked_lt (Nat.lt_of_lt_of_le hlt hbound) hold
    · rw [hfacts, if_pos rfl]
    · intro j hj
      rw [hfacts, if_neg hj]
  simp only [rank, Prod.Lex.toLex_lt_toLex]
  exact .inl hless

theorem shades_reddened (hlt : id < x.nodes.size)
    (hshades : x'.shades =
      ({ x with nodes := x.nodes.modifyInfo id fun f => { f with inner := true } } :
        Search W S).shades)
    (j : Nat) : x'.shades j = if j = id then ((x.shades j).1, true) else x.shades j := by
  obtain ⟨n, hn⟩ := exists_get?_of_lt hlt
  rw [hshades]
  simp only [shades, marks_note hn, Marks.note]
  split <;> rfl

theorem fst_shades_reddened (hlt : id < x.nodes.size)
    (hshades : x'.shades =
      ({ x with nodes := x.nodes.modifyInfo id fun f => { f with inner := true } } :
        Search W S).shades)
    (j : Nat) : (x'.shades j).1 = (x.shades j).1 := by
  rw [shades_reddened hlt hshades]
  split <;> rfl

theorem rank_lt_of_reddened (hlt : id < x.nodes.size) (hbound : x.nodes.size ≤ bound)
    (hold : (x.shades id).2 = false) (houter : stage'.outerWork = stage.outerWork)
    (hshades : x'.shades =
      ({ x with nodes := x.nodes.modifyInfo id fun f => { f with inner := true } } :
        Search W S).shades) :
    rank bound x' stage' < rank bound x stage := by
  have hless : unmarked Prod.snd bound x' < unmarked Prod.snd bound x := by
    apply unmarked_lt (Nat.lt_of_lt_of_le hlt hbound) hold
    · rw [shades_reddened hlt hshades, if_pos rfl]
    · intro j hj
      rw [shades_reddened hlt hshades, if_neg hj]
  simp only [rank, Prod.Lex.toLex_lt_toLex]
  exact .inr ⟨unmarked_congr (fst_shades_reddened hlt hshades), .inr ⟨houter, .inl hless⟩⟩

@[simp]
theorem work_nil : work [] = 0 := rfl

@[simp]
theorem work_cons (node : Nat) (rest : List Nat) (frames : List Frame) :
    work (⟨node, rest⟩ :: frames) = rest.length + 1 + work frames := by
  simp [work]

theorem resume_eq_going {below : List Frame} (h : (resume below : Progress S) = .going stage) :
    stage = .outer below := by
  cases below with
  | nil => cases h
  | cons t below =>
      cases h
      rfl

variable [DecidableEq S] [HasDigest S]

theorem outerStep_lt {top : Frame} {below : List Frame} (hbound : x.nodes.size ≤ bound)
    (hok : outerStep p top below ⟨x, log⟩ = .ok (.going stage) ⟨x', log'⟩) :
    rank bound x' stage < rank bound x (.outer (top :: below)) := by
  obtain ⟨node, rest⟩ := top
  cases rest with
  | cons id rest =>
      simp only [outerStep, countTransition, Task.bind_eq_ok, Task.change_eq_ok, facts_eq_ok] at hok
      obtain ⟨_, _, rfl, facts, _, ⟨hfacts, rfl⟩, hok⟩ := hok
      split at hok
      · obtain ⟨hstage, hx⟩ := Task.pure_eq_ok.1 hok
        cases hstage
        cases hx
        apply rank_lt_of_outerWork fun _ => rfl
        simp only [Stage.outerWork, work_cons, List.length_cons]
        omega
      · rename_i houter
        simp only [Task.bind_eq_ok, Task.pure_eq_ok] at hok
        obtain ⟨frame, _, hframe, hstage, rfl⟩ := hok
        cases hstage
        obtain ⟨ids, elog, hids, rfl⟩ := expand_of_enter hframe
        apply rank_lt_of_entered (lt_size_of_info? hfacts) hbound
        · simp only [shades, facts_marks hfacts]
          simpa using houter
        · exact (keeps_expand id).ok hids
  | nil =>
      simp only [outerStep, Task.bind_eq_ok] at hok
      obtain ⟨accepting, ⟨y, ylog⟩, haccepting, hok⟩ := hok
      have hkeeps : Keeps (fun x : Search W S => x) (isAccepting node) := keeps_isAccepting node
      obtain rfl : y = x := hkeeps.ok haccepting
      have hnode : node < y.nodes.size := by
        simp only [isAccepting, Task.bind_eq_ok, node_eq_ok] at haccepting
        obtain ⟨n, -, ⟨hn, -⟩, -⟩ := haccepting
        exact lt_size_of_get? hn
      split at hok
      · simp only [Task.bind_eq_ok, startInner, Task.change_eq_ok, note_eq_ok,
          Task.pure_eq_ok] at hok
        obtain ⟨_, _, ⟨_, _, rfl, _, _, rfl, ids, _, hids, rfl, rfl⟩, hstage, rfl⟩ := hok
        cases hstage
        apply rank_lt_of_outerWork
        · exact fst_shades_reddened hnode ((keeps_expand node).ok hids)
        · simp only [Stage.outerWork, work_cons, List.length_nil]
          omega
      · simp only [Task.bind_eq_ok, leave_eq_ok, Task.pure_eq_ok] at hok
        obtain ⟨_, _, rfl, hstage, hx⟩ := hok
        cases hx
        obtain rfl := resume_eq_going hstage
        apply rank_lt_of_outerWork fun j => by rw [shades_left]
        simp only [Stage.outerWork, work_cons, List.length_nil]
        omega

theorem innerStep_lt {below frames : List Frame} {seed : Nat} {top : Frame}
    (hbound : x.nodes.size ≤ bound)
    (hok : innerStep p below seed top frames ⟨x, log⟩ = .ok (.going stage) ⟨x', log'⟩) :
    rank bound x' stage < rank bound x (.inner below seed (top :: frames)) := by
  obtain ⟨node, rest⟩ := top
  cases rest with
  | cons id rest =>
      simp only [innerStep, countTransition, Task.bind_eq_ok, Task.change_eq_ok, facts_eq_ok] at hok
      obtain ⟨_, _, rfl, facts, _, ⟨hfacts, rfl⟩, hok⟩ := hok
      split at hok
      · simp only [Task.bind_eq_ok, Task.pure_eq_ok] at hok
        obtain ⟨_, _, -, _, _, -, hstage, -⟩ := hok
        cases hstage
      · split at hok
        · obtain ⟨hstage, hx⟩ := Task.pure_eq_ok.1 hok
          cases hstage
          cases hx
          refine rank_lt_of_innerWork rfl rfl ?_
          simp only [Stage.innerWork, work_cons, List.length_cons]
          omega
        · rename_i hinner
          simp only [Task.bind_eq_ok, note_eq_ok, Task.pure_eq_ok] at hok
          obtain ⟨_, _, rfl, ids, _, hids, hstage, rfl⟩ := hok
          cases hstage
          apply rank_lt_of_reddened (lt_size_of_info? hfacts) hbound
          · simp only [shades, facts_marks hfacts]
            simpa using hinner
          · rfl
          · exact (keeps_expand id).ok hids
  | nil =>
      simp only [innerStep] at hok
      split at hok
      · simp only [Task.bind_eq_ok, leave_eq_ok, Task.pure_eq_ok] at hok
        obtain ⟨_, _, rfl, hstage, hx⟩ := hok
        cases hx
        obtain rfl := resume_eq_going hstage
        apply rank_lt_of_outerWork fun j => by rw [shades_left]
        exact Nat.lt_succ_self _
      · obtain ⟨hstage, hx⟩ := Task.pure_eq_ok.1 hok
        cases hstage
        cases hx
        refine rank_lt_of_innerWork rfl rfl ?_
        simp only [Stage.innerWork, work_cons, List.length_nil]
        omega

theorem step_lt (hbound : x.nodes.size ≤ bound)
    (hok : Search.step p stage ⟨x, log⟩ = .ok (.going stage') ⟨x', log'⟩) :
    rank bound x' stage' < rank bound x stage := by
  rcases stage with (_ | ⟨top, below⟩) | ⟨below, seed, _ | ⟨top, frames⟩⟩
  · cases (Task.pure_eq_ok.1 hok).1
  · exact outerStep_lt hbound hok
  · simp only [Search.step, Task.bind_eq_ok, leave_eq_ok, Task.pure_eq_ok] at hok
    obtain ⟨_, _, rfl, hstage, hx⟩ := hok
    cases hx
    obtain rfl := resume_eq_going hstage
    apply rank_lt_of_outerWork fun j => by rw [shades_left]
    exact Nat.lt_succ_self _
  · exact innerStep_lt hbound hok

omit [DecidableEq S] in
/-- The product has at most as many nodes as there are ways to put their parts together. -/
theorem Fits.size_le {range : S → Prop} {f : Formula} (h : x.Fits range f) {states : Finset S}
    (hstates : ∀ s, range s → s ∈ states) :
    x.nodes.size ≤
      states.card * ((PropertyState.reachable f).card * ((f.promises.length + 1) * 2)) := by
  let parts := Finset.range states.card ×ˢ Finset.range (PropertyState.reachable f).card ×ˢ
    Finset.range (f.promises.length + 1) ×ˢ (Finset.univ : Finset Bool)
  have hprogram := h.space.table.size_le states fun id s hs => hstates s (h.space.states id s hs)
  have hproperty := h.property.size_le
  have hnodes : x.nodes.size ≤
      (parts.image fun n => (⟨n.1, n.2.1, n.2.2.1, n.2.2.2⟩ : ProductNode)).card := by
    apply h.nodes.size_le
    intro id n hn
    have hfitting := h.fitting id n hn
    refine Finset.mem_image.2 ⟨(n.program, n.property, n.phase, n.root), ?_, rfl⟩
    simp only [parts, Finset.mem_product, Finset.mem_range, Finset.mem_univ, and_true]
    exact ⟨Nat.lt_of_lt_of_le hfitting.program hprogram,
      Nat.lt_of_lt_of_le hfitting.property hproperty, Nat.lt_succ_of_le hfitting.phase⟩
  refine (hnodes.trans Finset.card_image_le).trans (Nat.le_of_eq ?_)
  simp [parts]

end Search

theorem Sweep.found_start {id j : Nat} : (⟨[], .ofList [id]⟩ : Sweep).Found j ↔ j = id := by
  simp [Found]

namespace Run

open TemporalCheck.Task StateTable Search

variable {W S η : Type} {p : Program W S} {range : S → Prop} {kept : Logged W → Prop}
  {broken : Fault → Logged W → Prop} {f : Formula} {x : Search W S} {log : List LogEvent}
  {r : Run W S}

def StageFits (x : Search W S) : RunStage → Prop
  | .program id sweep => id < x.space.table.size ∧ ∀ j, sweep.Found j → j < x.space.table.size
  | .property id sweep =>
      id < x.property.table.size ∧ ∀ j, sweep.Found j → j < x.property.table.size
  | .search stage => x.InUse stage.numbers

def StatusFits (x : Search W S) : RunStatus S → Prop
  | .going stage _ => StageFits x stage
  | .ended verdict => verdict ≠ some .cancelled
  | .failed _ => False

section

variable [HasDigest S]

def Fits (range : S → Prop) (kept : Logged W → Prop) (broken : Fault → Logged W → Prop)
    (f : Formula) (r : Run W S) : Prop :=
  match r.status with
  | .failed fault => Search.Broken range broken f fault ⟨r.search, r.log⟩
  | status => Search.Held range kept f ⟨r.search, r.log⟩ ∧ StatusFits r.search status

theorem fits_settle {t : Task (Search W S) (RunStatus S)}
    (h : t.Meets ⟨x, log⟩ (fun status l => Search.Held range kept f l ∧ StatusFits l.state status)
      (Search.Broken range broken f)) : Fits range kept broken f (settle x log t) := by
  rw [settle]
  split
  · rename_i status x' log' hok
    have hstatus := h.ok hok
    cases status with
    | going stage later => exact hstatus
    | ended verdict => exact hstatus
    | failed fault => exact hstatus.2.elim
  · rename_i herror
    exact h.error herror

variable [DecidableEq S]

theorem nextJob_meets (hp : p.Confined range kept broken) (h : Search.Held range kept f ⟨x, log⟩)
    (jobs : List Job) :
    (nextJob p jobs).Meets ⟨x, log⟩ (fun status l => Search.Held range kept f l ∧
      StatusFits l.state status)
      (Search.Broken range broken f) := by
  rcases jobs with _ | ⟨_ | _ | _, later⟩
  · exact ⟨h, nofun⟩
  · rw [nextJob, meets_bind]
    refine h.inSpace (StateSpace.initial_meets hp ⟨h.1, h.2.space⟩) fun id m hm _ hid =>
      ⟨hm, hid, fun j hj => ?_⟩
    rw [Sweep.found_start.1 hj]
    exact hid
  · have hinitial := lt_size_of_get? h.2.property.sound.initial
    refine ⟨h, hinitial, fun j hj => ?_⟩
    rw [Sweep.found_start.1 hj]
    exact hinitial
  · rw [nextJob, meets_bind]
    exact (start_meets hp h).imp fun stage l hl => hl

/-- A sweep goes on with something that it has found, or the next job is taken up. -/
theorem sweep_meets {later : List Job} {sweep : Sweep} {stage : Nat → Sweep → RunStage}
    {message : String} (hp : p.Confined range kept broken) (h : Search.Held range kept f ⟨x, log⟩)
    (hstage : ∀ id sweep', sweep.Found id → (∀ j, sweep'.Found j → sweep.Found j) →
      StageFits x (stage id sweep')) :
    (match sweep.next? with
      | some (id, sweep) => pure (.going (stage id sweep) later)
      | none =>
          Task.emit .debug message >>= fun _ => nextJob p later :
            Task (Search W S) (RunStatus S)).Meets ⟨x, log⟩
      (fun status l => Search.Held range kept f l ∧ StatusFits l.state status)
        (Search.Broken range broken f) := by
  cases hnext : sweep.next? with
  | some next =>
      obtain ⟨id, sweep'⟩ := next
      obtain ⟨-, hid, -, hfound⟩ := Sweep.next?_eq_some hnext
      exact ⟨h, hstage id sweep' hid fun j => (hfound j).1⟩
  | none =>
      have hheld : Search.Held range kept f ⟨x, ⟨.debug, message⟩ :: log⟩ :=
        ⟨hp.emit ⟨x.space.memory, log⟩ _ h.1, h.2⟩
      dsimp only
      rw [meets_bind, meets_emit]
      exact nextJob_meets hp hheld later

theorem act_meets {stage : RunStage} {later : List Job} (hp : p.Confined range kept broken)
    (h : Search.Held range kept f ⟨x, log⟩) (hstage : StageFits x stage) :
    (act p later stage).Meets ⟨x, log⟩ (fun status l => Search.Held range kept f l ∧
      StatusFits l.state status)
      (Search.Broken range broken f) := by
  cases stage with
  | program id sweep =>
      obtain ⟨hid, hsweep⟩ := hstage
      rw [act, meets_bind]
      refine h.inSpace (StateSpace.successors_meets hp ⟨h.1, h.2.space⟩ hid)
        fun ids m hm hlater hids => ?_
      have hfound : ∀ j, (sweep.push ids).Found j → j < m.state.table.size := by
        intro j hj
        rcases Sweep.found_push.1 hj with hj | hj
        · exact hids j hj
        · exact Nat.lt_of_lt_of_le (hsweep j hj) hlater.program
      exact sweep_meets hp hm fun id sweep' hid hsweep' =>
        ⟨hfound id hid, fun j hj => hfound j (hsweep' j hj)⟩
  | property id sweep =>
      obtain ⟨hid, hsweep⟩ := hstage
      rw [act, meets_bind]
      refine (h.propertySuccessors hid).imp fun ids l hl => ?_
      obtain ⟨hl, hlater, hids⟩ := hl
      have hfound : ∀ j, (sweep.push ids).Found j → j < l.state.property.table.size := by
        intro j hj
        rcases Sweep.found_push.1 hj with hj | hj
        · exact hids j hj
        · exact Nat.lt_of_lt_of_le (hsweep j hj) hlater.property
      exact sweep_meets hp hl fun id sweep' hid hsweep' =>
        ⟨hfound id hid, fun j hj => hfound j (hsweep' j hj)⟩
  | search stage =>
      rw [act, meets_bind]
      refine (step_meets hp h hstage).imp fun progress l hl => ?_
      cases progress with
      | going stage => exact hl
      | decided verdict => exact ⟨hl.1, fun hverdict => hl.2 (Option.some.inj hverdict)⟩

theorem Fits.step (hp : p.Confined range kept broken) (h : Fits range kept broken f r) :
    Fits range kept broken f (r.step p) := by
  obtain ⟨x, log, status⟩ := r
  cases status with
  | going stage later => exact fits_settle (act_meets hp h.1 h.2)
  | ended verdict => exact h
  | failed fault => exact h

theorem Fits.iterate (hp : p.Confined range kept broken) (h : Fits range kept broken f r)
    (n : Nat) : Fits range kept broken f ((Run.step p)^[n] r) := by
  induction n with
  | zero => exact h
  | succ n ih =>
      rw [Function.iterate_succ_apply']
      exact ih.step hp

omit [HasDigest S] [DecidableEq S] in
theorem settle_of_ok {t : Task (Search W S) (RunStatus S)} {status : RunStatus S}
    {l : Logged (Search W S)} (h : t ⟨x, log⟩ = .ok status l) :
    settle x log t = ⟨l.state, l.log, status⟩ := by
  rw [settle, h]

omit [HasDigest S] [DecidableEq S] in
theorem settle_of_error {t : Task (Search W S) (RunStatus S)} {e : Fault} {l : Logged (Search W S)}
    (h : t ⟨x, log⟩ = .error e l) : settle x log t = ⟨l.state, l.log, .failed e⟩ := by
  rw [settle, h]

theorem fits_begin (hp : p.Confined range kept broken) (h : Search.Held range kept f ⟨x, log⟩)
    (jobs : List Job) : Fits range kept broken f (begin p x log jobs) :=
  fits_settle (nextJob_meets hp h jobs)

/-- A search takes finitely many steps, since each of them makes its rank smaller. -/
theorem Fits.exists_over {states : Finset S} (hp : p.Confined range kept broken)
    (hstates : ∀ s, range s → s ∈ states) {stage : Stage} {later : List Job}
    (h : Fits range kept broken f r) (hstage : r.status = .going (.search stage) later) :
    ∃ n, ∀ stage later, ((Run.step p)^[n] r).status ≠ .going stage later := by
  let bound := states.card * ((PropertyState.reachable f).card * ((f.promises.length + 1) * 2))
  -- the bound is on the nodes that there can ever be, so it stays while nodes are added
  induction hrank : rank bound r.search stage using WellFoundedLT.induction generalizing r
    stage later with
  | ind k ih =>
      obtain ⟨x, log, status⟩ := r
      subst hstage hrank
      have hnext := h.step hp
      cases hstep : Search.step p stage ⟨x, log⟩ with
      | error e l =>
          have herror : act p later (.search stage) ⟨x, log⟩ = .error e l := by
            rw [act, bind_eq_error]
            exact .inl hstep
          refine ⟨1, fun stage later => ?_⟩
          rw [Function.iterate_one, Run.step, settle_of_error herror]
          rintro ⟨⟩
      | ok progress l =>
          have hok : act p later (.search stage) ⟨x, log⟩ = .ok (ofProgress progress) l := by
            rw [act, bind_eq_ok]
            exact ⟨progress, l, hstep, rfl⟩
          rw [Run.step, settle_of_ok hok] at hnext
          cases progress with
          | going stage' =>
              have hlt := step_lt (h.1.2.size_le hstates) hstep
              obtain ⟨n, hn⟩ := ih _ hlt hnext rfl rfl
              refine ⟨n + 1, ?_⟩
              rw [Function.iterate_succ_apply, Run.step, settle_of_ok hok]
              exact hn
          | decided verdict =>
              refine ⟨1, fun stage later => ?_⟩
              rw [Function.iterate_one, Run.step, settle_of_ok hok]
              rintro ⟨⟩

omit [DecidableEq S] in
theorem Fits.settled {valid : W → Prop} (hkept : ∀ l, kept l → valid l.state)
    (hbroken : ∀ e l, broken e l → valid l.state) (h : Fits range kept broken f r) :
    valid r.search.space.memory ∧ r.search.Fits range f := by
  rw [Fits] at h
  split at h
  · exact ⟨hbroken _ _ h.1, h.2⟩
  · exact ⟨hkept _ h.1.1, h.1.2⟩

/-- Whoever drives a run, it is stepped a number of times, and then it is over or has been
stopped. -/
theorem drive_cases (tick : Search W S → η → Bool × η) (limit : Nat) (r : Run W S) (h : η) :
    ∃ k ≤ limit,
      ((drive p tick limit r h).1 = (Run.step p)^[k] r ∧
        (k < limit → ∀ stage later, ((Run.step p)^[k] r).status ≠ .going stage later)) ∨
      ((drive p tick limit r h).1 = ((Run.step p)^[k] r).cancel ∧
        (∃ stage later, ((Run.step p)^[k] r).status = .going stage later) ∧
        ∃ h', tick ((Run.step p)^[k] r).search h' = (false, (drive p tick limit r h).2)) := by
  induction limit generalizing r h with
  | zero => exact ⟨0, Nat.le_refl _, .inl ⟨rfl, nofun⟩⟩
  | succ limit ih =>
      rw [drive]
      split
      · rename_i stage later hgoing
        cases hgo : tick r.search h with
        | mk go h' =>
            cases go with
            | true =>
                obtain ⟨k, hk, hcases⟩ := ih (r.step p) h'
                refine ⟨k + 1, Nat.succ_le_succ hk, ?_⟩
                simpa only [Function.iterate_succ_apply, if_true, Nat.succ_lt_succ_iff] using hcases
            | false =>
                exact ⟨0, Nat.zero_le _, .inr ⟨by simp, ⟨stage, later, hgoing⟩, h,
                  by simpa using hgo⟩⟩
      · rename_i hover
        exact ⟨0, Nat.zero_le _, .inl ⟨rfl, fun _ => hover⟩⟩

end

end Run

namespace Task

def ending {σ α : Type} (t : Task σ α) (l : Logged σ) : Option Fault × Logged σ :=
  match t l with
  | .ok _ m => (none, m)
  | .error e m => (some e, m)

theorem Meets.ending {σ α : Type} {t : Task σ α} {l : Logged σ} {done : α → Logged σ → Prop}
    {failed : Fault → Logged σ → Prop} (h : t.Meets l done failed) :
    t.Meets l (fun a m => done a m ∧ t.ending l = (none, m)) fun e m => failed e m ∧
      t.ending l = (some e, m) := by
  rw [Meets] at h ⊢
  rw [Task.ending]
  cases ht : t l with
  | ok a m =>
      rw [ht] at h
      exact ⟨h, rfl⟩
  | error e m =>
      rw [ht] at h
      exact ⟨h, rfl⟩

end Task

namespace Program

variable {W S : Type} {p : Program W S} {valid : W → Prop} {range : S → Prop}

/-- A program whose calls lead from valid memories to valid ones, also if they fail, and whose
answers lead from states in a range to states in it. It may answer differently each time. -/
def Closed (p : Program W S) (valid : W → Prop) (range : S → Prop) : Prop :=
  p.Confined range (fun l => valid l.state) fun _ l => valid l.state

def Calls (p : Program W S) (range : S → Prop) (l : Logged W) (fault : Option Fault)
    (m : Logged W) : Prop :=
  p.initial.ending l = (fault, m) ∨ ∃ s, range s ∧ ((p.successors s).ending l = (fault, m) ∨
    (p.ample s).ending l = (fault, m) ∨ ∃ name, (p.holds s name).ending l = (fault, m))

def Proceeds (p : Program W S) (range : S → Prop) : Logged W → Logged W → Prop :=
  Relation.ReflTransGen fun l m => p.Calls range l none m ∨ ∃ event, m = ⟨l.state, event :: l.log⟩

/-- What holds after the first call that fails. -/
def FailsFirst (p : Program W S) (range : S → Prop) (start : Logged W) (fault : Fault)
    (m : Logged W) : Prop :=
  ∃ l, p.Proceeds range start l ∧ p.Calls range l (some fault) m

/-- A closed program can be followed from call to call. -/
theorem Closed.confined (hp : p.Closed valid range) (start : Logged W) :
    p.Confined range (fun l => valid l.state ∧ p.Proceeds range start l)
      fun e m => valid m.state ∧ p.FailsFirst range start e m := by
  constructor
  · rintro l ⟨hl, hstart⟩
    refine (hp.initial l hl).ending.mono ?_ ?_
    · rintro s m ⟨⟨hm, hs⟩, hend⟩
      exact ⟨⟨hm, hstart.tail (.inl (.inl hend))⟩, hs⟩
    · rintro e m ⟨hm, hend⟩
      exact ⟨hm, l, hstart, .inl hend⟩
  · rintro s l hs ⟨hl, hstart⟩
    refine (hp.successors s l hs hl).ending.mono ?_ ?_
    · rintro next m ⟨⟨hm, hnext⟩, hend⟩
      exact ⟨⟨hm, hstart.tail (.inl (.inr ⟨s, hs, .inl hend⟩))⟩, hnext⟩
    · rintro e m ⟨hm, hend⟩
      exact ⟨hm, l, hstart, .inr ⟨s, hs, .inl hend⟩⟩
  · rintro s l hs ⟨hl, hstart⟩
    refine (hp.ample s l hs hl).ending.mono ?_ ?_
    · rintro set m ⟨⟨hm, hset⟩, hend⟩
      exact ⟨⟨hm, hstart.tail (.inl (.inr ⟨s, hs, .inr (.inl hend)⟩))⟩, hset⟩
    · rintro e m ⟨hm, hend⟩
      exact ⟨hm, l, hstart, .inr ⟨s, hs, .inr (.inl hend)⟩⟩
  · rintro s name l hs ⟨hl, hstart⟩
    refine (hp.holds s name l hs hl).ending.mono ?_ ?_
    · rintro v m ⟨hm, hend⟩
      exact ⟨hm, hstart.tail (.inl (.inr ⟨s, hs, .inr (.inr ⟨name, hend⟩)⟩))⟩
    · rintro e m ⟨hm, hend⟩
      exact ⟨hm, l, hstart, .inr ⟨s, hs, .inr (.inr ⟨name, hend⟩)⟩⟩
  · rintro l event ⟨hl, hstart⟩
    exact ⟨hl, hstart.tail (.inr ⟨event, rfl⟩)⟩

end Program

namespace Search

variable {W S : Type} [DecidableEq S] [HasDigest S]

/-- A search for violations of `f`, new or after any runs that have ended, failed or been stopped
anywhere. -/
inductive Used (p : Program W S) (memory : W) (f : Formula) (reduction printTree : Bool) :
    Search W S → Prop
  | fresh : Used p memory f reduction printTree
      { space := { memory }, property := .ofViolations f, reduction, printTree }
  | again {x : Search W S} {η : Type} (hx : Used p memory f reduction printTree x)
      (log : List LogEvent) (jobs : List Job) (tick : Search W S → η → Bool × η)
      (limit : Nat) (h : η) :
      Used p memory f reduction printTree
      (Run.drive p tick limit (Run.begin p x log jobs) h).1.search

variable {p : Program W S} {valid : W → Prop} {range : S → Prop} {memory : W} {f : Formula}
  {reduction printTree : Bool} {x : Search W S}

omit [DecidableEq S] in
theorem fits_fresh {space : StateSpace W S} (hspace : space.Fits range) (f : Formula)
    (reduction printTree : Bool) :
    Fits range f { space, property := .ofFormula f, reduction, printTree } := by
  refine ⟨hspace, PropertyAutomaton.traced_ofFormula f, StateTable.wellFormed_empty,
    fun id n hn => ?_,
    fun id facts hfacts => ?_, nofun⟩
  · cases hn
  · cases hfacts

theorem Used.fits (hp : p.Closed valid range) (hmemory : valid memory)
    (h : Used p memory f reduction printTree x) : valid x.space.memory ∧ x.Fits range f.negate := by
  induction h with
  | fresh => exact ⟨hmemory, fits_fresh (StateSpace.fits_start memory) f.negate reduction printTree⟩
  | @again x η _ log jobs tick limit h ih =>
      have hrun := Run.fits_begin (hp.confined ⟨x.space.memory, log⟩) ⟨⟨ih.1, .refl⟩, ih.2⟩ jobs
      obtain ⟨k, -, ⟨hend, -⟩ | ⟨hend, -⟩⟩ :=
        Run.drive_cases (p := p) tick limit (Run.begin p x log jobs) h
      · rw [hend]
        exact (hrun.iterate (hp.confined _) k).settled (fun _ hl => hl.1) fun _ _ hl => hl.1
      · rw [hend, Run.search_cancel]
        exact (hrun.iterate (hp.confined _) k).settled (fun _ hl => hl.1) fun _ _ hl => hl.1

end Search

namespace Run

variable {W S η : Type} {p : Program W S} {valid : W → Prop} {range : S → Prop}
  {memory : W} {f : Formula} {reduction printTree : Bool} {x : Search W S}

/-- How a run of a search may be over: with a verdict, before which no call has failed, or with the
first call that fails. It is cancelled only by a tick that stopped it where it stands. -/
def Over (p : Program W S) (range : S → Prop) (tick : Search W S → η → Bool × η) (start : Logged W)
    (r : Run W S × η) : Prop :=
  match r.1.status with
  | .ended (some .cancelled) => p.Proceeds range start ⟨r.1.search.space.memory, r.1.log⟩ ∧
      ∃ h, tick r.1.search h = (false, r.2)
  | .ended (some _) => p.Proceeds range start ⟨r.1.search.space.memory, r.1.log⟩
  | .failed fault => p.FailsFirst range start fault ⟨r.1.search.space.memory, r.1.log⟩
  | _ => False

variable [DecidableEq S] [HasDigest S]

theorem Fits.over {n : Nat} {start : Logged W} {r : Run W S} (tick : Search W S → η → Bool × η)
    (limit : Nat) (h : η)
    (hfits : ∀ k, Fits range (fun l => valid l.state ∧ p.Proceeds range start l)
      (fun e m => valid m.state ∧ p.FailsFirst range start e m) f ((Run.step p)^[k] r))
    (hn : ∀ stage later, ((Run.step p)^[n] r).status ≠ .going stage later) (hlimit : n ≤ limit)
    (hsearching : Searching (drive p tick limit r h).1.status) :
    Over p range tick start (drive p tick limit r h) := by
  obtain ⟨k, hk, ⟨hend, hover⟩ | ⟨hend, ⟨stage, later, hgoing⟩, htick⟩⟩ :=
    drive_cases (p := p) tick limit r h
  · have hover : ∀ stage later, ((Run.step p)^[k] r).status ≠ .going stage later := by
      rcases Nat.lt_or_eq_of_le hk with hlt | rfl
      · exact hover hlt
      · rw [← Nat.sub_add_cancel hlimit, Function.iterate_add_apply, iterate_step_eq_self hn]
        exact hn
    have hlast := hfits k
    rw [hend] at hsearching
    rw [Over, hend]
    generalize (Run.step p)^[k] r = last at hover hlast hsearching
    obtain ⟨y, ylog, status⟩ := last
    cases status with
    | going stage later => exact absurd rfl (hover stage later)
    | ended verdict =>
        rcases verdict with _ | _ | _ | _
        · exact absurd rfl hsearching
        · exact hlast.1.1.2
        · exact hlast.1.1.2
        · exact absurd rfl hlast.2
    | failed fault => exact hlast.1.2
  · have hlast := hfits k
    rw [Over, hend]
    generalize (Run.step p)^[k] r = last at hgoing htick hlast
    obtain ⟨y, ylog, status⟩ := last
    subst hgoing
    exact ⟨hlast.1.1.2, htick⟩

/-- A search of a program with finitely many states comes to an end, whatever its propositions are
said to be, whoever drives it and whatever has been expanded before. -/
theorem drive_terminates (hp : p.Closed valid range) (hfinite : {s | range s}.Finite)
    (hmemory : valid memory) (hx : Search.Used p memory f reduction printTree x)
    (log : List LogEvent) :
    ∃ n, ∀ (η : Type) (tick : Search W S → η → Bool × η) (limit : Nat) (h : η), n ≤ limit →
      Over p range tick ⟨x.space.memory, log⟩ (drive p tick limit (begin p x log [.search]) h) := by
  obtain ⟨hvalid, hfits⟩ := hx.fits hp hmemory
  have hconfined := hp.confined ⟨x.space.memory, log⟩
  have hbegin := fits_begin hconfined ⟨⟨hvalid, .refl⟩, hfits⟩ [.search]
  have hstates : ∀ s, range s → s ∈ hfinite.toFinset := fun s hs => hfinite.mem_toFinset.2 hs
  obtain ⟨n, hn⟩ : ∃ n, ∀ stage later, ((Run.step p)^[n] (begin p x log [.search])).status ≠
      .going stage later := by
    cases hstart : Search.start p ⟨x, log⟩ with
    | error e l =>
        have herror : nextJob p [.search] ⟨x, log⟩ = .error e l := by
          rw [nextJob, Task.bind_eq_error]
          exact .inl hstart
        refine ⟨0, fun stage later => ?_⟩
        rw [Function.iterate_zero, id_eq, begin, settle_of_error herror]
        rintro ⟨⟩
    | ok stage l =>
        have hok : nextJob p [.search] ⟨x, log⟩ = .ok (.going (.search stage) []) l := by
          rw [nextJob, Task.bind_eq_ok]
          exact ⟨stage, l, hstart, rfl⟩
        have hstatus : (begin p x log [.search]).status = .going (.search stage) [] := by
          rw [begin, settle_of_ok hok]
        exact hbegin.exists_over hconfined hstates hstatus
  refine ⟨n, fun η tick limit h hlimit => ?_⟩
  exact Fits.over tick limit h (hbegin.iterate hconfined) hn hlimit
    (searching_drive tick limit (List.mem_singleton.2 rfl) h)

end Run

namespace Graph

open TemporalCheck.Task

def nodes (g : Graph) : List UInt32 := g.initial :: (g.edges.map (·.2) ++ g.ample.flatMap (·.2))

theorem closed (g : Graph) (labels : List (UInt32 × String)) :
    (program labels).Closed (· = g) (· ∈ g.nodes) := by
  constructor
  · rintro l rfl
    exact ⟨rfl, List.mem_cons_self⟩
  · rintro s l - rfl
    refine ⟨rfl, fun s' hs' => ?_⟩
    obtain ⟨edge, hedge, rfl⟩ := List.mem_map.1 hs'
    exact List.mem_cons_of_mem _
      (List.mem_append_left _ (List.mem_map_of_mem (List.mem_of_mem_filter hedge)))
  · rintro s l - rfl
    refine ⟨rfl, fun s' hs' => ?_⟩
    cases hset : l.state.ampleOf s with
    | none =>
        rw [hset] at hs'
        cases hs'
    | some set =>
        rw [hset] at hs'
        obtain ⟨before, after, hample, -⟩ := List.lookup_eq_some_iff.1 hset
        refine List.mem_cons_of_mem _
          (List.mem_append_right _ (List.mem_flatMap.2 ⟨(s, set), ?_, hs'⟩))
        rw [hample]
        exact List.mem_append_right _ List.mem_cons_self
  · rintro s name l - rfl
    rfl
  · rintro l event rfl
    rfl

end Graph

namespace Run

def countdown {W S : Type} (_ : Search W S) (n : Nat) : Bool × Nat := (n != 0, n - 1)

theorem fork_terminates : ∃ n, ∀ limit ticks, n ≤ limit →
    Over (Graph.program [(2, "p")]) (· ∈ fork.nodes) countdown ⟨fork, []⟩
      (drive (Graph.program [(2, "p")]) countdown limit (begin (Graph.program [(2, "p")])
        { space := { memory := fork }, property := .ofViolations (.until .top (.prop "p")),
          reduction := true }
        [] [.search]) ticks) := by
  have hfresh : Search.Used (Graph.program [(2, "p")]) fork (.until .top (.prop "p")) true
      false _ := .fresh
  obtain ⟨n, hn⟩ := drive_terminates (fork.closed [(2, "p")]) (List.finite_toSet fork.nodes) rfl
    hfresh []
  exact ⟨n, fun limit ticks => hn Nat countdown limit ticks⟩

end Run

end TemporalCheck
