import TemporalCheck.Graph
import TemporalCheck.Proofs.Memo

namespace TemporalCheck

namespace Search

open TemporalCheck.Task

variable {W S : Type} {p : Program W S} {x x' : Search W S} {l l' : Logged (Search W S)}
  {f : Formula}

/-- Every number that stands in a list of successors, in a node or on the path refers to something
stored. -/
structure InRange (x : Search W S) : Prop where
  initial : ∀ id, x.space.initial? = some id → id < x.space.table.size
  program : ∀ id facts, x.space.table.info? id = some facts →
    ∀ j ∈ facts.numbers, j < x.space.table.size
  property : ∀ id ids, x.property.table.info? id = some (some ids) →
    ∀ j ∈ ids, j < x.property.table.size
  nodes : ∀ id n, x.nodes.get? id = some n → n.program < x.space.table.size ∧
    n.property < x.property.table.size
  successors : ∀ id facts, x.nodes.info? id = some facts → x.InUse (facts.successors.getD [])
  path : x.InUse x.path

theorem Fits.inRange [HasDigest S] {range : S → Prop} (h : x.Fits range f) : x.InRange where
  initial := h.space.initial
  program := h.space.facts
  property id ids hids j hj := by
    obtain ⟨q, hq⟩ := StateTable.exists_get?_of_lt (StateTable.lt_size_of_info? hids)
    obtain ⟨q', -, hq'⟩ := (h.property.sound.expanded id q ids hq hids).exists_state hj
    exact StateTable.lt_size_of_get? hq'
  nodes id n hn := ⟨(h.fitting id n hn).program, (h.fitting id n hn).property⟩
  successors := h.successors
  path := h.path

inductive Request (W S : Type) : Type 1
  | ask (q : StateSpace.Question)
  | generate (limit : Nat)
  | askProperty (id : Nat)
  | generateProperty (limit : Nat)
  | run {η : Type} (jobs : List Job) (tick : Search W S → η → Bool × η) (limit : Nat) (h : η)

variable [DecidableEq S] [HasDigest S]

def Request.after (p : Program W S) (l : Logged (Search W S)) : Request W S → Logged (Search W S)
  | .ask q => (inSpace (q.ask p)).leaves l
  | .generate limit => (inSpace (StateSpace.generate p limit)).leaves l
  | .askProperty id => (inProperty (PropertyAutomaton.successors id)).leaves l
  | .generateProperty limit => (inProperty (PropertyAutomaton.generate limit)).leaves l
  | .run jobs tick limit h =>
    let r := (Run.drive p tick limit (Run.begin p l.state l.log jobs) h).1
    ⟨r.search, r.log⟩

def serve (p : Program W S) (l : Logged (Search W S)) (requests : List (Request W S)) :
    Logged (Search W S) :=
  requests.foldl (Request.after p) l

abbrev Asked (p : Program W S) : Search W S → Search W S → Prop :=
  Beside (StateSpace.Talked p) PropertyAutomaton.Extends

theorem consults_talked (p : Program W S) :
    Consults p (StateSpace.Talked p) PropertyAutomaton.Extends where
  initial := StateSpace.within_initial
  successors := StateSpace.within_successors
  ample := StateSpace.within_ample
  entailsAll := StateSpace.within_entailsAll
  property := PropertyAutomaton.within_successors

def runAt (p : Program W S) (l : Logged (Search W S)) (jobs : List Job) (k : Nat) : Run W S :=
  (Run.step p)^[k] (Run.begin p l.state l.log jobs)

theorem exists_runAt {η : Type} (p : Program W S) (l : Logged (Search W S)) (jobs : List Job)
    (tick : Search W S → η → Bool × η) (limit : Nat) (h : η) :
    ∃ k, ((Request.run jobs tick limit h).after p l).state = (runAt p l jobs k).search := by
  obtain ⟨k, -, ⟨hend, -⟩ | ⟨hend, -⟩⟩ :=
    Run.drive_cases (p := p) tick limit (Run.begin p l.state l.log jobs) h
  · exact ⟨k, congrArg Run.search hend⟩
  · exact ⟨k, (congrArg Run.search hend).trans (Run.search_cancel _)⟩

theorem asked_runAt (p : Program W S) (l : Logged (Search W S)) (jobs : List Job) (k : Nat) :
    Asked p l.state (runAt p l jobs k).search :=
  IsTrans.trans _ _ _ ((consults_talked p).begin l.state l.log jobs)
    ((consults_talked p).iterate _ k)

/-- A request works on one of the automata, or is a run. -/
theorem Request.after_induction {R : Search W S → Search W S → Prop}
    (hspace : ∀ x s, StateSpace.Talked p x.space s → R x { x with space := s })
    (hproperty : ∀ x a, x.property.Extends a → R x { x with property := a })
    (hrun : ∀ l jobs k, R l.state (runAt p l jobs k).search) (l : Logged (Search W S))
    (r : Request W S) : R l.state (r.after p l).state := by
  cases r with
  | ask q => exact (within_inSpace (StateSpace.within_ask q) hspace).leaves l
  | generate limit => exact (within_inSpace (StateSpace.within_generate limit) hspace).leaves l
  | askProperty id =>
      exact (within_inProperty (PropertyAutomaton.within_successors id) hproperty).leaves l
  | generateProperty limit =>
      exact (within_inProperty (PropertyAutomaton.within_generate limit) hproperty).leaves l
  | run jobs tick limit h =>
      obtain ⟨k, hk⟩ := exists_runAt p l jobs tick limit h
      rw [hk]
      exact hrun l jobs k

theorem asked_after (p : Program W S) (l : Logged (Search W S)) (r : Request W S) :
    Asked p l.state (r.after p l).state :=
  Request.after_induction (fun _ _ hs => ⟨hs, Std.Refl.refl _⟩)
    (fun _ _ ha => ⟨Std.Refl.refl _, ha⟩) (asked_runAt p) l r

theorem asked_serve (p : Program W S) (l : Logged (Search W S)) (requests : List (Request W S)) :
    Asked p l.state (serve p l requests).state := by
  induction requests generalizing l with
  | nil => exact Std.Refl.refl _
  | cons r requests ih => exact IsTrans.trans _ _ _ (asked_after p l r) (ih _)

theorem fits_runAt (h : l.state.Fits (fun _ => True) f) (jobs : List Job) (k : Nat) :
    (runAt p l jobs k).search.Fits (fun _ => True) f ∧ ∀ stage later,
      (runAt p l jobs k).status = .going stage later →
      Run.StageFits (runAt p l jobs k).search stage := by
  have hrun := (Run.fits_begin p.confined_trivial ⟨trivial, h⟩ jobs).iterate p.confined_trivial k
  change Run.Fits _ _ _ _ (runAt p l jobs k) at hrun
  rw [Run.Fits] at hrun
  split at hrun
  · rename_i fault hfailed
    rw [hfailed]
    refine ⟨hrun.2, ?_⟩
    rintro stage later ⟨⟩
  · refine ⟨hrun.1.2, fun stage later hgoing => ?_⟩
    rw [hgoing] at hrun
    exact hrun.2

theorem fits_after (r : Request W S) (h : l.state.Fits (fun _ => True) f) :
    (r.after p l).state.Fits (fun _ => True) f := by
  let R (x x' : Search W S) : Prop := x.Fits (fun _ => True) f → x'.Fits (fun _ => True) f
  refine Request.after_induction (R := R) ?_ (fun x a ha hx => ?_)
    (fun l jobs k hl => (fits_runAt hl jobs k).1) l r h
  · rintro x s ⟨passed, htalks⟩ hx
    exact hx.inSpace (htalks.fits hx.space) htalks.later.size_le
  · exact hx.inProperty (ha.traced f hx.property) ha.size_le

theorem fits_serve (requests : List (Request W S)) (h : l.state.Fits (fun _ => True) f) :
    (serve p l requests).state.Fits (fun _ => True) f := by
  induction requests generalizing l with
  | nil => exact h
  | cons r requests ih => exact ih (fits_after r h)

/-- The numbers of a search are in range, and the counters of its automata tell what has been asked
since they were new: `expanded` how many states are expanded, `evaluated` how many have been passed
on to be evaluated. -/
structure InOrder (p : Program W S) (memory : W) (x : Search W S) : Prop where
  inRange : x.InRange
  programSize : ∀ log, x.space.expanded =
    {id | StateSpace.isExpanded id ⟨x.space, log⟩ = .ok true ⟨x.space, log⟩}.ncard
  propertySize : ∀ log, x.property.expanded =
    {id | PropertyAutomaton.isExpanded id ⟨x.property, log⟩ = .ok true ⟨x.property, log⟩}.ncard
  coverCalls : x.property.coverCalls = x.property.expanded
  leadsOn : ∀ id facts, x.space.table.info? id = some facts → facts.successors ≠ some []
  asked : StateSpace.Talked p { memory } x.space
  evaluated : ∀ passed, StateSpace.Talks p { memory } passed x.space →
    x.space.evaluated = passed.toFinset.card

theorem Fits.inOrder {memory : W} (h : x.Fits (fun _ => True) f)
    (hasked : StateSpace.Talked p { memory } x.space) : x.InOrder p memory := by
  obtain ⟨passed, htalks⟩ := hasked
  have haccount := htalks.account (.start memory)
  refine ⟨h.inRange, fun log => ?_, fun log => ?_, ?_, fun id facts hfacts => ?_,
    ⟨passed, htalks⟩, ?_⟩
  · simp only [StateSpace.isExpanded_iff]
    exact haccount.expanded.trans (Set.ncard_coe_finset _).symm
  · simp only [PropertyAutomaton.isExpanded_iff]
    exact h.property.expanded.trans (Set.ncard_coe_finset _).symm
  · rw [h.property.coverCalls, h.property.expanded]
  · rw [← StateTable.noted_of_info? hfacts]
    exact haccount.leadsOn id
  · intro passed' htalks'
    exact (htalks'.account (.start memory)).evaluated

/-- What the automata answer now they answer after all requests to come, whatever program is there
to be asked, and answering changes nothing. -/
structure Lasting (p : Program W S) (l : Logged (Search W S)) : Prop where
  initial : ∀ id l', inSpace (StateSpace.initial p) l = .ok id l' → ∀ requests q,
    inSpace (StateSpace.initial q) (serve p l' requests) = .ok id (serve p l' requests)
  successors : ∀ id ids l', inSpace (StateSpace.successors p id) l = .ok ids l' → ∀ requests q,
    inSpace (StateSpace.successors q id) (serve p l' requests) = .ok ids (serve p l' requests)
  ample : ∀ id set l', inSpace (StateSpace.ample p id) l = .ok set l' → ∀ requests q,
    inSpace (StateSpace.ample q id) (serve p l' requests) = .ok set (serve p l' requests)
  property : ∀ id ids l', inProperty (PropertyAutomaton.successors id) l = .ok ids l' → ∀ requests,
    inProperty (PropertyAutomaton.successors id) (serve p l' requests) =
    .ok ids (serve p l' requests)

omit [DecidableEq S] [HasDigest S] in
theorem ok_of_inSpace {α : Type} {t : Task (StateSpace W S) α} {a : α}
    (h : inSpace t l = .ok a l') : t ⟨l.state.space, l.log⟩ = .ok a ⟨l'.state.space, l'.log⟩ := by
  obtain ⟨m, hm, rfl⟩ := inSpace_eq_ok.1 h
  exact hm

omit [DecidableEq S] [HasDigest S] in
theorem ok_of_inProperty {α : Type} {t : Task PropertyAutomaton α} {a : α}
    (h : inProperty t l = .ok a l') :
    t ⟨l.state.property, l.log⟩ = .ok a ⟨l'.state.property, l'.log⟩ := by
  obtain ⟨m, hm, rfl⟩ := inProperty_eq_ok.1 h
  exact hm

theorem lasting (p : Program W S) (l : Logged (Search W S)) : Lasting p l := by
  have hlater (m : Logged (Search W S)) (requests : List (Request W S)) :
      m.state.space.Extends (serve p m requests).state.space := by
    obtain ⟨passed, htalks⟩ := (asked_serve p m requests).1
    exact htalks.later
  refine ⟨fun id l' hok requests q => ?_, fun id ids l' hok requests q => ?_,
    fun id set l' hok requests q => ?_,
    fun id ids l' hok requests => ?_⟩
  · have hlast := StateSpace.initial_lasts (q := q) (ok_of_inSpace hok) (hlater l' requests)
    exact inSpace_eq_ok.2 ⟨_, hlast _, rfl⟩
  · have hlast := StateSpace.successors_lasts (q := q) (ok_of_inSpace hok) (hlater l' requests)
    exact inSpace_eq_ok.2 ⟨_, hlast _, rfl⟩
  · have hlast := StateSpace.ample_lasts (q := q) (ok_of_inSpace hok) (hlater l' requests)
    exact inSpace_eq_ok.2 ⟨_, hlast _, rfl⟩
  · have hlast := PropertyAutomaton.successors_lasts (ok_of_inProperty hok)
      (asked_serve p l' requests).2
    exact inProperty_eq_ok.2 ⟨_, hlast _, rfl⟩

/-- What is stored and counted stays in order, and what has been answered stays the answer. A
question that fails leaves all answers as they were; a longer request that fails has asked some
questions before. -/
theorem answers_last (p : Program W S) (memory : W) (f : Formula) (reduction printTree : Bool)
    (log : List LogEvent) (requests : List (Request W S)) :
    let l := serve p
      ⟨{ space := { memory }, property := .ofFormula f, reduction, printTree }, log⟩ requests
    l.state.InOrder p memory ∧ Lasting p l ∧
      (∀ jobs k, (runAt p l jobs k).search.InOrder p memory ∧
        ∀ stage later, (runAt p l jobs k).status = .going stage later →
          Run.StageFits (runAt p l jobs k).search stage) ∧
      (∀ r : Request W S, Asked p l.state (r.after p l).state) ∧
      (∀ q : StateSpace.Question, KeepsOnError StateSpace.memo (q.ask p)) ∧
      ∀ id, KeepsOnError (fun a => a) (PropertyAutomaton.successors id) := by
  intro l
  have hfits : l.state.Fits (fun _ => True) f :=
    fits_serve requests (fits_fresh (StateSpace.fits_start memory) f reduction printTree)
  have hasked : StateSpace.Talked p { memory } l.state.space :=
    (asked_serve p ⟨{ space := { memory }, property := .ofFormula f, reduction, printTree },
      log⟩ requests).1
  refine ⟨hfits.inOrder hasked, lasting p l, fun jobs k => ?_, asked_after p l,
    fun q m e m' herror => (q.ask_meets.error herror).2, PropertyAutomaton.successors_fails⟩
  obtain ⟨hrun, hstage⟩ := fits_runAt (p := p) hfits jobs k
  exact ⟨hrun.inOrder (IsTrans.trans _ _ _ hasked (asked_runAt p l jobs k).1), hstage⟩

def relay : Graph := { initial := 0, edges := [(0, 1), (1, 0)] }

def stumbling : Program (Counted Graph) UInt32 :=
  (Graph.program []).withFaults [⟨.successors, 2, .error (.programStep "stumbled")⟩]

def relayStart : Logged (Search (Counted Graph) UInt32) :=
  ⟨{ space := { memory := { memory := relay } }, property := .ofFormula (.prop "p") }, []⟩

/-- The successors that are known before a complete expansion are known after it has failed. -/
theorem relay_answers_last : ∃ l,
    inSpace (StateSpace.successors stumbling 0) (serve stumbling relayStart [.ask .initial]) =
      .ok [1] l ∧
      ∀ q, inSpace (StateSpace.successors q 0) (serve stumbling l [.generate 9]) =
        .ok [1] (serve stumbling l [.generate 9]) := by
  have hanswer : ((inSpace (StateSpace.successors stumbling 0)).answer
      (serve stumbling relayStart [.ask .initial])).toOption = some [1] := by decide +kernel
  obtain ⟨l, hl⟩ := Task.eq_ok_of_answer (except_toOption_eq_some.1 hanswer)
  obtain ⟨-, hlasting, -⟩ :=
    answers_last stumbling { memory := relay } (.prop "p") false false [] [.ask .initial]
  exact ⟨l, hl, hlasting.successors 0 [1] l hl [.generate 9]⟩

/-- A complete expansion that fails has counted the states that it has expanded before. -/
theorem relay_generate_grows :
    ((inSpace (StateSpace.generate stumbling 9)).answer relayStart).toOption = none ∧
      ((Request.generate 9).after stumbling relayStart).state.space.expanded ≠
        relayStart.state.space.expanded := by
  decide +kernel

end Search

end TemporalCheck
