import TemporalCheck.Proofs.Phases
import TemporalCheck.Proofs.SearchRun

namespace TemporalCheck

open Relation PropertyState

namespace Behaviour

variable {S : Type} {b : Behaviour S} {run : Nat → S} {i : Nat}

theorem not_refutes_of_holds {q : PropertyState} (h : ∀ g ∈ q, Formula.Holds (b.word run) g i) :
    ¬ b.Refutes (run i) q := by
  rintro ⟨g, hg, hfalse⟩
  obtain ⟨hmem, hliteral⟩ := mem_literals.1 hg
  have hholds := h g hmem
  cases g with
  | prop p =>
      have hp : b.holds (run i) p = some true := hholds
      simp [entails, hp] at hfalse
  | neg a =>
      cases a <;> simp only [Formula.isLiteral, Bool.false_eq_true] at hliteral
      simp only [entails, Option.map_eq_some_iff, Bool.not_eq_false'] at hfalse
      obtain ⟨v, hv, rfl⟩ := hfalse
      exact hholds hv
  | _ => simp [Formula.isLiteral] at hliteral

end Behaviour

namespace Search

variable {W S : Type} [HasDigest S] {valid : W → Prop} {b : Behaviour S} {f : Formula}
  {x : Search W S} {root : Nat}

/-- After a search that has passed, no path through the recorded nodes is fair. -/
theorem Sound.not_fair (h : Sound valid b f x) (hpass : Outer (x.Accepting f) root x.marks [])
    {ids : Nat → Nat} {place : Nat → Place S} (hreach : ReflTransGen x.marks.Edge root (ids 0))
    (hstores : ∀ i, x.Stores (ids i) (place i)) (hedge : ∀ i, x.marks.Edge (ids i) (ids (i + 1)))
    (hphase : (place 0).phase = 0) (hroot : (place 0).root = false) :
    ¬ Fair f fun i => (place i).property := by
  intro hfair
  have hnext : ∀ i, (place (i + 1)).phase = (place i).nextPhase f ∧
      (place (i + 1)).root = false := by
    intro i
    obtain ⟨_, _, v, -, -, -, hv, hleads, -⟩ := h.leads (hstores i) (hedge i)
    obtain rfl := hv.unique (hstores (i + 1))
    exact ⟨hleads.phase, hleads.root⟩
  have hroots : ∀ i, (place i).root = false := by
    intro i
    cases i with
    | zero => exact hroot
    | succ i => exact (hnext i).2
  have hcounts : Place.Counts f (fun i => (place i).property) fun i => (place i).phase := by
    intro i
    simp only [(hnext i).1, Place.nextPhase, hroots i]
    rfl
  have hbound : ∀ i, ids i < x.nodes.size := by
    intro i
    obtain ⟨n, hn, -⟩ := hstores i
    exact StateTable.lt_size_of_get? hn
  obtain ⟨i, j, hij, hacc, heq⟩ := (hcounts.accepts_of_fair hphase hfair).exists_repetition hbound
  have hcycle := Nat.rel_of_forall_rel_succ_of_lt (TransGen x.marks.Edge)
    (fun n => .single (hedge n)) hij
  rw [← heq] at hcycle
  have hreachable : ReflTransGen x.marks.Edge root (ids i) := by
    clear hij hacc heq hcycle
    induction i with
    | zero => exact hreach
    | succ i ih => exact ih.tail (hedge i)
  exact (hpass.reachable hreachable).2.2 ⟨place i, hstores i, hroots i, hacc⟩ hcycle

/-- A sequence of program states and one of property states that refute each other nowhere run
along a path through the recorded nodes. -/
theorem Sound.exists_path (h : Sound valid b f x) (hpass : Outer (x.Accepting f) root x.marks [])
    (hroot : x.Rooted b f root) (hreduction : x.reduction = false) {run : Nat → S}
    {q : Nat → PropertyState} (hstart : b.initial = some (run 0))
    (hstep : ∀ i next, b.next? (run i) = some next → run (i + 1) ∈ next) (hq : Follows f q)
    (hliterals : ∀ i, ¬ b.Refutes (run i) (q i)) :
    ∃ (ids : Nat → Nat) (place : Nat → Place S), ReflTransGen x.marks.Edge root (ids 0) ∧
      (∀ i, x.Stores (ids i) (place i)) ∧ (∀ i, x.marks.Edge (ids i) (ids (i + 1))) ∧
      (place 0).phase = 0 ∧ (place 0).root = false ∧ ∀ i, (place i).property = q i := by
  obtain ⟨s, hs, hrootplace⟩ := hroot
  rw [hstart, Option.some.injEq] at hs
  subst hs
  have hunreduced : ∀ i reduced, (x.marks.facts i).reduced = some reduced →
      (reduced = true → x.reduction = true) → reduced = false := by
    intro i reduced _ hallowed
    cases reduced with
    | false => rfl
    | true => rw [hallowed rfl] at hreduction; exact hreduction
  obtain ⟨path, hpath, hedge⟩ := exists_sequence
    (P := fun i (y : Nat × Nat) => ReflTransGen x.marks.Edge root y.1 ∧
      x.Stores y.1 ⟨run i, q i, y.2, false⟩ ∧ (i = 0 → y.2 = 0))
    (R := fun _ y z => x.marks.Edge y.1 z.1)
    (by
      obtain ⟨reduced, targets, hreduced, hallowed, htargets, hedge⟩ :=
        h.exists_edge hrootplace (hpass.reachable .refl).2.1
      obtain rfl := hunreduced _ _ hreduced hallowed
      obtain rfl : targets = [run 0] := by simpa [Targets] using htargets
      obtain ⟨j, hj, hplace⟩ :=
        hedge ⟨run 0, q 0, 0, false⟩ ⟨List.mem_singleton.2 rfl, hq.start, rfl, rfl⟩ (hliterals 0)
      exact ⟨(j, 0), .single hj, hplace, fun _ => rfl⟩)
    (by
      rintro i ⟨id, phase⟩ ⟨hreach, hplace, -⟩
      obtain ⟨reduced, targets, hreduced, hallowed, htargets, hedge⟩ :=
        h.exists_edge hplace (hpass.reachable hreach).2.1
      obtain rfl := hunreduced _ _ hreduced hallowed
      have hnext : b.next? (run i) = some targets := by simpa [Targets] using htargets
      obtain ⟨j, hj, hplace'⟩ := hedge ⟨run (i + 1), q (i + 1), _, false⟩
        ⟨hstep i targets hnext, hq.step i, rfl, rfl⟩ (hliterals (i + 1))
      exact ⟨(j, _), ⟨hreach.tail hj, hplace', by omega⟩, hj⟩)
  exact ⟨fun i => (path i).1, fun i => ⟨run i, q i, (path i).2, false⟩, (hpath 0).1,
    fun i => (hpath i).2.1, hedge, (hpath 0).2.2 rfl, rfl, fun _ => rfl⟩

end Search

namespace Run

open Search

variable {W S η : Type} [DecidableEq S] [HasDigest S] {p : Program W S} {valid : W → Prop}
  {b : Behaviour S}

/-- A search without reduction that passes: no sequence of states that the program and a fair
sequence of property states go through together violates the property. -/
theorem not_fair_of_pass {f : Formula} {x : Search W S} (hp : p.Behaves valid b)
    (hx : x.Sound valid b f) (hreduction : x.reduction = false) {log : List LogEvent}
    {jobs : List Job} {tick : Search W S → η → Bool × η} {limit : Nat} {h : η}
    (hpass : (drive p tick limit (begin p x log jobs) h).1.verdict? = some .pass) {run : Nat → S}
    {q : Nat → PropertyState} (hstart : b.initial = some (run 0))
    (hstep : ∀ i next, b.next? (run i) = some next → run (i + 1) ∈ next) (hq : Follows f q)
    (hliterals : ∀ i, ¬ b.Refutes (run i) (q i)) : ¬ Fair f q := by
  obtain ⟨hsound, hred, -, root, hroot, houter⟩ :=
    (good_drive hp hx tick limit log jobs h).of_verdict hpass
  obtain ⟨ids, place, hreach, hstores, hedge, hphase, hnoroot, hproperty⟩ :=
    hsound.exists_path houter hroot (hred.trans hreduction) hstart hstep hq hliterals
  have hnot := hsound.not_fair houter hreach hstores hedge hphase hnoroot
  simpa only [hproperty] using hnot

/-- If a search without reduction passes, then every execution of the program satisfies the
property. -/
theorem satisfies_of_pass (hp : p.Behaves valid b) (f : Formula) {memory : W}
    (hmemory : valid memory) {printTree : Bool} {log : List LogEvent} {jobs : List Job}
    {tick : Search W S → η → Bool × η} {limit : Nat} {h : η}
    (hpass : (drive p tick limit (begin p
      { space := { memory := memory }, property := .ofViolations f, printTree := printTree }
      log jobs) h).1.verdict? = some .pass)
    {run : Nat → S} (hrun : b.IsRun run) : Formula.Satisfies (b.word run) f := by
  by_contra hviolated
  obtain ⟨q, hq, hfair, hholds⟩ := exists_follows (Formula.holds_negate.2 hviolated)
  refine not_fair_of_pass hp (sound_of_nodes_empty (StateSpace.sound_start hmemory)
    (PropertyAutomaton.sound_ofFormula f.negate) rfl) rfl hpass hrun.start
    (fun i next hnext => ?_) hq (fun i => Behaviour.not_refutes_of_holds (hholds i)) hfair
  obtain ⟨next', hnext', hmem⟩ := Behaviour.step_iff.1 (hrun.step i)
  rw [hnext, Option.some.injEq] at hnext'
  exact hnext' ▸ hmem

def pendulum : Graph := { initial := 0, edges := [(0, 1), (1, 0), (1, 2), (2, 1)] }

def pendulumSearch : Run Graph UInt32 :=
  (drive (Graph.program [(1, "middle")]) (fun _ (h : Unit) => (true, h)) 100
    (begin (Graph.program [(1, "middle")])
    { space := { memory := pendulum },
      property := .ofViolations (.release .bot (.until .top (.prop "middle"))) }
    [] [.search]) ()).1

theorem pendulum_satisfies :
    pendulumSearch.verdict? = some .pass ∧
    (pendulum.behaviour [(1, "middle")]).IsRun (fun i => if i % 2 = 0 then 0 else 1) ∧
    Formula.Satisfies
      ((pendulum.behaviour [(1, "middle")]).word fun i => if i % 2 = 0 then 0 else 1)
      (.release .bot (.until .top (.prop "middle"))) := by
  have hpass : pendulumSearch.verdict? = some .pass := by decide +kernel
  have hrun : (pendulum.behaviour [(1, "middle")]).IsRun fun i => if i % 2 = 0 then 0 else 1 := by
    refine ⟨rfl, fun i => ?_⟩
    rcases Nat.mod_two_eq_zero_or_one i with h | h
    · exact ⟨[1], by simp only [h, if_true]; rfl, .inl (by simp [Nat.add_mod, h])⟩
    · exact ⟨[0, 2], by simp only [h]; rfl, .inl (by simp [Nat.add_mod, h])⟩
  exact ⟨hpass, hrun, satisfies_of_pass (pendulum.behaves _) _ rfl hpass hrun⟩

end Run

end TemporalCheck
