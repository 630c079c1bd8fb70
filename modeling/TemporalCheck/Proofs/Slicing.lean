import TemporalCheck.Proofs.Cone
import TemporalCheck.Proofs.Reduction
import TemporalCheck.Proofs.Safety

namespace TemporalCheck

open PropertyState

def prepend {α : Type} (a : α) (run : Nat → α) : Nat → α
  | 0 => a
  | i + 1 => run i

namespace Stretch

variable {e : Nat → Nat}

theorem delay (h : Stretch e) : Stretch (prepend 0 e) := by
  refine ⟨rfl, fun j => ?_, fun n => ?_⟩
  · cases j with
    | zero => exact .inl h.start
    | succ j => exact h.step j
  · obtain ⟨j, hj⟩ := h.onto n
    exact ⟨j + 1, hj⟩

theorem cons (h : Stretch e) : Stretch (prepend 0 fun j => e j + 1) := by
  refine ⟨rfl, fun j => ?_, fun n => ?_⟩
  · cases j with
    | zero => exact .inr (congrArg (· + 1) h.start)
    | succ j => exact (h.step j).imp (congrArg (· + 1)) (congrArg (· + 1))
  · cases n with
    | zero => exact ⟨0, rfl⟩
    | succ n =>
        obtain ⟨j, hj⟩ := h.onto n
        exact ⟨j + 1, congrArg (· + 1) hj⟩

end Stretch

namespace Behaviour

variable {S : Type} {b : Behaviour S}

/-- A sequence of states that the program goes along with as far as it gives an answer. -/
def Allows (b : Behaviour S) (run : Nat → S) : Prop :=
  ∀ i next, b.next? (run i) = some next → run (i + 1) ∈ next

theorem exists_next (b : Behaviour S) (s : S) :
    ∃ s', ∀ next, b.next? s = some next → s' ∈ next := by
  cases hnext : b.next? s with
  | none => exact ⟨s, by simp⟩
  | some next =>
      have hne : next ≠ [] := by
        obtain ⟨all, -, rfl⟩ := Option.map_eq_some_iff.1 hnext
        cases all <;> simp
      obtain ⟨s', hs'⟩ := List.exists_mem_of_ne_nil _ hne
      exact ⟨s', by simpa using hs'⟩

theorem exists_allows (b : Behaviour S) (s : S) : ∃ run, run 0 = s ∧ b.Allows run := by
  obtain ⟨run, hstart, hallows⟩ := exists_sequence (P := fun i s' => i = 0 → s' = s)
    (R := fun _ s s' => ∀ next, b.next? s = some next → s' ∈ next) ⟨s, fun _ => rfl⟩ fun n s _ => by
      obtain ⟨s', hs'⟩ := b.exists_next s
      exact ⟨s', by simp, hs'⟩
  exact ⟨run, hstart 0 rfl, hallows⟩

end Behaviour

namespace Model

variable {m : Model} {options options' : ProgramOptions} {relevant : OrderedSet String}
  {run : Nat → ModelState} {u : ModelState} {r : PropositionReader}

/-- A path of the sliced model is one of the full model as far as relevant variables go. Where the
sliced model has come to rest, the full one takes steps that do not show. -/
theorem Path.exists_unsliced (h : (m.configured options).Path run)
    (hsliced : options.slicing = true) (options' : ProgramOptions)
    (hfull : options'.slicing = false)
    (hcone : m.Insulates (m.visibleVars options.visible) relevant) :
    ∃ run', run' 0 = run 0 ∧ ((m.configured options').behaviour r).Allows run' ∧
      ∀ i, m.Agree relevant (run i) (run' i) := by
  obtain ⟨run', hagree, hallows⟩ := exists_sequence
    (P := fun i u => m.Agree relevant (run i) u ∧ (i = 0 → u = run 0))
    (R := fun _ u u' => ∀ next, ((m.configured options').behaviour r).next? u = some next →
      u' ∈ next)
    ⟨run 0, .refl m relevant (run 0), fun _ => rfl⟩ fun i u hu => by
      obtain ⟨hagree, -⟩ := hu
      rcases h.step i with ⟨t, hmove⟩ | ⟨hrest, heq⟩
      · obtain ⟨u', hmove', hagree'⟩ := hmove.unslice hsliced hfull hcone hagree
        exact ⟨u', ⟨hagree', by simp⟩, fun next hnext => mem_next?_of_moves hnext hmove'⟩
      · rw [heq]
        cases hnext : ((m.configured options').behaviour r).next? u with
        | none => exact ⟨u, ⟨hagree, by simp⟩, by simp⟩
        | some next =>
            obtain ⟨all, hall, rfl⟩ := next?_behaviour hnext
            cases all with
            | nil => exact ⟨u, ⟨hagree, by simp⟩, by simp⟩
            | cons u' others =>
                -- only transitions that are sliced away can be enabled here
                obtain ⟨t, hmove⟩ := (mem_successors? hall).1 List.mem_cons_self
                refine ⟨u', ⟨?_, by simp⟩, by simp⟩
                rcases hmove.slice hsliced hcone hagree.symm with hagree' | ⟨s', hmove', -⟩
                · exact hagree'.symm
                · have hopen := (mem_successors? hrest).2 ⟨t, hmove'⟩
                  cases hopen
  exact ⟨run', (hagree 0).2 rfl, hallows, fun i => (hagree i).1⟩

/-- The beginning of a path of the full model shows nothing but a path of the sliced model, slowed
down. -/
theorem Path.exists_sliced (h : (m.configured options').Path run) (options : ProgramOptions)
    (hsliced : options.slicing = true)
    (hcone : m.Insulates (m.visibleVars options.visible) relevant)
    (hagree : m.Agree relevant (run 0) u) (n : Nat) :
    ∃ run' e, run' 0 = u ∧ ((m.configured options).behaviour r).Allows run' ∧ Stretch e ∧
      ∀ i, i ≤ n → m.Agree relevant (run i) (run' (e i)) := by
  induction n generalizing run u with
  | zero =>
      obtain ⟨run', hstart, hallows⟩ := ((m.configured options).behaviour r).exists_allows u
      refine ⟨run', fun j => j, hstart, hallows, .identity, fun i hi => ?_⟩
      obtain rfl := Nat.le_zero.1 hi
      rwa [hstart]
  | succ n ih =>
      have hrest : (m.configured options').Path fun i => run (i + 1) :=
        ⟨h.valid 1, fun i => h.step (i + 1)⟩
      have hstep : m.Agree relevant (run 1) u ∨
          ∃ t u', (m.configured options).Moves t u u' ∧ m.Agree relevant (run 1) u' := by
        rcases h.step 0 with ⟨t, hmove⟩ | ⟨-, heq⟩
        · exact (hmove.slice hsliced hcone hagree).imp_right fun hu' => ⟨t, hu'⟩
        · exact .inl (heq ▸ hagree)
      rcases hstep with hagree' | ⟨t, u', hmove, hagree'⟩
      · obtain ⟨run', e, hstart, hallows, he, hall⟩ := ih hrest hagree'
        refine ⟨run', _, hstart, hallows, he.delay, fun i hi => ?_⟩
        cases i with
        | zero => exact hstart.symm ▸ hagree
        | succ i => exact hall i (Nat.le_of_succ_le_succ hi)
      · obtain ⟨run', e, hstart, hallows, he, hall⟩ := ih hrest hagree'
        refine ⟨prepend u run', _, rfl, fun i next hnext => ?_, he.cons, fun i hi => ?_⟩
        · cases i with
          | zero =>
              have hmem := mem_next?_of_moves hnext hmove
              rwa [← hstart] at hmem
          | succ i => exact hallows i next hnext
        · cases i with
          | zero => exact hagree
          | succ i => exact hall i (Nat.le_of_succ_le_succ hi)

variable {formula : Formula} {d d' : Directives} {η η' : Type}
  {tick : Search Model ModelState → η → Bool × η} {tick' : Search Model ModelState → η' → Bool × η'}
  {limit limit' : Nat} {h : η} {h' : η'} {log log' : List LogEvent} {c : Counterexample ModelState}

theorem exists_path_of_violation
    (hviolation : (m.searched formula d tick limit h log).verdict? = some (.violation c))
    (hreduction : d.partialOrderReduction = false) :
    ∃ run, ((m.readyFor formula d).behaviour m.reader).initial = some (run 0) ∧
      (m.readyFor formula d).Path run ∧
      ¬ Formula.Satisfies (((m.readyFor formula d).behaviour m.reader).word run) formula := by
  obtain ⟨place, hrun⟩ := exists_run_of_violation hviolation
  refine ⟨fun i => (place i).program, hrun.start,
    path_of_next? (r := m.reader) hrun.start fun i => ?_, ?_⟩
  · rcases hrun.targets i with ⟨htrue, -⟩ | hnext
    · simp [hreduction] at htrue
    · exact hnext
  · refine Formula.holds_negate.1 ?_
    exact hrun.follows.satisfies (Formula.isNnf_signed false formula) hrun.fair
      fun i => Counterexample.holds_of_supports (hrun.supports i)

/-- What a search without reduction passes satisfies the property on all that the model allows. -/
theorem satisfies_of_searched_pass
    (hpass : (m.searched formula d tick limit h log).verdict? = some .pass)
    (hreduction : d.partialOrderReduction = false) {run : Nat → ModelState}
    (hstart : ((m.readyFor formula d).behaviour m.reader).initial = some (run 0))
    (hallows : ((m.readyFor formula d).behaviour m.reader).Allows run) :
    Formula.Satisfies (((m.readyFor formula d).behaviour m.reader).word run) formula := by
  by_contra hviolated
  obtain ⟨q, hq, hfair, hholds⟩ := exists_follows (Formula.holds_negate.2 hviolated)
  exact Run.not_fair_of_pass (behaves_readyFor m formula d) (sound_searchFor m formula d) hreduction
    hpass hstart hallows hq (fun i => Behaviour.not_refutes_of_holds (hholds i)) hfair

theorem word_iff_of_agree {visible : OrderedSet String} (hsees : m.Sees visible)
    (hcone : m.Cone (m.visibleVars visible) relevant) {run run' : Nat → ModelState} {i j : Nat}
    (hagree : m.Agree relevant (run i) (run' j)) : ∀ p ∈ visible,
      ((m.configured options).behaviour m.reader).word run i p ↔
        ((m.configured options').behaviour m.reader).word run' j p := by
  intro p hp
  have hholds := holds_congr hsees hp fun x hx => hagree.lookup x (hcone.visible x hx)
  simp only [Behaviour.word, behaviour, hholds]

theorem untilParts_nnf (hadvice :
    Advisory.precheck formula { d with slicing := true } m.constructs = []) :
    formula.nnf.untilParts = [] := by
  simp only [Advisory.precheck, List.append_eq_nil_iff] at hadvice
  have hsafety : formula.isSyntacticSafety = true := by simpa using hadvice.1.2
  exact Formula.untilParts_nnf_of_isSyntacticSafety hsafety

theorem not_pass_of_sliced_violation (hreduction : d.partialOrderReduction = false)
    (hplain : formula.Plain formula.propositions) (hsees : m.Sees formula.propositions)
    (hviolation : (m.searched formula { d with slicing := true } tick limit h log).verdict? =
      some (.violation c)) :
    (m.searched formula { d with slicing := false } tick' limit' h' log').verdict? ≠
      some .pass := by
  intro hpass
  obtain ⟨run, hstart, hpath, hviolated⟩ := exists_path_of_violation hviolation hreduction
  obtain ⟨relevant, hcone⟩ := m.exists_cone (m.visibleVars formula.propositions)
  obtain ⟨run', hzero, hallows, hagree⟩ := hpath.exists_unsliced (r := m.reader) rfl
    ({ d with slicing := false }.programOptions formula.propositions) rfl hcone.toInsulates
  have hsatisfied := satisfies_of_searched_pass hpass hreduction (hzero ▸ hstart) hallows
  refine hviolated ((Formula.holds_stretch .identity hplain (fun i => ?_) 0).2 hsatisfied)
  exact word_iff_of_agree hsees hcone (hagree i)

theorem not_violation_of_sliced_pass (hreduction : d.partialOrderReduction = false)
    (hplain : formula.Plain formula.propositions) (hsafe : formula.nnf.untilParts = [])
    (hsees : m.Sees formula.propositions)
    (hpass : (m.searched formula { d with slicing := true } tick limit h log).verdict? =
      some .pass) :
    (m.searched formula { d with slicing := false } tick' limit' h' log').verdict? ≠
      some (.violation c) := by
  intro hviolation
  obtain ⟨run, hstart, hpath, hviolated⟩ := exists_path_of_violation hviolation hreduction
  obtain ⟨relevant, hcone⟩ := m.exists_cone (m.visibleVars formula.propositions)
  obtain ⟨n, hn⟩ := Formula.exists_ruledOut (hplain.signed true).2
    (Formula.isNnf_signed true formula) hsafe (mt Formula.holds_nnf.1 hviolated)
  -- the violation shows at the first `n` positions, and so far the sliced model can follow
  obtain ⟨run', e, hzero, hallows, he, hagree⟩ := hpath.exists_sliced (r := m.reader)
    ({ d with slicing := true }.programOptions formula.propositions) rfl hcone.toInsulates
    (.refl m relevant (run 0)) n
  have hsatisfied := satisfies_of_searched_pass hpass hreduction (hzero ▸ hstart) hallows
  refine hn
    (fun j => ((m.readyFor formula { d with slicing := true }).behaviour m.reader).word run' (e j))
    (fun j hj => word_iff_of_agree hsees hcone (hagree j (Nat.le_of_lt hj)))
    (Formula.holds_nnf.2 ?_)
  refine (Formula.holds_stretch he hplain (fun j p hp => Iff.rfl) 0).2 ?_
  rw [he.start]
  exact hsatisfied

variable {property runId runId' : String} {outcome outcome' : Outcome ModelState}

/-- Two runs that come to a verdict come to the same one if neither of their searches passes where
the other one reports a violation. -/
theorem outcome_eq_pass_iff (hproperty : Formula.parse property = .ok formula)
    (hcheck : m.check property d runId tick limit h = some outcome)
    (hcheck' : m.check property d' runId' tick' limit' h' = some outcome')
    (hdecided : outcome.isPass || outcome.isViolation)
    (hdecided' : outcome'.isPass || outcome'.isViolation)
    (hpass : ∀ log log' c, (m.searched formula d tick limit h log).verdict? = some .pass →
      (m.searched formula d' tick' limit' h' log').verdict? ≠ some (.violation c))
    (hviolation : ∀ log log' c, (m.searched formula d tick limit h log).verdict? =
      some (.violation c) →
      (m.searched formula d' tick' limit' h' log').verdict? ≠ some .pass) :
    outcome = .pass ↔ outcome' = .pass := by
  have hcases : ∀ o : Outcome ModelState, o.isPass || o.isViolation → o = .pass ∨
      ∃ c, o = .violation c := by
    intro o ho
    cases o <;> simp [Outcome.isPass, Outcome.isViolation] at ho ⊢
  have hfound : outcome ≠ .cancelled := by rcases hcases _ hdecided with rfl | ⟨c, rfl⟩ <;> simp
  have hfound' : outcome' ≠ .cancelled := by rcases hcases _ hdecided' with rfl | ⟨c, rfl⟩ <;> simp
  obtain ⟨log, hp, hv⟩ := exists_searched_of_check hproperty hcheck hfound
  obtain ⟨log', hp', hv'⟩ := exists_searched_of_check hproperty hcheck' hfound'
  rcases hcases _ hdecided with rfl | ⟨c, rfl⟩ <;> rcases hcases _ hdecided' with rfl | ⟨c', rfl⟩
  · rfl
  · exact absurd (hv' c' rfl) (hpass log log' c' (hp rfl))
  · exact absurd (hp' rfl) (hviolation log log' c (hv c rfl))
  · simp

/-- Slicing keeps the verdict on a safety property without `next`: if a run on the sliced model and
a run on the full model both end with a verdict, then one is a pass exactly if the other is. -/
theorem check_slicing_iff (m : Model) (d : Directives)
    (hreduction : d.partialOrderReduction = false)
    (hproperty : Formula.parse property = .ok formula)
    (hadvice : Advisory.precheck formula { d with slicing := true } m.constructs = [])
    (hstutter : formula.isStutterInvariant = true) (hsees : m.Sees formula.propositions)
    {sliced full : Outcome ModelState}
    (hsliced : m.check property { d with slicing := true } runId tick limit h = some sliced)
    (hfull : m.check property { d with slicing := false } runId' tick' limit' h' = some full)
    (hsliced' : sliced.isPass || sliced.isViolation) (hfull' : full.isPass || full.isViolation) :
    sliced = .pass ↔ full = .pass := by
  have hplain := Formula.plain_of_isStutterInvariant hstutter
  have hsafe := untilParts_nnf hadvice
  refine outcome_eq_pass_iff hproperty hsliced hfull hsliced' hfull' (fun log log' c hpass => ?_)
    fun log log' c hviolation => ?_
  · exact not_violation_of_sliced_pass hreduction hplain hsafe hsees hpass
  · exact not_pass_of_sliced_violation hreduction hplain hsees hviolation

def lamp : Model where
  name := "lamp"
  vars := [.boolean "p" false, .boolean "z" false]
  transitions :=
    [{ name := "t", guard := .top, actions := [.assign "p" (.bool true)] },
     { name := "u", guard := .top, actions := [.assign "z" (.bool true)] }]

theorem lamp_check_slicing : ∃ sliced full,
    lamp.check "G (p -> G p)" { slicing := true } "1" goOn 100 () = some sliced ∧
    lamp.check "G (p -> G p)" { slicing := false } "2" goOn 100 () = some full ∧
    (sliced = .pass ↔ full = .pass) := by
  have hsliced : lamp.check "G (p -> G p)" { slicing := true } "1" goOn 100 () = some .pass := by
    decide +kernel
  have hfull : lamp.check "G (p -> G p)" { slicing := false } "2" goOn 100 () = some .pass := by
    decide +kernel
  have hproperty : Formula.parse "G (p -> G p)" =
      .ok (.always (.implies (.prop "p") (.always (.prop "p")))) := by
    decide +kernel
  exact ⟨_, _, hsliced, hfull,
    check_slicing_iff lamp {} rfl hproperty (by decide +kernel) rfl (by decide +kernel)
    hsliced hfull rfl rfl⟩

/-- A step that is sliced away still takes time: before the lamp is on, the flag may be set. -/
theorem lamp_check_differs :
    (Formula.parse "X p").toOption.map (Advisory.precheck · { slicing := true } lamp.constructs) =
      some [] ∧
    lamp.check "X p" { slicing := true } "1" goOn 100 () = some .pass ∧
    (lamp.check "X p" { slicing := false } "2" goOn 100 ()).map Outcome.isViolation =
      some true := by
  decide +kernel

example : ¬ overshadowed.Sees (.ofList ["p"]) ∧
    overshadowed.check "G !p" { slicing := true } "1" goOn 100 () = some .pass ∧
    (overshadowed.check "G !p" { slicing := false } "2" goOn 100 ()).map Outcome.isViolation =
      some true := by
  decide +kernel

end Model

end TemporalCheck
