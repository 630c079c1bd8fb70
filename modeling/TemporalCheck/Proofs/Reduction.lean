import TemporalCheck.Proofs.AmpleSets
import TemporalCheck.Run.Verification

namespace TemporalCheck

open PropertyState

namespace Verification

variable {W S η : Type} {p : Program W S} {v : Verification W S}

theorem search_mem_jobs (d : Directives) : .search ∈ jobs d := by simp [jobs]

theorem status_of_result_pass {status : RunStatus S} (h : result status = .ok .pass) :
    status = .ended none ∨ status = .ended (some .pass) := by
  cases status with
  | going stage later => simp [result] at h
  | ended verdict =>
      rcases verdict with _ | _ | c | _ <;> simp [result, Outcome.ofSearch] at h ⊢
  | failed fault =>
      rcases fault with e | text
      · cases e <;> simp [result, Outcome.ofSearch] at h
      · simp [result] at h

theorem status_of_result_violation {status : RunStatus S} {c : Counterexample S}
    (h : result status = .ok (.violation c)) : status = .ended (some (.violation c)) := by
  cases status with
  | going stage later => simp [result] at h
  | ended verdict =>
      rcases verdict with _ | _ | c | _ <;> simp [result, Outcome.ofSearch] at h ⊢
      exact h
  | failed fault =>
      rcases fault with e | text
      · cases e <;> simp [result, Outcome.ofSearch] at h
      · simp [result] at h

variable [DecidableEq S] [HasDigest S]

theorem result_of_runWith {runId : String} {tick : Search W S → η → Bool × η} {limit : Nat}
    {log : List LogEvent} {h : η} {s : Summary S}
    (hs : (v.runWith p runId tick limit log h).1 = .ok s) :
    result (Run.drive p tick limit (v.begin p runId log) h).1.status = .ok s.outcome := by
  simp only [runWith] at hs
  cases hresult : result (Run.drive p tick limit (v.begin p runId log) h).1.status with
  | error text => simp [hresult] at hs
  | ok outcome =>
      simp only [hresult, conclude, Except.ok.injEq] at hs
      rw [← hs]
      rfl

theorem drive_ended {x : Search W S} {log : List LogEvent} {verdict : Option (Verdict S)}
    {tick : Search W S → η → Bool × η} {limit : Nat} {h : η} :
    Run.drive p tick limit ⟨x, log, .ended verdict⟩ h = (⟨x, log, .ended verdict⟩, h) := by
  cases limit <;> rfl

theorem exists_begin_eq {runId : String} {tick : Search W S → η → Bool × η} {limit : Nat}
    {log : List LogEvent} {h : η} {outcome : Outcome S}
    (hresult : result (Run.drive p tick limit (v.begin p runId log) h).1.status = .ok outcome)
    (hcancelled : outcome ≠ .cancelled) :
    ∃ log', v.begin p runId log = Run.begin p v.search log' (jobs v.directives) := by
  rw [begin] at hresult ⊢
  cases hdisposed : v.isDisposed with
  | true =>
      rw [hdisposed, if_pos rfl, drive_ended] at hresult
      exact absurd (Except.ok.inj hresult).symm hcancelled
  | false => exact ⟨_, rfl⟩

theorem verdict?_of_result_pass {x : Search W S} {log : List LogEvent} {d : Directives}
    {tick : Search W S → η → Bool × η} {limit : Nat} {h : η}
    (hresult :
      result (Run.drive p tick limit (Run.begin p x log (jobs d)) h).1.status = .ok .pass) :
    (Run.drive p tick limit (Run.begin p x log (jobs d)) h).1.verdict? = some .pass := by
  rcases status_of_result_pass hresult with hnone | hsome
  · have hsearching : Run.Searching
        (Run.drive p tick limit (Run.begin p x log (jobs d)) h).1.status :=
      Run.searching_drive tick limit (search_mem_jobs d) h
    rw [hnone] at hsearching
    exact absurd rfl hsearching
  · exact Run.verdict?_eq_some_iff.2 hsome

/-- The outcome of a run tells what its search has found. -/
theorem exists_verdict {runId : String} {tick : Search W S → η → Bool × η} {limit : Nat}
    {log : List LogEvent} {h : η} {s : Summary S}
    (hs : (v.runWith p runId tick limit log h).1 = .ok s) (hcancelled : s.outcome ≠ .cancelled) :
    ∃ log', (s.outcome = .pass →
        (Run.drive p tick limit (Run.begin p v.search log' (jobs v.directives)) h).1.verdict? =
          some .pass) ∧
      ∀ c, s.outcome = .violation c →
        (Run.drive p tick limit (Run.begin p v.search log' (jobs v.directives)) h).1.verdict? =
          some (.violation c) := by
  have hresult := result_of_runWith hs
  obtain ⟨log', hbegin⟩ := exists_begin_eq hresult hcancelled
  rw [hbegin] at hresult
  refine ⟨log', fun hpass => ?_, fun c hviolation => ?_⟩
  · rw [hpass] at hresult
    exact verdict?_of_result_pass hresult
  · rw [hviolation] at hresult
    exact Run.verdict?_eq_some_iff.2 (status_of_result_violation hresult)

end Verification

namespace Model

variable {m : Model} {d : Directives} {property runId : String} {formula : Formula} {η : Type}
  {tick : Search Model ModelState → η → Bool × η} {limit : Nat} {h : η}
  {outcome : Outcome ModelState}

/-- The outcome of a run that checks a property on a model, if the run comes to one. -/
def check (m : Model) (property : String) (d : Directives) (runId : String)
    (tick : Search Model ModelState → η → Bool × η) (limit : Nat) (h : η) :
    Option (Outcome ModelState) :=
  (Verification.create (program m.reader) m [] property d).toOption.bind fun v =>
    (v.state.runWith (program m.reader) runId tick limit v.log h).1.toOption.map (·.outcome)

def readyFor (m : Model) (formula : Formula) (d : Directives) : Model :=
  m.configured (d.programOptions formula.propositions)

def searchFor (m : Model) (formula : Formula) (d : Directives) : Search Model ModelState :=
  { space := { memory := m.readyFor formula d }
    property := .ofViolations formula
    reduction := d.partialOrderReduction
    printTree := d.printSearchTree }

def searched (m : Model) (formula : Formula) (d : Directives)
    (tick : Search Model ModelState → η → Bool × η) (limit : Nat) (h : η) (log : List LogEvent) :
    Run Model ModelState :=
  (Run.drive (program m.reader) tick limit
    (Run.begin (program m.reader) (m.searchFor formula d) log (Verification.jobs d)) h).1

theorem search_of_create (hproperty : Formula.parse property = .ok formula)
    {log log' : List LogEvent} {v : Verification Model ModelState}
    (hv : Verification.create (program m.reader) m log property d = .ok ⟨v, log'⟩) :
    v.search = m.searchFor formula d ∧ v.directives = d := by
  obtain ⟨_, hparse, hv⟩ := except_bind_eq_ok.1 hv
  obtain rfl : formula = _ := by simpa [hproperty] using except_mapError_eq_ok.1 hparse
  cases hconfigure : StateSpace.configure (program m.reader) (d.programOptions formula.propositions)
      ⟨{ memory := m }, log⟩ with
  | error fault l => simp [hconfigure] at hv
  | ok u l =>
      obtain ⟨l', hl', rfl⟩ := StateSpace.call_eq_ok.1 hconfigure
      simp only [hconfigure, Except.ok.injEq, Logged.mk.injEq] at hv
      obtain ⟨rfl, -⟩ := hv
      simp only [searchFor, readyFor, configure_eq_ok hl', and_self]

theorem exists_searched_of_check (hproperty : Formula.parse property = .ok formula)
    (hcheck : m.check property d runId tick limit h = some outcome)
    (hcancelled : outcome ≠ .cancelled) :
    ∃ log, (outcome = .pass → (m.searched formula d tick limit h log).verdict? = some .pass) ∧
      ∀ c, outcome = .violation c → (m.searched formula d tick limit h log).verdict? =
        some (.violation c) := by
  obtain ⟨⟨v, log⟩, hcreate, hrun⟩ := Option.bind_eq_some_iff.1 hcheck
  obtain ⟨s, hs, rfl⟩ := Option.map_eq_some_iff.1 hrun
  obtain ⟨hsearch, hdirectives⟩ := search_of_create hproperty (except_toOption_eq_some.1 hcreate)
  have hverdict := Verification.exists_verdict (except_toOption_eq_some.1 hs) hcancelled
  rwa [hsearch, hdirectives] at hverdict

theorem behaves_readyFor (m : Model) (formula : Formula) (d : Directives) :
    (program m.reader).Behaves (· = m.readyFor formula d)
      ((m.readyFor formula d).behaviour m.reader) :=
  behaves rfl m.reader

theorem sound_searchFor (m : Model) (formula : Formula) (d : Directives) :
    (m.searchFor formula d).Sound (· = m.readyFor formula d)
      ((m.readyFor formula d).behaviour m.reader)
      formula.negate :=
  Search.sound_of_nodes_empty (StateSpace.sound_start rfl)
    (PropertyAutomaton.sound_ofFormula formula.negate) rfl

theorem exists_run_of_violation {log : List LogEvent} {c : Counterexample ModelState}
    (h : (m.searched formula d tick limit h log).verdict? = some (.violation c)) :
    ∃ place, Place.IsRun ((m.readyFor formula d).behaviour m.reader) formula.negate
      d.partialOrderReduction place := by
  obtain ⟨P, C, hlasso, -⟩ :=
    Run.exists_lasso_of_violation (behaves_readyFor m formula d) (sound_searchFor m formula d) h
  obtain ⟨k, v, hpos, hk, hlast⟩ := hlasso.exists_back
  obtain ⟨place, -, hrun⟩ := hlasso.exists_run hpos hk hlast
  exact ⟨place, hrun⟩

theorem plain_negate (hadvice :
    Advisory.precheck formula { d with partialOrderReduction := true } m.constructs = []) :
    formula.negate.Plain formula.propositions := by
  have hstutter : formula.isStutterInvariant = true := by
    simp only [Advisory.precheck, List.append_eq_nil_iff] at hadvice
    simpa using hadvice.1.1
  exact (Formula.plain_of_isStutterInvariant hstutter).signed false

section

variable {η' : Type} {runId' : String} {tick' : Search Model ModelState → η' → Bool × η'}
  {limit' : Nat} {h' : η'} {log log' : List LogEvent} {c : Counterexample ModelState}

theorem behaviour_readyFor_unreduced (m : Model) (formula : Formula) (d : Directives) :
    (m.readyFor formula { d with partialOrderReduction := false }).behaviour m.reader =
      { (m.readyFor formula { d with partialOrderReduction := true }).behaviour m.reader with
        ample := fun _ => some none } :=
  behaviour_unreduced m m.reader rfl rfl rfl

/-- What a search with reduction finds, one without reduction does not miss. -/
theorem not_pass_of_reduced_violation
    (hviolation : (m.searched formula { d with partialOrderReduction := true } tick limit h
      log).verdict? =
      some (.violation c)) :
    (m.searched formula { d with partialOrderReduction := false } tick' limit' h' log').verdict? ≠
      some .pass := by
  intro hpass
  obtain ⟨place, hrun⟩ := exists_run_of_violation hviolation
  have hsound := sound_searchFor m formula { d with partialOrderReduction := false }
  have hbehaves := behaves_readyFor m formula { d with partialOrderReduction := false }
  rw [behaviour_readyFor_unreduced] at hsound hbehaves
  exact Run.not_fair_of_pass hbehaves hsound rfl hpass hrun.start
    (fun i _ hnext => mem_next?_of_isRun hrun i hnext)
    hrun.follows (fun i => (hrun.supports i).not_refutes) hrun.fair

/-- What a search without reduction finds, one with reduction does not miss. -/
theorem not_violation_of_reduced_pass (hslicing : d.slicing = false)
    (hadvice : Advisory.precheck formula { d with partialOrderReduction := true } m.constructs = [])
    (hsees : m.Sees formula.propositions) (hseparates : m.Separates formula.propositions)
    (hpass : (m.searched formula { d with partialOrderReduction := true } tick limit h
      log).verdict? = some .pass) :
    (m.searched formula { d with partialOrderReduction := false } tick' limit' h' log').verdict? ≠
      some (.violation c) := by
  intro hviolation
  obtain ⟨place, hrun⟩ := exists_run_of_violation hviolation
  rw [behaviour_readyFor_unreduced] at hrun
  have hpath : (m.readyFor formula { d with partialOrderReduction := true }).Path fun n =>
    (place n).program := by
    refine path_of_next? (r := m.reader) hrun.start fun i => ?_
    rcases hrun.targets i with ⟨hfalse, -⟩ | hnext
    · cases hfalse
    · exact hnext
  refine Run.not_satisfies_of_pass (behaves_readyFor m formula _)
    (sound_searchFor m formula _) hpass (replays hslicing hsees hseparates) (plain_negate hadvice)
    hrun.start hpath ?_
  exact hrun.follows.satisfies (Formula.isNnf_signed false formula) hrun.fair
    fun n => Counterexample.holds_of_supports (hrun.supports n)

/-- Partial order reduction keeps the verdict: if a run with reduction and a run without it both end
with a verdict, then one is a pass exactly if the other is. -/
theorem check_reduction_iff (m : Model) (d : Directives) (hslicing : d.slicing = false)
    (hproperty : Formula.parse property = .ok formula)
    (hadvice : Advisory.precheck formula { d with partialOrderReduction := true } m.constructs = [])
    (hsees : m.Sees formula.propositions) (hseparates : m.Separates formula.propositions)
    {reduced full : Outcome ModelState}
    (hreduced : m.check property { d with partialOrderReduction := true } runId tick limit h =
      some reduced)
    (hfull : m.check property { d with partialOrderReduction := false } runId' tick' limit' h' =
      some full)
    (hreduced' : reduced.isPass || reduced.isViolation) (hfull' : full.isPass || full.isViolation) :
    reduced = .pass ↔ full = .pass := by
  have hnotcancelled : ∀ o : Outcome ModelState, o.isPass || o.isViolation → o ≠ .cancelled := by
    rintro o ho rfl
    simp [Outcome.isPass, Outcome.isViolation] at ho
  have hcases : ∀ o : Outcome ModelState, o.isPass || o.isViolation → o = .pass ∨
      ∃ c, o = .violation c := by
    intro o ho
    cases o <;> simp [Outcome.isPass, Outcome.isViolation] at ho ⊢
  obtain ⟨log, hpass, hviolation⟩ :=
    exists_searched_of_check hproperty hreduced (hnotcancelled _ hreduced')
  obtain ⟨log', hpass', hviolation'⟩ :=
    exists_searched_of_check hproperty hfull (hnotcancelled _ hfull')
  constructor
  · intro hp
    rcases hcases full hfull' with hfull | ⟨c, hc⟩
    · exact hfull
    · exact absurd (hviolation' c hc)
        (not_violation_of_reduced_pass hslicing hadvice hsees hseparates (hpass hp))
  · intro hp
    rcases hcases reduced hreduced' with hreduced | ⟨c, hc⟩
    · exact hreduced
    · exact absurd (hpass' hp) (not_pass_of_reduced_violation (hviolation c hc))

end

/-- A run that nobody stops. -/
def goOn : Search Model ModelState → Unit → Bool × Unit := fun _ h => (true, h)

def flags : Model where
  name := "flags"
  vars := [.boolean "x" false, .boolean "y" false]
  predicates := [⟨"up", .isTrue "y"⟩]
  transitions :=
    [{ name := "t", agent := "a", guard := .ne (.named "x") (.value (.bool true)),
       actions := [.assign "x" (.bool true)] },
     { name := "u", agent := "b", guard := .top, actions := [.assign "y" (.bool true)] }]
  invariants := [⟨"bounded", .disj [.isTrue "x", .neg (.isTrue "x")]⟩]

theorem flags_check_reduction : ∃ reduced full,
    flags.check "G (up -> G up)" { partialOrderReduction := true } "1" goOn 100 () = some reduced ∧
    flags.check "G (up -> G up)" { partialOrderReduction := false } "2" goOn 100 () = some full ∧
    (reduced = .pass ↔ full = .pass) := by
  have hreduced : flags.check "G (up -> G up)" { partialOrderReduction := true } "1" goOn 100 () =
    some .pass := by
    decide +kernel
  have hfull : flags.check "G (up -> G up)" { partialOrderReduction := false } "2" goOn 100 () =
    some .pass := by
    decide +kernel
  have hproperty : Formula.parse "G (up -> G up)" =
      .ok (.always (.implies (.prop "up") (.always (.prop "up")))) := by decide +kernel
  exact ⟨_, _, hreduced, hfull,
    check_reduction_iff flags {} rfl hproperty (by decide +kernel) (by decide +kernel)
    (by decide +kernel) hreduced hfull rfl rfl⟩

def exclusive : Model where
  name := "exclusive"
  vars := [.boolean "x" false, .boolean "y" false]
  transitions :=
    [{ name := "t", agent := "a", guard := .top, actions := [.assign "x" (.bool true)] },
     { name := "u", agent := "b", guard := .top, actions := [.assign "y" (.bool true)] }]
  invariants := [⟨"excl", .neg (.conj [.isTrue "x", .isTrue "y"])⟩]

/-- An invariant that ties an agent to the others: the step that stands for all others rules them
out, and the search with reduction misses the violation. -/
theorem exclusive_check_differs :
    (Formula.parse "G !y").toOption.map
      (Advisory.precheck · { partialOrderReduction := true } exclusive.constructs) = some [] ∧
    exclusive.check "G !y" { partialOrderReduction := true } "1" goOn 100 () = some .pass ∧
    (exclusive.check "G !y" { partialOrderReduction := false } "2" goOn 100 ()).map
      Outcome.isViolation = some true := by
  decide +kernel

/-- Two conditions of one name: the last one is read, the first one counts for what is visible. -/
def shadowed : Model where
  name := "shadowed"
  vars := [.boolean "x" false, .boolean "y" false, .boolean "z" false]
  predicates := [⟨"p", .isTrue "z"⟩, ⟨"p", .isTrue "x"⟩, ⟨"q", .isTrue "y"⟩]
  transitions :=
    [{ name := "t", agent := "a", guard := .eq (.named "x") (.value (.bool false)),
       actions := [.assign "x" (.bool true)] },
     { name := "u", agent := "b", guard := .eq (.named "y") (.value (.bool false)),
       actions := [.assign "y" (.bool true)] }]

example : ¬ shadowed.Sees (.ofList ["q", "p"]) ∧
    shadowed.check "G (q -> p)" { partialOrderReduction := true } "1" goOn 100 () = some .pass ∧
    (shadowed.check "G (q -> p)" { partialOrderReduction := false } "2" goOn 100 ()).map
      Outcome.isViolation =
      some true := by
  decide +kernel

end Model

end TemporalCheck
