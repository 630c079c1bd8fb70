import TemporalCheck.Proofs.Counterexample
import TemporalCheck.Proofs.Independence
import TemporalCheck.Proofs.Replay
import TemporalCheck.Proofs.Visibility

namespace TemporalCheck

theorem disjointNames_iff {s t : OrderedSet String} :
    disjointNames s t = true ↔ ∀ x ∈ s, x ∉ t := by
  simp only [disjointNames, List.all_eq_true, decide_eq_true_eq]
  exact Iff.rfl

namespace Model

variable {m : Model} {options : ProgramOptions} {visible : OrderedSet String} {agent x : String}
  {s u : ModelState} {ts : List (Transition × Nat)}

/-- The transitions of the agent may stand for all: they take internal steps, write nothing visible
and are independent of those of the others. -/
def IsLocal (m : Model) (visible : OrderedSet String) (agent : String) : Prop :=
  ∀ t ∈ m.transitions, t.agent = agent → t.kind = .internal ∧
    disjointNames t.modifies (m.visibleVars visible) = true ∧
    ∀ t' ∈ m.transitions, t'.agent ≠ agent → t.independentOf t' = true

instance : Decidable (m.IsLocal visible agent) := List.decidableBAll _ _

/-- No invariant reads both what such an agent writes and what another agent writes. -/
def Separates (m : Model) (visible : OrderedSet String) : Prop :=
  ∀ t ∈ m.transitions, m.IsLocal visible t.agent → ∀ i ∈ m.invariants,
    (∀ t' ∈ m.transitions, t'.agent = t.agent →
      disjointNames t'.modifies i.predicate.support = true) ∨
    ∀ t' ∈ m.transitions, t'.agent ≠ t.agent → disjointNames t'.modifies i.predicate.support = true

instance : Decidable (m.Separates visible) := List.decidableBAll _ _

theorem mem_transitions_configured {t : Transition} :
    t ∈ (m.configured options).transitions ↔ ∃ t₀ ∈ m.transitions, t₀.resolve m.place = t :=
  List.mem_map

theorem resolved_configured (m : Model) (options : ProgramOptions) :
    (m.configured options).Resolved := by
  constructor
  · intro t ht
    obtain ⟨t₀, -, rfl⟩ := mem_transitions_configured.1 ht
    exact t₀.resolved_resolve
  · intro i hi
    obtain ⟨i₀, -, rfl⟩ := List.mem_map.1 hi
    exact i₀.predicate.resolve_resolve

theorem exists_mem_active (hslicing : options.slicing = false) {t : Transition}
    (ht : t ∈ m.transitions) : ∃ n, (t.resolve m.place, n) ∈ (m.configured options).active := by
  obtain ⟨n, hn⟩ := List.mem_iff_getElem?.1 ht
  have hlt := (List.getElem?_eq_some_iff.1 hn).1
  refine ⟨n, List.mem_filterMap.2 ⟨n, ?_, ?_⟩⟩
  · simp [configured, prepared, hslicing, hlt]
  · have hresolved : (m.configured options).transitions = m.transitions.map (·.resolve m.place) :=
      rfl
    simp [hresolved, hn]

theorem exists_writer_configured (P : String → Prop) :
    (∃ t ∈ (m.configured options).transitions, P t.agent ∧ x ∈ t.modifies) ↔
      ∃ t ∈ m.transitions, P t.agent ∧ x ∈ t.modifies := by
  simp only [mem_transitions_configured]
  constructor
  · rintro ⟨_, ⟨t, ht, rfl⟩, hagent, hx⟩
    exact ⟨t, ht, hagent, t.modifies_resolve ▸ hx⟩
  · rintro ⟨t, ht, hagent, hx⟩
    exact ⟨_, ⟨t, ht, rfl⟩, hagent, t.modifies_resolve ▸ hx⟩

theorem writes_configured : (m.configured options).Writes agent x ↔ m.Writes agent x :=
  exists_writer_configured (· = agent)

theorem othersWrite_configured : (m.configured options).OthersWrite agent x ↔
    m.OthersWrite agent x :=
  exists_writer_configured (· ≠ agent)

theorem isLocal_of_isAmple (hslicing : options.slicing = false)
    (h : (m.configured options).isAmple ts agent = true) : m.IsLocal options.visible agent := by
  simp only [isAmple, Bool.and_eq_true, List.all_eq_true, List.mem_filter, decide_eq_true_eq,
    and_imp, Prod.forall] at h
  obtain ⟨⟨-, hown⟩, hindependent⟩ := h
  intro t ht hagent
  obtain ⟨n, hn⟩ := exists_mem_active hslicing ht
  obtain ⟨hkind, hinvisible⟩ := hown _ n hn hagent
  rw [t.modifies_resolve] at hinvisible
  refine ⟨hkind, hinvisible, fun t' ht' hagent' => ?_⟩
  obtain ⟨n', hn'⟩ := exists_mem_active hslicing ht'
  have hind := hindependent _ n hn hagent _ n' hn' hagent'
  simpa only [Transition.independentOf, Transition.modifies_resolve,
    Transition.reads_resolve] using hind

theorem apart_configured (hlocal : m.IsLocal visible agent) (hseparates : m.Separates visible)
    (hagent : ∃ t ∈ m.transitions, t.agent = agent) : (m.configured options).Apart agent := by
  have hind : ∀ t ∈ m.transitions, t.agent = agent → ∀ t' ∈ m.transitions, t'.agent ≠ agent →
      (∀ x ∈ t.modifies, x ∉ t'.modifies) ∧ (∀ x ∈ t.modifies, x ∉ t'.reads) ∧
      ∀ x ∈ t'.modifies, x ∉ t.reads := by
    intro t ht hagent t' ht' hagent'
    have hind := (hlocal t ht hagent).2.2 t' ht' hagent'
    simpa only [Transition.independentOf, Bool.and_eq_true, disjointNames_iff, and_assoc] using hind
  refine ⟨resolved_configured m options, fun x hx hothers => ?_, ?_, ?_, ?_⟩
  · obtain ⟨t, ht, hagent, hx⟩ := writes_configured.1 hx
    obtain ⟨t', ht', hagent', hx'⟩ := othersWrite_configured.1 hothers
    exact (hind t ht hagent t' ht' hagent').1 x hx hx'
  · intro _ hmem hagent' x hx hwrites
    obtain ⟨t', ht', rfl⟩ := mem_transitions_configured.1 hmem
    obtain ⟨t, ht, hagent, hx'⟩ := writes_configured.1 hwrites
    rw [t'.reads_resolve] at hx
    exact (hind t ht hagent t' ht' hagent').2.1 x hx' hx
  · intro _ hmem hagent x hx hothers
    obtain ⟨t, ht, rfl⟩ := mem_transitions_configured.1 hmem
    obtain ⟨t', ht', hagent', hx'⟩ := othersWrite_configured.1 hothers
    rw [t.reads_resolve] at hx
    exact (hind t ht hagent t' ht' hagent').2.2 x hx' hx
  · intro _ hmem
    obtain ⟨i, hi, rfl⟩ := List.mem_map.1 hmem
    obtain ⟨t, ht, rfl⟩ := hagent
    simp only [NamedPredicate.resolve, Predicate.support_resolve]
    refine (hseparates t ht hlocal i hi).imp (fun hown x hx hwrites => ?_)
      fun hothers x hx hwrites => ?_
    · obtain ⟨t', ht', hagent', hx'⟩ := writes_configured.1 hwrites
      exact disjointNames_iff.1 (hown t' ht' hagent') x hx' hx
    · obtain ⟨t', ht', hagent', hx'⟩ := othersWrite_configured.1 hwrites
      exact disjointNames_iff.1 (hothers t' ht' hagent') x hx' hx

theorem ampleStates_eq_ok {targets : List ModelState} (h : m.ampleStates s = .ok (some targets)) :
    ∃ ts agent, m.isAmple ts agent = true ∧ targets ≠ [] ∧
      ∀ s', s' ∈ targets ↔ ∃ t, t.agent = agent ∧ m.Moves t s s' := by
  simp only [ampleStates, ampleTransitions, except_bind_eq_ok, Except.ok.injEq] at h
  obtain ⟨_, ⟨ts, henabled, rfl⟩, h⟩ := h
  cases hagent : (OrderedSet.ofList (m.active.map (·.1.agent))).toList.find? (m.isAmple ts) with
  | none => simp [hagent] at h
  | some agent =>
      simp only [hagent, Option.map_some, except_bind_eq_ok, Except.ok.injEq] at h
      obtain ⟨next, hnext, h⟩ := h
      cases hempty : next.isEmpty with
      | true => simp [hempty] at h
      | false =>
          obtain rfl : next = targets := by simpa [hempty] using h
          refine ⟨ts, agent, List.find?_some hagent, by simpa using hempty, fun s' => ?_⟩
          simpa using mem_fireAll_filter (fun t => t.agent = agent) henabled hnext

theorem next?_behaviour {r : PropositionReader} {targets : List ModelState}
    (h : (m.behaviour r).next? s = some targets) :
    ∃ next, m.successors? s = .ok next ∧ targets = if next.isEmpty then [s] else next := by
  obtain ⟨next, hnext, rfl⟩ := Option.map_eq_some_iff.1 h
  exact ⟨next, except_toOption_eq_some.1 hnext, rfl⟩

theorem mem_next?_of_moves {r : PropositionReader} {targets : List ModelState} {t : Transition}
    {s' : ModelState} (h : (m.behaviour r).next? s = some targets) (hmove : m.Moves t s s') :
    s' ∈ targets := by
  obtain ⟨next, hnext, rfl⟩ := next?_behaviour h
  have hmem := (mem_successors? hnext).2 ⟨t, hmove⟩
  rwa [if_neg (by simpa using List.ne_nil_of_mem hmem)]

theorem ample_behaviour {r : PropositionReader} {targets : List ModelState}
    (h : (m.behaviour r).ample s = some (some targets)) : m.ampleStates s = .ok (some targets) := by
  simp only [behaviour] at h
  split at h
  · exact except_toOption_eq_some.1 h
  · simp at h

/-- Every path of a model can be replayed through its ample sets. -/
theorem replays (hslicing : options.slicing = false) (hsees : m.Sees options.visible)
    (hseparates : m.Separates options.visible) :
    ((m.configured options).behaviour m.reader).Replays options.visible
      (m.configured options).Path := by
  constructor
  · intro run hpath targets hnext
    rcases hpath.step 0 with ⟨t, hmove⟩ | ⟨hrest, heq⟩
    · exact mem_next?_of_moves hnext hmove
    · obtain ⟨next, hsucc, rfl⟩ := next?_behaviour hnext
      obtain rfl : [] = next := by simpa [hrest] using hsucc
      simpa using heq
  · exact fun run hpath => hpath.drop 1
  · intro run hpath targets htargets
    obtain ⟨ts, agent, hample, hne, hmem⟩ := ampleStates_eq_ok (ample_behaviour htargets)
    obtain ⟨s₁, hs₁⟩ := List.exists_mem_of_ne_nil _ hne
    obtain ⟨t, ht, hmove⟩ := (hmem s₁).1 hs₁
    have hlocal := isLocal_of_isAmple hslicing hample
    obtain ⟨t₀, ht₀, rfl⟩ := mem_transitions_configured.1 hmove.mem
    have hapart : (m.configured options).Apart agent :=
      apart_configured hlocal hseparates ⟨t₀, ht₀, ht⟩
    obtain ⟨run', e, hpath', hfirst, he, hagree⟩ := hpath.exists_replay hapart hmove ht
    refine ⟨run', e, hpath', (hmem _).2 hfirst, he, fun j p hp => ?_⟩
    refine congrArg Except.toOption (holds_congr hsees hp fun x hx => hagree j x fun hwrites => ?_)
    obtain ⟨t, ht, hagent, hx'⟩ := writes_configured.1 hwrites
    exact disjointNames_iff.1 (hlocal t ht hagent).2.1 x hx' hx

theorem mem_next?_of_isRun {r : PropositionReader} {f : Formula} {reduction : Bool}
    {place : Nat → Place ModelState} (h : Place.IsRun (m.behaviour r) f reduction place) (i : Nat)
    {next : List ModelState} (hnext : (m.behaviour r).next? (place i).program = some next) :
    (place (i + 1)).program ∈ next := by
  rcases h.targets i with ⟨-, set, hset, hmem⟩ | ⟨next', hnext', hmem⟩
  · obtain ⟨_, _, -, -, hset⟩ := ampleStates_eq_ok (ample_behaviour hset)
    obtain ⟨t, -, hmove⟩ := (hset _).1 hmem
    exact mem_next?_of_moves hnext hmove
  · rw [hnext, Option.some.injEq] at hnext'
    exact hnext' ▸ hmem

theorem path_of_next? {r : PropositionReader} {run : Nat → ModelState}
    (hstart : (m.behaviour r).initial = some (run 0))
    (hstep : ∀ i, ∃ targets, (m.behaviour r).next? (run i) = some targets ∧ run (i + 1) ∈ targets) :
    m.Path run := by
  refine ⟨?_, fun i => ?_⟩
  · simp only [behaviour] at hstart
    split at hstart
    · rename_i hvalid
      rw [← Option.some.inj hstart]
      exact satisfiesAll_eq_ok_true.1 hvalid
    · cases hstart
  · obtain ⟨targets, htargets, hmem⟩ := hstep i
    obtain ⟨next, hnext, rfl⟩ := next?_behaviour htargets
    cases next with
    | nil => exact .inr ⟨hnext, by simpa using hmem⟩
    | cons s next => exact .inl ((mem_successors? hnext).1 (by simpa using hmem))

/-- Without reduction a model does the same, but offers no ample sets. -/
theorem behaviour_unreduced (m : Model) (r : PropositionReader) {options' : ProgramOptions}
    (hslicing : options'.slicing = options.slicing) (hvisible : options'.visible = options.visible)
    (hreduction : options'.partialOrderReduction = false) :
    (m.configured options').behaviour r =
      { (m.configured options).behaviour r with ample := fun _ => some none } := by
  have hkept : (m.configured options').preparation.active =
      (m.configured options).preparation.active := by
    simp only [configured, prepared, hslicing, hvisible]
    rfl
  have hactive : (m.configured options').active = (m.configured options).active := by
    rw [active, active, hkept]
    rfl
  have hsuccessors : ∀ s, (m.configured options').successors? s =
      (m.configured options).successors? s :=
    fun s => successors?_congr rfl rfl hactive
  have hnone : (m.configured options').preparation.options.partialOrderReduction = false :=
    hreduction
  simp only [behaviour, hsuccessors, hnone]
  rfl

end Model

end TemporalCheck
