import TemporalCheck.Proofs.Cone
import TemporalCheck.Proofs.Preparation

namespace TemporalCheck

namespace Transition

variable {t : Transition} {vars : List Variable} {s u : ModelState} {i : Nat} {xs : List Value}
  {next next' found : List ModelState}

theorem exists_mapM_setValue (hlength : s.length = u.length)
    (h : xs.mapM (setValue s i) = .ok found) :
    ∃ found', xs.mapM (setValue u i) = .ok found' ∧
      found.map List.length = found'.map List.length := by
  induction xs generalizing found with
  | nil =>
      obtain rfl : [] = found := by simpa [pure, Except.pure] using h
      exact ⟨[], rfl, rfl⟩
  | cons x xs ih =>
      simp only [List.mapM_cons, except_bind_eq_ok, setValue_eq_ok] at h ⊢
      obtain ⟨_, ⟨hi, rfl⟩, rest, hrest, hfound⟩ := h
      obtain rfl : s.set i x :: rest = found := by simpa [pure, Except.pure] using hfound
      obtain ⟨rest', hrest', hlengths⟩ := ih hrest
      exact ⟨_, ⟨_, ⟨hlength ▸ hi, rfl⟩, rest', hrest', rfl⟩, by simp [hlength, hlengths]⟩

theorem exists_combine (hlengths : next.map List.length = next'.map List.length)
    (h : combine i xs next = .ok found) :
    ∃ found', combine i xs next' = .ok found' ∧ found.map List.length = found'.map List.length := by
  induction next generalizing next' found with
  | nil =>
      obtain rfl : [] = found := by simpa [combine] using h
      obtain rfl : next' = [] := by simpa using hlengths.symm
      exact ⟨[], rfl, rfl⟩
  | cons s next ih =>
      cases next' with
      | nil => cases hlengths
      | cons u next' =>
          simp only [List.map_cons, List.cons.injEq] at hlengths
          simp only [combine, except_bind_eq_ok, Except.ok.injEq] at h ⊢
          obtain ⟨here, hhere, there, hthere, rfl⟩ := h
          obtain ⟨here', hhere', hlengths₁⟩ := exists_mapM_setValue hlengths.1 hhere
          obtain ⟨there', hthere', hlengths₂⟩ := ih hlengths.2 hthere
          exact ⟨_, ⟨here', hhere', there', hthere', rfl⟩, by simp [hlengths₁, hlengths₂]⟩

theorem exists_fireActions {as : List Action}
    (hvalues : ∀ a ∈ as, ∀ v, t.values s v a = t.values u v a)
    (hlengths : next.map List.length = next'.map List.length)
    (h : t.fireActions s vars as next = .ok found) :
    ∃ found', t.fireActions u vars as next' = .ok found' := by
  induction as generalizing next next' with
  | nil => exact ⟨next', rfl⟩
  | cons a as ih =>
      rw [List.forall_mem_cons] at hvalues
      simp only [fireActions, except_bind_eq_ok] at h ⊢
      obtain ⟨⟨i, v⟩, htarget, xs, hxs, mid, hmid, hrest⟩ := h
      obtain ⟨mid', hmid', hlengths'⟩ := exists_combine hlengths hmid
      obtain ⟨found', hfound'⟩ := ih hvalues.2 hlengths' hrest
      exact ⟨found', ⟨i, v⟩, htarget, xs, hvalues.1 v ▸ hxs, mid', hmid', hfound'⟩

/-- Whether a transition can be fired depends on the values that its actions assign only. -/
theorem exists_fire (hvalues : ∀ a ∈ t.actions, ∀ v, t.values s v a = t.values u v a)
    (hlength : s.length = u.length) (h : t.fire s vars = .ok next) :
    ∃ next', t.fire u vars = .ok next' :=
  exists_fireActions hvalues (by simp [hlength]) h

end Transition

namespace Model

variable {m : Model} {options : ProgramOptions} {observed visible : OrderedSet String}
  {s u : ModelState} {next found : List ModelState} {ts : List (Transition × Nat)}

def Judges (m : Model) (s : ModelState) : Prop := ∃ b, satisfiesAll s m.invariants = .ok b

theorem exists_enabledAmong_iff : (∃ ts', enabledAmong s ts = .ok ts') ↔
    ∀ p ∈ ts, ∃ b, p.1.isEnabled s = .ok b := by
  induction ts with
  | nil => simp [enabledAmong]
  | cons p ts ih =>
      simp only [enabledAmong, except_bind_eq_ok, Except.ok.injEq, List.forall_mem_cons, ← ih]
      constructor
      · rintro ⟨_, b, hb, others, hothers, rfl⟩
        exact ⟨⟨b, hb⟩, others, hothers⟩
      · rintro ⟨⟨b, hb⟩, others, hothers⟩
        exact ⟨_, b, hb, others, hothers, rfl⟩

theorem Valid.judges (h : m.Valid s) : m.Judges s := ⟨true, satisfiesAll_eq_ok_true.2 h⟩

/-- States that were found before are not judged again. -/
theorem exists_collect_iff (hfound : ∀ s ∈ found, m.Judges s) :
    (∃ all, collect m.invariants next found = .ok all) ↔ ∀ s ∈ next, m.Judges s := by
  induction next generalizing found with
  | nil => simp [collect]
  | cons u next ih =>
      rw [List.forall_mem_cons, collect]
      by_cases hu : u ∈ found
      · rw [if_pos hu, ih hfound, and_iff_right (hfound u hu)]
      · simp only [if_neg hu, except_bind_eq_ok]
        have hmore (b : Bool) (hb : satisfiesAll u m.invariants = .ok b) :
            ∀ s ∈ (if b then found ++ [u] else found), m.Judges s := by
          cases b with
          | false => exact hfound
          | true =>
              intro s hs
              rcases List.mem_append.1 hs with hs | hs
              · exact hfound s hs
              · exact ⟨true, List.mem_singleton.1 hs ▸ hb⟩
        constructor
        · rintro ⟨all, b, hb, hall⟩
          exact ⟨⟨b, hb⟩, (ih (hmore b hb)).1 ⟨all, hall⟩⟩
        · rintro ⟨⟨b, hb⟩, hnext⟩
          obtain ⟨all, hall⟩ := (ih (hmore b hb)).2 hnext
          exact ⟨all, b, hb, hall⟩

theorem exists_fireInto_iff (hfound : ∀ s ∈ found, m.Judges s) :
    (∃ all, m.fireInto s ts found = .ok all) ↔
    ∀ p ∈ ts, ∃ next, p.1.fire s m.vars = .ok next ∧ ∀ s' ∈ next, m.Judges s' := by
  induction ts generalizing found with
  | nil => simp [fireInto]
  | cons p ts ih =>
      have hmore {mid next : List ModelState} (hmid : collect m.invariants next found = .ok mid) :
          ∀ s ∈ mid, m.Judges s := by
        intro s hs
        rcases (mem_collect hmid).1 hs with hs | ⟨-, hvalid⟩
        · exact hfound s hs
        · exact hvalid.judges
      simp only [fireInto, except_bind_eq_ok, List.forall_mem_cons]
      constructor
      · rintro ⟨all, next, hnext, mid, hmid, hall⟩
        exact ⟨⟨next, hnext, (exists_collect_iff hfound).1 ⟨mid, hmid⟩⟩,
          (ih (hmore hmid)).1 ⟨all, hall⟩⟩
      · rintro ⟨⟨next, hnext, hjudges⟩, hrest⟩
        obtain ⟨mid, hmid⟩ := (exists_collect_iff hfound).2 hjudges
        obtain ⟨all, hall⟩ := (ih (hmore hmid)).2 hrest
        exact ⟨all, next, hnext, mid, hmid, hall⟩

/-- Nothing that a model needs to answer in the state fails. -/
structure Answers (m : Model) (s : ModelState) : Prop where
  guards : ∀ p ∈ m.active, ∃ b, p.1.isEnabled s = .ok b
  actions : ∀ p ∈ m.active, p.1.isEnabled s = .ok true → ∃ next, p.1.fire s m.vars = .ok next
  invariants : ∀ p ∈ m.active, p.1.isEnabled s = .ok true →
    ∀ s', p.1.Updates m.vars s p.1.actions s s' → m.Judges s'

theorem exists_successors?_iff : (∃ next, m.successors? s = .ok next) ↔ m.Answers s := by
  simp only [successors?, except_bind_eq_ok, fireAll]
  constructor
  · rintro ⟨next, ts, hts, hnext⟩
    have hfire := (exists_fireInto_iff (by simp)).1 ⟨next, hnext⟩
    have hmem {p : Transition × Nat} (hp : p ∈ m.active) (henabled : p.1.isEnabled s = .ok true) :
        p ∈ ts :=
      (mem_enabled hts).2 ⟨hp, henabled⟩
    refine ⟨exists_enabledAmong_iff.1 ⟨ts, hts⟩, fun p hp henabled => ?_,
      fun p hp henabled s' hs' => ?_⟩
    · obtain ⟨next, hnext, -⟩ := hfire p (hmem hp henabled)
      exact ⟨next, hnext⟩
    · obtain ⟨next, hnext, hjudges⟩ := hfire p (hmem hp henabled)
      exact hjudges s' ((Transition.mem_fire hnext).2 hs')
  · intro h
    obtain ⟨ts, hts⟩ := exists_enabledAmong_iff.2 h.guards
    have hfire : ∀ p ∈ ts, ∃ next, p.1.fire s m.vars = .ok next ∧ ∀ s' ∈ next, m.Judges s' := by
      intro p hp
      obtain ⟨hactive, henabled⟩ := (mem_enabledAmong hts).1 hp
      obtain ⟨next, hnext⟩ := h.actions p hactive henabled
      exact ⟨next, hnext, fun s' hs' => h.invariants p hactive henabled s'
        ((Transition.mem_fire hnext).1 hs')⟩
    obtain ⟨next, hnext⟩ : ∃ next, m.fireInto s ts [] = .ok next :=
      (exists_fireInto_iff (by simp)).2 hfire
    exact ⟨next, ts, hts, hnext⟩

theorem satisfiesAll_congr {is : List NamedPredicate}
    (h : ∀ i ∈ is, i.predicate.eval s = i.predicate.eval u) :
    satisfiesAll s is = satisfiesAll u is := by
  induction is with
  | nil => rfl
  | cons i is ih =>
      rw [List.forall_mem_cons] at h
      rw [satisfiesAll, satisfiesAll, h.1, ih h.2]

/-- With the options the model computes these successors. -/
def Computes (m : Model) (options : ProgramOptions) (s : ModelState) (next : List ModelState) :
    Prop :=
  ∀ log, ∃ l, (configure options >>= fun _ => successors s) ⟨m, log⟩ = .ok next l

theorem computes_iff : m.Computes options s next ↔
    (m.configured options).successors? s = .ok next := by
  have hready : (m.configured options).preparation.ready = true := rfl
  constructor
  · intro h
    obtain ⟨l', h⟩ := h []
    obtain ⟨_, l, hconfigure, hsuccessors⟩ := Task.bind_eq_ok.1 h
    rw [← configure_eq_ok hconfigure] at hready ⊢
    exact ((successors_eq_ok hready).1 hsuccessors).1
  · intro h log
    obtain ⟨log', hconfigure⟩ := m.exists_configure options log
    exact ⟨_, Task.bind_eq_ok.2 ⟨(), _, hconfigure, (successors_eq_ok hready).2 ⟨h, rfl⟩⟩⟩

/-- The variables that decide the given propositions. -/
def observedVars (m : Model) (visible : OrderedSet String) : OrderedSet String :=
  .ofList (visible.toList.flatMap fun p => (m.reader.reads p).toList)

/-- The variables read by what is observed, by the invariants and by the transitions that slicing
keeps. -/
def relevantVars (m : Model) (options : ProgramOptions) (observed : OrderedSet String) :
    OrderedSet String :=
  .ofList (observed.toList ++ (m.invariants.flatMap fun i => i.predicate.support.toList) ++
    (m.configured { options with slicing := true }).activeTransitions.flatMap fun t =>
      t.reads.toList)

theorem mem_relevantVars {x : String} : x ∈ m.relevantVars options observed ↔
    x ∈ observed ∨ (∃ i ∈ m.invariants, x ∈ i.predicate.support) ∨
      ∃ t ∈ (m.configured { options with slicing := true }).activeTransitions, x ∈ t.reads := by
  simp only [relevantVars, OrderedSet.mem_ofList, List.mem_append, List.mem_flatMap, or_assoc]
  exact Iff.rfl

theorem mem_activeTransitions {t : Transition} :
    t ∈ m.activeTransitions ↔ ∃ n, (t, n) ∈ m.active := by
  simp only [activeTransitions, active, List.mem_filterMap, Option.map_eq_some_iff, Prod.mk.injEq]
  constructor
  · rintro ⟨n, hn, ht⟩
    exact ⟨n, n, hn, t, ht, rfl, rfl⟩
  · rintro ⟨_, n, hn, _, ht, rfl, -⟩
    exact ⟨n, hn, ht⟩

/-- On the given variables, the sliced model can follow the full one from every state that agrees: a
step of the full model does not show, or is matched by a step of the sliced model. -/
def Follows (m : Model) (options : ProgramOptions) (vars : OrderedSet String) : Prop :=
  ∀ s next u, m.Computes { options with slicing := false } s next → m.Agree vars s u →
    ∃ next', m.Computes { options with slicing := true } u next' ∧
      ∀ s' ∈ next, m.Agree vars s s' ∨ ∃ u' ∈ next', m.Agree vars s' u'

/-- What the kept transitions and the invariants read is all that matters to whether the sliced
model answers. -/
theorem Answers.slice {options' : ProgramOptions} {relevant : OrderedSet String}
    (h : (m.configured options').Answers s)
    (hactive : ∀ p ∈ (m.configured options).active, ∃ n, (p.1, n) ∈ (m.configured options').active)
    (hreads : ∀ p ∈ (m.configured options).active, ∀ x ∈ p.1.reads, x ∈ relevant)
    (hinvariants : ∀ i ∈ m.invariants, ∀ x ∈ i.predicate.support, x ∈ relevant)
    (hagree : m.Agree relevant s u) : (m.configured options).Answers u := by
  have hsame : ∀ p ∈ (m.configured options).active, p.1.isEnabled s = p.1.isEnabled u ∧
      ∀ a ∈ p.1.actions, ∀ v, p.1.values s v a = p.1.values u v a := by
    intro p hp
    have hres : p.1.Resolved m.place :=
      (resolved_configured m _).transitions p.1 (mem_transitions_of_active hp)
    have hlookup : ∀ x ∈ p.1.reads, TemporalCheck.lookup m.place s x =
        TemporalCheck.lookup m.place u x :=
      fun x hx => hagree.lookup x (hreads p hp x hx)
    exact ⟨hres.isEnabled_congr hlookup, fun a ha v => hres.values_congr hlookup ha v⟩
  constructor
  · intro p hp
    obtain ⟨n, hn⟩ := hactive p hp
    rw [← (hsame p hp).1]
    exact h.guards (p.1, n) hn
  · intro p hp henabled
    obtain ⟨n, hn⟩ := hactive p hp
    rw [← (hsame p hp).1] at henabled
    obtain ⟨next, hnext⟩ := h.actions (p.1, n) hn henabled
    exact Transition.exists_fire (hsame p hp).2 hagree.length hnext
  · intro p hp henabled u' hu'
    obtain ⟨n, hn⟩ := hactive p hp
    rw [← (hsame p hp).1] at henabled
    -- what a step from `u` leads to is judged like what the same step from `s` leads to
    obtain ⟨s', hs', hagree'⟩ := hagree.symm.updates hu' fun a ha v => ((hsame p hp).2 a ha v).symm
    obtain ⟨b, hb⟩ := h.invariants (p.1, n) hn henabled s' hs'
    refine ⟨b, ?_⟩
    rw [satisfiesAll_congr (hagree'.eval_invariant hinvariants)]
    exact hb

/-- What is read besides the variables looked at is relevant in any case, so fewer of these will
do. -/
theorem insulates_relevantVars (hobserved : ∀ x ∈ observed, x ∈ m.visibleVars options.visible) :
    m.Insulates (m.visibleVars options.visible) (m.relevantVars options observed) := by
  obtain ⟨relevant, hcone⟩ := m.exists_cone (m.visibleVars options.visible)
  have hkept : (m.configured { options with slicing := true }).preparation.active =
      m.coneOfInfluence (m.visibleVars options.visible) := active_sliced rfl
  have hsubset : ∀ x ∈ m.relevantVars options observed, x ∈ relevant := by
    intro x hx
    rcases mem_relevantVars.1 hx with hx | ⟨i, hi, hx⟩ | ⟨t, ht, hx⟩
    · exact hcone.visible x (hobserved x hx)
    · exact hcone.invariants i hi x hx
    · obtain ⟨n, hactive⟩ := mem_activeTransitions.1 ht
      obtain ⟨hn, t₀, ht₀, rfl⟩ := mem_active_configured.1 hactive
      rw [t₀.reads_resolve] at hx
      exact hcone.reads n (hkept ▸ hn) t₀ ht₀ x hx
  constructor
  · exact fun i hi x hx => mem_relevantVars.2 (.inr (.inl ⟨i, hi, hx⟩))
  · intro n hn t₀ ht₀ x hx
    have hactive := mem_active_configured.2 ⟨hkept ▸ hn, t₀, ht₀, rfl⟩
    refine mem_relevantVars.2 (.inr (.inr ⟨_, mem_activeTransitions.2 ⟨n, hactive⟩, ?_⟩))
    exact t₀.reads_resolve.symm ▸ hx
  · exact fun n t ht hn x hx hmem => hcone.modifies n t ht hn x hx (hsubset x hmem)

theorem exists_computes_sliced (hobserved : ∀ x ∈ observed, x ∈ m.visibleVars options.visible)
    (hnext : m.Computes { options with slicing := false } s next)
    (hagree : m.Agree (m.relevantVars options observed) s u) :
    ∃ next', m.Computes { options with slicing := true } u next' := by
  simp only [computes_iff] at hnext ⊢
  have hinvariants := (insulates_relevantVars hobserved).invariants
  refine exists_successors?_iff.2
    ((exists_successors?_iff.1 ⟨next, hnext⟩).slice ?_ ?_ hinvariants hagree)
  · intro p hp
    obtain ⟨-, t₀, ht₀, heq⟩ := mem_active_configured.1 hp
    exact heq ▸ exists_mem_active rfl (List.mem_of_getElem? ht₀)
  · exact fun p hp x hx => mem_relevantVars.2
      (.inr (.inr ⟨p.1, mem_activeTransitions.2 ⟨p.2, hp⟩, hx⟩))

theorem follows_relevantVars (hobserved : ∀ x ∈ observed, x ∈ m.visibleVars options.visible) :
    m.Follows options (m.relevantVars options observed) := by
  intro s next u hnext hagree
  obtain ⟨next', hnext'⟩ := exists_computes_sliced hobserved hnext hagree
  refine ⟨next', hnext', fun s' hs' => ?_⟩
  rw [computes_iff] at hnext hnext'
  obtain ⟨t, hmove⟩ := (mem_successors? hnext).1 hs'
  have hsliced : ({ options with slicing := true } : ProgramOptions).slicing = true := rfl
  rcases hmove.slice hsliced (insulates_relevantVars hobserved) hagree
    with hstill | ⟨u', hmove', hagree'⟩
  · exact .inl (hagree.trans hstill.symm)
  · exact .inr ⟨u', (mem_successors? hnext').2 ⟨t, hmove'⟩, hagree'⟩

theorem Sees.observedVars_subset (h : m.Sees visible) :
    ∀ x ∈ m.observedVars visible, x ∈ m.visibleVars visible := by
  intro x hx
  rw [observedVars, OrderedSet.mem_ofList, List.mem_flatMap] at hx
  obtain ⟨p, hp, hx⟩ := hx
  exact (h p hp).mem_visibleVars hp hx

theorem Moves.widen {t : Transition} {s' : ModelState} (h : (m.configured options).Moves t s s') :
    (m.configured { options with slicing := false }).Moves t s s' := by
  obtain ⟨n, hn⟩ := h.active
  obtain ⟨-, t₀, ht₀, rfl⟩ := mem_active_configured.1 hn
  exact ⟨exists_mem_active rfl (List.mem_of_getElem? ht₀), h.enabled, h.updates, h.valid⟩

/-- A sliced model takes steps of the full model only, and follows it on the variables read by the
visible propositions, the invariants and the transitions kept: on those that it looked at itself,
and on those that decide the propositions if it looked at these. -/
theorem sliced_follows (m : Model) (options : ProgramOptions) :
    (∀ s next, m.Computes { options with slicing := false } s next →
      ∃ next', m.Computes { options with slicing := true } s next' ∧ ∀ s' ∈ next', s' ∈ next) ∧
    m.Follows options (m.relevantVars options (m.visibleVars options.visible)) ∧
    (m.Sees options.visible →
      m.Follows options (m.relevantVars options (m.observedVars options.visible))) := by
  have hall : ∀ x ∈ m.visibleVars options.visible, x ∈ m.visibleVars options.visible :=
    fun _ hx => hx
  refine ⟨fun s next hnext => ?_, follows_relevantVars hall,
    fun hsees => follows_relevantVars hsees.observedVars_subset⟩
  obtain ⟨next', hnext'⟩ := exists_computes_sliced hall hnext (.refl m _ s)
  refine ⟨next', hnext', fun s' hs' => ?_⟩
  rw [computes_iff] at hnext hnext'
  obtain ⟨t, hmove⟩ := (mem_successors? hnext').1 hs'
  exact (mem_successors? hnext).2 ⟨t, hmove.widen⟩

def dial : Model where
  name := "dial"
  vars := [.boolean "lit" false, .integer "pos" 0 2 0, .boolean "flag" false]
  transitions :=
    [{ name := "turn", guard := .top, actions := [{ var := "pos", value := .any }] },
     { name := "light", guard := .eq (.named "pos") (.value (.int 1)),
       actions := [.assign "lit" (.bool true)] },
     { name := "wave", guard := .top, actions := [.assign "flag" (.bool true)] }]
  invariants := [⟨"low", .ne (.named "pos") (.value (.int 2))⟩]

/-- From a state with another flag, the sliced dial goes along with the steps that turn it or light
the lamp. -/
theorem dial_follows :
    dial.relevantVars { visible := .ofList ["lit"] } (dial.observedVars (.ofList ["lit"])) =
      .ofList ["lit", "pos"] ∧
    dial.Computes { visible := .ofList ["lit"], slicing := false }
      [.bool false, .int 1, .bool false]
      [[.bool false, .int 0, .bool false], [.bool false, .int 1, .bool false],
        [.bool true, .int 1, .bool false],
        [.bool false, .int 1, .bool true]] ∧
    ∃ next, dial.Computes { visible := .ofList ["lit"], slicing := true } [.bool false, .int 1,
      .bool true] next ∧
      ∃ u ∈ next, dial.Agree (.ofList ["lit", "pos"]) [.bool true, .int 1, .bool false] u := by
  have hvars : dial.relevantVars { visible := .ofList ["lit"] }
    (dial.observedVars (.ofList ["lit"])) =
      .ofList ["lit", "pos"] := by decide +kernel
  have hfull : dial.Computes { visible := .ofList ["lit"], slicing := false }
    [.bool false, .int 1, .bool false]
      [[.bool false, .int 0, .bool false], [.bool false, .int 1, .bool false],
        [.bool true, .int 1, .bool false], [.bool false, .int 1, .bool true]] :=
      computes_iff.2 (by decide +kernel)
  have hagree : dial.Agree (.ofList ["lit", "pos"]) [.bool false, .int 1, .bool false]
      [.bool false, .int 1, .bool true] :=
    ⟨rfl, by decide +kernel⟩
  obtain ⟨-, -, hobserved⟩ := sliced_follows dial { visible := .ofList ["lit"] }
  have hfollows := hobserved (by decide +kernel)
  simp only [hvars] at hfollows
  obtain ⟨next, hnext, hsteps⟩ := hfollows _ _ _ hfull hagree
  refine ⟨hvars, hfull, next, hnext, ?_⟩
  refine (hsteps [.bool true, .int 1, .bool false] (by simp)).resolve_left fun hstill => ?_
  have hlit := hstill.lookup "lit" (by decide +kernel)
  revert hlit
  decide +kernel

/-- `overshadowed` slices away the transition that decides `p`. -/
theorem overshadowed_not_follows : ¬ overshadowed.Follows { visible := .ofList ["p"] }
    (overshadowed.relevantVars { visible := .ofList ["p"] }
      (overshadowed.observedVars (.ofList ["p"]))) := by
  intro h
  have hfull : overshadowed.Computes { visible := .ofList ["p"], slicing := false }
    [.bool false, .bool false]
      [[.bool true, .bool false]] := computes_iff.2 (by decide +kernel)
  obtain ⟨next, hnext, hsteps⟩ := h _ _ _ hfull (.refl _ _ _)
  have hnone : (overshadowed.configured { visible := .ofList ["p"], slicing := true }).successors?
      [.bool false, .bool false] = .ok [] := by decide +kernel
  obtain rfl : [] = next := Except.ok.inj (hnone.symm.trans (computes_iff.1 hnext))
  rcases hsteps _ List.mem_cons_self with hagree | ⟨u', hu', -⟩
  · have hx := hagree.lookup "x" (by decide +kernel)
    revert hx
    decide +kernel
  · cases hu'

end Model

end TemporalCheck
