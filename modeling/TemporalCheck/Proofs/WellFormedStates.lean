import TemporalCheck.Proofs.SlicedSteps

namespace TemporalCheck

def FailsWith {α : Type} (kind : Fault → Prop) (x : Except Fault α) : Prop :=
  ∀ e, x = .error e → kind e

namespace FailsWith

variable {ε α β : Type} {kind kind' : Fault → Prop} {x : Except Fault α}

theorem ok (a : α) : FailsWith kind (.ok a) := by
  rintro e ⟨⟩

theorem bind {f : α → Except Fault β} (hx : FailsWith kind x)
    (hf : ∀ a, x = .ok a → FailsWith kind (f a)) : FailsWith kind (x >>= f) := by
  cases x with
  | error e =>
      rintro _ ⟨⟩
      exact hx e rfl
  | ok a => exact hf a rfl

theorem mapError {y : Except ε α} {f : ε → Fault} (h : ∀ e, kind (f e)) :
    FailsWith kind (y.mapError f) := by
  cases y with
  | error e =>
      rintro _ ⟨⟩
      exact h e
  | ok a => exact ok a

theorem mono (hx : FailsWith kind x) (h : ∀ e, kind e → kind' e) : FailsWith kind' x :=
  fun e he => h e (hx e he)

end FailsWith

def Fault.OfStep (e : Fault) : Prop := ∃ reason, e = .error (.programStep reason)

/-- The failure of a step, or of a look beyond the end of a state that is too short. -/
def Fault.OfShort (n k : Nat) (e : Fault) : Prop :=
  e.OfStep ∨ n < k ∧ e = .crash (some "no such variable")

namespace Transition

variable {t : Transition} {vars : List Variable} {s u u' : ModelState} {a : Action}
  {i : Nat} {v : Variable} {x : Value} {xs : List Value} {next : List ModelState}

theorem target_eq_ok (h : t.target vars a = .ok (i, v)) : vars[i]? = some v := by
  rw [target] at h
  split at h
  · rename_i r hr
    simp only [Option.bind_eq_some_iff, Option.map_eq_some_iff] at hr
    obtain ⟨j, -, w, hw, rfl⟩ := hr
    cases h
    exact hw
  · cases h

theorem mem_domain_of_values (h : t.values s v a = .ok xs) (hx : x ∈ xs) : x ∈ v.domain := by
  obtain ⟨ys, -, h⟩ := except_bind_eq_ok.1 h
  split at h
  · rename_i hnone
    cases h
    simpa using List.find?_eq_none.1 hnone x hx
  · cases h

theorem isEnabled_fails (t : Transition) (s : ModelState) :
    FailsWith Fault.OfStep (t.isEnabled s) :=
  .mapError fun _ => ⟨_, rfl⟩

theorem target_fails (t : Transition) (vars : List Variable) (a : Action) :
    FailsWith Fault.OfStep (t.target vars a) := by
  rw [target]
  split
  · exact .ok _
  · rintro _ ⟨⟩
    exact ⟨_, rfl⟩

theorem values_fails (t : Transition) (s : ModelState) (v : Variable) (a : Action) :
    FailsWith Fault.OfStep (t.values s v a) := by
  refine .bind (.mapError fun _ => ⟨_, rfl⟩) fun xs _ => ?_
  split
  · exact .ok _
  · rintro _ ⟨⟩
    exact ⟨_, rfl⟩

theorem setValue_fails (hi : i < vars.length) (x : Value) :
    FailsWith (Fault.OfShort u.length vars.length) (setValue u i x) := by
  rw [setValue]
  split
  · exact .ok _
  · rintro _ ⟨⟩
    exact .inr ⟨by omega, rfl⟩

theorem mapM_setValue_fails (hi : i < vars.length) (xs : List Value) :
    FailsWith (Fault.OfShort u.length vars.length) (xs.mapM (setValue u i)) := by
  induction xs with
  | nil => exact .ok []
  | cons x xs ih =>
      rw [List.mapM_cons]
      exact .bind (setValue_fails hi x) fun _ _ => .bind ih fun _ _ => .ok _

theorem combine_fails (hi : i < vars.length) (hnext : ∀ u ∈ next, u.length = s.length) :
    FailsWith (Fault.OfShort s.length vars.length) (combine i xs next) := by
  induction next with
  | nil => exact .ok []
  | cons u next ih =>
      rw [List.forall_mem_cons] at hnext
      exact .bind (hnext.1 ▸ mapM_setValue_fails hi xs) fun _ _ => .bind (ih hnext.2) fun _ _ =>
        .ok _

theorem fireActions_fails (as : List Action) (hnext : ∀ u ∈ next, u.length = s.length) :
    FailsWith (Fault.OfShort s.length vars.length) (t.fireActions s vars as next) := by
  induction as generalizing next with
  | nil => exact .ok next
  | cons a as ih =>
      rw [fireActions]
      refine .bind ((t.target_fails vars a).mono fun _ => .inl) fun r hr => ?_
      refine .bind ((t.values_fails s r.2 a).mono fun _ => .inl) fun xs _ => ?_
      have hi : r.1 < vars.length := (List.getElem?_eq_some_iff.1 (target_eq_ok hr)).1
      refine .bind (combine_fails hi hnext) fun mid hmid => ih fun u hu => ?_
      obtain ⟨w, hw, x, -, rfl⟩ := (mem_combine hmid).1 hu
      rw [List.length_set, hnext w hw]

theorem fire_fails (t : Transition) (s : ModelState) (vars : List Variable) :
    FailsWith (Fault.OfShort s.length vars.length) (t.fire s vars) :=
  fireActions_fails t.actions (by simp)

/-- One value for every variable, from its domain or the initial one. -/
def Typed (vars : List Variable) (s : ModelState) : Prop :=
  List.Forall₂ (fun v x => x = v.initial ∨ x ∈ v.domain) vars s

theorem Typed.set (h : Typed vars s) (hv : vars[i]? = some v) (hx : x ∈ v.domain) :
    Typed vars (s.set i x) := by
  unfold Typed at h ⊢
  induction h generalizing i with
  | nil => exact .nil
  | cons hhead htail ih =>
      cases i with
      | zero =>
          obtain rfl := Option.some.inj hv
          exact .cons (.inr hx) htail
      | succ i => exact .cons hhead (ih hv)

theorem Typed.updates {as : List Action} (h : Typed vars u) (hupdates : t.Updates vars s as u u') :
    Typed vars u' := by
  induction as generalizing u with
  | nil => exact hupdates ▸ h
  | cons a as ih =>
      obtain ⟨i, v, xs, x, htarget, hvalues, hx, hrest⟩ := hupdates
      exact ih (h.set (target_eq_ok htarget) (mem_domain_of_values hvalues hx)) hrest

end Transition

namespace Model

variable {m : Model} {l : Logged Model} {s s' : ModelState} {ts : List (Transition × Nat)}
  {next found all known : List ModelState} {options : ProgramOptions}

theorem satisfiesAll_fails (s : ModelState) (is : List NamedPredicate) :
    FailsWith Fault.OfStep (satisfiesAll s is) := by
  induction is with
  | nil => exact .ok true
  | cons i is ih =>
      refine .bind (.mapError fun _ => ⟨_, rfl⟩) fun b _ => ?_
      split
      · exact ih
      · exact .ok false

theorem initial?_fails (m : Model) : FailsWith Fault.OfStep m.initial? := by
  refine .bind (satisfiesAll_fails _ _) fun b _ => ?_
  split
  · exact .ok _
  · rintro _ ⟨⟩
    exact ⟨_, rfl⟩

theorem enabledAmong_fails (s : ModelState) (ts : List (Transition × Nat)) :
    FailsWith Fault.OfStep (enabledAmong s ts) := by
  induction ts with
  | nil => exact .ok []
  | cons p ts ih => exact .bind (p.1.isEnabled_fails s) fun _ _ => .bind ih fun _ _ => .ok _

theorem collect_fails (is : List NamedPredicate) (next found : List ModelState) :
    FailsWith Fault.OfStep (collect is next found) := by
  induction next generalizing found with
  | nil => exact .ok found
  | cons s next ih =>
      rw [collect]
      split
      · exact ih found
      · exact .bind (satisfiesAll_fails s is) fun _ _ => ih _

theorem fireInto_fails (m : Model) (s : ModelState) (ts : List (Transition × Nat))
    (found : List ModelState) :
    FailsWith (Fault.OfShort s.length m.vars.length) (m.fireInto s ts found) := by
  induction ts generalizing found with
  | nil => exact .ok found
  | cons p ts ih =>
      refine .bind (p.1.fire_fails s m.vars) fun produced _ => ?_
      exact .bind ((collect_fails _ _ _).mono fun _ => .inl) fun _ _ => ih _

theorem successors?_fails (m : Model) (s : ModelState) :
    FailsWith (Fault.OfShort s.length m.vars.length) (m.successors? s) :=
  .bind ((enabledAmong_fails s m.active).mono fun _ => .inl) fun _ _ => m.fireInto_fails s _ []

theorem ample?_fails (m : Model) (s : ModelState) :
    FailsWith (Fault.OfShort s.length m.vars.length) (m.ample? s) := by
  rw [ample?]
  split
  · refine .bind (.bind ((enabledAmong_fails s m.active).mono fun _ => .inl) fun _ _ => .ok _)
      fun found _ => ?_
    split
    · exact .ok none
    · exact .bind (m.fireInto_fails s _ []) fun _ _ => .ok _
  · exact .ok none

theorem successors?_nodup (h : m.successors? s = .ok next) : next.Nodup := by
  obtain ⟨ts, -, h⟩ := except_bind_eq_ok.1 h
  exact nodup_fireInto List.nodup_nil h

/-- An active transition that is enabled in `s` produces `s'`. -/
def Produces (m : Model) (s s' : ModelState) : Prop :=
  ∃ t ∈ m.activeTransitions, t.isEnabled s = .ok true ∧ ∃ produced, t.fire s m.vars = .ok produced ∧
    s' ∈ produced

theorem mem_successors?_iff (h : m.successors? s = .ok next) :
    s' ∈ next ↔ m.Produces s s' ∧ m.Valid s' := by
  have hanswers := exists_successors?_iff.1 ⟨next, h⟩
  rw [mem_successors? h]
  constructor
  · rintro ⟨t, ⟨n, hactive⟩, henabled, hupdates, hvalid⟩
    obtain ⟨produced, hfire⟩ := hanswers.actions (t, n) hactive henabled
    exact ⟨⟨t, mem_activeTransitions.2 ⟨n, hactive⟩, henabled, produced, hfire,
      (Transition.mem_fire hfire).2 hupdates⟩, hvalid⟩
  · rintro ⟨⟨t, hactive, henabled, produced, hfire, hs'⟩, hvalid⟩
    exact ⟨t, mem_activeTransitions.1 hactive, henabled, (Transition.mem_fire hfire).1 hs', hvalid⟩

theorem lt_length_of_mem_cone {vars : OrderedSet String} {i : Nat}
    (h : i ∈ m.coneOfInfluence vars) : i < m.transitions.length := by
  obtain ⟨_, -, hsupported, -⟩ := coneLoop_spec (n := m.transitions.length + 1)
    (m.supported_empty (m.watched vars)) (by omega)
  obtain ⟨t, ht, -⟩ := hsupported i h
  exact (List.getElem?_eq_some_iff.1 ht).1

/-- What is promised of a state: it is typed, satisfies the invariants, and every transition can be
fired in it without a look beyond its end. -/
structure WellFormed (m : Model) (s : ModelState) : Prop where
  typed : Transition.Typed m.vars s
  valid : m.Valid s
  inRange (t : Transition) (text : Option String) : t.fire s m.vars ≠ .error (.crash text)

theorem wellFormed_of_typed (htyped : Transition.Typed m.vars s) (hvalid : m.Valid s) :
    m.WellFormed s := by
  refine ⟨htyped, hvalid, fun t text hcrash => ?_⟩
  rcases t.fire_fails s m.vars _ hcrash with ⟨reason, hreason⟩ | ⟨hshort, -⟩
  · cases hreason
  · exact absurd htyped.length_eq (Nat.ne_of_gt hshort)

/-- The states that a model has shown, from one that is not ready or from one that has just been set
up. Only such states are asked about, the model may be set up anew at any time, and a failed answer
shows nothing. -/
inductive Shown : Logged Model → List ModelState → Prop
  | unready {l : Logged Model} (h : l.state.preparation.ready = false) : Shown l []
  | fresh (options : ProgramOptions) (l : Logged Model) : Shown ((configure options).leaves l) []
  | configure {l : Logged Model} {known : List ModelState} (options : ProgramOptions)
      (h : Shown l known) : Shown ((configure options).leaves l) known
  | initial {l : Logged Model} {known : List ModelState} (h : Shown l known) :
      Shown (initial.leaves l) ((initial.answer l).toOption.toList ++ known)
  | successors {l : Logged Model} {known : List ModelState} {s : ModelState} (h : Shown l known)
      (hs : s ∈ known) :
      Shown ((successors s).leaves l) (((successors s).answer l).toOption.getD [] ++ known)
  | ample {l : Logged Model} {known : List ModelState} {s : ModelState} (h : Shown l known)
      (hs : s ∈ known) :
      Shown ((ample s).leaves l) (((ample s).answer l).toOption.join.getD [] ++ known)

structure Ready (m : Model) : Prop where
  ready : m.preparation.ready = true
  invariants : m.invariants.map (·.resolve m.place) = m.invariants
  active : ∀ i ∈ m.preparation.active, i < m.transitions.length

theorem ready_configured (m : Model) (options : ProgramOptions) : (m.configured options).Ready where
  ready := rfl
  invariants := by
    have hplace : (m.configured options).place = m.place := rfl
    rw [hplace, configured_eq]
    simp only [List.map_map, Function.comp_def, NamedPredicate.resolve_resolve]
  active := by
    intro i hi
    rw [configured_eq] at hi ⊢
    rw [List.length_map]
    dsimp only at hi
    split at hi
    · exact lt_length_of_mem_cone hi
    · exact List.mem_range.1 hi

theorem vars_current (m : Model) : m.current.vars = m.vars := by
  rw [current]
  split <;> rfl

structure Upholds (m : Model) (known : List ModelState) : Prop where
  ready : m.preparation.ready = true → m.Ready
  started : known ≠ [] → m.preparation.ready = true
  typed : ∀ s ∈ known, Transition.Typed m.vars s
  valid : ∀ s ∈ known, m.Valid s

theorem upholds_nil (h : m.preparation.ready = true → m.Ready) : m.Upholds [] :=
  ⟨h, fun hnil => absurd rfl hnil, by simp, by simp⟩

namespace Upholds

theorem ready_current (h : m.Upholds known) : m.current.Ready := by
  rw [current]
  split
  · rename_i hready
    exact h.ready hready
  · have hready := ready_configured m m.preparation.options
    exact ⟨hready.ready, hready.invariants, hready.active⟩

theorem configure (h : m.Upholds known) (options : ProgramOptions) :
    (m.configured options).Upholds known where
  ready _ := ready_configured m options
  started _ := rfl
  typed := h.typed
  valid := by
    intro s hs
    have hready := h.ready (h.started (List.ne_nil_of_mem hs))
    have hsame : (m.configured options).invariants = m.invariants := hready.invariants
    rw [Valid, hsame]
    exact h.valid s hs

theorem query (h : m.Upholds known)
    (hshown : ∀ s ∈ next, Transition.Typed m.vars s ∧ m.current.Valid s) :
    m.current.Upholds (next ++ known) where
  ready _ := h.ready_current
  started _ := h.ready_current.ready
  typed := by
    rw [vars_current, List.forall_mem_append]
    exact ⟨fun s hs => (hshown s hs).1, h.typed⟩
  valid := by
    refine List.forall_mem_append.2 ⟨fun s hs => (hshown s hs).2, fun s hs => ?_⟩
    rw [current, if_pos (h.started (List.ne_nil_of_mem hs))]
    exact h.valid s hs

theorem moves {t : Transition} (h : m.Upholds known) (hs : s ∈ known)
    (hmoves : m.current.Moves t s s') : Transition.Typed m.vars s' ∧ m.current.Valid s' :=
  ⟨(h.typed s hs).updates (m.vars_current ▸ hmoves.updates), hmoves.valid⟩

end Upholds

theorem initial?_eq_ok (h : m.initial? = .ok s) : Transition.Typed m.vars s ∧ m.Valid s := by
  obtain ⟨b, hb, h⟩ := except_bind_eq_ok.1 h
  cases b with
  | false => cases h
  | true =>
      cases h
      refine ⟨?_, satisfiesAll_eq_ok_true.1 hb⟩
      rw [Transition.Typed, initialState, List.forall₂_map_right_iff]
      exact List.forall₂_same.2 fun v _ => .inl rfl

theorem exists_moves_of_ample? (h : m.ample? s = .ok (some next)) (hs' : s' ∈ next) :
    ∃ t, m.Moves t s s' := by
  rw [ample?] at h
  split at h
  · obtain ⟨ts, agent, -, -, hmem⟩ := ampleStates_eq_ok h
    obtain ⟨t, -, hmoves⟩ := (hmem s').1 hs'
    exact ⟨t, hmoves⟩
  · cases h

theorem Shown.upholds (h : Shown l known) : l.state.Upholds known := by
  induction h with
  | unready h =>
      refine upholds_nil fun hready => ?_
      rw [h] at hready
      cases hready
  | fresh options l =>
      rw [leaves_configure]
      exact upholds_nil fun _ => ready_configured _ options
  | configure options h ih =>
      rw [leaves_configure]
      exact ih.configure options
  | @initial l known h ih =>
      rw [initial_eq_query, leaves_query, answer_query]
      refine ih.query fun s hs => ?_
      have hinitial := initial?_eq_ok (except_toOption_eq_some.1 (Option.mem_toList.1 hs))
      exact l.state.vars_current ▸ hinitial
  | @successors l known s h hs ih =>
      rw [successors_eq_query, leaves_query, answer_query]
      refine ih.query fun s' hs' => ?_
      cases hnext : l.state.current.successors? s with
      | error e =>
          rw [hnext] at hs'
          cases hs'
      | ok next =>
          rw [hnext] at hs'
          obtain ⟨t, hmoves⟩ := (mem_successors? hnext).1 hs'
          exact ih.moves hs hmoves
  | @ample l known s h hs ih =>
      rw [ample_eq_query, leaves_query, answer_query]
      refine ih.query fun s' hs' => ?_
      cases hnext : (l.state.current.ample? s).toOption.join with
      | none =>
          rw [hnext] at hs'
          cases hs'
      | some next =>
          rw [hnext] at hs'
          have hsome := except_toOption_eq_some.1 (Option.join_eq_some_iff.1 hnext)
          obtain ⟨t, hmoves⟩ := exists_moves_of_ample? hsome hs'
          exact ih.moves hs hmoves

/-- Every state that a model shows is well formed, what its successors are said to be is exactly
what the enabled transitions produce, and where it gives no answer a step has failed. -/
theorem shown_wellFormed (h : Shown l known) :
    (∀ s ∈ known, l.state.WellFormed s) ∧
    (∀ i ∈ l.state.current.preparation.active, i < l.state.current.transitions.length) ∧
    (∀ s next, (successors s).answer l = .ok next → next.Nodup ∧
      ∀ s', s' ∈ next ↔ l.state.current.Produces s s' ∧ l.state.current.Valid s') ∧
    (∀ e, initial.answer l = .error e → e.OfStep) ∧
    ∀ s e, (successors s).answer l = .error e ∨ (ample s).answer l = .error e →
      e.OfStep ∨ s ∉ known ∧ s.length < l.state.vars.length ∧
      e = .crash (some "no such variable") := by
  have hupholds := h.upholds
  refine ⟨fun s hs => wellFormed_of_typed (hupholds.typed s hs) (hupholds.valid s hs),
    hupholds.ready_current.active,
    fun s next hnext => ?_, fun e he => ?_, fun s e he => ?_⟩
  · rw [successors_eq_query, answer_query] at hnext
    exact ⟨successors?_nodup hnext, fun s' => mem_successors?_iff hnext⟩
  · rw [initial_eq_query, answer_query] at he
    exact initial?_fails _ e he
  · rw [successors_eq_query, ample_eq_query, answer_query, answer_query] at he
    have hfails : e.OfShort s.length l.state.vars.length := by
      rw [← vars_current]
      exact he.elim (successors?_fails _ s e) (ample?_fails _ s e)
    refine hfails.imp_right fun hshort => ⟨fun hs => ?_, hshort⟩
    exact absurd (hupholds.typed s hs).length_eq (Nat.ne_of_gt hshort.1)

def tank : Model where
  name := "tank"
  vars := [⟨"level", [.int 1, .int 2], .int 0⟩, ⟨"hatch", [.bool false, .bool true], .bool true⟩]
  transitions :=
    [⟨"fill", "pump", .internal, .eq (.var "level" (some 7)) (.value (.int 0)),
      [.assign "level" (.int 1)]⟩, ⟨"flood", "pump", .internal, .top, [.assign "level" (.int 2)]⟩,
      ⟨"sway", "wind", .internal, .top, [{ var := "hatch", value := .any }]⟩]
  invariants := [⟨"brim", .ne (.var "level" none) (.value (.int 2))⟩]

def tankAsked : Logged Model :=
  (successors tank.initialState).leaves
    (initial.leaves ((configure { partialOrderReduction := true }).leaves ⟨tank, []⟩))

def tankStates : List ModelState :=
  [[.int 1, .bool true], [.int 0, .bool false], [.int 0, .bool true], [.int 0, .bool true]]

theorem tank_shown_wellFormed :
    Shown tankAsked tankStates ∧ (∀ s ∈ tankStates, tankAsked.state.WellFormed s) ∧
    (successors [.int 1, .bool true]).answer tankAsked =
      .ok [[.int 1, .bool false], [.int 1, .bool true]] ∧
    ∀ s', s' ∈ [[.int 1, .bool false], [.int 1, .bool true]] ↔
      tankAsked.state.current.Produces [.int 1, .bool true] s' ∧
      tankAsked.state.current.Valid s' := by
  have hstart := Shown.initial (.fresh { partialOrderReduction := true } ⟨tank, []⟩)
  have hknown : tank.initialState ∈
      (initial.answer ((configure { partialOrderReduction := true }).leaves
        ⟨tank, []⟩)).toOption.toList ++ [] := by
    decide +kernel
  have hshown : Shown tankAsked tankStates := hstart.successors hknown
  have hanswer : (successors [.int 1, .bool true]).answer tankAsked =
      .ok [[.int 1, .bool false], [.int 1, .bool true]] :=
    except_toOption_eq_some.1 (by decide +kernel)
  obtain ⟨hstates, -, hexact, -⟩ := shown_wellFormed hshown
  exact ⟨hshown, hstates, hanswer, (hexact _ _ hanswer).2⟩

end Model

end TemporalCheck
