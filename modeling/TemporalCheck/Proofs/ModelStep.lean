import Mathlib.Data.List.Nodup
import TemporalCheck.Model.Basic
import TemporalCheck.Proofs.StateSpace

namespace TemporalCheck

def lookup (place : String → Option Nat) (s : ModelState) (name : String) : Option Value :=
  (place name).bind fun i => s[i]?

section Reading

variable {place place' : String → Option Nat} {s u : ModelState}

theorem Term.eval_congr {t : Term} (h : ∀ x ∈ t.support, lookup place s x = lookup place u x) :
    (t.resolve place).eval s = (t.resolve place).eval u := by
  cases t with
  | value v => rfl
  | var name index =>
      have hname := h name (by simp [support])
      simp only [lookup] at hname
      simp only [resolve, eval, hname]

theorem Term.resolve_resolve (t : Term) : (t.resolve place).resolve place' = t.resolve place' := by
  cases t <;> rfl

namespace Predicate

/-- Induction over conditions in which a member list gives the hypothesis for each member. -/
theorem structural {motive : Predicate → Prop}
    (conj : ∀ ps, (∀ p ∈ ps, motive p) → motive (.conj ps))
    (disj : ∀ ps, (∀ p ∈ ps, motive p) → motive (.disj ps)) (neg : ∀ p, motive p → motive (.neg p))
    (top : motive .top) (bot : motive .bot) (eq : ∀ x y, motive (.eq x y))
    (ne : ∀ x y, motive (.ne x y)) (p : Predicate) : motive p := by
  refine @Predicate.rec motive (fun ps => ∀ p ∈ ps, motive p) conj disj neg top bot eq ne ?_ ?_ p
  · simp
  · intro p ps hp hps
    simpa using ⟨hp, hps⟩

theorem resolveAll_eq_map (ps : List Predicate) : resolveAll place ps = ps.map (resolve place) := by
  induction ps with
  | nil => rfl
  | cons p ps ih => rw [resolveAll, ih, List.map_cons]

theorem mem_occurrencesAll {ps : List Predicate} {x : String} :
    x ∈ occurrencesAll ps ↔ ∃ p ∈ ps, x ∈ occurrences p := by
  induction ps with
  | nil => simp [occurrencesAll]
  | cons p ps ih => simp [occurrencesAll, ih]

theorem evalUntil_congr {decisive : Bool} {ps : List Predicate}
    (h : ∀ p ∈ ps, eval s p = eval u p) : evalUntil s decisive ps = evalUntil u decisive ps := by
  induction ps with
  | nil => rfl
  | cons p ps ih => rw [evalUntil, evalUntil, h p (by simp), ih fun p hp => h p (by simp [hp])]

theorem eval_congr {p : Predicate} (h : ∀ x ∈ p.support, lookup place s x = lookup place u x) :
    (p.resolve place).eval s = (p.resolve place).eval u := by
  simp only [support, OrderedSet.mem_ofList] at h
  induction p using structural with
  | conj ps ih =>
      rw [resolve, eval, eval, resolveAll_eq_map]
      refine evalUntil_congr (List.forall_mem_map.2 fun p hp => ?_)
      exact ih p hp fun x hx => h x (mem_occurrencesAll.2 ⟨p, hp, hx⟩)
  | disj ps ih =>
      rw [resolve, eval, eval, resolveAll_eq_map]
      refine evalUntil_congr (List.forall_mem_map.2 fun p hp => ?_)
      exact ih p hp fun x hx => h x (mem_occurrencesAll.2 ⟨p, hp, hx⟩)
  | neg p ih => rw [resolve, eval, eval, ih h]
  | top => rfl
  | bot => rfl
  | eq x y | ne x y =>
      simp only [occurrences, List.mem_append] at h
      have hx := Term.eval_congr fun z hz => h z (.inl hz)
      have hy := Term.eval_congr fun z hz => h z (.inr hz)
      rw [resolve, eval, eval, hx, hy]

theorem resolve_resolve (p : Predicate) : (p.resolve place).resolve place' = p.resolve place' := by
  have hall : ∀ ps : List Predicate,
      (∀ p ∈ ps, (p.resolve place).resolve place' = p.resolve place') →
      (ps.map (resolve place)).map (resolve place') = ps.map (resolve place') := by
    intro ps hps
    simpa using hps
  induction p using structural with
  | conj ps ih => simp only [resolve, resolveAll_eq_map, hall ps ih]
  | disj ps ih => simp only [resolve, resolveAll_eq_map, hall ps ih]
  | neg p ih => simp only [resolve, ih]
  | top => rfl
  | bot => rfl
  | eq x y | ne x y => simp only [resolve, Term.resolve_resolve]

theorem support_resolve (p : Predicate) : (p.resolve place).support = p.support := by
  have hterm : ∀ t : Term, (t.resolve place).support = t.support := by
    intro t
    cases t <;> rfl
  have hall : ∀ ps : List Predicate, (∀ p ∈ ps, (p.resolve place).occurrences = p.occurrences) →
      occurrencesAll (ps.map (resolve place)) = occurrencesAll ps := by
    intro ps hps
    induction ps with
    | nil => rfl
    | cons p ps ih =>
        rw [List.map_cons, occurrencesAll, occurrencesAll, hps p (by simp),
          ih fun p hp => hps p (by simp [hp])]
  suffices h : (p.resolve place).occurrences = p.occurrences by rw [support, support, h]
  induction p using structural with
  | conj ps ih | disj ps ih => rw [resolve, resolveAll_eq_map, occurrences, occurrences, hall ps ih]
  | neg p ih => rw [resolve, occurrences, occurrences, ih]
  | top => rfl
  | bot => rfl
  | eq x y | ne x y => rw [resolve, occurrences, occurrences, hterm, hterm]

end Predicate

theorem Compute.resolve_resolve (c : Compute) :
    (c.resolve place).resolve place' = c.resolve place' := by
  cases c with
  | value t => exact congrArg value t.resolve_resolve
  | predicate p => exact congrArg predicate p.resolve_resolve
  | any => rfl

theorem Compute.support_resolve (c : Compute) : (c.resolve place).support = c.support := by
  cases c with
  | value t => cases t <;> rfl
  | predicate p => exact p.support_resolve
  | any => rfl

theorem Action.nextValues_congr {a : Action} (domain : List Value)
    (h : ∀ x ∈ a.support, lookup place s x = lookup place u x) :
    (a.resolve place).nextValues s domain = (a.resolve place).nextValues u domain := by
  obtain ⟨var, value, index⟩ := a
  cases value with
  | value t =>
      have ht := Term.eval_congr fun x hx => h x (OrderedSet.mem_ofList.2 hx)
      simp only [nextValues, resolve, Compute.resolve, ht]
  | predicate p => simp only [nextValues, resolve, Compute.resolve, Predicate.eval_congr h]
  | any => rfl

end Reading

namespace Transition

variable {place place' : String → Option Nat} {s u u' : ModelState} {vars : List Variable}
  {t : Transition}

def Resolved (place : String → Option Nat) (t : Transition) : Prop := t.resolve place = t

theorem resolve_resolve (t : Transition) : (t.resolve place).resolve place' = t.resolve place' := by
  simp [resolve, Predicate.resolve_resolve, Function.comp_def, Action.resolve,
    Compute.resolve_resolve]

theorem resolved_resolve (t : Transition) : (t.resolve place).Resolved place := t.resolve_resolve

theorem var_mem_modifies {a : Action} (ha : a ∈ t.actions) : a.var ∈ t.modifies :=
  OrderedSet.mem_ofList.2 (List.mem_map_of_mem ha)

theorem modifies_resolve (t : Transition) : (t.resolve place).modifies = t.modifies := by
  simp [modifies, resolve, Function.comp_def, Action.resolve]

theorem reads_resolve (t : Transition) : (t.resolve place).reads = t.reads := by
  simp only [reads, resolve, Predicate.support_resolve, List.flatMap_map]
  simp only [Action.support, Action.resolve, Compute.support_resolve]

theorem mem_reads {x : String} : x ∈ t.reads ↔ x ∈ t.guard.support ∨
    ∃ a ∈ t.actions, x ∈ a.support := by
  simp only [reads, OrderedSet.mem_insertAll, List.mem_flatMap]
  exact or_comm

theorem Resolved.action (h : t.Resolved place) {a : Action} (ha : a ∈ t.actions) :
    a.resolve place = a := by
  have hmap : t.actions.map (·.resolve place) = t.actions.map id := by
    rw [List.map_id]
    exact congrArg actions h
  exact List.map_inj_left.1 hmap a ha

theorem Resolved.isEnabled_congr (h : t.Resolved place)
    (hreads : ∀ x ∈ t.reads, lookup place s x = lookup place u x) :
    t.isEnabled s = t.isEnabled u := by
  have hguard : t.guard.resolve place = t.guard := congrArg guard h
  have heval := Predicate.eval_congr fun x hx => hreads x (mem_reads.2 (.inl hx))
  rw [hguard] at heval
  rw [isEnabled, isEnabled, heval]

theorem Resolved.values_congr (h : t.Resolved place)
    (hreads : ∀ x ∈ t.reads, lookup place s x = lookup place u x) {a : Action} (ha : a ∈ t.actions)
    (v : Variable) : t.values s v a = t.values u v a := by
  have hnext := Action.nextValues_congr v.domain fun x hx =>
    hreads x (mem_reads.2 (.inr ⟨a, ha, hx⟩))
  rw [h.action ha] at hnext
  rw [values, values, hnext]

/-- The actions, one after the other, take `u` to `u'`, with values computed from `s`. -/
def Updates (t : Transition) (vars : List Variable) (s : ModelState) :
    List Action → ModelState → ModelState → Prop
  | [], u, u' => u' = u
  | a :: rest, u, u' => ∃ i v xs x, t.target vars a = .ok (i, v) ∧ t.values s v a = .ok xs ∧
      x ∈ xs ∧ t.Updates vars s rest (u.set i x) u'

theorem setValue_eq_ok {i : Nat} {x : Value} :
    setValue s i x = .ok u ↔ i < s.length ∧ u = s.set i x := by
  by_cases h : i < s.length <;> simp [setValue, h, eq_comm]

theorem mem_mapM_setValue {i : Nat} {xs : List Value} {found : List ModelState}
    (h : xs.mapM (setValue s i) = .ok found) : u ∈ found ↔ ∃ x ∈ xs, u = s.set i x := by
  induction xs generalizing found with
  | nil =>
      obtain rfl : [] = found := by simpa [pure, Except.pure] using h
      simp
  | cons x xs ih =>
      simp only [List.mapM_cons, except_bind_eq_ok, setValue_eq_ok] at h
      obtain ⟨_, ⟨-, rfl⟩, rest, hrest, hfound⟩ := h
      obtain rfl : s.set i x :: rest = found := by simpa [pure, Except.pure] using hfound
      simp [ih hrest]

theorem mem_combine {i : Nat} {xs : List Value} {next found : List ModelState}
    (h : combine i xs next = .ok found) : u ∈ found ↔ ∃ s ∈ next, ∃ x ∈ xs, u = s.set i x := by
  induction next generalizing found with
  | nil =>
      obtain rfl : [] = found := by simpa [combine] using h
      simp
  | cons s next ih =>
      simp only [combine, except_bind_eq_ok, Except.ok.injEq] at h
      obtain ⟨here, hhere, there, hthere, rfl⟩ := h
      simp [mem_mapM_setValue hhere, ih hthere]

theorem mem_fireActions {as : List Action} {next found : List ModelState}
    (h : t.fireActions s vars as next = .ok found) :
    u' ∈ found ↔ ∃ u ∈ next, t.Updates vars s as u u' := by
  induction as generalizing next found with
  | nil =>
      obtain rfl : next = found := by simpa [fireActions] using h
      simp [Updates]
  | cons a as ih =>
      simp only [fireActions, except_bind_eq_ok] at h
      obtain ⟨⟨i, v⟩, htarget, xs, hvalues, mid, hmid, h⟩ := h
      simp only [ih h, mem_combine hmid, Updates]
      constructor
      · rintro ⟨_, ⟨w, hw, x, hx, rfl⟩, hrest⟩
        exact ⟨w, hw, i, v, xs, x, htarget, hvalues, hx, hrest⟩
      · rintro ⟨w, hw, i', v', xs', x, htarget', hvalues', hx, hrest⟩
        obtain ⟨rfl, rfl⟩ : i = i' ∧ v = v' := by simpa [htarget] using htarget'
        obtain rfl : xs = xs' := by simpa [hvalues] using hvalues'
        exact ⟨_, ⟨w, hw, x, hx, rfl⟩, hrest⟩

theorem mem_fire {next : List ModelState} (h : t.fire s vars = .ok next) :
    u ∈ next ↔ t.Updates vars s t.actions s u := by
  simp [mem_fireActions h]

theorem Resolved.target_eq_ok (h : t.Resolved place) {a : Action} (ha : a ∈ t.actions)
    {i : Nat} {v : Variable} (htarget : t.target vars a = .ok (i, v)) : place a.var = some i := by
  have hindex : place a.var = a.index := congrArg Action.index (h.action ha)
  rw [target] at htarget
  cases hi : a.index.bind fun i => vars[i]?.map fun v => (i, v) with
  | none => simp [hi] at htarget
  | some r =>
      obtain rfl : r = (i, v) := by simpa [hi] using htarget
      simp only [Option.bind_eq_some_iff, Option.map_eq_some_iff, Prod.mk.injEq] at hi
      obtain ⟨_, hsome, _, -, rfl, -⟩ := hi
      rw [hindex, hsome]

namespace Updates

variable {as : List Action}

theorem length_eq (h : t.Updates vars s as u u') : u'.length = u.length := by
  induction as generalizing u with
  | nil => rw [show u' = u from h]
  | cons a as ih =>
      obtain ⟨i, v, xs, x, -, -, -, hrest⟩ := h
      rw [ih hrest, List.length_set]

theorem getElem?_eq (h : t.Updates vars s as u u') {i : Nat}
    (hi : ∀ a ∈ as, ∀ v, t.target vars a ≠ .ok (i, v)) : u'[i]? = u[i]? := by
  induction as generalizing u with
  | nil => rw [show u' = u from h]
  | cons a as ih =>
      obtain ⟨j, v, xs, x, htarget, -, -, hrest⟩ := h
      rw [ih hrest fun a ha => hi a (by simp [ha])]
      refine List.getElem?_set_ne fun hij => hi a (by simp) v ?_
      rw [← hij, htarget]

end Updates

end Transition

namespace Model

variable {m : Model} {s s' : ModelState} {p : Transition × Nat} {ts : List (Transition × Nat)}
  {next found : List ModelState}

def Valid (m : Model) (s : ModelState) : Prop := ∀ i ∈ m.invariants, i.predicate.eval s = .ok true

theorem satisfiesAll_eq_ok_true {is : List NamedPredicate} :
    satisfiesAll s is = .ok true ↔ ∀ i ∈ is, i.predicate.eval s = .ok true := by
  induction is with
  | nil => simp [satisfiesAll]
  | cons i is ih =>
      simp only [satisfiesAll, except_bind_eq_ok, except_mapError_eq_ok, List.forall_mem_cons, ← ih]
      constructor
      · rintro ⟨b, hb, hrest⟩
        cases b with
        | true => exact ⟨hb, hrest⟩
        | false => simp at hrest
      · rintro ⟨hb, hrest⟩
        exact ⟨true, hb, hrest⟩

theorem mem_transitions_of_active (h : p ∈ m.active) : p.1 ∈ m.transitions := by
  simp only [active, List.mem_filterMap, Option.map_eq_some_iff] at h
  obtain ⟨i, -, t, ht, rfl⟩ := h
  exact List.mem_of_getElem? ht

theorem mem_enabledAmong {ps : List (Transition × Nat)} (h : enabledAmong s ps = .ok ts) :
    p ∈ ts ↔ p ∈ ps ∧ p.1.isEnabled s = .ok true := by
  induction ps generalizing ts with
  | nil =>
      obtain rfl : [] = ts := by simpa [enabledAmong] using h
      simp
  | cons q ps ih =>
      simp only [enabledAmong, except_bind_eq_ok, Except.ok.injEq] at h
      obtain ⟨b, hb, others, hothers, rfl⟩ := h
      cases b with
      | true =>
          simp only [if_true, List.mem_cons, ih hothers, or_and_right]
          exact or_congr_left ⟨fun hp => ⟨hp, hp ▸ hb⟩, fun hp => hp.1⟩
      | false =>
          simp only [Bool.false_eq_true, if_false, List.mem_cons, ih hothers, or_and_right]
          refine (or_iff_right ?_).symm
          rintro ⟨rfl, hp⟩
          simp [hb] at hp

theorem mem_enabled (h : m.enabled s = .ok ts) :
    p ∈ ts ↔ p ∈ m.active ∧ p.1.isEnabled s = .ok true :=
  mem_enabledAmong h

theorem mem_collect {all : List ModelState} (h : collect m.invariants next found = .ok all) :
    s ∈ all ↔ s ∈ found ∨ s ∈ next ∧ m.Valid s := by
  induction next generalizing found with
  | nil =>
      obtain rfl : found = all := by simpa [collect] using h
      simp
  | cons u next ih =>
      rw [collect] at h
      by_cases hu : u ∈ found
      · rw [if_pos hu] at h
        rw [ih h, List.mem_cons]
        constructor
        · rintro (hs | ⟨hs, hv⟩)
          · exact .inl hs
          · exact .inr ⟨.inr hs, hv⟩
        · rintro (hs | ⟨rfl | hs, hv⟩)
          · exact .inl hs
          · exact .inl hu
          · exact .inr ⟨hs, hv⟩
      · rw [if_neg hu, except_bind_eq_ok] at h
        obtain ⟨b, hb, h⟩ := h
        have hvalid : b = true ↔ m.Valid u := by
          rw [Valid, ← satisfiesAll_eq_ok_true, hb, Except.ok.injEq]
        rw [ih h, List.mem_cons]
        cases b with
        | true =>
            have hv : m.Valid u := hvalid.1 rfl
            simp only [if_true, List.mem_append, List.mem_singleton]
            constructor
            · rintro ((hs | rfl) | ⟨hs, hs'⟩)
              · exact .inl hs
              · exact .inr ⟨.inl rfl, hv⟩
              · exact .inr ⟨.inr hs, hs'⟩
            · rintro (hs | ⟨rfl | hs, hs'⟩)
              · exact .inl (.inl hs)
              · exact .inl (.inr rfl)
              · exact .inr ⟨hs, hs'⟩
        | false =>
            have hv : ¬ m.Valid u := fun hv => by simpa using hvalid.2 hv
            simp only [Bool.false_eq_true, if_false]
            refine or_congr_right ⟨fun hs => ⟨.inr hs.1, hs.2⟩, ?_⟩
            rintro ⟨rfl | hs, hs'⟩
            · exact absurd hs' hv
            · exact ⟨hs, hs'⟩

theorem nodup_collect {is : List NamedPredicate} {all : List ModelState} (hfound : found.Nodup)
    (h : collect is next found = .ok all) : all.Nodup := by
  induction next generalizing found with
  | nil =>
      obtain rfl : found = all := by simpa [collect] using h
      exact hfound
  | cons u next ih =>
      rw [collect] at h
      by_cases hu : u ∈ found
      · rw [if_pos hu] at h
        exact ih hfound h
      · rw [if_neg hu, except_bind_eq_ok] at h
        obtain ⟨b, -, h⟩ := h
        refine ih ?_ h
        cases b with
        | true => simpa using hfound.concat hu
        | false => exact hfound

theorem mem_fireInto {all : List ModelState} (h : m.fireInto s ts found = .ok all) :
    s' ∈ all ↔ s' ∈ found ∨ (∃ p ∈ ts, p.1.Updates m.vars s p.1.actions s s') ∧ m.Valid s' := by
  induction ts generalizing found with
  | nil =>
      obtain rfl : found = all := by simpa [fireInto] using h
      simp
  | cons p ts ih =>
      simp only [fireInto, except_bind_eq_ok] at h
      obtain ⟨next, hnext, mid, hmid, h⟩ := h
      rw [ih h, mem_collect hmid, Transition.mem_fire hnext, or_assoc]
      refine or_congr_right ?_
      simp [or_and_right, exists_or]

theorem nodup_fireInto {all : List ModelState} (hfound : found.Nodup)
    (h : m.fireInto s ts found = .ok all) : all.Nodup := by
  induction ts generalizing found with
  | nil =>
      obtain rfl : found = all := by simpa [fireInto] using h
      exact hfound
  | cons p ts ih =>
      simp only [fireInto, except_bind_eq_ok] at h
      obtain ⟨next, -, mid, hmid, h⟩ := h
      exact ih (nodup_collect hfound hmid) h

theorem mem_fireAll (h : m.fireAll s ts = .ok next) :
    s' ∈ next ↔ (∃ p ∈ ts, p.1.Updates m.vars s p.1.actions s s') ∧ m.Valid s' := by
  simp [mem_fireInto h]

structure Moves (m : Model) (t : Transition) (s s' : ModelState) : Prop where
  active : ∃ n, (t, n) ∈ m.active
  enabled : t.isEnabled s = .ok true
  updates : t.Updates m.vars s t.actions s s'
  valid : m.Valid s'

theorem mem_fireAll_filter (own : Transition → Bool) (henabled : m.enabled s = .ok ts)
    (h : m.fireAll s (ts.filter fun p => own p.1) = .ok next) :
    s' ∈ next ↔ ∃ t, own t = true ∧ m.Moves t s s' := by
  rw [mem_fireAll h]
  constructor
  · rintro ⟨⟨⟨t, n⟩, hp, hupdates⟩, hvalid⟩
    obtain ⟨hp, hown⟩ := List.mem_filter.1 hp
    obtain ⟨hactive, hen⟩ := (mem_enabled henabled).1 hp
    exact ⟨t, hown, ⟨n, hactive⟩, hen, hupdates, hvalid⟩
  · rintro ⟨t, hown, ⟨n, hactive⟩, hen, hupdates, hvalid⟩
    have hmem := (mem_enabled (p := (t, n)) henabled).2 ⟨hactive, hen⟩
    exact ⟨⟨(t, n), List.mem_filter.2 ⟨hmem, hown⟩, hupdates⟩, hvalid⟩

def successors? (m : Model) (s : ModelState) : Except Fault (List ModelState) := do
  m.fireAll s (← m.enabled s)

theorem mem_successors? (h : m.successors? s = .ok next) : s' ∈ next ↔ ∃ t, m.Moves t s s' := by
  obtain ⟨ts, henabled, h⟩ := except_bind_eq_ok.1 h
  have hall : ts.filter (fun _ => true) = ts := List.filter_eq_self.2 fun _ _ => rfl
  rw [← hall] at h
  simpa using mem_fireAll_filter (fun _ => true) henabled h

theorem fireInto_congr {m' : Model} (hvars : m.vars = m'.vars)
    (hinvariants : m.invariants = m'.invariants) :
    m.fireInto s ts found = m'.fireInto s ts found := by
  induction ts generalizing found with
  | nil => rfl
  | cons p ts ih =>
      simp only [fireInto, hvars, hinvariants]
      exact bind_congr fun next => bind_congr fun found => ih

theorem successors?_congr {m' : Model} (hvars : m.vars = m'.vars)
    (hinvariants : m.invariants = m'.invariants) (hactive : m.active = m'.active) :
    m.successors? s = m'.successors? s := by
  rw [successors?, successors?, enabled, enabled, hactive]
  exact bind_congr fun ts => fireInto_congr hvars hinvariants

/-- What a model that is ready answers. -/
def behaviour (m : Model) (r : PropositionReader) : Behaviour ModelState where
  initial := if satisfiesAll m.initialState m.invariants =
    .ok true then some m.initialState else none
  successors s := (m.successors? s).toOption
  ample s :=
    if m.preparation.options.partialOrderReduction then (m.ampleStates s).toOption else some none
  holds s p := (r.holds s p).toOption

theorem prepare_eq_ok {l l' : Logged Model} (h : l.state.preparation.ready = true) :
    prepare l = .ok () l' ↔ l = l' := by
  simp only [prepare, Task.bind_eq_ok, Task.read_eq_ok]
  constructor
  · rintro ⟨_, _, ⟨rfl, rfl⟩, hok⟩
    simpa [h] using hok
  · rintro rfl
    exact ⟨_, _, ⟨rfl, rfl⟩, by simp [h]⟩

theorem successors_eq_ok {l l' : Logged Model} (h : l.state.preparation.ready = true) :
    successors s l = .ok next l' ↔ l.state.successors? s = .ok next ∧ l = l' := by
  simp only [successors, Task.bind_eq_ok, Task.read_eq_ok, Task.ofExcept_eq_ok, prepare_eq_ok h]
  constructor
  · rintro ⟨_, _, rfl, _, _, ⟨rfl, rfl⟩, hanswer⟩
    exact hanswer
  · rintro ⟨hanswer, rfl⟩
    exact ⟨(), l, rfl, l.state, l, ⟨rfl, rfl⟩, hanswer, rfl⟩

theorem behaves (h : m.preparation.ready = true) (r : PropositionReader) :
    (program r).Behaves (· = m) (m.behaviour r) := by
  constructor
  · rintro l s l' rfl hok
    simp only [program, initial, Task.bind_eq_ok, Task.read_eq_ok] at hok
    obtain ⟨_, _, hprepare, _, _, ⟨rfl, rfl⟩, b, _, hb, hok⟩ := hok
    obtain rfl := (prepare_eq_ok h).1 hprepare
    obtain ⟨hvalid, rfl⟩ := Task.ofExcept_eq_ok.1 hb
    cases b with
    | true =>
        obtain ⟨rfl, rfl⟩ := Task.pure_eq_ok.1 hok
        exact ⟨if_pos hvalid, rfl⟩
    | false => simp at hok
  · rintro s l next l' rfl hok
    obtain ⟨hanswer, rfl⟩ := (successors_eq_ok h).1 hok
    exact ⟨except_toOption_eq_some.2 hanswer, rfl⟩
  · rintro s l set l' rfl hok
    simp only [program, ample, Task.bind_eq_ok, Task.read_eq_ok] at hok
    obtain ⟨_, _, hprepare, _, _, ⟨rfl, rfl⟩, hok⟩ := hok
    obtain rfl := (prepare_eq_ok h).1 hprepare
    simp only [behaviour]
    split at hok
    · rename_i hreduction
      obtain ⟨hanswer, rfl⟩ := Task.ofExcept_eq_ok.1 hok
      exact ⟨by rw [if_pos hreduction, except_toOption_eq_some.2 hanswer], rfl⟩
    · rename_i hreduction
      obtain ⟨rfl, rfl⟩ := Task.pure_eq_ok.1 hok
      exact ⟨if_neg hreduction, rfl⟩
  · rintro s p l v l' rfl hok
    obtain ⟨hanswer, rfl⟩ := Task.ofExcept_eq_ok.1 hok
    exact ⟨except_toOption_eq_some.2 (except_mapError_eq_ok.1 hanswer), rfl⟩

end Model

end TemporalCheck
