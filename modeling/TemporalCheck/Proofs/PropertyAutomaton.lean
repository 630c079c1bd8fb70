import TemporalCheck.Proofs.PropertyRun
import TemporalCheck.Proofs.StateTable
import TemporalCheck.Proofs.Task

namespace TemporalCheck

namespace PropertyAutomaton

open Formula PropertyState

variable {f : Formula} {a a' a'' : PropertyAutomaton} {id : Nat} {ids : List Nat}
  {log log' : List LogEvent}

structure Sound (f : Formula) (a : PropertyAutomaton) : Prop where
  table : a.table.WellFormed
  promises : a.promises = f.promises
  initial : a.table.get? a.initial = some (.ofList [.next f])
  expanded : ∀ id q ids, a.table.get? id = some q → a.table.info? id = some (some ids) →
    a.table.Names ids (cover q.obligations).toList

structure Grows (a a' : PropertyAutomaton) : Prop where
  get : ∀ id q, a.table.get? id = some q → a'.table.get? id = some q
  initial : a'.initial = a.initial

theorem Grows.refl (a : PropertyAutomaton) : Grows a a := ⟨fun _ _ h => h, rfl⟩

theorem Grows.trans (h : Grows a a') (h' : Grows a' a'') : Grows a a'' :=
  ⟨fun id q hq => h'.get id q (h.get id q hq), h'.initial.trans h.initial⟩

theorem sound_ofFormula (f : Formula) : Sound f (ofFormula f) := by
  obtain ⟨hwf, hgrows, hget⟩ :=
    (StateTable.wellFormed_empty (S := PropertyState) (I := Option (List Nat))).insert
    (.ofList [.next f])
  refine ⟨hwf, rfl, hget, fun id q ids hq hids => ?_⟩
  have hnone := hgrows.fresh id (some ids) (StateTable.info?_empty id) hids
  cases hnone

def expandedAt (a : PropertyAutomaton) (id : Nat) (q : PropertyState) : PropertyAutomaton :=
  { a with
    table := (a.table.insertAll (cover q.obligations).toList).2.modifyInfo id fun _ =>
      some (a.table.insertAll (cover q.obligations).toList).1
    coverCalls := a.coverCalls + 1
    expanded := a.expanded + 1 }

theorem successors_eq_ok : successors id ⟨a, log⟩ = .ok ids ⟨a', log'⟩ ↔ log = log' ∧
    (a.table.info? id = some (some ids) ∧ a = a' ∨
      a.table.info? id = some none ∧ ∃ q, a.table.get? id = some q ∧
        (a.table.insertAll (cover q.obligations).toList).1 = ids ∧ a.expandedAt id q = a') := by
  simp only [successors, Task.bind_eq_ok, Task.read_eq_ok, Task.require_eq_ok]
  constructor
  · rintro ⟨_, _, ⟨rfl, rfl⟩, known, _, ⟨hknown, rfl⟩, h⟩
    cases known with
    | some known =>
        simp only [Task.pure_eq_ok, Logged.mk.injEq] at h
        obtain ⟨rfl, rfl, rfl⟩ := h
        exact ⟨rfl, .inl ⟨hknown, rfl⟩⟩
    | none =>
        simp only [Task.bind_eq_ok, Task.require_eq_ok, Task.change_eq_ok, Task.pure_eq_ok] at h
        obtain ⟨q, _, ⟨hq, rfl⟩, _, _, rfl, rfl, h⟩ := h
        cases h
        exact ⟨rfl, .inr ⟨hknown, q, hq, rfl, rfl⟩⟩
  · rintro ⟨rfl, ⟨hknown, rfl⟩ | ⟨hknown, q, hq, rfl, rfl⟩⟩
    · exact ⟨_, _, ⟨rfl, rfl⟩, _, _, ⟨hknown, rfl⟩, by simp⟩
    · refine ⟨_, _, ⟨rfl, rfl⟩, _, _, ⟨hknown, rfl⟩, ?_⟩
      simp only [Task.bind_eq_ok, Task.require_eq_ok, Task.change_eq_ok, Task.pure_eq_ok]
      exact ⟨q, _, ⟨hq, rfl⟩, (), _, rfl, rfl, rfl⟩

theorem Sound.expandedAt {q : PropertyState} (h : Sound f a) (hknown : a.table.info? id = some none)
    (hq : a.table.get? id = some q) :
    Sound f (a.expandedAt id q) ∧ Grows a (a.expandedAt id q) ∧
      (a.expandedAt id q).table.Names (a.table.insertAll (cover q.obligations).toList).1
        (cover q.obligations).toList := by
  obtain ⟨hwf, hgrows, hnames⟩ := h.table.insertAll (cover q.obligations).toList
  have hget : ∀ j s, (a.table.insertAll (cover q.obligations).toList).2.get? j = some s →
      (a.expandedAt id q).table.get? j = some s := by
    intro j s hj
    rw [PropertyAutomaton.expandedAt, StateTable.get?_modifyInfo]
    exact hj
  have hwf' : (a.expandedAt id q).table.WellFormed :=
    hwf.modifyInfo id fun _ => some (a.table.insertAll (cover q.obligations).toList).1
  refine ⟨⟨hwf', h.promises, hget _ _ (hgrows.get _ _ h.initial), fun j s js hj hjs => ?_⟩,
    ⟨fun j s hj => hget j s (hgrows.get j s hj), rfl⟩, hnames.mono hget⟩
  by_cases hij : id = j
  · subst hij
    obtain rfl : q = s := by
      have := hget _ _ (hgrows.get _ _ hq)
      rw [hj, Option.some.injEq] at this
      exact this.symm
    rw [PropertyAutomaton.expandedAt,
      StateTable.info?_modifyInfo_self _ (hgrows.info _ _ hknown)] at hjs
    cases hjs
    exact hnames.mono hget
  · rw [PropertyAutomaton.expandedAt, StateTable.info?_modifyInfo_of_ne _ hij] at hjs
    have hold : a.table.info? j = some (some js) := by
      cases hinfo : a.table.info? j with
      | none => cases hgrows.fresh j _ hinfo hjs
      | some i => rw [← hjs, hgrows.info j i hinfo]
    obtain ⟨s', hs'⟩ := StateTable.exists_get?_of_lt (StateTable.lt_size_of_info? hold)
    obtain rfl : s' = s := by
      have := hget _ _ (hgrows.get _ _ hs')
      rw [hj, Option.some.injEq] at this
      exact this.symm
    exact (h.expanded j s' js hs' hold).mono fun k x hk => hget k x (hgrows.get k x hk)

theorem successors_spec (h : Sound f a) (hok : successors id ⟨a, log⟩ = .ok ids ⟨a', log'⟩) :
    Sound f a' ∧ Grows a a' ∧ ∃ q, a.table.get? id = some q ∧
      a'.table.Names ids (cover q.obligations).toList := by
  obtain ⟨-, ⟨hknown, rfl⟩ | ⟨hknown, q, hq, rfl, rfl⟩⟩ := successors_eq_ok.1 hok
  · obtain ⟨q, hq⟩ := StateTable.exists_get?_of_lt (StateTable.lt_size_of_info? hknown)
    exact ⟨h, .refl a, q, hq, h.expanded id q ids hq hknown⟩
  · obtain ⟨hsound, hgrows, hnames⟩ := h.expandedAt hknown hq
    exact ⟨hsound, hgrows, q, hq, hnames⟩

theorem exists_successors {q : PropertyState} (hq : a.table.get? id = some q)
    (log : List LogEvent) : ∃ ids a', successors id ⟨a, log⟩ = .ok ids ⟨a', log⟩ := by
  obtain ⟨known, hknown⟩ := StateTable.exists_info?_of_lt (StateTable.lt_size_of_get? hq)
  cases known with
  | some ids => exact ⟨ids, a, successors_eq_ok.2 ⟨rfl, .inl ⟨hknown, rfl⟩⟩⟩
  | none => exact ⟨_, _, successors_eq_ok.2 ⟨rfl, .inr ⟨hknown, q, hq, rfl, rfl⟩⟩⟩

theorem accepts?_eq_some_iff {set : Nat} {p : Promise} {q : PropertyState} {b : Bool}
    (h : Sound f a) (hp : f.promises[set]? = some p) (hq : a.table.get? id = some q) :
    a.accepts? id set = some b ↔ keeps q p = b := by
  simp [accepts?, h.promises, hp, hq]

/-- The acceptance sets decide about every state that is stored. -/
theorem exists_accepts? {q : PropertyState} (hq : a.table.get? id = some q) (set : Nat) :
    ∃ b, a.accepts? id set = some b := by
  rw [accepts?, hq]
  cases a.promises[set]? with
  | none => exact ⟨true, rfl⟩
  | some p => exact ⟨keeps q p, rfl⟩

/-- An infinite run along a word. `a i` is the automaton as far as it is expanded when the run
takes its step `i`: the first step leaves the initial state, the others the states `q i`. -/
structure IsRun (w : Word) (a : Nat → PropertyAutomaton) (q : Nat → Nat) : Prop where
  start : ∃ ids, successors (a 0).initial ⟨a 0, []⟩ = .ok ids ⟨a 1, []⟩ ∧ q 0 ∈ ids
  step : ∀ i, ∃ ids, successors (q i) ⟨a (i + 1), []⟩ = .ok ids ⟨a (i + 2), []⟩ ∧ q (i + 1) ∈ ids
  literals : ∀ i, ∃ s, (a (i + 1)).table.get? (q i) = some s ∧ ∀ g ∈ s.literals, Holds w g i

def Accepting (a : Nat → PropertyAutomaton) (q : Nat → Nat) : Prop :=
  ∀ set < (a 0).acceptanceCount, InfinitelyOften fun i => (a (i + 1)).accepts? (q i) set = some true

section

variable {w : Word} {as : Nat → PropertyAutomaton} {qs : Nat → Nat}

theorem IsRun.sound (h : IsRun w as qs) (hstart : Sound f (as 0)) (i : Nat) : Sound f (as i) := by
  induction i using Nat.twoStepInduction with
  | zero => exact hstart
  | one =>
      obtain ⟨ids, hids, -⟩ := h.start
      exact (successors_spec hstart hids).1
  | more i _ ih =>
      obtain ⟨ids, hids, -⟩ := h.step i
      exact (successors_spec ih hids).1

theorem IsRun.follows {states : Nat → PropertyState} (h : IsRun w as qs) (hstart : Sound f (as 0))
    (hstates : ∀ i, (as (i + 1)).table.get? (qs i) = some (states i)) : Follows f states := by
  constructor
  · obtain ⟨ids, hids, hmem⟩ := h.start
    obtain ⟨-, -, q, hq, hnames⟩ := successors_spec hstart hids
    rw [hstart.initial, Option.some.injEq] at hq
    subst hq
    exact hnames.mem_of_get? hmem (hstates 0)
  · intro i
    obtain ⟨ids, hids, hmem⟩ := h.step i
    obtain ⟨-, -, q, hq, hnames⟩ := successors_spec (h.sound hstart (i + 1)) hids
    rw [hstates i, Option.some.injEq] at hq
    subst hq
    exact hnames.mem_of_get? hmem (hstates (i + 1))

theorem IsRun.accepting_iff {states : Nat → PropertyState} (h : IsRun w as qs)
    (hstart : Sound f (as 0)) (hstates : ∀ i, (as (i + 1)).table.get? (qs i) = some (states i)) :
    Accepting as qs ↔ Fair f states := by
  have haccepts (set : Nat) (p : Promise) (hp : f.promises[set]? = some p) (i : Nat) :
      (as (i + 1)).accepts? (qs i) set = some true ↔ keeps (states i) p = true :=
    accepts?_eq_some_iff (h.sound hstart (i + 1)) hp (hstates i)
  constructor
  · intro hacc p hp
    obtain ⟨set, hlt, hp⟩ := List.mem_iff_getElem.1 hp
    have hset : set < (as 0).acceptanceCount := by rw [acceptanceCount, hstart.promises]; exact hlt
    exact (hacc set hset).mono fun i hi =>
      (haccepts set p (by rw [← hp, List.getElem?_eq_getElem]) i).1 hi
  · intro hfair set hset
    rw [acceptanceCount, hstart.promises] at hset
    exact (hfair _ (List.getElem_mem hset)).mono fun i hi =>
      (haccepts set _ (List.getElem?_eq_getElem hset) i).2 hi

/-- Every sequence of states that follows the rules is a run of the automaton. -/
theorem exists_isRun {states : Nat → PropertyState} (hsound : Sound f a) (h : Follows f states)
    (hliterals : ∀ i, ∀ g ∈ (states i).literals, Holds w g i) :
    ∃ as qs, as 0 = a ∧ IsRun w as qs ∧ ∀ i, (as (i + 1)).table.get? (qs i) = some (states i) := by
  obtain ⟨ids, a₁, hids⟩ := exists_successors hsound.initial []
  obtain ⟨hsound₁, -, q, hq, hnames⟩ := successors_spec hsound hids
  rw [hsound.initial, Option.some.injEq] at hq
  subst hq
  obtain ⟨first, hfirst, hget⟩ := hnames.exists_id h.start
  obtain ⟨run, hrun, hstep⟩ := exists_sequence
    (P := fun i (x : PropertyAutomaton × Nat) => Sound f x.1 ∧
      x.1.table.get? x.2 = some (states i) ∧ (i = 0 → x = (a₁, first)))
    (R := fun _ x y => ∃ ids, successors x.2 ⟨x.1, []⟩ = .ok ids ⟨y.1, []⟩ ∧ y.2 ∈ ids)
    ⟨(a₁, first), hsound₁, hget, fun _ => rfl⟩
    (by
      rintro i ⟨b, id⟩ ⟨hb, hid, -⟩
      obtain ⟨ids, b', hids⟩ := exists_successors hid []
      obtain ⟨hb', -, q, hq, hnames⟩ := successors_spec hb hids
      rw [hid, Option.some.injEq] at hq
      subst hq
      obtain ⟨id', hmem, hid'⟩ := hnames.exists_id (h.step i)
      exact ⟨(b', id'), ⟨hb', hid', by omega⟩, ids, hids, hmem⟩)
  refine ⟨fun i => if i = 0 then a else (run (i - 1)).1, fun i => (run i).2, rfl, ⟨?_, ?_, ?_⟩, ?_⟩
  · refine ⟨ids, ?_, ?_⟩
    · simpa [(hrun 0).2.2 rfl] using hids
    · simpa [(hrun 0).2.2 rfl] using hfirst
  · intro i
    simpa using hstep i
  · intro i
    exact ⟨states i, by simpa using (hrun i).2.1, hliterals i⟩
  · intro i
    simpa using (hrun i).2.1

end

/-- The automaton of the violations of a property has an accepting run along exactly the words
that do not satisfy the property. -/
theorem exists_accepting_run_iff (f : Formula) (w : Word) :
    ¬ Satisfies w f ↔ ∃ a q, a 0 = ofViolations f ∧ IsRun w a q ∧ Accepting a q := by
  have hnnf : f.negate.isNnf = true := isNnf_signed false f
  have hsound : Sound f.negate (ofViolations f) := sound_ofFormula f.negate
  have hmeaning : ¬ Satisfies w f ↔ Satisfies w f.negate := holds_negate.symm
  rw [hmeaning]
  constructor
  · intro h
    obtain ⟨states, hfollows, hfair, hholds⟩ := exists_follows h
    obtain ⟨a, q, hstart, hrun, hstates⟩ := exists_isRun hsound hfollows
      fun i g hg => hholds i g (mem_literals.1 hg).1
    exact ⟨a, q, hstart, hrun, (hrun.accepting_iff (hstart ▸ hsound) hstates).2 hfair⟩
  · rintro ⟨a, q, hstart, hrun, haccepting⟩
    rw [← hstart] at hsound
    choose states hstates hliterals using hrun.literals
    exact (hrun.follows hsound hstates).satisfies hnnf
      ((hrun.accepting_iff hsound hstates).1 haccepting) hliterals

end PropertyAutomaton

end TemporalCheck
