import TemporalCheck.Proofs.Frame

namespace TemporalCheck

namespace Task

variable {σ α β : Type} {t : Task σ α} {l l' : Logged σ} {a : α} {done done' : α → Logged σ → Prop}
  {failed failed' : Fault → Logged σ → Prop}

def Meets (t : Task σ α) (l : Logged σ) (done : α → Logged σ → Prop)
    (failed : Fault → Logged σ → Prop) : Prop :=
  match t l with
  | .ok a l' => done a l'
  | .error e l' => failed e l'

theorem Meets.ok (h : t.Meets l done failed) (hok : t l = .ok a l') : done a l' := by
  rw [Meets, hok] at h
  exact h

theorem Meets.error {e : Fault} (h : t.Meets l done failed) (herror : t l = .error e l') :
    failed e l' := by
  rw [Meets, herror] at h
  exact h

theorem meets_of_ok (hok : t l = .ok a l') : t.Meets l done failed ↔ done a l' := by
  rw [Meets, hok]

theorem Meets.of_forall (hdone : ∀ a m, done a m) (hfailed : ∀ e m, failed e m) :
    t.Meets l done failed := by
  rw [Meets]
  split
  · exact hdone _ _
  · exact hfailed _ _

theorem Meets.mono (h : t.Meets l done failed) (hdone : ∀ a l', done a l' → done' a l')
    (hfailed : ∀ e l', failed e l' → failed' e l') : t.Meets l done' failed' := by
  rw [Meets] at h ⊢
  split at h
  · exact hdone _ _ h
  · exact hfailed _ _ h

theorem Meets.imp (h : t.Meets l done failed) (hdone : ∀ a l', done a l' → done' a l') :
    t.Meets l done' failed :=
  h.mono hdone fun _ _ h => h

theorem meets_bind {f : α → Task σ β} {done : β → Logged σ → Prop} :
    (t >>= f).Meets l done failed ↔ t.Meets l (fun a m => (f a).Meets m done failed) failed := by
  simp only [Meets]
  change (match EStateM.bind t f l with | .ok a l' => done a l' | .error e l' => failed e l') ↔ _
  rw [EStateM.bind]
  cases t l <;> rfl

theorem meets_map {f : α → β} {done : β → Logged σ → Prop} :
    (f <$> t).Meets l done failed ↔ t.Meets l (fun a m => done (f a) m) failed := by
  simp only [Meets]
  change (match EStateM.map f t l with | .ok a l' => done a l' | .error e l' => failed e l') ↔ _
  rw [EStateM.map]
  cases t l <;> rfl

theorem meets_pure : (pure a : Task σ α).Meets l done failed ↔ done a l := Iff.rfl

theorem meets_read {done : σ → Logged σ → Prop} : read.Meets l done failed ↔ done l.state l :=
  Iff.rfl

theorem meets_change {f : σ → σ} {done : Unit → Logged σ → Prop} :
    (change f).Meets l done failed ↔ done () ⟨f l.state, l.log⟩ := Iff.rfl

theorem meets_emit {level : LogLevel} {message : String} {done : Unit → Logged σ → Prop} :
    (emit level message).Meets l done failed ↔ done () ⟨l.state, ⟨level, message⟩ :: l.log⟩ :=
  Iff.rfl

theorem meets_require {o : Option α} (h : o = some a) :
    (require o).Meets l done failed ↔ done a l := by
  subst h
  exact Iff.rfl

end Task

namespace Program

variable {W S : Type}

/-- A program that answers with states in a range when asked about such states. `kept` is what its
calls keep as long as they succeed, and `broken` is what holds after one that fails. -/
structure Confined (p : Program W S) (range : S → Prop) (kept : Logged W → Prop)
    (broken : Fault → Logged W → Prop) : Prop where
  initial : ∀ l, kept l → p.initial.Meets l (fun s m => kept m ∧ range s) broken
  successors : ∀ s l, range s → kept l →
    (p.successors s).Meets l (fun next m => kept m ∧ ∀ s' ∈ next, range s') broken
  ample : ∀ s l, range s → kept l →
    (p.ample s).Meets l (fun set m => kept m ∧ ∀ s' ∈ set.getD [], range s') broken
  holds : ∀ s name l, range s → kept l → (p.holds s name).Meets l (fun _ m => kept m) broken
  emit : ∀ l event, kept l → kept ⟨l.state, event :: l.log⟩

variable {p : Program W S} {range : S → Prop} {kept : Logged W → Prop}
  {broken : Fault → Logged W → Prop} {s : S} {l : Logged W}

theorem Confined.entails {f : Formula} (hp : p.Confined range kept broken) (hs : range s)
    (hl : kept l) (hf : f.isLiteral = true) :
    (p.entails s f).Meets l (fun _ m => kept m) broken := by
  cases f with
  | prop name => exact hp.holds s name l hs hl
  | neg f =>
      cases f with
      | prop name =>
          rw [Program.entails, Task.meets_bind]
          exact hp.holds s name l hs hl
      | _ => cases hf
  | _ => cases hf

theorem Confined.entailsAll {fs : List Formula} (hp : p.Confined range kept broken) (hs : range s)
    (hl : kept l) (hfs : ∀ f ∈ fs, f.isLiteral = true) :
    (p.entailsAll s fs).Meets l (fun _ m => kept m) broken := by
  induction fs generalizing l with
  | nil => exact hl
  | cons f fs ih =>
      rw [List.forall_mem_cons] at hfs
      rw [Program.entailsAll, Task.meets_bind]
      refine (hp.entails hs hl hfs.1).imp fun holds m hm => ?_
      split
      · exact ih hm hfs.2
      · exact hm

end Program

def StateFacts.numbers (facts : StateFacts) : List Nat :=
  facts.successors.getD [] ++ facts.ample.join.getD []

namespace StateSpace

open TemporalCheck.Task StateTable

variable {W S : Type} {p : Program W S} {range : S → Prop} {kept : Logged W → Prop}
  {broken : Fault → Logged W → Prop} {x : StateSpace W S} {id : Nat} {log : List LogEvent}

theorem meets_call {α : Type} {t : Task W α} {l : Logged (StateSpace W S)}
    {done : α → Logged (StateSpace W S) → Prop} {failed : Fault → Logged (StateSpace W S) → Prop} :
    (call t).Meets l done failed ↔ t.Meets ⟨l.state.memory, l.log⟩
      (fun a m => done a ⟨{ l.state with memory := m.state }, m.log⟩)
      fun e m => failed e ⟨{ l.state with memory := m.state }, m.log⟩ := by
  obtain ⟨⟨memory, table, initial, n, k, d⟩, log⟩ := l
  simp only [Meets, call]
  cases t ⟨memory, log⟩ <;> rfl

variable [HasDigest S]

structure Fits (range : S → Prop) (x : StateSpace W S) : Prop where
  table : x.table.WellFormed
  states : ∀ id s, x.table.get? id = some s → range s
  initial : ∀ id, x.initial? = some id → id < x.table.size
  facts : ∀ id facts, x.table.info? id = some facts → ∀ j ∈ facts.numbers, j < x.table.size

def Held (range : S → Prop) (kept : Logged W → Prop) (l : Logged (StateSpace W S)) : Prop :=
  kept ⟨l.state.memory, l.log⟩ ∧ l.state.Fits range

def Broken (range : S → Prop) (broken : Fault → Logged W → Prop) (size : Nat) (e : Fault)
    (l : Logged (StateSpace W S)) : Prop :=
  broken e ⟨l.state.memory, l.log⟩ ∧ l.state.Fits range ∧ size ≤ l.state.table.size

theorem fits_start (memory : W) : Fits range ({ memory } : StateSpace W S) := by
  refine ⟨wellFormed_empty, fun id s h => ?_, nofun, fun id facts h => ?_⟩
  all_goals cases h

theorem Fits.note {facts : StateFacts} {g : StateFacts → StateFacts} (h : x.Fits range)
    (hfacts : x.table.info? id = some facts) (hg : ∀ j ∈ (g facts).numbers, j < x.table.size) :
    Fits range { x with table := x.table.modifyInfo id g } := by
  refine ⟨h.table.modifyInfo id g, fun j s hs => ?_, fun j hj => ?_, fun j facts' hj => ?_⟩
  · rw [get?_modifyInfo] at hs
    exact h.states j s hs
  · rw [size_modifyInfo]
    exact h.initial j hj
  · rw [size_modifyInfo]
    by_cases heq : id = j
    · subst heq
      rw [info?_modifyInfo_self g hfacts, Option.some.injEq] at hj
      subst hj
      exact hg
    · rw [info?_modifyInfo_of_ne g heq] at hj
      exact h.facts j facts' hj

theorem Held.remember {m : Logged W} (h : Held range kept ⟨x, log⟩) (hm : kept m) :
    Held range kept ⟨{ x with memory := m.state }, m.log⟩ :=
  ⟨hm, h.2.table, h.2.states, h.2.initial, h.2.facts⟩

theorem Held.call {α : Type} {t : Task W α} {done : α → Logged (StateSpace W S) → Prop}
    {answers : α → Logged W → Prop} (h : Held range kept ⟨x, log⟩)
    (ht : t.Meets ⟨x.memory, log⟩ answers broken)
    (hdone : ∀ a m, answers a m → done a ⟨{ x with memory := m.state }, m.log⟩) :
    (call t).Meets ⟨x, log⟩ done (Broken range broken x.table.size) := by
  rw [meets_call]
  exact ht.mono hdone fun e m hm =>
    ⟨hm, ⟨h.2.table, h.2.states, h.2.initial, h.2.facts⟩, Nat.le_refl _⟩

variable [DecidableEq S]

theorem Fits.insertAll (h : x.Fits range) (states : List S) (hstates : ∀ s ∈ states, range s) :
    Fits range { x with table := (x.table.insertAll states).2 } := by
  obtain ⟨hwf, hgrows, -⟩ := h.table.insertAll states
  have hle := hgrows.size_le
  refine ⟨hwf, fun j s hs => ?_, fun j hj => ?_, fun j facts hj i hi => ?_⟩
  · rcases get?_insertAll hs with hs | hs
    · exact h.states j s hs
    · exact hstates s hs
  · exact Nat.lt_of_lt_of_le (h.initial j hj) hle
  · cases hold : x.table.info? j with
    | none =>
        rw [hgrows.fresh j facts hold hj] at hi
        cases hi
    | some facts' =>
        rw [hgrows.info j facts' hold, Option.some.injEq] at hj
        subst hj
        exact Nat.lt_of_lt_of_le (h.facts j facts' hold i hi) hle

theorem initial_meets (hp : p.Confined range kept broken) (h : Held range kept ⟨x, log⟩) :
    (initial p).Meets ⟨x, log⟩ (fun id l => Held range kept l ∧ x.table.size ≤ l.state.table.size ∧
      id < l.state.table.size) (Broken range broken x.table.size) := by
  rw [initial, meets_bind, meets_read]
  cases hfirst : x.initial? with
  | some id => exact ⟨h, Nat.le_refl _, h.2.initial id hfirst⟩
  | none =>
      dsimp only
      rw [meets_bind]
      refine h.call (hp.initial _ h.1) fun s m hm => ?_
      have hfits := (h.remember hm.1).2.insertAll [s] (by simpa using hm.2)
      obtain ⟨-, hgrows, hget⟩ := h.2.table.insert s
      have hlt := lt_size_of_get? hget
      refine ⟨⟨hm.1, hfits.table, hfits.states, fun j hj => ?_, hfits.facts⟩, hgrows.size_le, hlt⟩
      cases hj
      exact hlt

omit [HasDigest S] [DecidableEq S] in
theorem meets_note {l : Logged (StateSpace W S)} {g : StateFacts → StateFacts}
    {done : Unit → Logged (StateSpace W S) → Prop}
    {failed : Fault → Logged (StateSpace W S) → Prop} :
    (note id g).Meets l done failed ↔
      done () ⟨{ l.state with table := l.state.table.modifyInfo id g }, l.log⟩ := Iff.rfl

theorem store_meets {states : List S} (h : Held range kept ⟨x, log⟩)
    (hstates : ∀ s ∈ states, range s) :
    (StateSpace.store states).Meets ⟨x, log⟩ (fun ids l => Held range kept l ∧
      x.table.size ≤ l.state.table.size ∧
      (∀ j ∈ ids, j < l.state.table.size) ∧ ∀ id facts, x.table.info? id = some facts →
        l.state.table.info? id = some facts) (Broken range broken x.table.size) := by
  obtain ⟨-, hgrows, hnames⟩ := h.2.table.insertAll states
  rw [meets_of_ok (store_eq_ok.2 ⟨rfl, rfl⟩)]
  refine ⟨⟨h.1, h.2.insertAll states hstates⟩, hgrows.size_le, fun j hj => ?_, hgrows.info⟩
  obtain ⟨s, -, hs⟩ := hnames.exists_state hj
  exact lt_size_of_get? hs

theorem successors_meets (hp : p.Confined range kept broken) (h : Held range kept ⟨x, log⟩)
    (hid : id < x.table.size) :
    (successors p id).Meets ⟨x, log⟩ (fun ids l => Held range kept l ∧
      x.table.size ≤ l.state.table.size ∧
      ∀ j ∈ ids, j < l.state.table.size) (Broken range broken x.table.size) := by
  obtain ⟨facts, hfacts⟩ := exists_info?_of_lt hid
  obtain ⟨s, hs⟩ := exists_get?_of_lt hid
  rw [successors, meets_bind, meets_of_ok (facts_eq_ok.2 ⟨hfacts, rfl⟩)]
  cases hknown : facts.successors with
  | some ids =>
      refine ⟨h, Nat.le_refl _, fun j hj => h.2.facts id facts hfacts j ?_⟩
      simp [StateFacts.numbers, hknown, hj]
  | none =>
      -- both for a state without successors and for one with some, what is left is to note them
      have hrecord : ∀ y ylog ids, Held range kept ⟨y, ylog⟩ → y.table.info? id = some facts →
          (∀ j ∈ ids, j < y.table.size) → Held range kept
            ⟨{ y with table := y.table.modifyInfo id fun f => { f with successors := some ids }
                      expanded := y.expanded + 1 }, ylog⟩ := by
        intro y ylog ids hy hfacts hids
        have hnoted := hy.2.note (g := fun f => { f with successors := some ids }) hfacts
          fun j hj => ?_
        · exact ⟨hy.1, hnoted.table, hnoted.states, hnoted.initial, hnoted.facts⟩
        · rcases List.mem_append.1 hj with hj | hj
          · exact hids j hj
          · exact hy.2.facts id facts hfacts j (List.mem_append_right _ hj)
      dsimp only
      rw [meets_bind, meets_of_ok (state_eq_ok.2 ⟨hs, rfl⟩), meets_bind]
      refine h.call (hp.successors s _ (h.2.states id s hs) h.1) fun next m hm => ?_
      obtain ⟨hkept, hnext⟩ := hm
      have hm := h.remember hkept
      split
      · have hself : ∀ j ∈ [id], j < x.table.size := by simpa using hid
        rw [meets_bind, meets_pure, meets_bind, meets_note, meets_bind, meets_change, meets_pure]
        simp only [size_modifyInfo]
        exact ⟨hrecord _ _ _ hm hfacts hself, Nat.le_refl _, hself⟩
      · rw [meets_bind]
        refine (store_meets hm hnext).imp fun ids l hl => ?_
        obtain ⟨hheld, hle, hids, hinfo⟩ := hl
        rw [meets_bind, meets_note, meets_bind, meets_change, meets_pure]
        simp only [size_modifyInfo]
        exact ⟨hrecord _ _ _ hheld (hinfo id facts hfacts) hids, hle, hids⟩

theorem ample_meets (hp : p.Confined range kept broken) (h : Held range kept ⟨x, log⟩)
    (hid : id < x.table.size) :
    (ample p id).Meets ⟨x, log⟩ (fun set l => Held range kept l ∧
      x.table.size ≤ l.state.table.size ∧
      ∀ j ∈ set.getD [], j < l.state.table.size) (Broken range broken x.table.size) := by
  obtain ⟨facts, hfacts⟩ := exists_info?_of_lt hid
  obtain ⟨s, hs⟩ := exists_get?_of_lt hid
  rw [ample, meets_bind, meets_of_ok (facts_eq_ok.2 ⟨hfacts, rfl⟩)]
  cases hknown : facts.ample with
  | some set =>
      refine ⟨h, Nat.le_refl _, fun j hj => h.2.facts id facts hfacts j ?_⟩
      simp [StateFacts.numbers, hknown, hj]
  | none =>
      have hrecord : ∀ y ylog (set : Option (List Nat)), Held range kept ⟨y, ylog⟩ →
          y.table.info? id = some facts → (∀ j ∈ set.getD [], j < y.table.size) → Held range kept
            ⟨{ y with table := y.table.modifyInfo id fun f => { f with ample := some set } },
              ylog⟩ := by
        intro y ylog set hy hfacts hids
        refine ⟨hy.1, hy.2.note hfacts fun j hj => ?_⟩
        rcases List.mem_append.1 hj with hj | hj
        · exact hy.2.facts id facts hfacts j (List.mem_append_left _ hj)
        · exact hids j hj
      dsimp only
      rw [meets_bind, meets_of_ok (state_eq_ok.2 ⟨hs, rfl⟩), meets_bind]
      refine h.call (hp.ample s _ (h.2.states id s hs) h.1) fun reduced m hm => ?_
      obtain ⟨hkept, hstates⟩ := hm
      have hm := h.remember hkept
      split
      · rw [meets_bind, meets_pure, meets_bind, meets_note, meets_pure]
        simp only [size_modifyInfo]
        exact ⟨hrecord _ _ _ hm hfacts (by simp), Nat.le_refl _, by simp⟩
      · rw [meets_bind, meets_map]
        refine (store_meets hm hstates).imp fun ids l hl => ?_
        obtain ⟨hheld, hle, hids, hinfo⟩ := hl
        rw [meets_bind, meets_note, meets_pure]
        simp only [size_modifyInfo]
        exact ⟨hrecord _ _ _ hheld (hinfo id facts hfacts) hids, hle, hids⟩

omit [DecidableEq S] in
theorem entailsAll_meets {literals : List Formula} (hp : p.Confined range kept broken)
    (h : Held range kept ⟨x, log⟩) (hid : id < x.table.size)
    (hliterals : ∀ g ∈ literals, g.isLiteral = true) :
    (entailsAll p id literals).Meets ⟨x, log⟩ (fun _ l => Held range kept l ∧
      x.table.size ≤ l.state.table.size) (Broken range broken x.table.size) := by
  obtain ⟨facts, hfacts⟩ := exists_info?_of_lt hid
  obtain ⟨s, hs⟩ := exists_get?_of_lt hid
  have hask : ∀ y ylog, Held range kept ⟨y, ylog⟩ → y.table.get? id = some s →
      y.table.size = x.table.size →
      (state id >>= fun s => call (p.entailsAll s literals)).Meets ⟨y, ylog⟩
      (fun _ l => Held range kept l ∧
        x.table.size ≤ l.state.table.size) (Broken range broken x.table.size) := by
    intro y ylog hy hys hsize
    rw [meets_bind, meets_of_ok (state_eq_ok.2 ⟨hys, rfl⟩), ← hsize]
    exact hy.call (hp.entailsAll (h.2.states id s hs) hy.1 hliterals) fun _ m hm =>
      ⟨hy.remember hm, Nat.le_refl _⟩
  rw [entailsAll, meets_bind, meets_of_ok (facts_eq_ok.2 ⟨hfacts, rfl⟩)]
  split
  · rw [meets_bind, meets_note, meets_bind, meets_change]
    have hnoted := h.2.note (g := fun f => { f with evaluated := true }) hfacts
      (h.2.facts id facts hfacts)
    apply hask
    · exact ⟨h.1, hnoted.table, hnoted.states, hnoted.initial, hnoted.facts⟩
    · simpa using hs
    · simp
  · exact hask x log h hs rfl

end StateSpace

end TemporalCheck
