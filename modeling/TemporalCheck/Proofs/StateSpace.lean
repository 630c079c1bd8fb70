import TemporalCheck.Formula.Semantics
import TemporalCheck.Graph
import TemporalCheck.Proofs.StateTable
import TemporalCheck.Proofs.Task
import TemporalCheck.Property.State
import TemporalCheck.StateSpace

namespace TemporalCheck

/-- What a program says of its states; `none` where it fails. -/
structure Behaviour (S : Type) where
  initial : Option S
  successors : S → Option (List S)
  ample : S → Option (Option (List S))
  holds : S → String → Option Bool

namespace Behaviour

variable {S : Type}

/-- The program moves to a successor, or stays where it is if there is none. -/
def Step (b : Behaviour S) (s s' : S) : Prop :=
  ∃ next, b.successors s = some next ∧ (s' ∈ next ∨ next = [] ∧ s' = s)

structure IsRun (b : Behaviour S) (run : Nat → S) : Prop where
  start : b.initial = some (run 0)
  step : ∀ i, b.Step (run i) (run (i + 1))

def word (b : Behaviour S) (run : Nat → S) : Word := fun i p => b.holds (run i) p = some true

def entails (b : Behaviour S) (s : S) : Formula → Option Bool
  | .prop p => b.holds s p
  | .neg (.prop p) => (b.holds s p).map (! ·)
  | .top => some true
  | .bot => some false
  | _ => none

def Supports (b : Behaviour S) (s : S) (q : PropertyState) : Prop :=
  ∀ g ∈ q.literals, b.entails s g = some true

/-- Some literal of a property state fails in a program state. -/
def Refutes (b : Behaviour S) (s : S) (q : PropertyState) : Prop :=
  ∃ g ∈ q.literals, b.entails s g = some false

theorem Supports.not_refutes {b : Behaviour S} {s : S} {q : PropertyState} (h : b.Supports s q) :
    ¬ b.Refutes s q := by
  rintro ⟨g, hg, hfalse⟩
  simp [h g hg] at hfalse

/-- The states that may come next, a state without successors being its own. -/
def next? (b : Behaviour S) (s : S) : Option (List S) :=
  (b.successors s).map fun next => if next.isEmpty then [s] else next

/-- The ample set that counts: one that is not empty. -/
def ampleSet (b : Behaviour S) (s : S) : Option (List S) :=
  (b.ample s).join.filter fun states => !states.isEmpty

theorem ample_of_ampleSet {b : Behaviour S} {s : S} {states : List S}
    (h : b.ampleSet s = some states) :
    b.ample s = some (some states) := Option.join_eq_some_iff.1 (Option.eq_some_of_filter_eq_some h)

theorem step_iff {b : Behaviour S} {s s' : S} :
    b.Step s s' ↔ ∃ next, b.next? s = some next ∧ s' ∈ next := by
  simp only [Step, next?, Option.map_eq_some_iff]
  constructor
  · rintro ⟨next, hnext, hmem | ⟨rfl, rfl⟩⟩
    · refine ⟨next, ⟨next, hnext, ?_⟩, hmem⟩
      rw [if_neg]
      simpa using List.ne_nil_of_mem hmem
    · exact ⟨[s'], ⟨[], hnext, rfl⟩, List.mem_singleton.2 rfl⟩
  · rintro ⟨_, ⟨next, hnext, rfl⟩, hmem⟩
    refine ⟨next, hnext, ?_⟩
    cases next with
    | nil => exact .inr ⟨rfl, by simpa using hmem⟩
    | cons => exact .inl hmem

end Behaviour

namespace Program

variable {W S : Type} {p : Program W S} {valid : W → Prop} {b : Behaviour S}

/-- A deterministic program: from a valid memory, whatever it answers is what `b` says, and the
memory stays valid. It may fail. -/
structure Behaves (p : Program W S) (valid : W → Prop) (b : Behaviour S) : Prop where
  initial : ∀ l s l', valid l.state → p.initial l = .ok s l' → b.initial = some s ∧ valid l'.state
  successors : ∀ s l next l', valid l.state → p.successors s l = .ok next l' →
    b.successors s = some next ∧ valid l'.state
  ample : ∀ s l set l', valid l.state → p.ample s l = .ok set l' → b.ample s = some set ∧
    valid l'.state
  holds : ∀ s name l v l', valid l.state → p.holds s name l = .ok v l' → b.holds s name = some v ∧
    valid l'.state

theorem entails_spec {s : S} {f : Formula} {l l' : Logged W} {v : Bool} (hp : p.Behaves valid b)
    (hl : valid l.state) (hok : p.entails s f l = .ok v l') :
    b.entails s f = some v ∧ valid l'.state := by
  unfold entails at hok
  split at hok
  · exact hp.holds _ _ _ _ _ hl hok
  · simp only [Task.bind_eq_ok, Task.pure_eq_ok] at hok
    obtain ⟨u, m, hu, rfl, rfl⟩ := hok
    obtain ⟨hb, hm⟩ := hp.holds _ _ _ _ _ hl hu
    exact ⟨by simp [Behaviour.entails, hb], hm⟩
  · obtain ⟨rfl, rfl⟩ := Task.pure_eq_ok.1 hok
    exact ⟨rfl, hl⟩
  · obtain ⟨rfl, rfl⟩ := Task.pure_eq_ok.1 hok
    exact ⟨rfl, hl⟩
  · simp at hok

theorem entailsAll_spec {s : S} {fs : List Formula} {l l' : Logged W} {v : Bool}
    (hp : p.Behaves valid b) (hl : valid l.state) (hok : p.entailsAll s fs l = .ok v l') :
    valid l'.state ∧ (v = true → ∀ f ∈ fs, b.entails s f = some true) ∧
      (v = false → ∃ f ∈ fs, b.entails s f = some false) := by
  induction fs generalizing l with
  | nil =>
      obtain ⟨rfl, rfl⟩ := Task.pure_eq_ok.1 hok
      exact ⟨hl, by simp, by simp⟩
  | cons f fs ih =>
      simp only [entailsAll, Task.bind_eq_ok] at hok
      obtain ⟨u, m, hu, hok⟩ := hok
      obtain ⟨hf, hm⟩ := entails_spec hp hl hu
      cases u with
      | true =>
          obtain ⟨hl', htrue, hfalse⟩ := ih hm hok
          refine ⟨hl', fun hv => by simpa [hf] using htrue hv, fun hv => ?_⟩
          obtain ⟨g, hg, hgf⟩ := hfalse hv
          exact ⟨g, List.mem_cons_of_mem f hg, hgf⟩
      | false =>
          obtain ⟨rfl, rfl⟩ := Task.pure_eq_ok.1 hok
          exact ⟨hm, by simp, fun _ => ⟨f, List.mem_cons_self, hf⟩⟩

end Program

namespace Graph

def behaviour (g : Graph) (labels : List (UInt32 × String)) : Behaviour UInt32 where
  initial := some g.initial
  successors node := some (g.successorsOf node)
  ample node := some (g.ampleOf node)
  holds node p := some (decide ((node, p) ∈ labels))

theorem behaves (g : Graph) (labels : List (UInt32 × String)) :
    (program labels).Behaves (· = g) (g.behaviour labels) := by
  constructor
  · rintro l s l' rfl hok
    simp only [program, Task.bind_eq_ok, Task.read_eq_ok, Task.pure_eq_ok] at hok
    obtain ⟨_, _, ⟨rfl, rfl⟩, rfl, rfl⟩ := hok
    exact ⟨rfl, rfl⟩
  · rintro s l next l' rfl hok
    simp only [program, Task.bind_eq_ok, Task.read_eq_ok, Task.pure_eq_ok] at hok
    obtain ⟨_, _, ⟨rfl, rfl⟩, rfl, rfl⟩ := hok
    exact ⟨rfl, rfl⟩
  · rintro s l set l' rfl hok
    simp only [program, Task.bind_eq_ok, Task.read_eq_ok, Task.pure_eq_ok] at hok
    obtain ⟨_, _, ⟨rfl, rfl⟩, rfl, rfl⟩ := hok
    exact ⟨rfl, rfl⟩
  · rintro s name l v l' rfl hok
    simp only [program, Task.pure_eq_ok] at hok
    obtain ⟨rfl, rfl⟩ := hok
    exact ⟨rfl, rfl⟩

end Graph

namespace StateSpace

open StateTable

variable {W S : Type} {p : Program W S} {valid : W → Prop} {b : Behaviour S}
  {x x' x'' : StateSpace W S} {id : Nat} {log log' : List LogEvent}

theorem names_rel_mono {t t' : StateTable S StateFacts} {set : Option (List Nat)}
    {states : Option (List S)} (h : Option.Rel t.Names set states)
    (hget : ∀ id s, t.get? id = some s → t'.get? id = some s) : Option.Rel t'.Names set states := by
  cases h with
  | some hnames => exact .some (hnames.mono hget)
  | none => exact .none

structure FactsSound (b : Behaviour S) (t : StateTable S StateFacts) (s : S) (facts : StateFacts) :
    Prop where
  successors : ∀ ids, facts.successors = some ids → ∃ next, b.next? s = some next ∧ t.Names ids next
  ample : ∀ set, facts.ample = some set → Option.Rel t.Names set (b.ampleSet s)

theorem FactsSound.mono {t t' : StateTable S StateFacts} {s : S} {facts : StateFacts}
    (h : FactsSound b t s facts) (hget : ∀ id s, t.get? id = some s → t'.get? id = some s) :
    FactsSound b t' s facts := by
  constructor
  · intro ids hids
    obtain ⟨next, hnext, hnames⟩ := h.successors ids hids
    exact ⟨next, hnext, hnames.mono hget⟩
  · intro set hset
    exact names_rel_mono (h.ample set hset) hget

theorem factsSound_default (t : StateTable S StateFacts) (s : S) : FactsSound b t s default :=
  ⟨by rintro ids ⟨⟩, by rintro set ⟨⟩⟩

section

variable [HasDigest S]

structure Sound (valid : W → Prop) (b : Behaviour S) (x : StateSpace W S) : Prop where
  memory : valid x.memory
  table : x.table.WellFormed
  initial : ∀ id, x.initial? = some id → ∃ s, b.initial = some s ∧ x.table.get? id = some s
  facts : ∀ id s facts, x.table.get? id = some s → x.table.info? id = some facts →
    FactsSound b x.table s facts

def Grows (x x' : StateSpace W S) : Prop :=
  ∀ id s, x.table.get? id = some s → x'.table.get? id = some s

theorem sound_start {memory : W} (hmemory : valid memory) :
    Sound valid b ({ memory := memory } : StateSpace W S) :=
  ⟨hmemory, wellFormed_empty, by rintro id ⟨⟩, fun id s facts h => by cases h⟩

theorem Sound.note (h : Sound valid b x) (id : Nat) (f : StateFacts → StateFacts)
    (hf : ∀ s facts, x.table.get? id = some s → FactsSound b x.table s facts →
      FactsSound b x.table s (f facts)) :
    Sound valid b { x with table := x.table.modifyInfo id f } := by
  have hget : ∀ j s, x.table.get? j = some s → (x.table.modifyInfo id f).get? j = some s := by simp
  refine ⟨h.memory, h.table.modifyInfo id f, fun j hj => ?_, fun j s facts hj hfacts => ?_⟩
  · obtain ⟨s, hs, hj⟩ := h.initial j hj
    exact ⟨s, hs, hget j s hj⟩
  · rw [get?_modifyInfo] at hj
    by_cases hij : id = j
    · subst hij
      obtain ⟨old, hold⟩ := exists_info?_of_lt (lt_size_of_get? hj)
      rw [info?_modifyInfo_self f hold, Option.some.injEq] at hfacts
      subst hfacts
      exact (hf s old hj (h.facts id s old hj hold)).mono hget
    · rw [info?_modifyInfo_of_ne f hij] at hfacts
      exact (h.facts j s facts hj hfacts).mono hget

theorem Sound.remember (h : Sound valid b x) {memory : W} (hmemory : valid memory) :
    Sound valid b { x with memory := memory } :=
  ⟨hmemory, h.table, h.initial, h.facts⟩

end

theorem call_eq_ok {α : Type} {t : Task W α} {l l' : Logged (StateSpace W S)} {a : α} :
    call t l = .ok a l' ↔
      ∃ m, t ⟨l.state.memory, l.log⟩ = .ok a m ∧
        l' = ⟨{ l.state with memory := m.state }, m.log⟩ := by
  obtain ⟨⟨memory, table, initial, n, k, d⟩, log⟩ := l
  simp only [call]
  split <;> simp_all [eq_comm]

theorem state_eq_ok {l l' : Logged (StateSpace W S)} {s : S} :
    state id l = .ok s l' ↔ l.state.table.get? id = some s ∧ l = l' := by
  simp only [state, Task.bind_eq_ok, Task.read_eq_ok, Task.require_eq_ok]
  constructor
  · rintro ⟨_, _, ⟨rfl, rfl⟩, hs, rfl⟩
    exact ⟨hs, rfl⟩
  · rintro ⟨hs, rfl⟩
    exact ⟨_, _, ⟨rfl, rfl⟩, hs, rfl⟩

theorem facts_eq_ok {l l' : Logged (StateSpace W S)} {facts : StateFacts} :
    StateSpace.facts id l = .ok facts l' ↔ l.state.table.info? id = some facts ∧ l = l' := by
  simp only [StateSpace.facts, Task.bind_eq_ok, Task.read_eq_ok, Task.require_eq_ok]
  constructor
  · rintro ⟨_, _, ⟨rfl, rfl⟩, hs, rfl⟩
    exact ⟨hs, rfl⟩
  · rintro ⟨hs, rfl⟩
    exact ⟨_, _, ⟨rfl, rfl⟩, hs, rfl⟩

theorem note_eq_ok {l l' : Logged (StateSpace W S)} {f : StateFacts → StateFacts} {u : Unit} :
    note id f l = .ok u l' ↔ l' =
      ⟨{ l.state with table := l.state.table.modifyInfo id f }, l.log⟩ :=
  Task.change_eq_ok

theorem entailsAll_spec [HasDigest S] {literals : List Formula} {v : Bool} (hp : p.Behaves valid b)
    (h : Sound valid b x) (hok : entailsAll p id literals ⟨x, log⟩ = .ok v ⟨x', log'⟩) :
    Sound valid b x' ∧ Grows x x' ∧ ∃ s, x.table.get? id = some s ∧
      (v = true → ∀ f ∈ literals, b.entails s f = some true) ∧
      (v = false → ∃ f ∈ literals, b.entails s f = some false) := by
  simp only [entailsAll, Task.bind_eq_ok, facts_eq_ok] at hok
  obtain ⟨facts, _, ⟨hfacts, rfl⟩, hok⟩ := hok
  -- whether the state counts as evaluated changes nothing that is remembered of it
  obtain ⟨y, hy, hget, s, m, hs, hm, hx⟩ : ∃ y : StateSpace W S, Sound valid b y ∧
      (∀ j, y.table.get? j = x.table.get? j) ∧ ∃ s m, y.table.get? id = some s ∧
      p.entailsAll s literals ⟨y.memory, log⟩ = .ok v m ∧ x' = { y with memory := m.state } := by
    split at hok
    · simp only [Task.bind_eq_ok, note_eq_ok, Task.change_eq_ok, state_eq_ok, call_eq_ok] at hok
      obtain ⟨_, _, rfl, _, _, rfl, s, _, ⟨hs, rfl⟩, m, hm, hx⟩ := hok
      have hnoted := h.note id (fun f => { f with evaluated := true }) fun s facts hs hfacts =>
        ⟨hfacts.successors, hfacts.ample⟩
      cases hx
      refine ⟨{ x with
        table := x.table.modifyInfo id fun f => { f with evaluated := true }
        evaluated := x.evaluated + 1 }, ?_, by simp, s, m, hs, hm, rfl⟩
      exact ⟨hnoted.memory, hnoted.table, hnoted.initial, hnoted.facts⟩
    · simp only [Task.bind_eq_ok, state_eq_ok, call_eq_ok] at hok
      obtain ⟨s, _, ⟨hs, rfl⟩, m, hm, hx⟩ := hok
      cases hx
      exact ⟨_, h, fun _ => rfl, s, m, hs, hm, rfl⟩
  subst hx
  obtain ⟨hmem, htrue, hfalse⟩ := Program.entailsAll_spec hp hy.memory hm
  exact ⟨hy.remember hmem, fun j s hj => (hget j).trans hj, s, hget id ▸ hs, htrue, hfalse⟩

variable [DecidableEq S] [HasDigest S]

theorem Sound.store (h : Sound valid b x) (states : List S) :
    Sound valid b { x with table := (x.table.insertAll states).2 } ∧
      Grows x { x with table := (x.table.insertAll states).2 } ∧
      (x.table.insertAll states).2.Names (x.table.insertAll states).1 states := by
  obtain ⟨hwf, hgrows, hnames⟩ := h.table.insertAll states
  refine ⟨⟨h.memory, hwf, fun j hj => ?_, fun j s facts hj hfacts => ?_⟩, hgrows.get, hnames⟩
  · obtain ⟨s, hs, hj⟩ := h.initial j hj
    exact ⟨s, hs, hgrows.get j s hj⟩
  · cases hold : x.table.info? j with
    | none =>
        obtain rfl := hgrows.fresh j facts hold hfacts
        exact factsSound_default _ s
    | some old =>
        obtain ⟨s', hs'⟩ := exists_get?_of_lt (lt_size_of_info? hold)
        have hget := hgrows.get j s' hs'
        rw [hj, Option.some.injEq] at hget
        subst hget
        have hinfo := hgrows.info j old hold
        rw [hfacts, Option.some.injEq] at hinfo
        subst hinfo
        exact (h.facts j s facts hs' hold).mono hgrows.get

theorem store_eq_ok {l l' : Logged (StateSpace W S)} {states : List S} {ids : List Nat} :
    StateSpace.store states l = .ok ids l' ↔ (l.state.table.insertAll states).1 = ids ∧
      l' = ⟨{ l.state with table := (l.state.table.insertAll states).2 }, l.log⟩ := by
  simp only [StateSpace.store, Task.bind_eq_ok, Task.read_eq_ok, Task.change_eq_ok, Task.pure_eq_ok]
  constructor
  · rintro ⟨_, _, ⟨rfl, rfl⟩, _, _, rfl, rfl, rfl⟩
    exact ⟨rfl, rfl⟩
  · rintro ⟨rfl, rfl⟩
    exact ⟨_, _, ⟨rfl, rfl⟩, (), _, rfl, rfl, rfl⟩

theorem initial_spec (hp : p.Behaves valid b) (h : Sound valid b x)
    (hok : initial p ⟨x, log⟩ = .ok id ⟨x', log'⟩) :
    Sound valid b x' ∧ Grows x x' ∧ ∃ s, b.initial = some s ∧ x'.table.get? id = some s := by
  simp only [initial, Task.bind_eq_ok, Task.read_eq_ok] at hok
  obtain ⟨_, _, ⟨rfl, rfl⟩, hok⟩ := hok
  cases hfirst : x.initial? with
  | some first =>
      simp only [hfirst, Task.pure_eq_ok, Logged.mk.injEq] at hok
      obtain ⟨rfl, rfl, -⟩ := hok
      exact ⟨h, fun _ _ hs => hs, h.initial _ hfirst⟩
  | none =>
      simp only [hfirst, Task.bind_eq_ok, call_eq_ok, Task.read_eq_ok, Task.change_eq_ok,
        Task.pure_eq_ok] at hok
      obtain ⟨s, _, ⟨m, hm, rfl⟩, _, _, ⟨rfl, rfl⟩, _, _, rfl, rfl, hx⟩ := hok
      cases hx
      obtain ⟨hs, hmem⟩ := hp.initial _ _ _ h.memory hm
      obtain ⟨hwf, hgrows, hget⟩ := h.table.insert s
      have hstored := (h.remember hmem).store [s]
      refine ⟨⟨hmem, hwf, ?_, hstored.1.facts⟩, hgrows.get, s, hs, hget⟩
      rintro _ ⟨⟩
      exact ⟨s, hs, hget⟩

theorem successors_spec {ids : List Nat} (hp : p.Behaves valid b) (h : Sound valid b x)
    (hok : successors p id ⟨x, log⟩ = .ok ids ⟨x', log'⟩) :
    Sound valid b x' ∧ Grows x x' ∧
      ∃ s next, x.table.get? id = some s ∧ b.next? s = some next ∧ x'.table.Names ids next := by
  simp only [successors, Task.bind_eq_ok, facts_eq_ok] at hok
  obtain ⟨facts, _, ⟨hfacts, rfl⟩, hok⟩ := hok
  obtain ⟨s, hs⟩ := exists_get?_of_lt (lt_size_of_info? hfacts)
  cases hknown : facts.successors with
  | some known =>
      simp only [hknown, Task.pure_eq_ok, Logged.mk.injEq] at hok
      obtain ⟨rfl, rfl, -⟩ := hok
      obtain ⟨next, hnext, hnames⟩ := (h.facts id s facts hs hfacts).successors _ hknown
      exact ⟨h, fun _ _ hs => hs, s, next, hs, hnext, hnames⟩
  | none =>
      simp only [hknown, Task.bind_eq_ok, state_eq_ok, call_eq_ok] at hok
      obtain ⟨s', _, ⟨hs', rfl⟩, next, _, ⟨m, hm, rfl⟩, hok⟩ := hok
      rw [hs, Option.some.injEq] at hs'
      subst hs'
      obtain ⟨hnext, hmem⟩ := hp.successors _ _ _ _ h.memory hm
      have hsound := h.remember hmem
      -- the numbers stand for the next states in a space that has grown; it is left to note them
      obtain ⟨y, hy, hgrows, hnames, hx'⟩ : ∃ y : StateSpace W S, Sound valid b y ∧ Grows x y ∧
          y.table.Names ids (if next.isEmpty then [s] else next) ∧
          x' = { y with table := y.table.modifyInfo id fun f => { f with successors := some ids }
                        expanded := y.expanded + 1 } := by
        split at hok
        · rename_i hempty
          simp only [Task.bind_eq_ok, Task.pure_eq_ok, note_eq_ok, Task.change_eq_ok] at hok
          obtain ⟨_, _, ⟨rfl, rfl⟩, _, _, rfl, _, _, rfl, rfl, hx⟩ := hok
          cases hx
          exact ⟨_, hsound, fun _ _ h => h, by simpa [hempty] using Names.cons hs .nil, rfl⟩
        · rename_i hempty
          simp only [Task.bind_eq_ok, store_eq_ok, note_eq_ok, Task.change_eq_ok,
            Task.pure_eq_ok] at hok
          obtain ⟨_, _, ⟨rfl, rfl⟩, _, _, rfl, _, _, rfl, rfl, hx⟩ := hok
          cases hx
          obtain ⟨hstored, hgrows, hnames⟩ := hsound.store next
          exact ⟨_, hstored, hgrows, by simpa [hempty] using hnames, rfl⟩
      subst hx'
      have hnext? : b.next? s = some (if next.isEmpty then [s] else next) := by
        simp [Behaviour.next?, hnext]
      have hnoted := hy.note id (fun f => { f with successors := some ids })
        fun s' facts hs' hfacts => by
        rw [hgrows id s hs, Option.some.injEq] at hs'
        subst hs'
        refine ⟨?_, hfacts.ample⟩
        rintro _ ⟨⟩
        exact ⟨_, hnext?, hnames⟩
      refine ⟨⟨hnoted.memory, hnoted.table, hnoted.initial, hnoted.facts⟩, fun j s hj => ?_, s, _,
        hs, hnext?, ?_⟩
      · simpa using hgrows j s hj
      · exact hnames.mono (by simp)

theorem ample_spec {set : Option (List Nat)} (hp : p.Behaves valid b) (h : Sound valid b x)
    (hok : ample p id ⟨x, log⟩ = .ok set ⟨x', log'⟩) :
    Sound valid b x' ∧ Grows x x' ∧
      ∃ s, x.table.get? id = some s ∧ Option.Rel x'.table.Names set (b.ampleSet s) := by
  simp only [ample, Task.bind_eq_ok, facts_eq_ok] at hok
  obtain ⟨facts, _, ⟨hfacts, rfl⟩, hok⟩ := hok
  obtain ⟨s, hs⟩ := exists_get?_of_lt (lt_size_of_info? hfacts)
  cases hknown : facts.ample with
  | some known =>
      simp only [hknown, Task.pure_eq_ok, Logged.mk.injEq] at hok
      obtain ⟨rfl, rfl, -⟩ := hok
      exact ⟨h, fun _ _ hs => hs, s, hs, (h.facts id s facts hs hfacts).ample _ hknown⟩
  | none =>
      simp only [hknown, Task.bind_eq_ok, state_eq_ok, call_eq_ok] at hok
      obtain ⟨s', _, ⟨hs', rfl⟩, answer, _, ⟨m, hm, rfl⟩, hok⟩ := hok
      rw [hs, Option.some.injEq] at hs'
      subst hs'
      obtain ⟨hanswer, hmem⟩ := hp.ample _ _ _ _ h.memory hm
      have hsound := h.remember hmem
      obtain ⟨y, hy, hgrows, hnames, hx'⟩ : ∃ y : StateSpace W S, Sound valid b y ∧ Grows x y ∧
          Option.Rel y.table.Names set (b.ampleSet s) ∧
          x' = { y with table := y.table.modifyInfo id fun f => { f with ample := some set } } := by
        cases hstates : answer.getD [] with
        | nil =>
            simp only [hstates, Task.bind_eq_ok, Task.pure_eq_ok, note_eq_ok] at hok
            obtain ⟨_, _, ⟨rfl, rfl⟩, _, _, rfl, rfl, hx⟩ := hok
            cases hx
            have hnone : b.ampleSet s = none := by
              cases answer <;> simp_all [Behaviour.ampleSet]
            exact ⟨_, hsound, fun _ _ h => h, hnone ▸ .none, rfl⟩
        | cons first rest =>
            simp only [hstates, Task.bind_eq_ok, Task.map_eq_ok, store_eq_ok, note_eq_ok,
              Task.pure_eq_ok] at hok
            obtain ⟨_, _, ⟨_, ⟨rfl, rfl⟩, rfl⟩, _, _, rfl, rfl, hx⟩ := hok
            cases hx
            obtain ⟨hstored, hgrows, hnames⟩ := hsound.store (first :: rest)
            have hsome : b.ampleSet s = some (first :: rest) := by
              cases answer <;> simp_all [Behaviour.ampleSet]
            exact ⟨_, hstored, hgrows, hsome ▸ .some hnames, rfl⟩
      subst hx'
      have hget : ∀ j s, y.table.get? j = some s →
          (y.table.modifyInfo id fun f => { f with ample := some set }).get? j = some s := by simp
      have hnoted := hy.note id (fun f => { f with ample := some set })
        fun s' facts hs' hfacts => by
        rw [hgrows id s hs, Option.some.injEq] at hs'
        subst hs'
        refine ⟨hfacts.successors, fun set' hset' => ?_⟩
        exact Option.some.inj hset' ▸ hnames
      exact ⟨hnoted, fun j s hj => hget j s (hgrows j s hj), s, hs, names_rel_mono hnames hget⟩

end StateSpace

end TemporalCheck
