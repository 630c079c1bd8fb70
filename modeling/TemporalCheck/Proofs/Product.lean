import TemporalCheck.Proofs.NestedSearch
import TemporalCheck.Proofs.PropertyAutomaton
import TemporalCheck.Proofs.StateSpace

namespace TemporalCheck

open PropertyState

structure Place (S : Type) where
  program : S
  property : PropertyState
  phase : Nat
  root : Bool

namespace Place

variable {S : Type}

/-- Is a property state in an acceptance set of the automaton of `f`? -/
def meets (f : Formula) (q : PropertyState) (set : Nat) : Bool :=
  (f.promises[set]?).all (PropertyAutomaton.keeps q)

def phaseAfter (f : Formula) (q : PropertyState) (phase : Nat) : Nat :=
  if f.promises.length = 0 then 0
  else if meets f q phase then (phase + 1) % f.promises.length
  else phase

def nextPhase (f : Formula) (u : Place S) : Nat :=
  if u.root then 0 else phaseAfter f u.property u.phase

def Accepts (f : Formula) (q : PropertyState) (phase : Nat) : Prop :=
  f.promises.length = 0 ∨ phase = 0 ∧ meets f q 0 = true

def Accepting (f : Formula) (u : Place S) : Prop := u.root = false ∧ Accepts f u.property u.phase

structure Leads (f : Formula) (targets : List S) (u v : Place S) : Prop where
  program : v.program ∈ targets
  property : v.property ∈ cover u.property.obligations
  phase : v.phase = u.nextPhase f
  root : v.root = false

end Place

namespace Search

open StateTable

variable {W S : Type}

structure Stands (x : Search W S) (n : ProductNode) (u : Place S) : Prop where
  program : x.space.table.get? n.program = some u.program
  property : x.property.table.get? n.property = some u.property
  phase : n.phase = u.phase
  root : n.root = u.root

def Stores (x : Search W S) (id : Nat) (u : Place S) : Prop :=
  ∃ n, x.nodes.get? id = some n ∧ x.Stands n u

def marks (x : Search W S) : Marks := ⟨fun id => (x.nodes.info? id).getD default, x.path⟩

structure Grows (x x' : Search W S) : Prop where
  space : x.space.Grows x'.space
  property : x.property.Grows x'.property
  nodes : ∀ id n, x.nodes.get? id = some n → x'.nodes.get? id = some n
  reduction : x'.reduction = x.reduction

variable {x x' x'' : Search W S} {n : ProductNode} {u v : Place S} {id : Nat}

namespace Grows

theorem refl (x : Search W S) : Grows x x := ⟨fun _ _ h => h, .refl _, fun _ _ h => h, rfl⟩

theorem trans (h : Grows x x') (h' : Grows x' x'') : Grows x x'' :=
  ⟨fun id s hs => h'.space id s (h.space id s hs), h.property.trans h'.property,
    fun id n hn => h'.nodes id n (h.nodes id n hn), h'.reduction.trans h.reduction⟩

theorem stands (h : Grows x x') (hn : x.Stands n u) : x'.Stands n u :=
  ⟨h.space _ _ hn.program, h.property.get _ _ hn.property, hn.phase, hn.root⟩

theorem stores (h : Grows x x') (hid : x.Stores id u) : x'.Stores id u := by
  obtain ⟨n, hn, hu⟩ := hid
  exact ⟨n, h.nodes id n hn, h.stands hu⟩

end Grows

theorem Stands.unique (h : x.Stands n u) (h' : x.Stands n v) : u = v := by
  obtain ⟨s, q, phase, root⟩ := u
  obtain ⟨s', q', phase', root'⟩ := v
  have hs := h.program.symm.trans h'.program
  have hq := h.property.symm.trans h'.property
  have hphase := h.phase.symm.trans h'.phase
  have hroot := h.root.symm.trans h'.root
  simp_all

theorem Stores.unique (h : x.Stores id u) (h' : x.Stores id v) : u = v := by
  obtain ⟨n, hn, hu⟩ := h
  obtain ⟨n', hn', hv⟩ := h'
  rw [hn, Option.some.injEq] at hn'
  subst hn'
  exact hu.unique hv

/-- The nodes after `u` if the program moves to one of `targets`: all that no literal speaks
against, and only those that all literals speak for. -/
structure Yields (b : Behaviour S) (f : Formula) (x : Search W S) (u : Place S) (targets : List S)
    (nodes : List ProductNode) : Prop where
  sound : ∀ n ∈ nodes, ∃ v, x.Stands n v ∧ u.Leads f targets v ∧ b.Supports v.program v.property
  complete : ∀ v, u.Leads f targets v → ¬ b.Refutes v.program v.property → ∃ n ∈ nodes, x.Stands n v

theorem Yields.mono {b : Behaviour S} {f : Formula} {targets : List S} {nodes : List ProductNode}
    (h : Yields b f x u targets nodes) (hgrows : Grows x x') : Yields b f x' u targets nodes := by
  refine ⟨fun n hn => ?_, fun v hv href => ?_⟩
  · obtain ⟨v, hv, hleads⟩ := h.sound n hn
    exact ⟨v, hgrows.stands hv, hleads⟩
  · obtain ⟨n, hn, hnv⟩ := h.complete v hv href
    exact ⟨n, hn, hgrows.stands hnv⟩

/-- Where the program may move to from a place, by an ample set or by all its successors. The
root only waits for the first state. -/
def Targets (b : Behaviour S) (u : Place S) (reduced : Bool) (targets : List S) : Prop :=
  if reduced then u.root = false ∧ b.ample u.program = some (some targets)
  else if u.root then targets = [u.program]
  else b.next? u.program = some targets

def Recorded (b : Behaviour S) (f : Formula) (x : Search W S) (u : Place S) (facts : NodeFacts)
    (ids : List Nat) : Prop :=
  ∃ reduced targets nodes, facts.reduced = some reduced ∧ (reduced = true → x.reduction = true) ∧
    Targets b u reduced targets ∧ Yields b f x u targets nodes ∧ x.nodes.Names ids nodes

theorem Recorded.mono {b : Behaviour S} {f : Formula} {facts : NodeFacts} {ids : List Nat}
    (h : Recorded b f x u facts ids) (hgrows : Grows x x') : Recorded b f x' u facts ids := by
  obtain ⟨reduced, targets, nodes, hreduced, hallowed, htargets, hyields, hids⟩ := h
  exact ⟨reduced, targets, nodes, hreduced, fun hr => hgrows.reduction.trans (hallowed hr),
    htargets, hyields.mono hgrows, hids.mono hgrows.nodes⟩

/-- A search for the violations of the negation of `f` in a program that behaves like `b`. -/
structure Sound [HasDigest S] (valid : W → Prop) (b : Behaviour S) (f : Formula) (x : Search W S) :
    Prop where
  space : x.space.Sound valid b
  property : x.property.Sound f
  nodes : x.nodes.WellFormed
  stands : ∀ id n, x.nodes.get? id = some n → ∃ u, x.Stands n u
  expanded : ∀ id u ids, x.Stores id u → (x.marks.facts id).successors = some ids →
    Recorded b f x u (x.marks.facts id) ids

section

variable {α : Type} {p : Program W S} {valid : W → Prop} {b : Behaviour S} {f : Formula}
  {log log' : List LogEvent}

theorem inSpace_eq_ok {t : Task (StateSpace W S) α} {l l' : Logged (Search W S)} {a : α} :
    inSpace t l = .ok a l' ↔
      ∃ m, t ⟨l.state.space, l.log⟩ = .ok a m ∧
        l' = ⟨{ l.state with space := m.state }, m.log⟩ := by
  obtain ⟨⟨space, q, r, pt, n, path, v, tr, i, rd, k⟩, log⟩ := l
  simp only [inSpace]
  split <;> simp_all [eq_comm]

theorem inProperty_eq_ok {t : Task PropertyAutomaton α} {l l' : Logged (Search W S)} {a : α} :
    inProperty t l = .ok a l' ↔
      ∃ m, t ⟨l.state.property, l.log⟩ = .ok a m ∧
        l' = ⟨{ l.state with property := m.state }, m.log⟩ := by
  obtain ⟨⟨space, q, r, pt, n, path, v, tr, i, rd, k⟩, log⟩ := l
  simp only [inProperty]
  split <;> simp_all [eq_comm]

theorem node_eq_ok {l l' : Logged (Search W S)} :
    node id l = .ok n l' ↔ l.state.nodes.get? id = some n ∧ l = l' := by
  simp only [node, Task.bind_eq_ok, Task.read_eq_ok, Task.require_eq_ok]
  constructor
  · rintro ⟨_, _, ⟨rfl, rfl⟩, hn, rfl⟩
    exact ⟨hn, rfl⟩
  · rintro ⟨hn, rfl⟩
    exact ⟨_, _, ⟨rfl, rfl⟩, hn, rfl⟩

theorem facts_eq_ok {l l' : Logged (Search W S)} {facts : NodeFacts} :
    Search.facts id l = .ok facts l' ↔ l.state.nodes.info? id = some facts ∧ l = l' := by
  simp only [Search.facts, Task.bind_eq_ok, Task.read_eq_ok, Task.require_eq_ok]
  constructor
  · rintro ⟨_, _, ⟨rfl, rfl⟩, hn, rfl⟩
    exact ⟨hn, rfl⟩
  · rintro ⟨hn, rfl⟩
    exact ⟨_, _, ⟨rfl, rfl⟩, hn, rfl⟩

theorem note_eq_ok {l l' : Logged (Search W S)} {g : NodeFacts → NodeFacts} {o : Unit} :
    note id g l = .ok o l' ↔ l' =
      ⟨{ l.state with nodes := l.state.nodes.modifyInfo id g }, l.log⟩ :=
  Task.change_eq_ok

theorem store_eq_ok {l l' : Logged (Search W S)} {nodes : List ProductNode} {ids : List Nat} :
    store nodes l = .ok ids l' ↔ (l.state.nodes.insertAll nodes).1 = ids ∧
      l' = ⟨{ l.state with nodes := (l.state.nodes.insertAll nodes).2 }, l.log⟩ := by
  simp only [store, Task.bind_eq_ok, Task.read_eq_ok, Task.change_eq_ok, Task.pure_eq_ok]
  constructor
  · rintro ⟨_, _, ⟨rfl, rfl⟩, _, _, rfl, rfl, rfl⟩
    exact ⟨rfl, rfl⟩
  · rintro ⟨rfl, rfl⟩
    exact ⟨_, _, ⟨rfl, rfl⟩, (), _, rfl, rfl, rfl⟩

theorem propertyState_eq_ok {q : PropertyState} {l l' : Logged PropertyAutomaton} :
    PropertyAutomaton.state id l = .ok q l' ↔ l.state.table.get? id = some q ∧ l = l' := by
  simp only [PropertyAutomaton.state, Task.bind_eq_ok, Task.read_eq_ok, Task.require_eq_ok]
  constructor
  · rintro ⟨_, _, ⟨rfl, rfl⟩, hq, rfl⟩
    exact ⟨hq, rfl⟩
  · rintro ⟨hq, rfl⟩
    exact ⟨_, _, ⟨rfl, rfl⟩, hq, rfl⟩

theorem accepts?_eq_meets {a : PropertyAutomaton} {q : PropertyState}
    (ha : PropertyAutomaton.Sound f a) (hq : a.table.get? id = some q) (set : Nat) :
    a.accepts? id set = some (Place.meets f q set) := by
  cases hp : f.promises[set]? with
  | none => simp [PropertyAutomaton.accepts?, ha.promises, Place.meets, hp]
  | some p => simp [PropertyAutomaton.accepts?_eq_some_iff ha hp hq, Place.meets, hp]

/-- The phase after a node: `0` after the root and without acceptance sets, else the next one if the
set of the phase is met. -/
theorem nextPhase_of_ok {phase : Nat} {l l' : Logged (Search W S)}
    (hok : nextPhase n l = .ok phase l') :
    l' = l ∧ phase = if n.root then 0 else if l.state.property.acceptanceCount = 0 then 0
      else if l.state.property.accepts? n.property n.phase = some true then
        (n.phase + 1) % l.state.property.acceptanceCount
      else n.phase := by
  simp only [nextPhase, Task.bind_eq_ok, Task.read_eq_ok] at hok
  obtain ⟨_, _, ⟨rfl, rfl⟩, hok⟩ := hok
  by_cases hzero : n.root = true ∨ l.state.property.acceptanceCount = 0
  · rw [if_pos (by simpa using hzero), Task.pure_eq_ok] at hok
    obtain ⟨rfl, rfl⟩ := hok
    rcases hzero with hroot | hzero
    · simp [hroot]
    · simp [hzero]
  · rw [if_neg (by simpa using hzero)] at hok
    rw [not_or] at hzero
    simp only [Task.bind_eq_ok, Task.require_eq_ok] at hok
    obtain ⟨v, _, ⟨hv, rfl⟩, hok⟩ := hok
    rw [if_neg hzero.1, if_neg hzero.2, hv]
    cases v with
    | true =>
        obtain ⟨rfl, rfl⟩ := Task.pure_eq_ok.1 hok
        exact ⟨rfl, rfl⟩
    | false =>
        obtain ⟨rfl, rfl⟩ := Task.pure_eq_ok.1 hok
        exact ⟨rfl, rfl⟩

theorem nextPhase_spec {phase : Nat} (ha : x.property.Sound f) (hn : x.Stands n u)
    (hok : nextPhase n ⟨x, log⟩ = .ok phase ⟨x', log'⟩) : x' = x ∧ phase = u.nextPhase f := by
  obtain ⟨hx, rfl⟩ := nextPhase_of_ok hok
  cases hx
  refine ⟨rfl, ?_⟩
  simp only [accepts?_eq_meets ha hn.property, PropertyAutomaton.acceptanceCount, ha.promises,
    hn.root, hn.phase, Option.some.injEq]
  rfl

/-- A stored node accepts if it is not the root and there are no acceptance sets, or it meets set
`0` in phase `0`. -/
theorem isAccepting_eq_ok {q : PropertyState} {l : Logged (Search W S)}
    (hn : l.state.nodes.get? id = some n) (hq : l.state.property.table.get? n.property = some q) :
    isAccepting id l = .ok (n.root = false ∧ (l.state.property.acceptanceCount = 0 ∨
      n.phase = 0 ∧ l.state.property.accepts? n.property 0 = some true)) l := by
  simp only [isAccepting, Task.bind_eq_ok, node_eq_ok, Task.read_eq_ok]
  refine ⟨n, l, ⟨hn, rfl⟩, l.state, l, ⟨rfl, rfl⟩, ?_⟩
  obtain ⟨v, hv⟩ := PropertyAutomaton.exists_accepts? hq 0
  split
  · simp_all
  · split
    · simp_all
    · split <;> simp_all

theorem isAccepting_spec {v : Bool} (ha : x.property.Sound f)
    (hstands : ∀ id n, x.nodes.get? id = some n → ∃ u, x.Stands n u)
    (hok : isAccepting id ⟨x, log⟩ = .ok v ⟨x', log'⟩) :
    x' = x ∧ ∃ u, x.Stores id u ∧ (v = true ↔ u.Accepting f) := by
  obtain ⟨n, hn⟩ : ∃ n, x.nodes.get? id = some n := by
    simp only [isAccepting, Task.bind_eq_ok, node_eq_ok] at hok
    obtain ⟨n, _, ⟨hn, -⟩, -⟩ := hok
    exact ⟨n, hn⟩
  obtain ⟨u, hu⟩ := hstands id n hn
  rw [isAccepting_eq_ok hn hu.property] at hok
  cases hok
  refine ⟨rfl, u, ⟨n, hn, hu⟩, ?_⟩
  simp only [accepts?_eq_meets ha hu.property, PropertyAutomaton.acceptanceCount, ha.promises,
    hu.root, hu.phase, Option.some.injEq, decide_eq_true_eq]
  rfl

theorem marks_eq_of_grows {nodes : StateTable ProductNode NodeFacts} (h : x.nodes.Grows nodes) :
    ({ x with nodes := nodes } : Search W S).marks = x.marks := by
  simp only [marks, Marks.mk.injEq, and_true]
  funext id
  cases hinfo : x.nodes.info? id with
  | some facts => simp [h.info id facts hinfo]
  | none =>
      cases hnew : nodes.info? id with
      | none => rfl
      | some facts => simp [h.fresh id facts hinfo hnew]

theorem marks_note (hn : x.nodes.get? id = some n) (g : NodeFacts → NodeFacts) :
    ({ x with nodes := x.nodes.modifyInfo id g } : Search W S).marks = x.marks.note id g := by
  obtain ⟨facts, hfacts⟩ := exists_info?_of_lt (lt_size_of_get? hn)
  simp only [marks, Marks.note, Marks.mk.injEq, and_true]
  funext j
  by_cases hj : j = id
  · subst hj
    simp [info?_modifyInfo_self g hfacts, hfacts]
  · simp [info?_modifyInfo_of_ne g (Ne.symm hj), hj]

theorem facts_marks {facts : NodeFacts} (h : x.nodes.info? id = some facts) :
    x.marks.facts id = facts := by
  simp [marks, h]

section

variable [HasDigest S]

theorem matching_spec {property phase : Nat} {literals : List Formula} {ids : List Nat}
    {targets : List S} {nodes : List ProductNode} (hp : p.Behaves valid b)
    (h : x.space.Sound valid b) (hids : x.space.table.Names ids targets)
    (hok : matching p property phase literals ids ⟨x, log⟩ = .ok nodes ⟨x', log'⟩) :
    x'.space.Sound valid b ∧ x.space.Grows x'.space ∧ x' = { x with space := x'.space } ∧
      (∀ n ∈ nodes, ∃ i, n = ⟨i, property, phase, false⟩ ∧
        ∃ s ∈ targets, x'.space.table.get? i = some s ∧
        ∀ g ∈ literals, b.entails s g = some true) ∧
      ∀ s ∈ targets, (¬ ∃ g ∈ literals, b.entails s g = some false) →
        ∃ i, ⟨i, property, phase, false⟩ ∈ nodes ∧ x'.space.table.get? i = some s := by
  induction ids generalizing x log targets nodes with
  | nil =>
      obtain ⟨rfl, hx⟩ := Task.pure_eq_ok.1 hok
      cases hx
      obtain rfl := hids.eq_nil
      exact ⟨h, fun _ _ h => h, rfl, by simp, by simp⟩
  | cons id ids ih =>
      obtain ⟨s, targets, rfl, hs, hids⟩ := hids.eq_cons
      simp only [matching, Task.bind_eq_ok, inSpace_eq_ok, Task.pure_eq_ok] at hok
      obtain ⟨v, _, ⟨m, hm, rfl⟩, others, _, hothers, rfl, rfl⟩ := hok
      obtain ⟨hsound, hgrows, s', hs', htrue, hfalse⟩ := StateSpace.entailsAll_spec hp h hm
      rw [hs, Option.some.injEq] at hs'
      subst hs'
      obtain ⟨hsound', hgrows', hx', hall, hcomplete⟩ :=
        ih (x := { x with space := m.state }) hsound (hids.mono hgrows) hothers
      refine ⟨hsound', fun j t hj => hgrows' j t (hgrows j t hj), hx', fun n hn => ?_,
        fun t ht href => ?_⟩
      · have hn : n ∈ others ∨ v = true ∧ n = ⟨id, property, phase, false⟩ := by
          cases v with
          | true => exact (List.mem_cons.1 hn).symm.imp_right fun hn => ⟨rfl, hn⟩
          | false => exact .inl hn
        rcases hn with hn | ⟨hv, rfl⟩
        · obtain ⟨i, hi, t, ht, hrest⟩ := hall n hn
          exact ⟨i, hi, t, List.mem_cons_of_mem s ht, hrest⟩
        · exact ⟨id, rfl, s, List.mem_cons_self, hgrows' id s (hgrows id s hs), htrue hv⟩
      · rcases List.mem_cons.1 ht with rfl | ht
        · have hv : v = true := by
            by_contra hv
            exact href (hfalse (by simpa using hv))
          exact ⟨id, by simp [hv], hgrows' id t (hgrows id t hs)⟩
        · obtain ⟨i, hi, hit⟩ := hcomplete t ht href
          exact ⟨i, by cases v <;> simp [hi], hit⟩

theorem pairUp_spec {phase : Nat} {programIds propertyIds : List Nat} {targets : List S}
    {states : List PropertyState} {nodes : List ProductNode} (hp : p.Behaves valid b)
    (h : x.space.Sound valid b) (hprogram : x.space.table.Names programIds targets)
    (hproperty : x.property.table.Names propertyIds states)
    (hok : pairUp p phase programIds propertyIds ⟨x, log⟩ = .ok nodes ⟨x', log'⟩) :
    x'.space.Sound valid b ∧ x.space.Grows x'.space ∧ x' = { x with space := x'.space } ∧
      (∀ n ∈ nodes, ∃ s ∈ targets, ∃ q ∈ states, x'.Stands n ⟨s, q, phase, false⟩ ∧
        b.Supports s q) ∧
      ∀ s ∈ targets, ∀ q ∈ states, ¬ b.Refutes s q →
        ∃ n ∈ nodes, x'.Stands n ⟨s, q, phase, false⟩ := by
  induction propertyIds generalizing x log states nodes with
  | nil =>
      obtain ⟨rfl, hx⟩ := Task.pure_eq_ok.1 hok
      cases hx
      obtain rfl := hproperty.eq_nil
      exact ⟨h, fun _ _ h => h, rfl, by simp, by simp⟩
  | cons j propertyIds ih =>
      obtain ⟨q, states, rfl, hq, hproperty⟩ := hproperty.eq_cons
      simp only [pairUp, Task.bind_eq_ok, inProperty_eq_ok, propertyState_eq_ok,
        Task.pure_eq_ok] at hok
      obtain ⟨q', _, ⟨_, ⟨hq', rfl⟩, rfl⟩, found, ⟨y, ylog⟩, hfound, others, _, hothers,
          rfl, rfl⟩ := hok
      rw [hq, Option.some.injEq] at hq'
      subst hq'
      obtain ⟨hsound, hgrows, hy, hall, hcomplete⟩ := matching_spec hp h hprogram hfound
      have hyproperty : y.property = x.property := by rw [hy]
      obtain ⟨hsound', hgrows', hx', hall', hcomplete'⟩ :=
        ih hsound (hprogram.mono hgrows) (hyproperty ▸ hproperty) hothers
      have hxproperty : x'.property = x.property := by rw [hx', hyproperty]
      refine ⟨hsound', fun j t hj => hgrows' j t (hgrows j t hj), ?_, fun n hn => ?_,
        fun t ht r hr href => ?_⟩
      · rw [hx', hy]
      · rcases List.mem_append.1 hn with hn | hn
        · obtain ⟨i, rfl, s, hs, hi, hsupports⟩ := hall n hn
          exact ⟨s, hs, q, List.mem_cons_self,
            ⟨hgrows' i s hi, by rw [hxproperty]; exact hq, rfl, rfl⟩, hsupports⟩
        · obtain ⟨s, hs, r, hr, hrest⟩ := hall' n hn
          exact ⟨s, hs, r, List.mem_cons_of_mem q hr, hrest⟩
      · rcases List.mem_cons.1 hr with rfl | hr
        · obtain ⟨i, hi, hit⟩ := hcomplete t ht href
          exact ⟨_, List.mem_append_left _ hi, hgrows' i t hit, by rw [hxproperty]; exact hq,
            rfl, rfl⟩
        · obtain ⟨n, hn, hnt⟩ := hcomplete' t ht r hr href
          exact ⟨n, List.mem_append_right _ hn, hnt⟩

theorem Sound.leads (h : Sound valid b f x) {i j : Nat} (hu : x.Stores i u)
    (hij : x.marks.Edge i j) :
    ∃ reduced targets v, (x.marks.facts i).reduced = some reduced ∧
      (reduced = true → x.reduction = true) ∧
      Targets b u reduced targets ∧ x.Stores j v ∧ u.Leads f targets v ∧
      b.Supports v.program v.property := by
  obtain ⟨ids, hids, hj⟩ := hij
  obtain ⟨reduced, targets, nodes, hreduced, hallowed, htargets, hyields, hnames⟩ :=
    h.expanded i u ids hu hids
  obtain ⟨n, hn, hjn⟩ := hnames.exists_state hj
  obtain ⟨v, hv, hleads⟩ := hyields.sound n hn
  exact ⟨reduced, targets, v, hreduced, hallowed, htargets, ⟨n, hjn, hv⟩, hleads⟩

/-- All places that an expanded node leads to are recorded, unless a literal is refuted there. -/
theorem Sound.exists_edge (h : Sound valid b f x) {i : Nat} (hu : x.Stores i u)
    (hexpanded : ∃ ids, (x.marks.facts i).successors = some ids) :
    ∃ reduced targets, (x.marks.facts i).reduced = some reduced ∧
      (reduced = true → x.reduction = true) ∧
      Targets b u reduced targets ∧
      ∀ v, u.Leads f targets v → ¬ b.Refutes v.program v.property → ∃ j, x.marks.Edge i j ∧
        x.Stores j v := by
  obtain ⟨ids, hids⟩ := hexpanded
  obtain ⟨reduced, targets, nodes, hreduced, hallowed, htargets, hyields, hnames⟩ :=
    h.expanded i u ids hu hids
  refine ⟨reduced, targets, hreduced, hallowed, htargets, fun v hv href => ?_⟩
  obtain ⟨n, hn, hnv⟩ := hyields.complete v hv href
  obtain ⟨j, hj, hjn⟩ := hnames.exists_id hn
  exact ⟨j, ⟨ids, hids, hj⟩, n, hjn, hnv⟩

theorem Sound.grow (h : Sound valid b f x) {space : StateSpace W S} {property : PropertyAutomaton}
    (hspace : space.Sound valid b) (hproperty : property.Sound f)
    (hgrows : Grows x { x with space := space, property := property }) :
    Sound valid b f { x with space := space, property := property } := by
  refine ⟨hspace, hproperty, h.nodes, fun id n hn => ?_, fun id v ids hv hids => ?_⟩
  · obtain ⟨v, hv⟩ := h.stands id n hn
    exact ⟨v, hgrows.stands hv⟩
  · obtain ⟨n, hn, hnv⟩ := hv
    obtain ⟨w, hw⟩ := h.stands id n hn
    obtain rfl := (hgrows.stands hw).unique hnv
    exact (h.expanded id w ids ⟨n, hn, hw⟩ hids).mono hgrows

theorem productSuccessors_spec {ids : List Nat} {targets : List S} {nodes : List ProductNode}
    (hp : p.Behaves valid b) (h : Sound valid b f x) (hn : x.Stands n u)
    (hids : x.space.table.Names ids targets)
    (hok : productSuccessors p n ids ⟨x, log⟩ = .ok nodes ⟨x', log'⟩) :
    Sound valid b f x' ∧ Grows x x' ∧ x' = { x with space := x'.space, property := x'.property } ∧
      Yields b f x' u targets nodes := by
  simp only [productSuccessors, Task.bind_eq_ok, inProperty_eq_ok] at hok
  obtain ⟨phase, ⟨y, ylog⟩, hphase, propertyIds, _, ⟨⟨a, alog⟩, ha, rfl⟩, hok⟩ := hok
  obtain ⟨rfl, rfl⟩ := nextPhase_spec h.property hn hphase
  obtain ⟨hproperty, hpgrows, q, hq, hstates⟩ := PropertyAutomaton.successors_spec h.property ha
  rw [hn.property, Option.some.injEq] at hq
  subst hq
  obtain ⟨hspace, hsgrows, hx', hall, hcomplete⟩ :=
    pairUp_spec (x := { y with property := a }) hp h.space hids hstates hok
  have hx'' : x' = { y with space := x'.space, property := a } := hx'
  have hgrows : Grows y { y with space := x'.space, property := a } :=
    ⟨hsgrows, hpgrows, fun _ _ h => h, rfl⟩
  have hsound := h.grow hspace hproperty hgrows
  have hxproperty : x'.property = a := by rw [hx'']
  rw [← hx''] at hsound hgrows
  refine ⟨hsound, hgrows, by rw [hxproperty]; exact hx'', fun m hm => ?_, fun v hv href => ?_⟩
  · obtain ⟨s, hs, q, hq, hm, hsupports⟩ := hall m hm
    exact ⟨_, hm, ⟨hs, hq, rfl, rfl⟩, hsupports⟩
  · obtain ⟨m, hm, hmv⟩ := hcomplete v.program hv.program v.property hv.property href
    refine ⟨m, hm, ?_⟩
    obtain ⟨s, q, phase, root⟩ := v
    have hphase := hv.phase
    have hroot := hv.root
    simp only at hphase hroot
    subst hphase hroot
    exact hmv

theorem Sound.store {nodes : List ProductNode} (h : Sound valid b f x)
    (hstands : ∀ n ∈ nodes, ∃ v, x.Stands n v) :
    Sound valid b f { x with nodes := (x.nodes.insertAll nodes).2 } ∧
      Grows x { x with nodes := (x.nodes.insertAll nodes).2 } ∧
      ({ x with nodes := (x.nodes.insertAll nodes).2 } : Search W S).marks = x.marks := by
  obtain ⟨hwf, hngrows, hnames⟩ := h.nodes.insertAll nodes
  have hmarks := marks_eq_of_grows hngrows
  have hgrows : Grows x { x with nodes := (x.nodes.insertAll nodes).2 } :=
    ⟨fun _ _ h => h, .refl _, hngrows.get, rfl⟩
  refine ⟨⟨h.space, h.property, hwf, fun id n hn => ?_, fun id u ids hu hids => ?_⟩, hgrows, hmarks⟩
  · have hold : ∃ v, x.Stands n v := by
      rcases get?_insertAll hn with hn | hn
      · exact h.stands id n hn
      · exact hstands n hn
    obtain ⟨v, hv⟩ := hold
    exact ⟨v, hgrows.stands hv⟩
  · rw [hmarks] at hids ⊢
    -- a node with recorded successors is not new
    obtain ⟨facts, hfacts⟩ : ∃ facts, x.nodes.info? id = some facts := by
      cases hinfo : x.nodes.info? id with
      | some facts => exact ⟨facts, rfl⟩
      | none => simp [marks, hinfo] at hids
    obtain ⟨n, hn⟩ := exists_get?_of_lt (lt_size_of_info? hfacts)
    obtain ⟨v, hv⟩ := h.stands id n hn
    have hold : x.Stores id v := ⟨n, hn, hv⟩
    obtain rfl := (hgrows.stores hold).unique hu
    exact (h.expanded id v ids hold hids).mono hgrows

/-- Marks may change as long as what they record of the successors of a node is right. -/
theorem Sound.note (h : Sound valid b f x) (hn : x.nodes.get? id = some n)
    (g : NodeFacts → NodeFacts)
    (hg : ∀ u ids, x.Stores id u → (g (x.marks.facts id)).successors = some ids →
      Recorded b f x u (g (x.marks.facts id)) ids) :
    Sound valid b f { x with nodes := x.nodes.modifyInfo id g } ∧
      Grows x { x with nodes := x.nodes.modifyInfo id g } := by
  have hget : ∀ j m, x.nodes.get? j = some m → (x.nodes.modifyInfo id g).get? j = some m := by simp
  have hgrows : Grows x { x with nodes := x.nodes.modifyInfo id g } :=
    ⟨fun _ _ h => h, .refl _, hget, rfl⟩
  refine ⟨⟨h.space, h.property, h.nodes.modifyInfo id g, fun j m hm => ?_,
    fun j u ids hu hids => ?_⟩, hgrows⟩
  · rw [get?_modifyInfo] at hm
    obtain ⟨v, hv⟩ := h.stands j m hm
    exact ⟨v, hgrows.stands hv⟩
  · have hold : x.Stores j u := by
      obtain ⟨m, hm, hmu⟩ := hu
      rw [get?_modifyInfo] at hm
      exact ⟨m, hm, hmu.program, hmu.property, hmu.phase, hmu.root⟩
    rw [marks_note hn] at hids ⊢
    simp only [Marks.note] at hids ⊢
    by_cases hj : j = id
    · subst hj
      simp only [if_true] at hids ⊢
      exact (hg u ids hold hids).mono hgrows
    · simp only [hj, if_false] at hids ⊢
      exact (h.expanded j u ids hold hids).mono hgrows

end

section

variable [DecidableEq S] [HasDigest S]

theorem fullSuccessors_spec {nodes : List ProductNode} (hp : p.Behaves valid b)
    (h : Sound valid b f x) (hn : x.Stands n u)
    (hok : fullSuccessors p n ⟨x, log⟩ = .ok nodes ⟨x', log'⟩) :
    Sound valid b f x' ∧ Grows x x' ∧ x' = { x with space := x'.space, property := x'.property } ∧
      ∃ targets, Targets b u false targets ∧ Yields b f x' u targets nodes := by
  simp only [fullSuccessors] at hok
  split at hok
  · rename_i hroot
    simp only [Task.bind_eq_ok, Task.pure_eq_ok] at hok
    obtain ⟨_, _, ⟨rfl, rfl⟩, hok⟩ := hok
    obtain ⟨hsound, hgrows, hx', hyields⟩ :=
      productSuccessors_spec hp h hn (.cons hn.program .nil) hok
    exact ⟨hsound, hgrows, hx', [u.program], by simp [Targets, ← hn.root, hroot], hyields⟩
  · rename_i hroot
    simp only [Task.bind_eq_ok, inSpace_eq_ok] at hok
    obtain ⟨ids, _, ⟨⟨y, ylog⟩, hids, rfl⟩, hok⟩ := hok
    obtain ⟨hy, hygrows, s, next, hs, hnext, hnames⟩ := StateSpace.successors_spec hp h.space hids
    rw [hn.program, Option.some.injEq] at hs
    subst hs
    have hgrows : Grows x { x with space := y, property := x.property } :=
      ⟨hygrows, .refl _, fun _ _ h => h, rfl⟩
    obtain ⟨hsound, hgrows', hx', hyields⟩ := productSuccessors_spec hp
      (h.grow hy h.property hgrows) (hgrows.stands hn) hnames hok
    exact ⟨hsound, hgrows.trans hgrows', hx', next,
      by simpa [Targets, ← hn.root, hroot] using hnext, hyields⟩

theorem reducedSuccessors_spec {reduced : Option (List ProductNode)} (hp : p.Behaves valid b)
    (h : Sound valid b f x) (hn : x.Stands n u)
    (hok : reducedSuccessors p n ⟨x, log⟩ = .ok reduced ⟨x', log'⟩) :
    Sound valid b f x' ∧ Grows x x' ∧ x' = { x with space := x'.space, property := x'.property } ∧
      ∀ nodes, reduced = some nodes → x.reduction = true ∧ nodes ≠ [] ∧
        (∀ m ∈ nodes, x'.closesCycle m = false) ∧
        ∃ targets, Targets b u true targets ∧ Yields b f x' u targets nodes := by
  simp only [reducedSuccessors, Task.bind_eq_ok, Task.read_eq_ok] at hok
  obtain ⟨_, _, ⟨rfl, rfl⟩, hok⟩ := hok
  split at hok
  · rename_i hcond
    simp only [Bool.and_eq_true, Bool.not_eq_true', hn.root] at hcond
    simp only [Task.bind_eq_ok, inSpace_eq_ok] at hok
    obtain ⟨set, _, ⟨⟨y, ylog⟩, hset, rfl⟩, hok⟩ := hok
    obtain ⟨hy, hygrows, s, hs, hspec⟩ := StateSpace.ample_spec hp h.space hset
    rw [hn.program, Option.some.injEq] at hs
    subst hs
    have hgrows : Grows x { x with space := y, property := x.property } :=
      ⟨hygrows, .refl _, fun _ _ h => h, rfl⟩
    cases set with
    | none =>
        obtain ⟨rfl, hx⟩ := Task.pure_eq_ok.1 hok
        cases hx
        exact ⟨h.grow hy h.property hgrows, hgrows, rfl, by rintro _ ⟨⟩⟩
    | some ids =>
        obtain ⟨states, hstates, hnames⟩ : ∃ states, b.ample u.program = some (some states) ∧
            y.table.Names ids states := by
          generalize hchosen : b.ampleSet u.program = chosen at hspec
          cases hspec with
          | some hnames => exact ⟨_, Behaviour.ample_of_ampleSet hchosen, hnames⟩
        simp only [Task.bind_eq_ok, Task.read_eq_ok, Task.pure_eq_ok] at hok
        obtain ⟨next, _, hnext, _, _, ⟨rfl, rfl⟩, hreduced, rfl⟩ := hok
        obtain ⟨hsound, hgrows', hx', hyields⟩ := productSuccessors_spec hp
          (h.grow hy h.property hgrows) (hgrows.stands hn) hnames hnext
        refine ⟨hsound, hgrows.trans hgrows', hx', fun nodes hnodes => ?_⟩
        subst hnodes
        split at hreduced
        · cases hreduced
        · rename_i hkeep
          cases hreduced
          simp only [Bool.or_eq_true, List.isEmpty_iff, List.any_eq_true, not_or,
            not_exists, not_and, Bool.not_eq_true] at hkeep
          exact ⟨hcond.1, hkeep.1, hkeep.2, states, by simpa [Targets, hcond.2] using hstates,
            hyields⟩
  · obtain ⟨rfl, hx⟩ := Task.pure_eq_ok.1 hok
    cases hx
    exact ⟨h, .refl x, rfl, by rintro _ ⟨⟩⟩

omit [DecidableEq S] [HasDigest S] in
/-- A node that does not close a cycle is not on the path, whether it is stored or new. -/
theorem onPath_eq_false {nodes : StateTable ProductNode NodeFacts} (hwf : x.nodes.WellFormed)
    (hgrows : x.nodes.Grows nodes) (hn : nodes.get? id = some n)
    (hclear : x.closesCycle n = false) : (x.marks.facts id).onPath = false := by
  cases hinfo : x.nodes.info? id with
  | none =>
      simp only [marks, hinfo]
      rfl
  | some facts =>
      obtain ⟨n', hn'⟩ := exists_get?_of_lt (lt_size_of_info? hinfo)
      have hsame := hgrows.get id n' hn'
      rw [hn, Option.some.injEq] at hsame
      subst hsame
      simpa [closesCycle, hwf.lookup_eq_some_iff.2 hn', marks, hinfo] using hclear

omit [DecidableEq S] [HasDigest S] in
theorem marks_recorded (hn : x.nodes.get? id = some n) (nodes : List ProductNode) (reduced : Bool) :
    ({ x with nodes := (x.nodes.insertAll nodes).2.modifyInfo id fun facts =>
      { facts with reduced := some reduced, successors := some (x.nodes.insertAll nodes).1 } } :
      Search W S).marks = x.marks.record id reduced (x.nodes.insertAll nodes).1 := by
  have hgrows := grows_insertAll x.nodes nodes
  have hnote := marks_note (x := { x with nodes := (x.nodes.insertAll nodes).2 })
    (hgrows.get id n hn) fun facts =>
      { facts with reduced := some reduced, successors := some (x.nodes.insertAll nodes).1 }
  rw [marks_eq_of_grows hgrows] at hnote
  exact hnote

omit [DecidableEq S] [HasDigest S] in
theorem expand_recorded {nodes : List ProductNode} {reduced : Bool} (hwf : x.nodes.WellFormed)
    (hnone : (x.marks.facts id).successors = none)
    (hreduced : reduced = true → nodes ≠ [] ∧ ∀ m ∈ nodes, x.closesCycle m = false) :
    x.marks.Expand id (x.nodes.insertAll nodes).1
      (x.marks.record id reduced (x.nodes.insertAll nodes).1) := by
  obtain ⟨-, hgrows, hnames⟩ := hwf.insertAll nodes
  refine .new reduced hnone fun hr => ?_
  obtain ⟨hne, hclear⟩ := hreduced hr
  refine ⟨fun hnil => hne ?_, fun j hj => ?_⟩
  · rw [hnil] at hnames
    exact hnames.eq_nil
  · obtain ⟨m, hm, hj⟩ := hnames.exists_state hj
    exact onPath_eq_false hwf hgrows hj (hclear m hm)

omit [DecidableEq S] in
theorem Sound.record {nodes : List ProductNode} {targets : List S} {reduced : Bool}
    (h : Sound valid b f x) (hn : x.nodes.get? id = some n) (hu : x.Stands n u)
    (hnone : (x.marks.facts id).successors = none) (htargets : Targets b u reduced targets)
    (hyields : Yields b f x u targets nodes)
    (hreduced : reduced = true → x.reduction = true ∧ nodes ≠ [] ∧
      ∀ m ∈ nodes, x.closesCycle m = false)
    (hx' : x' = { x with nodes := (x.nodes.insertAll nodes).2.modifyInfo id fun facts =>
      { facts with reduced := some reduced, successors := some (x.nodes.insertAll nodes).1 } }) :
    Sound valid b f x' ∧ Grows x x' ∧ x.marks.Expand id (x.nodes.insertAll nodes).1 x'.marks := by
  obtain ⟨-, hngrows, hnames⟩ := h.nodes.insertAll nodes
  obtain ⟨hstored, hgrows, -⟩ := h.store fun m hm => by
    obtain ⟨v, hv, -⟩ := hyields.sound m hm
    exact ⟨v, hv⟩
  obtain ⟨hnoted, hgrows'⟩ := hstored.note (hngrows.get id n hn)
    (fun facts =>
      { facts with reduced := some reduced, successors := some (x.nodes.insertAll nodes).1 })
    fun v ids hv hids => by
      cases hids
      obtain rfl := (hgrows.stores ⟨n, hn, hu⟩).unique hv
      exact ⟨reduced, targets, nodes, rfl, fun hr => (hreduced hr).1, htargets,
        hyields.mono hgrows, hnames⟩
  subst hx'
  refine ⟨hnoted, hgrows.trans hgrows', ?_⟩
  rw [marks_recorded hn]
  exact expand_recorded h.nodes hnone fun hr => (hreduced hr).2

omit [DecidableEq S] in
/-- Counters and the path do not matter for what is known. -/
theorem Sound.congr (h : Sound valid b f x) (x' : Search W S) (hspace : x'.space = x.space)
    (hproperty : x'.property = x.property) (hnodes : x'.nodes = x.nodes)
    (hreduction : x'.reduction = x.reduction) : Sound valid b f x' ∧ Grows x x' := by
  have hgrows : Grows x x' := by
    refine ⟨?_, ?_, ?_, hreduction⟩
    · rw [hspace]
      exact fun _ _ h => h
    · rw [hproperty]
      exact .refl _
    · rw [hnodes]
      exact fun _ _ h => h
  refine ⟨⟨hspace ▸ h.space, hproperty ▸ h.property, hnodes ▸ h.nodes, fun id n hn => ?_,
    fun id u ids hu hids => ?_⟩, hgrows⟩
  · obtain ⟨u, hu⟩ := h.stands id n (hnodes ▸ hn)
    exact ⟨u, hgrows.stands hu⟩
  · have hfacts : x'.marks.facts id = x.marks.facts id := by simp [marks, hnodes]
    obtain ⟨n, hn, hnu⟩ := hu
    rw [hnodes] at hn
    obtain ⟨v, hv⟩ := h.stands id n hn
    obtain rfl := (hgrows.stands hv).unique hnu
    rw [hfacts] at hids ⊢
    exact (h.expanded id v ids ⟨n, hn, hv⟩ hids).mono hgrows

/-- Expanding a node: its successors are recorded, unless they were before. -/
theorem expand_spec {ids : List Nat} (hp : p.Behaves valid b) (h : Sound valid b f x)
    (hok : expand p id ⟨x, log⟩ = .ok ids ⟨x', log'⟩) :
    Sound valid b f x' ∧ Grows x x' ∧ x.marks.Expand id ids x'.marks := by
  simp only [expand, Task.bind_eq_ok, facts_eq_ok] at hok
  obtain ⟨facts, _, ⟨hfacts, rfl⟩, hok⟩ := hok
  cases hknown : facts.successors with
  | some known =>
      simp only [hknown, Task.pure_eq_ok, Logged.mk.injEq] at hok
      obtain ⟨rfl, rfl, -⟩ := hok
      exact ⟨h, .refl x, .known (by rw [facts_marks hfacts, hknown])⟩
  | none =>
      simp only [hknown, Task.bind_eq_ok, node_eq_ok] at hok
      obtain ⟨n, _, ⟨hn, rfl⟩, reduced, ⟨y, ylog⟩, hreduced, hok⟩ := hok
      obtain ⟨u, hu⟩ := h.stands id n hn
      have hnone : (x.marks.facts id).successors = none := by rw [facts_marks hfacts, hknown]
      obtain ⟨hy, hygrows, hyeq, hset⟩ := reducedSuccessors_spec hp h hu hreduced
      have hymarks : y.marks = x.marks := by rw [hyeq]; rfl
      cases reduced with
      | some nodes =>
          simp only [Task.bind_eq_ok, Task.change_eq_ok, Task.pure_eq_ok, store_eq_ok,
            note_eq_ok] at hok
          obtain ⟨_, _, rfl, _, _, ⟨rfl, rfl⟩, _, _, ⟨rfl, rfl⟩, _, _, rfl, rfl, hx⟩ := hok
          obtain ⟨hallowed, hne, hclear, targets, htargets, hyields⟩ := hset nodes rfl
          obtain ⟨hcounted, hcgrows⟩ :=
            hy.congr { y with reducedNodes := y.reducedNodes + 1 } rfl rfl rfl rfl
          have hgrows := hygrows.trans hcgrows
          cases hx
          obtain ⟨hsound, hgrows', hexpand⟩ := hcounted.record (hgrows.nodes id n hn)
            (hgrows.stands hu) (by rw [← hymarks] at hnone; exact hnone) htargets
            (hyields.mono hcgrows) (fun _ => ⟨hgrows.reduction.trans hallowed, hne, hclear⟩) rfl
          refine ⟨hsound, hgrows.trans hgrows', ?_⟩
          rw [← hymarks]
          exact hexpand
      | none =>
          simp only [Task.bind_eq_ok, store_eq_ok, note_eq_ok, Task.pure_eq_ok] at hok
          obtain ⟨nodes, ⟨z, zlog⟩, hnodes, _, _, ⟨rfl, rfl⟩, _, _, rfl, rfl, hx⟩ := hok
          obtain ⟨hz, hzgrows, hzeq, targets, htargets, hyields⟩ :=
            fullSuccessors_spec hp hy (hygrows.stands hu) hnodes
          have hzmarks : z.marks = x.marks := by rw [hzeq, ← hymarks]; rfl
          have hgrows := hygrows.trans hzgrows
          cases hx
          obtain ⟨hsound, hgrows', hexpand⟩ := hz.record (hgrows.nodes id n hn) (hgrows.stands hu)
            (by rw [hzmarks]; exact hnone) htargets hyields (by rintro ⟨⟩) rfl
          refine ⟨hsound, hgrows.trans hgrows', ?_⟩
          rw [← hzmarks]
          exact hexpand

end

end

end Search

end TemporalCheck
