import TemporalCheck.Proofs.FiniteAutomaton
import TemporalCheck.Proofs.Totality

namespace TemporalCheck

namespace Search

open TemporalCheck.Task StateTable PropertyAutomaton

variable {W S α : Type} {p : Program W S} {range : S → Prop} {kept : Logged W → Prop}
  {broken : Fault → Logged W → Prop} {f : Formula} {x x' x'' : Search W S} {n : ProductNode}
  {id : Nat} {log : List LogEvent}

theorem meets_inSpace {t : Task (StateSpace W S) α} {l : Logged (Search W S)}
    {done : α → Logged (Search W S) → Prop} {failed : Fault → Logged (Search W S) → Prop} :
    (inSpace t).Meets l done failed ↔ t.Meets ⟨l.state.space, l.log⟩
      (fun a m => done a ⟨{ l.state with space := m.state }, m.log⟩)
      fun e m => failed e ⟨{ l.state with space := m.state }, m.log⟩ := by
  obtain ⟨⟨space, q, r, pt, n, path, v, tr, i, rd, m⟩, log⟩ := l
  simp only [Meets, inSpace]
  cases t ⟨space, log⟩ <;> rfl

theorem meets_inProperty {t : Task PropertyAutomaton α} {l : Logged (Search W S)}
    {done : α → Logged (Search W S) → Prop} {failed : Fault → Logged (Search W S) → Prop} :
    (inProperty t).Meets l done failed ↔ t.Meets ⟨l.state.property, l.log⟩
      (fun a m => done a ⟨{ l.state with property := m.state }, m.log⟩)
      fun e m => failed e ⟨{ l.state with property := m.state }, m.log⟩ := by
  obtain ⟨⟨space, q, r, pt, n, path, v, tr, i, rd, m⟩, log⟩ := l
  simp only [Meets, inProperty]
  cases t ⟨q, log⟩ <;> rfl

theorem meets_note {l : Logged (Search W S)} {g : NodeFacts → NodeFacts}
    {done : Unit → Logged (Search W S) → Prop} {failed : Fault → Logged (Search W S) → Prop} :
    (note id g).Meets l done failed ↔
      done () ⟨{ l.state with nodes := l.state.nodes.modifyInfo id g }, l.log⟩ := Iff.rfl

theorem meets_leave {l : Logged (Search W S)} {done : Unit → Logged (Search W S) → Prop}
    {failed : Fault → Logged (Search W S) → Prop} :
    (leave id).Meets l done failed ↔ done () ⟨l.state.left id, l.log⟩ := Iff.rfl

structure Fitting (f : Formula) (x : Search W S) (n : ProductNode) : Prop where
  program : n.program < x.space.table.size
  property : n.property < x.property.table.size
  phase : n.phase ≤ f.promises.length

structure Later (x x' : Search W S) : Prop where
  program : x.space.table.size ≤ x'.space.table.size
  property : x.property.table.size ≤ x'.property.table.size
  nodes : x.nodes.size ≤ x'.nodes.size

theorem Later.refl (x : Search W S) : Later x x := ⟨Nat.le_refl _, Nat.le_refl _, Nat.le_refl _⟩

theorem Later.trans (h : Later x x') (h' : Later x' x'') : Later x x'' :=
  ⟨h.program.trans h'.program, h.property.trans h'.property, h.nodes.trans h'.nodes⟩

theorem Fitting.later (hn : x.Fitting f n) (h : Later x x') : x'.Fitting f n :=
  ⟨Nat.lt_of_lt_of_le hn.program h.program, Nat.lt_of_lt_of_le hn.property h.property, hn.phase⟩

theorem later_of_size {x' : Search W S} (hspace : x'.space = x.space)
    (hproperty : x'.property = x.property) (hnodes : x'.nodes.size = x.nodes.size) : Later x x' :=
  ⟨hspace ▸ Nat.le_refl _, hproperty ▸ Nat.le_refl _, hnodes.ge⟩

def InUse (x : Search W S) (ids : List Nat) : Prop := ∀ j ∈ ids, j < x.nodes.size

theorem InUse.later {ids : List Nat} (h : x.InUse ids) (hle : x.nodes.size ≤ x'.nodes.size) :
    x'.InUse ids :=
  fun j hj => Nat.lt_of_lt_of_le (h j hj) hle

theorem inUse_append {ids ids' : List Nat} : x.InUse (ids ++ ids') ↔ x.InUse ids ∧ x.InUse ids' :=
  List.forall_mem_append

theorem inUse_cons {ids : List Nat} : x.InUse (id :: ids) ↔ id < x.nodes.size ∧ x.InUse ids :=
  List.forall_mem_cons

def Frame.numbers (t : Frame) : List Nat := t.node :: t.rest

def Stage.numbers : Stage → List Nat
  | .outer frames => frames.flatMap Frame.numbers
  | .inner below seed frames => below.flatMap Frame.numbers ++ seed :: frames.flatMap Frame.numbers

def Progress.Fits (x : Search W S) : Progress S → Prop
  | .going stage => x.InUse stage.numbers
  | .decided verdict => verdict ≠ .cancelled

theorem fits_resume {below : List Frame} (h : x.InUse (below.flatMap Frame.numbers)) :
    (resume below : Progress S).Fits x := by
  cases below with
  | nil => exact nofun
  | cons t below => exact h

variable [HasDigest S]

/-- The tables of a search in order: all numbers that stand anywhere are in use. -/
structure Fits (range : S → Prop) (f : Formula) (x : Search W S) : Prop where
  space : x.space.Fits range
  property : Traced f x.property
  nodes : x.nodes.WellFormed
  fitting : ∀ id n, x.nodes.get? id = some n → x.Fitting f n
  successors : ∀ id facts, x.nodes.info? id = some facts → ∀ j ∈ facts.successors.getD [],
    j < x.nodes.size
  path : ∀ id ∈ x.path, id < x.nodes.size

def Held (range : S → Prop) (kept : Logged W → Prop) (f : Formula) (l : Logged (Search W S)) :
    Prop :=
  kept ⟨l.state.space.memory, l.log⟩ ∧ l.state.Fits range f

def Broken (range : S → Prop) (broken : Fault → Logged W → Prop) (f : Formula) (e : Fault)
    (l : Logged (Search W S)) : Prop :=
  broken e ⟨l.state.space.memory, l.log⟩ ∧ l.state.Fits range f

theorem Fits.inSpace {space : StateSpace W S} (h : x.Fits range f) (hspace : space.Fits range)
    (hle : x.space.table.size ≤ space.table.size) : Fits range f { x with space := space } := by
  refine ⟨hspace, h.property, h.nodes, fun id n hn => ?_, h.successors, h.path⟩
  exact (h.fitting id n hn).later ⟨hle, Nat.le_refl _, Nat.le_refl _⟩

theorem Fits.inProperty {a : PropertyAutomaton} (h : x.Fits range f) (ha : Traced f a)
    (hle : x.property.table.size ≤ a.table.size) : Fits range f { x with property := a } := by
  refine ⟨h.space, ha, h.nodes, fun id n hn => ?_, h.successors, h.path⟩
  exact (h.fitting id n hn).later ⟨Nat.le_refl _, hle, Nat.le_refl _⟩

theorem Held.inSpace {t : Task (StateSpace W S) α} {answers : α → Logged (StateSpace W S) → Prop}
    {done : α → Logged (Search W S) → Prop} (h : Held range kept f ⟨x, log⟩)
    (ht : t.Meets ⟨x.space, log⟩ (fun a l => StateSpace.Held range kept l ∧
      x.space.table.size ≤ l.state.table.size ∧
      answers a l) (StateSpace.Broken range broken x.space.table.size))
    (hdone : ∀ a m, Held range kept f ⟨{ x with space := m.state }, m.log⟩ →
      Later x { x with space := m.state } →
      answers a m → done a ⟨{ x with space := m.state }, m.log⟩) :
    (inSpace t).Meets ⟨x, log⟩ done (Broken range broken f) := by
  rw [meets_inSpace]
  refine ht.mono (fun a m hm => ?_) fun e m hm => ⟨hm.1, h.2.inSpace hm.2.1 hm.2.2⟩
  obtain ⟨hheld, hle, hanswers⟩ := hm
  exact hdone a m ⟨hheld.1, h.2.inSpace hheld.2 hle⟩ ⟨hle, Nat.le_refl _, Nat.le_refl _⟩ hanswers

theorem nextPhase_meets {failed : Fault → Logged (Search W S) → Prop} (h : x.Fits range f)
    (hn : x.Fitting f n) :
    (nextPhase n).Meets ⟨x, log⟩ (fun phase l => l = ⟨x, log⟩ ∧
      phase ≤ f.promises.length) failed := by
  have hcount : x.property.acceptanceCount = f.promises.length := by
    rw [acceptanceCount, h.property.sound.promises]
  rw [nextPhase, meets_bind, meets_read]
  dsimp only
  split
  · exact ⟨rfl, Nat.zero_le _⟩
  · rename_i hsome
    obtain ⟨q, hq⟩ := exists_get?_of_lt hn.property
    obtain ⟨met, hmet⟩ := exists_accepts? hq n.phase
    rw [meets_bind, meets_require hmet]
    split
    · refine ⟨rfl, Nat.le_of_lt (hcount ▸ Nat.mod_lt _ (Nat.pos_of_ne_zero ?_))⟩
      simp only [Bool.or_eq_true, decide_eq_true_eq, not_or] at hsome
      exact hsome.2
    · exact ⟨rfl, hn.phase⟩

def Offers (range : S → Prop) (kept : Logged W → Prop) (f : Formula) (x : Search W S)
    (nodes : List ProductNode) (l : Logged (Search W S)) : Prop :=
  Held range kept f l ∧ Later x l.state ∧ ∀ n ∈ nodes, l.state.Fitting f n

theorem matching_meets {property phase : Nat} {literals : List Formula} {ids : List Nat}
    (hp : p.Confined range kept broken) (h : Held range kept f ⟨x, log⟩)
    (hproperty : property < x.property.table.size) (hphase : phase ≤ f.promises.length)
    (hids : ∀ j ∈ ids, j < x.space.table.size) (hliterals : ∀ g ∈ literals, g.isLiteral = true) :
    (matching p property phase literals ids).Meets ⟨x, log⟩ (Offers range kept f x)
      (Broken range broken f) := by
  induction ids generalizing x log with
  | nil => exact ⟨h, .refl x, by simp⟩
  | cons id ids ih =>
      rw [List.forall_mem_cons] at hids
      rw [matching, meets_bind]
      have hask := StateSpace.entailsAll_meets hp ⟨h.1, h.2.space⟩ hids.1 hliterals
      refine h.inSpace (hask.imp fun _ _ hm => ⟨hm.1, hm.2, trivial⟩) fun holds m hm hlater _ => ?_
      rw [meets_bind]
      refine (ih hm hproperty fun j hj => Nat.lt_of_lt_of_le (hids.2 j hj) hlater.program).imp
        fun others l hl => ?_
      obtain ⟨hheld, hlater', hothers⟩ := hl
      refine ⟨hheld, hlater.trans hlater', fun n hn => ?_⟩
      have hcases : n = ⟨id, property, phase, false⟩ ∨ n ∈ others := by
        split at hn
        · exact List.mem_cons.1 hn
        · exact .inr hn
      rcases hcases with rfl | hn
      · exact (⟨hids.1, hproperty, hphase⟩ : x.Fitting f _).later (hlater.trans hlater')
      · exact hothers n hn

theorem pairUp_meets {phase : Nat} {programIds propertyIds : List Nat}
    (hp : p.Confined range kept broken) (h : Held range kept f ⟨x, log⟩)
    (hphase : phase ≤ f.promises.length) (hprogram : ∀ j ∈ programIds, j < x.space.table.size)
    (hproperty : ∀ j ∈ propertyIds, j < x.property.table.size) :
    (pairUp p phase programIds propertyIds).Meets ⟨x, log⟩ (Offers range kept f x)
      (Broken range broken f) := by
  induction propertyIds generalizing x log with
  | nil => exact ⟨h, .refl x, by simp⟩
  | cons id propertyIds ih =>
      rw [List.forall_mem_cons] at hproperty
      obtain ⟨q, hq⟩ := exists_get?_of_lt hproperty.1
      rw [pairUp, meets_bind, meets_inProperty, meets_of_ok (propertyState_eq_ok.2 ⟨hq, rfl⟩),
        meets_bind]
      have hliterals : ∀ g ∈ q.literals, g.isLiteral = true :=
        fun g hg => (PropertyState.mem_literals.1 hg).2
      refine (matching_meets hp h hproperty.1 hphase hprogram hliterals).imp fun found l hl => ?_
      obtain ⟨hheld, hlater, hfound⟩ := hl
      rw [meets_bind]
      refine (ih hheld (fun j hj => Nat.lt_of_lt_of_le (hprogram j hj) hlater.program)
        fun j hj => Nat.lt_of_lt_of_le (hproperty.2 j hj) hlater.property).imp fun others l' hl' =>
          ?_
      obtain ⟨hheld', hlater', hothers⟩ := hl'
      refine ⟨hheld', hlater.trans hlater', fun n hn => ?_⟩
      rcases List.mem_append.1 hn with hn | hn
      · exact (hfound n hn).later hlater'
      · exact hothers n hn

theorem Held.propertySuccessors {failed : Fault → Logged (Search W S) → Prop}
    (h : Held range kept f ⟨x, log⟩) (hid : id < x.property.table.size) :
    (Search.inProperty (PropertyAutomaton.successors id)).Meets ⟨x, log⟩
      (fun ids l => Held range kept f l ∧
      Later x l.state ∧ ∀ j ∈ ids, j < l.state.property.table.size) failed := by
  obtain ⟨q, hq⟩ := exists_get?_of_lt hid
  obtain ⟨ids, a, hids⟩ := exists_successors hq log
  obtain ⟨-, hgrows, _, -, hnames⟩ := successors_spec h.2.property.sound hids
  have hle : x.property.table.size ≤ a.table.size := size_le_of_get? hgrows.get
  rw [meets_inProperty, meets_of_ok hids]
  refine ⟨⟨h.1, h.2.inProperty (h.2.property.successors hids) hle⟩,
    ⟨Nat.le_refl _, hle, Nat.le_refl _⟩, fun j hj => ?_⟩
  obtain ⟨q, -, hq⟩ := hnames.exists_state hj
  exact lt_size_of_get? hq

theorem productSuccessors_meets {programIds : List Nat} (hp : p.Confined range kept broken)
    (h : Held range kept f ⟨x, log⟩) (hn : x.Fitting f n)
    (hprogram : ∀ j ∈ programIds, j < x.space.table.size) :
    (productSuccessors p n programIds).Meets ⟨x, log⟩ (Offers range kept f x)
      (Broken range broken f) := by
  rw [productSuccessors, meets_bind]
  refine (nextPhase_meets h.2 hn).imp fun phase l hl => ?_
  obtain ⟨rfl, hphase⟩ := hl
  rw [meets_bind]
  refine (h.propertySuccessors hn.property).imp fun ids l hl => ?_
  obtain ⟨hl, hlater, hids⟩ := hl
  have hprogram' : ∀ j ∈ programIds, j < l.state.space.table.size :=
    fun j hj => Nat.lt_of_lt_of_le (hprogram j hj) hlater.program
  refine (pairUp_meets hp hl hphase hprogram' hids).imp fun nodes m hm => ?_
  obtain ⟨hm, hlater', hnodes⟩ := hm
  exact ⟨hm, hlater.trans hlater', hnodes⟩

section

variable [DecidableEq S]

theorem reducedSuccessors_meets (hp : p.Confined range kept broken) (h : Held range kept f ⟨x, log⟩)
    (hn : x.Fitting f n) :
    (reducedSuccessors p n).Meets ⟨x, log⟩
      (fun reduced l => Offers range kept f x (reduced.getD []) l) (Broken range broken f) := by
  rw [reducedSuccessors, meets_bind, meets_read]
  split
  · rw [meets_bind]
    refine h.inSpace (StateSpace.ample_meets hp ⟨h.1, h.2.space⟩ hn.program)
      fun set m hm hlater hset => ?_
    cases set with
    | none => exact ⟨hm, hlater, by simp⟩
    | some ids =>
        dsimp only
        rw [meets_bind]
        refine (productSuccessors_meets hp hm (hn.later hlater) hset).imp fun next l hl => ?_
        obtain ⟨hheld, hlater', hnext⟩ := hl
        rw [meets_bind, meets_read, meets_pure]
        refine ⟨hheld, hlater.trans hlater', ?_⟩
        split
        · simp
        · exact hnext
  · exact ⟨h, .refl x, by simp⟩

theorem fullSuccessors_meets (hp : p.Confined range kept broken) (h : Held range kept f ⟨x, log⟩)
    (hn : x.Fitting f n) :
    (fullSuccessors p n).Meets ⟨x, log⟩ (Offers range kept f x) (Broken range broken f) := by
  rw [fullSuccessors]
  split
  · rw [meets_bind, meets_pure]
    exact productSuccessors_meets hp h hn (by simpa using hn.program)
  · rw [meets_bind]
    refine h.inSpace (StateSpace.successors_meets hp ⟨h.1, h.2.space⟩ hn.program)
      fun ids m hm hlater hids => ?_
    refine (productSuccessors_meets hp hm (hn.later hlater) hids).imp fun nodes l hl => ?_
    obtain ⟨hheld, hlater', hnodes⟩ := hl
    exact ⟨hheld, hlater.trans hlater', hnodes⟩

end

theorem Fits.insertAll (h : x.Fits range f) (nodes : List ProductNode)
    (hnodes : ∀ n ∈ nodes, x.Fitting f n) :
    Fits range f { x with nodes := (x.nodes.insertAll nodes).2 } := by
  obtain ⟨hwf, hgrows, -⟩ := h.nodes.insertAll nodes
  have hle := hgrows.size_le
  refine ⟨h.space, h.property, hwf, fun id n hn => ?_, fun id facts hfacts j hj => ?_,
    fun id hid => ?_⟩
  · have hold : x.Fitting f n := by
      rcases get?_insertAll hn with hn | hn
      · exact h.fitting id n hn
      · exact hnodes n hn
    exact hold.later ⟨Nat.le_refl _, Nat.le_refl _, hle⟩
  · cases hold : x.nodes.info? id with
    | none =>
        rw [hgrows.fresh id facts hold hfacts] at hj
        cases hj
    | some facts' =>
        rw [hgrows.info id facts' hold, Option.some.injEq] at hfacts
        subst hfacts
        exact Nat.lt_of_lt_of_le (h.successors id facts' hold j hj) hle
  · exact Nat.lt_of_lt_of_le (h.path id hid) hle

theorem Fits.note {g : NodeFacts → NodeFacts} (h : x.Fits range f)
    (hg : ∀ facts, x.nodes.info? id = some facts → ∀ j ∈ (g facts).successors.getD [],
      j < x.nodes.size) :
    Fits range f { x with nodes := x.nodes.modifyInfo id g } := by
  refine ⟨h.space, h.property, h.nodes.modifyInfo id g, fun j n hn => ?_, fun j facts hj => ?_,
    fun j hj => ?_⟩
  · rw [get?_modifyInfo] at hn
    have hold := h.fitting j n hn
    exact ⟨hold.program, hold.property, hold.phase⟩
  · rw [size_modifyInfo]
    rw [info?_modifyInfo] at hj
    split at hj
    · rename_i heq
      subst heq
      obtain ⟨facts', hfacts', rfl⟩ := Option.map_eq_some_iff.1 hj
      exact hg facts' hfacts'
    · exact h.successors j facts hj
  · rw [size_modifyInfo]
    exact h.path j hj

theorem Fits.congr (h : x.Fits range f) (x' : Search W S) (hspace : x'.space = x.space)
    (hproperty : x'.property = x.property) (hnodes : x'.nodes = x.nodes)
    (hpath : ∀ id ∈ x'.path, id < x.nodes.size) : Fits range f x' := by
  refine ⟨hspace ▸ h.space, hproperty ▸ h.property, hnodes ▸ h.nodes, fun id n hn => ?_, ?_, ?_⟩
  · have hold := h.fitting id n (hnodes ▸ hn)
    exact ⟨hspace ▸ hold.program, hproperty ▸ hold.property, hold.phase⟩
  · rw [hnodes]
    exact h.successors
  · rw [hnodes]
    exact hpath

theorem record_meets {reduced : Bool} {nodes : List ProductNode} (h : Held range kept f ⟨x, log⟩)
    (hnodes : ∀ n ∈ nodes, x.Fitting f n) :
    (do
      let ids ← store nodes
      note id fun f => { f with reduced := some reduced, successors := some ids }
      pure ids).Meets ⟨x, log⟩ (fun ids l => Held range kept f l ∧ Later x l.state ∧
        l.state.InUse ids)
      (Broken range broken f) := by
  obtain ⟨-, hgrows, hnames⟩ := h.2.nodes.insertAll nodes
  have hids : ∀ j ∈ (x.nodes.insertAll nodes).1, j < (x.nodes.insertAll nodes).2.size := by
    intro j hj
    obtain ⟨n, -, hn⟩ := hnames.exists_state hj
    exact lt_size_of_get? hn
  rw [meets_bind, meets_of_ok (store_eq_ok.2 ⟨rfl, rfl⟩), meets_bind, meets_note, meets_pure]
  refine ⟨⟨h.1, (h.2.insertAll nodes hnodes).note fun facts _ => hids⟩,
    ⟨Nat.le_refl _, Nat.le_refl _, ?_⟩, ?_⟩
  · rw [size_modifyInfo]
    exact hgrows.size_le
  · intro j hj
    rw [size_modifyInfo]
    exact hids j hj

theorem productState_meets {failed : Fault → Logged (Search W S) → Prop} (h : x.Fits range f)
    (hid : id < x.nodes.size) :
    (productState id).Meets ⟨x, log⟩ (fun _ l => l = ⟨x, log⟩) failed := by
  obtain ⟨n, hn⟩ := exists_get?_of_lt hid
  have hfitting := h.fitting id n hn
  obtain ⟨s, hs⟩ := exists_get?_of_lt hfitting.program
  obtain ⟨q, hq⟩ := exists_get?_of_lt hfitting.property
  rw [productState, meets_bind, meets_of_ok (node_eq_ok.2 ⟨hn, rfl⟩), meets_bind, meets_inSpace,
    meets_of_ok (StateSpace.state_eq_ok.2 ⟨hs, rfl⟩), meets_bind, meets_inProperty,
    meets_of_ok (propertyState_eq_ok.2 ⟨hq, rfl⟩), meets_pure]

theorem productStates_meets {failed : Fault → Logged (Search W S) → Prop} {ids : List Nat}
    (h : x.Fits range f) (hids : x.InUse ids) :
    (productStates ids).Meets ⟨x, log⟩ (fun _ l => l = ⟨x, log⟩) failed := by
  induction ids with
  | nil => exact rfl
  | cons id ids ih =>
      rw [inUse_cons] at hids
      rw [productStates, meets_bind]
      refine (productState_meets h hids.1).imp fun s l hl => ?_
      subst hl
      rw [meets_bind]
      exact ih hids.2

theorem printNode_meets {failed : Fault → Logged (Search W S) → Prop} (h : x.Fits range f)
    (hid : id < x.nodes.size) :
    (printNode p id).Meets ⟨x, log⟩ (fun _ l => ∃ event, l = ⟨x, event :: log⟩) failed := by
  obtain ⟨n, hn⟩ := exists_get?_of_lt hid
  rw [printNode, meets_bind]
  refine (productState_meets h hid).imp fun s l hl => ?_
  subst hl
  rw [meets_bind, meets_of_ok (node_eq_ok.2 ⟨hn, rfl⟩), meets_bind, meets_read, meets_emit]
  exact ⟨_, rfl⟩

def Advances (range : S → Prop) (kept : Logged W → Prop) (f : Formula) (progress : Progress S)
    (l : Logged (Search W S)) : Prop :=
  Held range kept f l ∧ progress.Fits l.state

theorem Fits.left (h : x.Fits range f) : (x.left id).Fits range f := by
  refine (h.note fun facts hfacts => ?_).congr _ rfl rfl rfl fun j hj => ?_
  · exact h.successors id facts hfacts
  · rw [size_modifyInfo]
    exact h.path j (List.mem_of_mem_tail hj)

theorem Fits.entered (h : x.Fits range f) (hid : id < x.nodes.size) :
    (x.entered id).Fits range f := by
  refine (h.note fun facts hfacts => ?_).congr _ rfl rfl rfl fun j hj => ?_
  · exact h.successors id facts hfacts
  · rw [size_modifyInfo]
    rcases List.mem_cons.1 hj with rfl | hj
    · exact hid
    · exact h.path j hj

variable [DecidableEq S]

theorem expand_meets (hp : p.Confined range kept broken) (h : Held range kept f ⟨x, log⟩)
    (hid : id < x.nodes.size) :
    (expand p id).Meets ⟨x, log⟩ (fun ids l => Held range kept f l ∧ Later x l.state ∧
      l.state.InUse ids)
      (Broken range broken f) := by
  obtain ⟨facts, hfacts⟩ := exists_info?_of_lt hid
  obtain ⟨n, hn⟩ := exists_get?_of_lt hid
  have hfitting := h.2.fitting id n hn
  rw [expand, meets_bind, meets_of_ok (facts_eq_ok.2 ⟨hfacts, rfl⟩)]
  cases hknown : facts.successors with
  | some ids =>
      refine ⟨h, .refl x, fun j hj => h.2.successors id facts hfacts j ?_⟩
      rw [hknown]
      exact hj
  | none =>
      dsimp only
      rw [meets_bind, meets_of_ok (node_eq_ok.2 ⟨hn, rfl⟩), meets_bind]
      refine (reducedSuccessors_meets hp h hfitting).imp fun reduced l hl => ?_
      obtain ⟨hheld, hlater, hnodes⟩ := hl
      cases reduced with
      | some nodes =>
          dsimp only
          rw [meets_bind, meets_change, meets_bind, meets_pure]
          have hcounted : Held range kept f
              ⟨{ l.state with reducedNodes := l.state.reducedNodes + 1 }, l.log⟩ :=
            ⟨hheld.1, hheld.2.congr _ rfl rfl rfl hheld.2.path⟩
          refine (record_meets hcounted fun n hn => ?_).imp fun ids m hm => ?_
          · have hold := hnodes n hn
            exact ⟨hold.program, hold.property, hold.phase⟩
          · obtain ⟨hm, hlater', hids⟩ := hm
            exact ⟨hm, hlater.trans ⟨hlater'.program, hlater'.property, hlater'.nodes⟩, hids⟩
      | none =>
          dsimp only
          rw [meets_bind]
          refine (fullSuccessors_meets hp hheld (hfitting.later hlater)).imp fun nodes m hm => ?_
          obtain ⟨hm, hlater', hnodes⟩ := hm
          refine (record_meets hm hnodes).imp fun ids m' hm' => ?_
          obtain ⟨hm', hlater'', hids⟩ := hm'
          exact ⟨hm', (hlater.trans hlater').trans hlater'', hids⟩

theorem enter_meets (hp : p.Confined range kept broken) (h : Held range kept f ⟨x, log⟩)
    (hid : id < x.nodes.size) :
    (enter p id).Meets ⟨x, log⟩ (fun frame l => Held range kept f l ∧ Later x l.state ∧
      l.state.InUse frame.numbers) (Broken range broken f) := by
  have hlater : Later x (x.entered id) := later_of_size rfl rfl (size_modifyInfo _ _ _)
  have hexpand : ∀ elog, kept ⟨x.space.memory, elog⟩ →
      (expand p id >>= fun ids => pure (⟨id, ids⟩ : Frame)).Meets
      ⟨x.entered id, elog⟩ (fun frame l => Held range kept f l ∧ Later x l.state ∧
        l.state.InUse frame.numbers)
      (Broken range broken f) := by
    intro elog hkept
    have hheld : Held range kept f ⟨x.entered id, elog⟩ := ⟨hkept, h.2.entered hid⟩
    rw [meets_bind]
    refine (expand_meets hp hheld (Nat.lt_of_lt_of_le hid hlater.nodes)).imp fun ids l hl => ?_
    obtain ⟨hl, hlater', hids⟩ := hl
    have hall := hlater.trans hlater'
    exact ⟨hl, hall, inUse_cons.2 ⟨Nat.lt_of_lt_of_le hid hall.nodes, hids⟩⟩
  rw [enter, meets_bind, meets_note, meets_bind, meets_change, meets_bind, meets_read]
  split
  · rw [meets_bind]
    refine (printNode_meets (h.2.entered hid) (Nat.lt_of_lt_of_le hid hlater.nodes)).imp
      fun _ l hl => ?_
    obtain ⟨event, rfl⟩ := hl
    exact hexpand (event :: log) (hp.emit _ event h.1)
  · exact hexpand log h.1

theorem redden_meets (hp : p.Confined range kept broken) (h : Held range kept f ⟨x, log⟩)
    (hid : id < x.nodes.size) :
    (expand p id).Meets
      ⟨{ x with nodes := x.nodes.modifyInfo id fun facts => { facts with inner := true } }, log⟩
      (fun ids l => Held range kept f l ∧ Later x l.state ∧ l.state.InUse ids)
      (Broken range broken f) := by
  have hlater : Later x
      { x with nodes := x.nodes.modifyInfo id fun facts => { facts with inner := true } } :=
    later_of_size rfl rfl (size_modifyInfo _ _ _)
  have hmarked : Held range kept f
      ⟨{ x with nodes := x.nodes.modifyInfo id fun facts => { facts with inner := true } }, log⟩ :=
    ⟨h.1, h.2.note fun facts hfacts => h.2.successors id facts hfacts⟩
  refine (expand_meets hp hmarked (Nat.lt_of_lt_of_le hid hlater.nodes)).imp fun ids l hl => ?_
  obtain ⟨hl, hlater', hids⟩ := hl
  exact ⟨hl, hlater.trans hlater', hids⟩

omit [DecidableEq S] in
theorem isAccepting_meets {failed : Fault → Logged (Search W S) → Prop} (h : x.Fits range f)
    (hid : id < x.nodes.size) :
    (isAccepting id).Meets ⟨x, log⟩ (fun _ l => l = ⟨x, log⟩) failed := by
  obtain ⟨n, hn⟩ := exists_get?_of_lt hid
  obtain ⟨q, hq⟩ := exists_get?_of_lt (h.fitting id n hn).property
  exact (meets_of_ok (isAccepting_eq_ok hn hq)).2 rfl

theorem outerStep_meets {top : Frame} {below : List Frame} (hp : p.Confined range kept broken)
    (h : Held range kept f ⟨x, log⟩) (hids : x.InUse (Stage.outer (top :: below)).numbers) :
    (outerStep p top below).Meets ⟨x, log⟩ (Advances range kept f) (Broken range broken f) := by
  obtain ⟨node, rest⟩ := top
  simp only [Stage.numbers, List.flatMap_cons, Frame.numbers, inUse_append, inUse_cons] at hids
  obtain ⟨⟨hnode, hrest⟩, hbelow⟩ := hids
  cases rest with
  | cons id rest =>
      obtain ⟨hid, hrest⟩ := inUse_cons.1 hrest
      obtain ⟨facts, hfacts⟩ := exists_info?_of_lt hid
      have hcounted : Held range kept f ⟨{ x with transitions := x.transitions + 1 }, log⟩ :=
        ⟨h.1, h.2.congr _ rfl rfl rfl h.2.path⟩
      have hstage : x.InUse (Stage.outer (⟨node, rest⟩ :: below)).numbers := by
        simp only [Stage.numbers, List.flatMap_cons, Frame.numbers, inUse_append, inUse_cons]
        exact ⟨⟨hnode, hrest⟩, hbelow⟩
      rw [outerStep, meets_bind, countTransition, meets_change, meets_bind,
        meets_of_ok (facts_eq_ok.2 ⟨hfacts, rfl⟩)]
      dsimp only
      split
      · exact ⟨hcounted, hstage⟩
      · rw [meets_bind]
        refine (enter_meets hp hcounted hid).imp fun frame l hl => ?_
        obtain ⟨hl, hlater, hframe⟩ := hl
        exact ⟨hl, inUse_append.2 ⟨hframe, hstage.later hlater.nodes⟩⟩
  | nil =>
      rw [outerStep, meets_bind]
      refine (isAccepting_meets h.2 hnode).imp fun accepting l hl => ?_
      subst hl
      split
      · have hcounted : Held range kept f ⟨{ x with innerSearches := x.innerSearches + 1 }, log⟩ :=
          ⟨h.1, h.2.congr _ rfl rfl rfl h.2.path⟩
        rw [meets_bind, startInner, meets_bind, meets_change, meets_bind, meets_note, meets_bind]
        refine (redden_meets hp hcounted hnode).imp fun ids l hl => ?_
        obtain ⟨hl, hlater, hids⟩ := hl
        have hseed : node < l.state.nodes.size := Nat.lt_of_lt_of_le hnode hlater.nodes
        refine ⟨hl, inUse_append.2 ⟨hbelow.later hlater.nodes, ?_⟩⟩
        simp only [List.flatMap_cons, List.flatMap_nil, Frame.numbers, inUse_cons, List.append_nil]
        exact ⟨hseed, hseed, hids⟩
      · rw [meets_bind, meets_leave]
        exact ⟨⟨h.1, h.2.left⟩, fits_resume (hbelow.later (size_modifyInfo _ _ _).ge)⟩

theorem innerStep_meets {below frames : List Frame} {seed : Nat} {top : Frame}
    (hp : p.Confined range kept broken) (h : Held range kept f ⟨x, log⟩)
    (hids : x.InUse (Stage.inner below seed (top :: frames)).numbers) :
    (innerStep p below seed top frames).Meets ⟨x, log⟩ (Advances range kept f)
      (Broken range broken f) := by
  obtain ⟨node, rest⟩ := top
  simp only [Stage.numbers, List.flatMap_cons, Frame.numbers, inUse_append, inUse_cons] at hids
  obtain ⟨hbelow, hseed, ⟨hnode, hrest⟩, hframes⟩ := hids
  cases rest with
  | cons id rest =>
      obtain ⟨hid, hrest⟩ := inUse_cons.1 hrest
      obtain ⟨facts, hfacts⟩ := exists_info?_of_lt hid
      have hcounted : Held range kept f ⟨{ x with transitions := x.transitions + 1 }, log⟩ :=
        ⟨h.1, h.2.congr _ rfl rfl rfl h.2.path⟩
      have hstage : x.InUse (Stage.inner below seed (⟨node, rest⟩ :: frames)).numbers := by
        simp only [Stage.numbers, List.flatMap_cons, Frame.numbers, inUse_append, inUse_cons]
        exact ⟨hbelow, hseed, ⟨hnode, hrest⟩, hframes⟩
      rw [innerStep, meets_bind, countTransition, meets_change, meets_bind,
        meets_of_ok (facts_eq_ok.2 ⟨hfacts, rfl⟩)]
      dsimp only
      split
      · have hpath : x.InUse x.path.reverse := fun j hj => h.2.path j (List.mem_reverse.1 hj)
        have hcycle : x.InUse (((⟨node, rest⟩ :: frames : List Frame).map Frame.node).reverse ++
            [id]) := by
          refine inUse_append.2 ⟨fun j hj => ?_, by simpa [InUse] using hid⟩
          obtain ⟨t, ht, rfl⟩ := List.mem_map.1 (List.mem_reverse.1 hj)
          rcases List.mem_cons.1 ht with rfl | ht
          · exact hnode
          · exact hframes _ (List.mem_flatMap.2 ⟨t, ht, List.mem_cons_self⟩)
        rw [meets_bind, pathStates, meets_bind, meets_read]
        refine (productStates_meets hcounted.2 hpath).imp fun path l hl => ?_
        subst hl
        rw [meets_bind]
        refine (productStates_meets hcounted.2 hcycle).imp fun cycle l hl => ?_
        subst hl
        exact ⟨hcounted, by rintro ⟨⟩⟩
      · split
        · exact ⟨hcounted, hstage⟩
        · rw [meets_bind, meets_note, meets_bind]
          refine (redden_meets hp hcounted hid).imp fun ids l hl => ?_
          obtain ⟨hl, hlater, hids⟩ := hl
          obtain ⟨hbelow', hrest'⟩ := inUse_append.1 (hstage.later hlater.nodes)
          obtain ⟨hseed', hframes'⟩ := inUse_cons.1 hrest'
          refine ⟨hl, inUse_append.2 ⟨hbelow',
            inUse_cons.2 ⟨hseed', inUse_append.2 ⟨?_, hframes'⟩⟩⟩⟩
          exact inUse_cons.2 ⟨Nat.lt_of_lt_of_le hid hlater.nodes, hids⟩
  | nil =>
      simp only [innerStep]
      split
      · rw [meets_bind, meets_leave]
        exact ⟨⟨h.1, h.2.left⟩, fits_resume (hbelow.later (size_modifyInfo _ _ _).ge)⟩
      · exact ⟨h, inUse_append.2 ⟨hbelow, inUse_cons.2 ⟨hseed, hframes⟩⟩⟩

theorem step_meets {stage : Stage} (hp : p.Confined range kept broken)
    (h : Held range kept f ⟨x, log⟩) (hids : x.InUse stage.numbers) :
    (Search.step p stage).Meets ⟨x, log⟩ (Advances range kept f) (Broken range broken f) := by
  rcases stage with (_ | ⟨top, below⟩) | ⟨below, seed, _ | ⟨top, frames⟩⟩
  · exact ⟨h, nofun⟩
  · exact outerStep_meets hp h hids
  · rw [Search.step, meets_bind, meets_leave]
    obtain ⟨hbelow, -⟩ := inUse_append.1 hids
    exact ⟨⟨h.1, h.2.left⟩, fits_resume (hbelow.later (size_modifyInfo _ _ _).ge)⟩
  · exact innerStep_meets hp h hids

omit [DecidableEq S] in
theorem Fits.cleared (h : x.Fits range f) : x.cleared.Fits range f := by
  refine ⟨h.space, h.property, wellFormed_empty, fun id n hn => ?_,
    fun id facts hfacts => ?_, nofun⟩
  · cases hn
  · cases hfacts

theorem start_meets (hp : p.Confined range kept broken) (h : Held range kept f ⟨x, log⟩) :
    (start p).Meets ⟨x, log⟩ (fun stage l => Held range kept f l ∧ l.state.InUse stage.numbers)
      (Broken range broken f) := by
  have hcleared : Held range kept f ⟨x.cleared, log⟩ := ⟨h.1, h.2.cleared⟩
  rw [start, meets_bind, clear, meets_change, meets_bind]
  refine hcleared.inSpace (StateSpace.initial_meets hp ⟨h.1, h.2.space⟩)
    fun program m hm _ hprogram => ?_
  let root : ProductNode := ⟨program, x.property.initial, 0, true⟩
  have hroot : Fitting f { x.cleared with space := m.state } root :=
    ⟨hprogram, lt_size_of_get? h.2.property.sound.initial, Nat.zero_le _⟩
  have hstored : Held range kept f
      ⟨{ x.cleared with space := m.state, nodes := (x.cleared.nodes.insert root).2 }, m.log⟩ :=
    ⟨hm.1, hm.2.insertAll [root] (by simpa using hroot)⟩
  obtain ⟨-, -, hget⟩ := hcleared.2.nodes.insert root
  rw [meets_bind, meets_read, meets_bind, meets_of_ok (store_eq_ok.2 ⟨rfl, rfl⟩)]
  simp only [StateTable.insertAll]
  rw [meets_bind]
  refine (enter_meets hp hstored (lt_size_of_get? hget)).imp fun frame l hl => ?_
  obtain ⟨hl, -, hframe⟩ := hl
  refine ⟨hl, ?_⟩
  simpa [Stage.numbers] using hframe

end Search

end TemporalCheck
