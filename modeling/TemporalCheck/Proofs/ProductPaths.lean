import TemporalCheck.Graph
import TemporalCheck.Product.Run
import TemporalCheck.Proofs.Phases

namespace TemporalCheck

theorem infinitelyOften_succ {P : Nat → Prop} : InfinitelyOften (fun i => P (i + 1)) ↔
    InfinitelyOften P := by
  constructor
  · intro h n
    obtain ⟨m, hm, hP⟩ := h n
    exact ⟨m + 1, by omega, hP⟩
  · intro h n
    obtain ⟨m, hm, hP⟩ := h (n + 1)
    obtain ⟨m, rfl⟩ : ∃ i, m = i + 1 := ⟨m - 1, by omega⟩
    exact ⟨m, by omega, hP⟩

namespace PropertyAutomaton

variable {a : PropertyAutomaton} {id : Nat}

theorem exists_state_of_successors {ids : List Nat} {l l' : Logged PropertyAutomaton}
    (hok : successors id l = .ok ids l') : ∃ q, l.state.table.get? id = some q := by
  obtain ⟨-, ⟨hknown, -⟩ | ⟨-, q, hq, -⟩⟩ := successors_eq_ok.1 hok
  · exact StateTable.exists_get?_of_lt (StateTable.lt_size_of_info? hknown)
  · exact ⟨q, hq⟩

end PropertyAutomaton

namespace Search

variable {W S : Type} {p : Program W S} {n m : ProductNode} {l l' : Logged (Search W S)}
  {nodes : List ProductNode}

theorem mem_matching {property phase : Nat} {literals : List Formula} {ids : List Nat}
    (hok : matching p property phase literals ids l = .ok nodes l') (hm : m ∈ nodes) :
    m.phase = phase ∧ m.root = false := by
  induction ids generalizing nodes l l' with
  | nil =>
      obtain ⟨rfl, -⟩ := Task.pure_eq_ok.1 hok
      simp at hm
  | cons id ids ih =>
      simp only [matching, Task.bind_eq_ok, Task.pure_eq_ok] at hok
      obtain ⟨holds, _, -, others, _, hothers, rfl, -⟩ := hok
      split at hm
      · rcases List.mem_cons.1 hm with rfl | hm
        · exact ⟨rfl, rfl⟩
        · exact ih hothers hm
      · exact ih hothers hm

theorem mem_pairUp {phase : Nat} {programIds propertyIds : List Nat}
    (hok : pairUp p phase programIds propertyIds l = .ok nodes l') (hm : m ∈ nodes) :
    m.phase = phase ∧ m.root = false := by
  induction propertyIds generalizing nodes l l' with
  | nil =>
      obtain ⟨rfl, -⟩ := Task.pure_eq_ok.1 hok
      simp at hm
  | cons q propertyIds ih =>
      simp only [pairUp, Task.bind_eq_ok, Task.pure_eq_ok] at hok
      obtain ⟨state, _, -, found, _, hfound, others, _, hothers, rfl, -⟩ := hok
      rcases List.mem_append.1 hm with hm | hm
      · exact mem_matching hfound hm
      · exact ih hothers hm

structure Visit (W S : Type) where
  search : Search W S
  id : Nat
  node : ProductNode
  stored : search.nodes.get? id = some node

namespace Visit

structure IsRoot (u : Visit W S) : Prop where
  property : u.node.property = u.search.property.initial
  phase : u.node.phase = 0
  root : u.node.root = true

/-- The node of `v` is a successor of the node of `u` in the product, by one of the states that the
program may move to. Whatever the search has learnt since, the acceptance sets are the same. -/
structure LeadsTo (p : Program W S) (u v : Visit W S) : Prop where
  successor : ∃ programIds log nodes, (productSuccessors p u.node programIds).answer
    ⟨u.search, log⟩ = .ok nodes ∧ v.node ∈ nodes
  promises : v.search.property.promises = u.search.property.promises

def accepting (u : Visit W S) : Except Fault Bool := (isAccepting u.id).answer ⟨u.search, []⟩

def inSet? (u : Visit W S) (set : Nat) : Option Bool :=
  u.search.property.accepts? u.node.property set

variable {u v : Visit W S} {k : Nat}

namespace LeadsTo

theorem acceptanceCount (h : LeadsTo p u v) :
    v.search.property.acceptanceCount = u.search.property.acceptanceCount :=
  congrArg List.length h.promises

theorem spec (h : LeadsTo p u v) : (∃ q, u.search.property.table.get? u.node.property = some q) ∧
    v.node.root = false ∧
    v.node.phase = if u.node.root then 0 else if u.search.property.acceptanceCount = 0 then 0
      else if u.inSet? u.node.phase =
        some true then (u.node.phase + 1) % u.search.property.acceptanceCount
      else u.node.phase := by
  obtain ⟨programIds, log, nodes, hanswer, hv⟩ := h.successor
  obtain ⟨l, hok⟩ := Task.eq_ok_of_answer hanswer
  simp only [productSuccessors, Task.bind_eq_ok, inProperty_eq_ok] at hok
  -- The phase is computed before the property is asked for successors, so in the search of `u`.
  obtain ⟨phase, _, hphase, propertyIds, _, ⟨_, hids, rfl⟩, hpairs⟩ := hok
  obtain ⟨rfl, hnext⟩ := nextPhase_of_ok hphase
  obtain ⟨hvphase, hroot⟩ := mem_pairUp hpairs hv
  exact ⟨PropertyAutomaton.exists_state_of_successors hids, hroot, hvphase.trans hnext⟩

end LeadsTo

/-- The phase of the node is one of a counter with `k` phases, or `0` if it has none. -/
def Fits (k : Nat) (u : Visit W S) : Prop :=
  u.search.property.acceptanceCount = k ∧ (k = 0 → u.node.phase = 0) ∧ (0 < k → u.node.phase < k)

theorem IsRoot.fits (h : u.IsRoot) : u.Fits u.search.property.acceptanceCount := by
  refine ⟨rfl, fun _ => h.phase, fun hk => ?_⟩
  rwa [h.phase]

theorem Fits.leadsTo (h : u.Fits k) (hstep : LeadsTo p u v) : v.Fits k := by
  obtain ⟨hcount, hzero, hlt⟩ := h
  obtain ⟨-, -, hphase⟩ := hstep.spec
  rw [hcount] at hphase
  refine ⟨hstep.acceptanceCount.trans hcount, fun hk => ?_, fun hk => ?_⟩
  · simp [hphase, hk]
  · rw [hphase]
    split
    · exact hk
    · rw [if_neg (by omega)]
      split
      · exact Nat.mod_lt _ hk
      · exact hlt hk

theorem Fits.reachable (h : u.Fits k) (hpath : Relation.ReflTransGen (LeadsTo p) u v) :
    v.Fits k := by
  induction hpath with
  | refl => exact h
  | tail _ hstep ih => exact ih.leadsTo hstep

theorem accepting_eq {q : PropertyState}
    (hq : u.search.property.table.get? u.node.property = some q) :
    u.accepting = .ok (u.node.root = false ∧ (u.search.property.acceptanceCount = 0 ∨
      u.node.phase = 0 ∧ u.inSet? 0 = some true)) := by
  rw [accepting, Task.answer, isAccepting_eq_ok u.stored hq]
  rfl

section Path

variable {path : Nat → Visit W S}

theorem fits_path (hroot : (path 0).Fits k) (hpath : ∀ i, LeadsTo p (path i) (path (i + 1)))
    (i : Nat) : (path i).Fits k := by
  induction i with
  | zero => exact hroot
  | succ i ih => exact ih.leadsTo (hpath i)

/-- Behind the root, the phases of a path are those of a counter. -/
theorem rotates_path (hroot : (path 0).Fits k) (hpath : ∀ i, LeadsTo p (path i) (path (i + 1))) :
    Rotates k (fun i set => (path (i + 1)).inSet? set = some true) fun i =>
      (path (i + 1)).node.phase := by
  intro i
  obtain ⟨-, hnotroot, -⟩ := (hpath i).spec
  obtain ⟨-, -, hphase⟩ := (hpath (i + 1)).spec
  rw [hnotroot, (fits_path hroot hpath (i + 1)).1] at hphase
  simpa using hphase

theorem accepting_path_iff (hroot : (path 0).Fits k)
    (hpath : ∀ i, LeadsTo p (path i) (path (i + 1))) (i : Nat) :
    (path (i + 1)).accepting = .ok true ↔
      k = 0 ∨ (path (i + 1)).node.phase = 0 ∧ (path (i + 1)).inSet? 0 = some true := by
  obtain ⟨-, hnotroot, -⟩ := (hpath i).spec
  obtain ⟨⟨q, hq⟩, -⟩ := (hpath (i + 1)).spec
  simp [accepting_eq hq, hnotroot, (fits_path hroot hpath (i + 1)).1]

end Path

/-- The phase counter turns `k` acceptance sets into one. On every path from the root the phase is
below `k`, or `0` if there are no sets. On an infinite one the questions whether a node accepts and
whether its property state is in a set are all answered, and accepting nodes come again and again
exactly if all the sets are met again and again. -/
theorem accepting_infinitelyOften_iff (p : Program W S) (root : Visit W S) (hroot : root.IsRoot)
    {k : Nat} (hk : root.search.property.acceptanceCount = k) :
    (∀ u, Relation.ReflTransGen (LeadsTo p) root u →
      (k = 0 → u.node.phase = 0) ∧ (0 < k → u.node.phase < k)) ∧
    ∀ path : Nat → Visit W S, path 0 = root → (∀ i, LeadsTo p (path i) (path (i + 1))) →
      (∀ i, (∃ b, (path i).accepting = .ok b) ∧ ∀ set, ∃ b, (path i).inSet? set = some b) ∧
      (InfinitelyOften (fun i => (path i).accepting = .ok true) ↔
        ∀ set < k, InfinitelyOften fun i => (path i).inSet? set = some true) := by
  have hfits : root.Fits k := hk ▸ hroot.fits
  refine ⟨fun u hu => (hfits.reachable hu).2, fun path hstart hpath => ⟨fun i => ?_, ?_⟩⟩
  · obtain ⟨⟨q, hq⟩, -⟩ := (hpath i).spec
    exact ⟨⟨_, accepting_eq hq⟩, PropertyAutomaton.exists_accepts? hq⟩
  · subst hstart
    have hrotates := rotates_path hfits hpath
    have hfirst : (path 1).node.phase = 0 := by
      obtain ⟨-, -, hphase⟩ := (hpath 0).spec
      rw [hphase, hroot.root, if_pos rfl]
    -- The root is outside the counter: it never accepts and its successor starts at 0 whatever
    -- sets it meets.
    -- So both sides are compared from the next node on.
    rw [← infinitelyOften_succ]
    simp only [accepting_path_iff hfits hpath]
    constructor
    · intro hacc set hset
      rw [← infinitelyOften_succ]
      simpa using hrotates.met_of_accepts (by simpa using hacc) hset
    · intro hmet
      have hmet' : ∀ set < k, InfinitelyOften fun i =>
          decide ((path (i + 1)).inSet? set = some true) = true := by
        intro set hset
        simpa using infinitelyOften_succ.2 (hmet set hset)
      simpa using hrotates.accepts_of_met hfirst hmet'

theorem exists_visit {x : Search W S} {id : Nat} {n : ProductNode} (h : x.nodes.get? id = some n) :
    ∃ u : Visit W S, u.search = x ∧ u.node = n := ⟨⟨x, id, n, h⟩, rfl, rfl⟩

/-- A step within one search, checked by computing the successors there. -/
theorem LeadsTo.of_answer {x : Search W S} {n m : ProductNode} (programIds : List Nat)
    (hnodes : ((productSuccessors p n programIds).answer ⟨x, []⟩).toOption.any (m ∈ ·) = true)
    (hu : u.search = x ∧ u.node = n) (hv : v.search = x ∧ v.node = m) : LeadsTo p u v := by
  obtain ⟨rfl, rfl⟩ := hu
  obtain ⟨hsame, rfl⟩ := hv
  obtain ⟨nodes, hanswer, hmem⟩ := (Option.any_eq_true _ _).1 hnodes
  exact ⟨⟨programIds, [], nodes, except_toOption_eq_some.1 hanswer, of_decide_eq_true hmem⟩,
    by rw [hsame]⟩

def seesaw : Search Graph UInt32 :=
  (Run.drive (Graph.program [(0, "p"), (1, "q")]) (fun _ (h : Unit) => (true, h)) 1
    (.begin (Graph.program [(0, "p"), (1, "q")])
      { space := { memory := { initial := 0, edges := [(0, 1), (1, 0)] } }
        property := .ofFormula (.conj [.release .bot (.until .top (.prop "p")),
          .release .bot (.until .top (.prop "q"))]) }
      [] [.search]) ()).1.search

/-- From the root to node 1, and from there to node 4 and back for ever. -/
theorem seesaw_accepting : seesaw.property.acceptanceCount = 2 ∧ ∃ path :
    Nat → Visit Graph UInt32, (path 0).IsRoot ∧
    (∀ i, LeadsTo (Graph.program [(0, "p"), (1, "q")]) (path i) (path (i + 1))) ∧
    InfinitelyOften fun i => (path i).accepting = .ok true := by
  obtain ⟨hcount, hinitial, hroot, hone, hfour, hp, hq⟩ : seesaw.property.acceptanceCount = 2 ∧
      0 = seesaw.property.initial ∧ seesaw.nodes.get? 0 = some ⟨0, 0, 0, true⟩ ∧
      seesaw.nodes.get? 1 = some ⟨0, 2, 0, false⟩ ∧ seesaw.nodes.get? 4 = some ⟨1, 3, 1, false⟩ ∧
      seesaw.property.accepts? 2 0 = some true ∧ seesaw.property.accepts? 3 1 = some true := by
    decide +kernel
  obtain ⟨root, hroot⟩ := exists_visit hroot
  obtain ⟨one, hone⟩ := exists_visit hone
  obtain ⟨four, hfour⟩ := exists_visit hfour
  obtain ⟨path, hpath⟩ := exists_repeats [root] (by simp : [one, four] ≠ [])
  have hstart : path 0 = root := (Option.some.inj (hpath.first 0 (by simp))).symm
  have hsteps (i : Nat) : LeadsTo (Graph.program [(0, "p"), (1, "q")]) (path i) (path (i + 1)) := by
    refine hpath.step (a := one) ?_ rfl i
    have hfirst : LeadsTo (Graph.program [(0, "p"), (1, "q")]) root one :=
      .of_answer [0] (by decide +kernel) hroot hone
    have hthere : LeadsTo (Graph.program [(0, "p"), (1, "q")]) one four :=
      .of_answer [1] (by decide +kernel) hone hfour
    have hback : LeadsTo (Graph.program [(0, "p"), (1, "q")]) four one :=
      .of_answer [0] (by decide +kernel) hfour hone
    simp [hfirst, hthere, hback]
  have hrooted : root.IsRoot :=
    ⟨by rw [hroot.1, hroot.2, ← hinitial], by rw [hroot.2], by rw [hroot.2]⟩
  refine ⟨hcount, path, hstart ▸ hrooted, hsteps, ?_⟩
  rw [← hroot.1] at hcount
  obtain ⟨-, haccepting⟩ :=
    (accepting_infinitelyOften_iff (Graph.program [(0, "p"), (1, "q")]) root hrooted hcount).2
    path hstart hsteps
  refine haccepting.2 fun set hset => ?_
  obtain rfl | rfl : set = 0 ∨ set = 1 := by omega
  · exact (hpath.infinitelyOften (a := one) (by simp)).mono fun i hi => by
      rw [hi, inSet?, hone.1, hone.2, hp]
  · exact (hpath.infinitelyOften (a := four) (by simp)).mono fun i hi => by
      rw [hi, inSet?, hfour.1, hfour.2, hq]

end Visit

end Search

end TemporalCheck
