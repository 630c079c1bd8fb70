import Mathlib.Combinatorics.Enumerative.DoubleCounting
import TemporalCheck.Proofs.Preparation
import TemporalCheck.Proofs.RecordedGraph
import TemporalCheck.Proofs.Reduction
import TemporalCheck.Proofs.SearchTotality
import TemporalCheck.Proofs.SuccessorOrder

namespace TemporalCheck

namespace Search

open Relation StateTable

variable {W W' S : Type} {valid : W → Prop} {valid' : W' → Prop} {b : Behaviour S} {f : Formula}
  {x : Search W S} {y : Search W' S} {u v : Place S} {root root' : Nat}

def Enters (x : Search W S) (u : Place S) : Prop :=
  ∃ id, (x.marks.facts id).outer = true ∧ x.Stores id u

theorem enters_congr {x y : Search W S} (hnodes : y.nodes = x.nodes)
    (hspace : y.space.table = x.space.table) (hproperty : y.property = x.property) :
    y.Enters u ↔ x.Enters u := by
  have hstands (n : ProductNode) : y.Stands n u ↔ x.Stands n u :=
    ⟨fun h => ⟨hspace ▸ h.program, hproperty ▸ h.property, h.phase, h.root⟩,
      fun h => ⟨hspace ▸ h.program, hproperty ▸ h.property, h.phase, h.root⟩⟩
  simp only [Enters, Stores, facts_of_nodes hnodes, hnodes, hstands]

theorem Targets.subset_unreduced {reduced reduced' : Bool} {targets targets' : List S}
    (hample : ∀ s set next, b.ample s = some (some set) → b.next? s = some next → set ⊆ next)
    (h : Targets b u reduced targets)
    (h' : Targets { b with ample := fun _ => some none } u reduced' targets') :
    targets ⊆ targets' := by
  cases reduced' with
  | true => cases h'.2
  | false =>
      by_cases hroot : u.root = true
      · obtain rfl : targets' = [u.program] := by simpa [Targets, hroot] using h'
        cases reduced with
        | true => simp [Targets, hroot] at h
        | false =>
            obtain rfl : targets = [u.program] := by simpa [Targets, hroot] using h
            exact List.Subset.refl _
      · have hnext : b.next? u.program = some targets' := by
          rw [Targets, if_neg Bool.false_ne_true, if_neg hroot] at h'
          exact h'
        cases reduced with
        | true => exact hample _ _ _ h.2 hnext
        | false =>
            obtain rfl : targets = targets' := by simpa [Targets, hroot, hnext, eq_comm] using h
            exact List.Subset.refl _

variable [HasDigest S]

theorem Sound.eq_of_stores (h : Sound valid b f x) {i j : Nat} (hi : x.Stores i u)
    (hj : x.Stores j u) : i = j := by
  obtain ⟨n, hn, hnu⟩ := hi
  exact h.nodes.distinct i j n hn ((h.stores_iff hnu).1 hj)

/-- A search that has been completed has entered all that it has recorded, beginning at its root. -/
structure Completed (valid : W → Prop) (b : Behaviour S) (f : Formula) (x : Search W S)
    (root : Nat) : Prop where
  sound : x.Sound valid b f
  rooted : x.Rooted b f root
  outer : Outer (x.Accepting f) root x.marks []
  grown : Grown x root

namespace Completed

theorem enters_iff (h : Completed valid b f x root) :
    x.Enters u ↔ ∃ id, ReflTransGen x.marks.Edge root id ∧ x.Stores id u := by
  constructor
  · rintro ⟨id, -, n, hn, hu⟩
    exact ⟨id, h.grown.reached id (lt_size_of_get? hn), n, hn, hu⟩
  · rintro ⟨id, hreached, hid⟩
    exact ⟨id, (h.outer.reachable hreached).1.1, hid⟩

/-- Each edge of a search with reduction stands for one of a search without. -/
theorem enters_of_edge (h : Completed valid b f x root)
    (h' : Completed valid' { b with ample := fun _ => some none } f y root')
    (hample : ∀ s set next, b.ample s = some (some set) → b.next? s = some next → set ⊆ next)
    {i j : Nat} (hij : x.marks.Edge i j) (hi : x.Stores i u) (hu : y.Enters u) :
    ∃ v, x.Stores j v ∧ y.Enters v := by
  obtain ⟨reduced, targets, v, -, -, htargets, hv, hleads, hsupports⟩ := h.sound.leads hi hij
  obtain ⟨k, hk, hku⟩ := h'.enters_iff.1 hu
  obtain ⟨reduced', targets', -, -, htargets', hedge⟩ :=
    h'.sound.exists_edge hku (h'.outer.reachable hk).2.1
  have hsubset := htargets.subset_unreduced hample htargets'
  obtain ⟨l, hkl, hl⟩ := hedge v ⟨hsubset hleads.program, hleads.property, hleads.phase,
    hleads.root⟩ hsupports.not_refutes
  exact ⟨v, hv, h'.enters_iff.2 ⟨l, hk.tail hkl, hl⟩⟩

theorem enters_unreduced (h : Completed valid b f x root)
    (h' : Completed valid' { b with ample := fun _ => some none } f y root')
    (hample : ∀ s set next, b.ample s = some (some set) → b.next? s = some next → set ⊆ next)
    (hu : x.Enters u) : y.Enters u := by
  obtain ⟨id, hid, hidu⟩ := h.enters_iff.1 hu
  suffices hall : ∃ v, x.Stores id v ∧ y.Enters v by
    obtain ⟨v, hv, hentered⟩ := hall
    rwa [hidu.unique hv]
  clear hidu
  induction hid with
  | refl =>
      obtain ⟨s, hs, hroot⟩ := h.rooted
      obtain ⟨s', hs', hroot'⟩ := h'.rooted
      obtain rfl : s = s' := Option.some.inj (hs.symm.trans hs')
      exact ⟨_, hroot, h'.enters_iff.2 ⟨root', .refl, hroot'⟩⟩
  | tail _ hij ih =>
      obtain ⟨v, hv, hentered⟩ := ih
      exact h.enters_of_edge h' hample hij hv hentered

/-- Of two completed searches, the one that enters the places of the other has at least as many
nodes. -/
theorem card_le {b' : Behaviour S} {f' : Formula} (h : Completed valid b f x root)
    (h' : Completed valid' b' f' y root') (henters : ∀ u, x.Enters u → y.Enters u) :
    x.nodes.size ≤ y.nodes.size ∧ x.visitedNodes ≤ y.visitedNodes := by
  obtain ⟨reached, hreached, hvisited, hsize⟩ := h.grown.passed h.outer
  obtain ⟨reached', hreached', hvisited', hsize'⟩ := h'.grown.passed h'.outer
  suffices hcard : reached.card ≤ reached'.card by
    rw [hsize, hsize', hvisited, hvisited']
    exact ⟨hcard, hcard⟩
  refine Finset.card_le_card_of_forall_subsingleton (fun i j => ∃ u, x.Stores i u ∧ y.Stores j u)
    (fun i hi => ?_)
    fun j _ i hi k hk => ?_
  · obtain ⟨n, hn⟩ := exists_node_of_outer (h.outer.reachable ((hreached i).1 hi)).1.1
    obtain ⟨u, hu⟩ := h.sound.stands i n hn
    have hentered : y.Enters u := henters u (h.enters_iff.2 ⟨i, (hreached i).1 hi, n, hn, hu⟩)
    obtain ⟨j, hj, hju⟩ := h'.enters_iff.1 hentered
    exact ⟨j, (hreached' j).2 hj, u, ⟨n, hn, hu⟩, hju⟩
  · obtain ⟨-, u, hiu, hju⟩ := hi
    obtain ⟨-, v, hkv, hjv⟩ := hk
    obtain rfl := hju.unique hjv
    exact h.sound.eq_of_stores hiu hkv

end Completed

end Search

namespace Run

open Search

variable {W S η : Type} {p : Program W S} {valid : W → Prop} {b : Behaviour S} {f : Formula}
  {x : Search W S} [HasDigest S] [DecidableEq S]

theorem traced_drive (hx : Blank x) (tick : Search W S → η → Bool × η) (limit : Nat)
    (log : List LogEvent) (jobs : List Job) (h : η) :
    Traced (drive p tick limit (begin p x log jobs) h).1.search
      (drive p tick limit (begin p x log jobs) h).1.status := by
  have hfailed (r : Run W S) (hr : (∀ fault, r.status ≠ .failed fault) → Traced r.search r.status) :
      Traced r.search r.status := by
    cases hstatus : r.status with
    | going stage later => exact hstatus ▸ hr (by simp [hstatus])
    | ended verdict => exact hstatus ▸ hr (by simp [hstatus])
    | failed fault => trivial
  refine drive_induction (P := fun r => Traced r.search r.status) (fun r hr => ?_)
    (fun r hr => ?_) tick limit h ?_
  · exact hfailed _ fun hstep => (run_step_turn hr hstep).2
  · rw [Run.cancel]
    split
    · trivial
    · exact hr
  · exact hfailed _ fun hbegin => (settle_turn (fun _ _ _ hok => nextJob_turn hx hok) hbegin).2

theorem completed_of_pass (hp : p.Behaves valid b) (hx : x.Sound valid b f) (hblank : Blank x)
    {tick : Search W S → η → Bool × η} {limit : Nat} {log : List LogEvent} {jobs : List Job} {h : η}
    (hpass : (drive p tick limit (begin p x log jobs) h).1.verdict? = some .pass) :
    ∃ root, Completed valid b f (drive p tick limit (begin p x log jobs) h).1.search root := by
  obtain ⟨hsound, -, -, root, hrooted, houter⟩ :=
    (good_drive hp hx tick limit log jobs h).of_verdict hpass
  have htraced := traced_drive (p := p) hblank tick limit log jobs h
  rw [verdict?_eq_some_iff.1 hpass] at htraced
  obtain ⟨root', hgrown⟩ := htraced
  obtain rfl := (hgrown.isRoot_iff hsound).1 hrooted.isRoot
  exact ⟨root, hsound, hrooted, houter, hgrown⟩

end Run

namespace Verification

open TemporalCheck.Task

variable {W S η : Type} {p : Program W S} {v : Verification W S}

/-- A release leaves all that has been found. -/
theorem exists_dispose_search (p : Program W S) (v : Verification W S) (log : List LogEvent) :
    ∃ space, space.table = v.search.space.table ∧
      (v.dispose p log).state.search = { v.search with space } := by
  let Kept (y : Search W S) : Prop := ∃ space, space.table = v.search.space.table ∧
    y = { v.search with space }
  have hmeets : (Search.inSpace (StateSpace.dispose p)).Meets ⟨v.search, log⟩
      (fun _ l => Kept l.state)
      fun _ l => Kept l.state := by
    rw [Search.meets_inSpace, StateSpace.dispose, meets_bind, meets_read]
    split
    · rw [meets_bind, meets_change, StateSpace.meets_call]
      have hkept (memory : W) :
          Kept { v.search with space := { v.search.space with memory, disposed := true } } :=
        ⟨{ v.search.space with memory, disposed := true }, rfl, rfl⟩
      exact .of_forall (fun _ l => hkept l.state) fun _ l => hkept l.state
    · exact ⟨v.search.space, rfl, rfl⟩
  rw [dispose]
  split
  · rename_i hok
    exact hmeets.ok hok
  · rename_i herror
    exact hmeets.error herror

variable [DecidableEq S] [HasDigest S]

theorem exists_search_of_runWith {runId : String} {tick : Search W S → η → Bool × η} {limit : Nat}
    {log : List LogEvent} {h : η} {s : Summary S}
    (hs : (v.runWith p runId tick limit log h).1 = .ok s) :
    s.stats = (v.runWith p runId tick limit log h).2.1.state.search.stats ∧
    ∃ space, space.table = (Run.drive p tick limit (v.begin p runId log) h).1.search.space.table ∧
      (v.runWith p runId tick limit log h).2.1.state.search =
        { (Run.drive p tick limit (v.begin p runId log) h).1.search with space } := by
  simp only [runWith] at hs ⊢
  cases hresult : result (Run.drive p tick limit (v.begin p runId log) h).1.status with
  | error text => simp [hresult] at hs
  | ok outcome =>
      simp only [hresult, Except.ok.injEq] at hs ⊢
      refine ⟨by rw [← hs]; rfl, ?_⟩
      exact exists_dispose_search p
        { v with search := (Run.drive p tick limit (v.begin p runId log) h).1.search } _

end Verification

namespace Model

open Search

variable {m : Model} {d d' : Directives} {property runId : String} {formula : Formula} {η : Type}
  {s : ModelState} {targets next : List ModelState}

theorem nodup_ampleStates (h : m.ampleStates s = .ok (some targets)) : targets.Nodup := by
  obtain ⟨ts, -, h⟩ := except_bind_eq_ok.1 h
  cases ts with
  | none => cases h
  | some ts =>
      obtain ⟨next, hnext, h⟩ := except_bind_eq_ok.1 h
      cases next with
      | nil => cases h
      | cons u next =>
          cases h
          exact nodup_fireInto .nil hnext

theorem ampleStates_of_ample? (h : m.ample? s = .ok (some targets)) :
    m.ampleStates s = .ok (some targets) := by
  rw [ample?] at h
  split at h
  · exact h
  · cases h

theorem ample_subset_next {r : PropositionReader}
    (hample : (m.behaviour r).ample s = some (some targets))
    (hnext : (m.behaviour r).next? s = some next) : targets ⊆ next := by
  obtain ⟨_, _, -, -, hmem⟩ := ampleStates_eq_ok (ample_behaviour hample)
  intro s' hs'
  obtain ⟨t, -, hmove⟩ := (hmem s').1 hs'
  exact mem_next?_of_moves hnext hmove

/-- What a run that checks a property on a model ends with: its summary, and its search as it has
been left. -/
def report (m : Model) (property : String) (d : Directives) (runId : String)
    (tick : Search Model ModelState → η → Bool × η) (limit : Nat) (h : η) :
    Option (Summary ModelState × Search Model ModelState) :=
  (Verification.create (program m.reader) m [] property d).toOption.bind fun v =>
    (v.state.runWith (program m.reader) runId tick limit v.log h).1.toOption.map
      (·, (v.state.runWith (program m.reader) runId tick limit v.log h).2.1.state.search)

/-- A run that passes has completed a search, and tells its size. -/
theorem exists_completed {tick : Search Model ModelState → η → Bool × η} {limit : Nat} {h : η}
    {summary : Summary ModelState} {x : Search Model ModelState}
    (hreport : m.report property d runId tick limit h = some (summary, x))
    (hpass : summary.outcome = .pass) :
    ∃ formula, Formula.parse property = .ok formula ∧ ∃ (y : Search Model ModelState) (root : Nat),
      y.Completed (· = m.readyFor formula d) ((m.readyFor formula d).behaviour m.reader)
        formula.negate root ∧
      summary.stats.productNodes = y.nodes.size ∧ summary.stats.visitedNodes = y.visitedNodes ∧
      ∀ u, x.Enters u ↔ y.Enters u := by
  obtain ⟨⟨v, log⟩, hcreate, hrun⟩ := Option.bind_eq_some_iff.1 hreport
  obtain ⟨_, hs, heq⟩ := Option.map_eq_some_iff.1 hrun
  obtain ⟨rfl, rfl⟩ := Prod.mk.inj heq
  rw [except_toOption_eq_some] at hcreate hs
  obtain ⟨formula, hparse, -⟩ := except_bind_eq_ok.1 hcreate
  have hformula := except_mapError_eq_ok.1 hparse
  obtain ⟨hsearch, -⟩ := search_of_create hformula hcreate
  have hresult := Verification.result_of_runWith hs
  obtain ⟨log', hbegin⟩ := Verification.exists_begin_eq hresult (by simp [hpass])
  obtain ⟨hstats, space, htable, hleft⟩ := Verification.exists_search_of_runWith hs
  rw [hbegin, hsearch] at hresult htable hleft
  rw [hpass] at hresult
  obtain ⟨root, hcompleted⟩ := Run.completed_of_pass (behaves_readyFor m formula d)
    (sound_searchFor m formula d) ⟨rfl, rfl, rfl⟩ (Verification.verdict?_of_result_pass hresult)
  rw [hleft] at hstats ⊢
  refine ⟨formula, hformula, _, root, hcompleted, ?_, ?_, fun u => enters_congr rfl htable rfl⟩
  · rw [hstats]
    rfl
  · rw [hstats]
    rfl

/-- Reduction never enlarges a search. What a model answers as an ample set is a part of the
successors, not empty and without repetitions. If two runs that check the same property and agree on
slicing pass, the second one without reduction, then the first one has no more nodes than the second
one, has not entered more of them, and has not entered a place that the second one has left out. -/
theorem reduction_never_enlarges (m : Model) :
    (∀ s log targets, (ample s).answer ⟨m, log⟩ = .ok (some targets) →
      targets ≠ [] ∧ targets.Nodup ∧
      ∀ log' next, (successors s).answer ⟨m, log'⟩ = .ok next → targets ⊆ next) ∧
    ∀ {η η' : Type} (tick : Search Model ModelState → η → Bool × η)
      (tick' : Search Model ModelState → η' → Bool × η') (limit limit' : Nat) (h : η) (h' : η')
      (runId runId' property : String) (d d' : Directives),
      d'.slicing = d.slicing → d'.partialOrderReduction = false →
      ∀ reduced full x y, m.report property d runId tick limit h = some (reduced, x) →
        reduced.outcome = .pass →
        m.report property d' runId' tick' limit' h' = some (full, y) → full.outcome = .pass →
        reduced.stats.productNodes ≤ full.stats.productNodes ∧
        reduced.stats.visitedNodes ≤ full.stats.visitedNodes ∧
        ∀ u, x.Enters u → y.Enters u := by
  constructor
  · intro s log targets hample
    rw [ample_eq_query, answer_query] at hample
    have hstates := ampleStates_of_ample? hample
    obtain ⟨_, _, -, hne, hmem⟩ := ampleStates_eq_ok hstates
    refine ⟨hne, nodup_ampleStates hstates, fun log' next hnext s' hs' => ?_⟩
    rw [successors_eq_query, answer_query] at hnext
    obtain ⟨t, -, hmove⟩ := (hmem s').1 hs'
    exact (mem_successors? hnext).2 ⟨t, hmove⟩
  · intro η η' tick tick' limit limit' h h' runId runId' property d d' hslicing hfull reduced full x
      y hx hpass hy hpass'
    obtain ⟨formula, hformula, x', root, hcompleted, hsize, hvisited, hx'⟩ :=
      exists_completed hx hpass
    obtain ⟨_, hformula', y', root', hcompleted', hsize', hvisited', hy'⟩ :=
      exists_completed hy hpass'
    obtain rfl := Except.ok.inj (hformula.symm.trans hformula')
    have hsame : (m.readyFor formula d').behaviour m.reader =
        { (m.readyFor formula d).behaviour m.reader with ample := fun _ => some none } :=
      behaviour_unreduced m m.reader hslicing rfl hfull
    rw [hsame] at hcompleted'
    have henters (u : Place ModelState) (hu : x'.Enters u) : y'.Enters u :=
      hcompleted.enters_unreduced hcompleted' (fun _ _ _ => ample_subset_next) hu
    obtain ⟨hsizes, hvisits⟩ := hcompleted.card_le hcompleted' henters
    refine ⟨?_, ?_, fun u hu => ?_⟩
    · rw [hsize, hsize']
      exact hsizes
    · rw [hvisited, hvisited']
      exact hvisits
    · exact (hy' u).2 (henters u ((hx' u).1 hu))

/-- The flag that nobody looks at is set first, and a third of the nodes is never seen. -/
theorem flags_reduction_shrinks : ∃ reduced full x y,
    flags.report "G (up -> G up)" { partialOrderReduction := true } "1" goOn 100 () =
      some (reduced, x) ∧
    flags.report "G (up -> G up)" { partialOrderReduction := false } "2" goOn 100 () =
      some (full, y) ∧
    reduced.stats.visitedNodes = 6 ∧ full.stats.visitedNodes = 9 ∧
    reduced.stats.productNodes ≤ full.stats.productNodes ∧ ∀ u, x.Enters u → y.Enters u := by
  have hreduced : (flags.report "G (up -> G up)" { partialOrderReduction := true } "1"
    goOn 100 ()).map
      (fun r => (r.1.outcome, r.1.stats.visitedNodes)) = some (.pass, 6) := by decide +kernel
  have hfull : (flags.report "G (up -> G up)" { partialOrderReduction := false } "2"
    goOn 100 ()).map
      (fun r => (r.1.outcome, r.1.stats.visitedNodes)) = some (.pass, 9) := by decide +kernel
  obtain ⟨⟨reduced, x⟩, hx, hreduced⟩ := Option.map_eq_some_iff.1 hreduced
  obtain ⟨⟨full, y⟩, hy, hfull⟩ := Option.map_eq_some_iff.1 hfull
  obtain ⟨hpass, hsix⟩ := Prod.mk.inj hreduced
  obtain ⟨hpass', hnine⟩ := Prod.mk.inj hfull
  obtain ⟨hsizes, -, henters⟩ := (reduction_never_enlarges flags).2 goOn goOn 100 100 ()
    () "1" "2" "G (up -> G up)" { partialOrderReduction := true } { partialOrderReduction := false }
    rfl rfl reduced full x y hx hpass hy hpass'
  exact ⟨reduced, full, x, y, hx, hy, hsix, hnine, hsizes, henters⟩

end Model

end TemporalCheck
