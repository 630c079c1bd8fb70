import TemporalCheck.Proofs.Phases
import TemporalCheck.Proofs.SearchRun

namespace TemporalCheck

open PropertyState

variable {W S : Type}

/-- The program moves, and the property automaton moves to a state whose literals hold then. -/
structure ProductState.Step (b : Behaviour S) (u v : ProductState S) : Prop where
  program : b.Step u.program v.program
  property : v.property ∈ cover u.property.obligations
  literals : b.Supports v.program v.property

/-- A step of the product with its phases, as a search with or without reduction records it. -/
def Place.Step (b : Behaviour S) (f : Formula) (reduction : Bool) (u v : Place S) : Prop :=
  ∃ reduced targets, (reduced = true → reduction = true) ∧ Search.Targets b u reduced targets ∧
    u.Leads f targets v ∧ b.Supports v.program v.property

/-- The places of an infinite run of the product that meets every acceptance set. -/
structure Place.IsRun (b : Behaviour S) (f : Formula) (reduction : Bool) (place : Nat → Place S) :
    Prop where
  start : b.initial = some (place 0).program
  property : (place 0).property ∈ cover (.ofList [f])
  literals : b.Supports (place 0).program (place 0).property
  step : ∀ n, Place.Step b f reduction (place n) (place (n + 1))
  root : ∀ n, (place n).root = false
  fair : Fair f fun n => (place n).property

/-- The ample sets that are offered consist of successors. -/
def Behaviour.AmpleWithin (b : Behaviour S) : Prop :=
  ∀ s set, b.ample s = some (some set) → ∃ next, b.successors s = some next ∧ ∀ s' ∈ set, s' ∈ next

/-- A path from the root to an accepting place, and a cycle from there back to the path. -/
structure Lasso (b : Behaviour S) (f : Formula) (reduction : Bool) (path cycle : List (Place S)) :
    Prop where
  start : ∃ s, b.initial = some s ∧ path.head? = some ⟨s, .ofList [.next f], 0, true⟩
  linked : path.IsChain (Place.Step b f reduction)
  looped : cycle.IsChain (Place.Step b f reduction)
  seed : ∃ u, u.Accepting f ∧ path.getLast? = some u ∧ cycle.head? = some u
  long : 2 ≤ cycle.length
  back : ∃ (k : Nat) (u : Place S), path[k]? = some u ∧ cycle.getLast? = some u

namespace Counterexample

/-- The cycle ends at a position of the path after the root. -/
def ClosesAt (c : Counterexample S) (i : Nat) : Prop :=
  1 ≤ i ∧ i < c.path.length ∧ c.path[i]? = c.cycle.getLast?

def stem (c : Counterexample S) (i : Nat) : List (ProductState S) := (c.path.take i).tail

def loop (c : Counterexample S) (i : Nat) : List (ProductState S) :=
  c.path.drop i ++ c.cycle.tail.dropLast

/-- A path and a cycle of the product of the program and the automaton of `f`. The path starts at
the root, which stands before the first state. -/
structure Genuine (b : Behaviour S) (f : Formula) (c : Counterexample S) : Prop where
  root : ∃ s q, b.initial = some s ∧ c.path[0]? = some ⟨s, .ofList [.next f]⟩ ∧
    c.path[1]? = some ⟨s, q⟩ ∧ q ∈ cover (.ofList [f]) ∧ b.Supports s q
  linked : c.path.tail.IsChain (ProductState.Step b)
  looped : c.cycle.IsChain (ProductState.Step b)
  long : 2 ≤ c.cycle.length
  joined : c.cycle.head? = c.path.getLast?
  back : ∃ i, c.ClosesAt i

end Counterexample

namespace Search

variable {valid : W → Prop} {b : Behaviour S} {f : Formula} {x : Search W S} {ids : List Nat}
  {places : List (Place S)}

theorem Shown.exists_places {states : List (ProductState S)} (h : x.Shown ids states) :
    ∃ places, List.Forall₂ x.Stores ids places ∧ states = places.map Place.state := by
  induction h with
  | nil => exact ⟨[], .nil, rfl⟩
  | cons hu _ ih =>
      obtain ⟨u, hu, rfl⟩ := hu
      obtain ⟨places, hplaces, rfl⟩ := ih
      exact ⟨u :: places, .cons hu hplaces, rfl⟩

theorem exists_place_getElem? (h : List.Forall₂ x.Stores ids places) {k id : Nat}
    (hid : ids[k]? = some id) : ∃ u, places[k]? = some u ∧ x.Stores id u := by
  induction h generalizing k with
  | nil => simp at hid
  | cons hu _ ih =>
      cases k with
      | zero =>
          obtain rfl : _ = id := by simpa using hid
          exact ⟨_, rfl, hu⟩
      | succ k => exact ih (by simpa using hid)

theorem exists_place_getLast? (h : List.Forall₂ x.Stores ids places) {id : Nat}
    (hid : ids.getLast? = some id) : ∃ u, places.getLast? = some u ∧ x.Stores id u := by
  rw [List.getLast?_eq_getElem?] at hid ⊢
  rw [← h.length_eq]
  exact exists_place_getElem? h hid

theorem exists_place_head? (h : List.Forall₂ x.Stores ids places) {id : Nat}
    (hid : ids.head? = some id) : ∃ u, places.head? = some u ∧ x.Stores id u := by
  rw [List.head?_eq_getElem?] at hid ⊢
  exact exists_place_getElem? h hid

variable [HasDigest S]

theorem Sound.isChain_step (h : Sound valid b f x) (hplaces : List.Forall₂ x.Stores ids places)
    (hchain : ids.IsChain x.marks.Edge) : places.IsChain (Place.Step b f x.reduction) := by
  induction hplaces with
  | nil => exact .nil
  | cons hu hrest ih =>
      cases hrest with
      | nil => exact .singleton _
      | cons hv hrest =>
          rw [List.isChain_cons_cons] at hchain
          obtain ⟨reduced, targets, v, -, hallowed, htargets, hv', hleads, hsupports⟩ :=
            h.leads hu hchain.1
          obtain rfl := hv'.unique hv
          exact .cons_cons ⟨reduced, targets, hallowed, htargets, hleads, hsupports⟩ (ih hchain.2)

theorem Sound.exists_lasso (h : Sound valid b f x) {root : Nat} (hroot : x.Rooted b f root)
    {path cycle : List Nat} (hcloses : Closes (x.Accepting f) root x.marks path cycle)
    {c : Counterexample S} (hpath : x.Shown path c.path) (hcycle : x.Shown cycle c.cycle) :
    ∃ P C, Lasso b f x.reduction P C ∧ c.path = P.map Place.state ∧
      c.cycle = C.map Place.state := by
  obtain ⟨P, hP, hpath⟩ := hpath.exists_places
  obtain ⟨C, hC, hcycle⟩ := hcycle.exists_places
  refine ⟨P, C, ⟨?_, h.isChain_step hP hcloses.linked, h.isChain_step hC hcloses.looped, ?_, ?_,
    ?_⟩, hpath, hcycle⟩
  · obtain ⟨s, hs, hstores⟩ := hroot
    obtain ⟨u, hu, hu'⟩ := exists_place_head? hP hcloses.start
    obtain rfl := hu'.unique hstores
    exact ⟨s, hs, hu⟩
  · obtain ⟨seed, ⟨u, hu, hacc⟩, hlast, hhead⟩ := hcloses.seed
    obtain ⟨v, hv, hv'⟩ := exists_place_getLast? hP hlast
    obtain ⟨w, hw, hw'⟩ := exists_place_head? hC hhead
    obtain rfl := hv'.unique hu
    obtain rfl := hw'.unique hu
    exact ⟨_, hacc, hv, hw⟩
  · rw [← hC.length_eq]
    exact hcloses.long
  · obtain ⟨id, hmem, hlast⟩ := hcloses.back
    obtain ⟨k, hk⟩ := List.mem_iff_getElem?.1 hmem
    obtain ⟨u, hu, hu'⟩ := exists_place_getElem? hP hk
    obtain ⟨v, hv, hv'⟩ := exists_place_getLast? hC hlast
    obtain rfl := hv'.unique hu'
    exact ⟨k, _, hu, hv⟩

end Search

namespace Place

variable {b : Behaviour S} {f : Formula} {reduction : Bool} {u v : Place S}
  {places : List (Place S)}

theorem Step.root (h : Step b f reduction u v) : v.root = false := by
  obtain ⟨_, _, -, -, hleads, -⟩ := h
  exact hleads.root

theorem root_eq_false_of_mem_tail (h : places.IsChain (Step b f reduction)) (hu : u ∈ places.tail) :
    u.root = false := by
  cases places with
  | nil => cases hu
  | cons first places =>
      induction places generalizing first with
      | nil => cases hu
      | cons second places ih =>
          rw [List.isChain_cons_cons] at h
          rcases List.mem_cons.1 hu with rfl | hu
          · exact h.1.root
          · exact ih second h.2 hu

namespace IsRun

variable {place : Nat → Place S}

theorem follows (h : IsRun b f reduction place) : Follows f fun n => (place n).property := by
  refine ⟨h.property, fun n => ?_⟩
  obtain ⟨_, _, -, -, hleads, -⟩ := h.step n
  exact hleads.property

theorem supports (h : IsRun b f reduction place) (n : Nat) :
    b.Supports (place n).program (place n).property := by
  cases n with
  | zero => exact h.literals
  | succ n =>
      obtain ⟨_, _, -, -, -, hsupports⟩ := h.step n
      exact hsupports

theorem targets (h : IsRun b f reduction place) (n : Nat) :
    (reduction = true ∧ ∃ set, b.ample (place n).program = some (some set) ∧
      (place (n + 1)).program ∈ set) ∨
      ∃ next, b.next? (place n).program = some next ∧ (place (n + 1)).program ∈ next := by
  obtain ⟨reduced, targets, hallowed, htargets, hleads, -⟩ := h.step n
  cases reduced with
  | true =>
      refine .inl ⟨hallowed rfl, targets, ?_, hleads.program⟩
      simpa [Search.Targets, h.root n] using htargets
  | false =>
      refine .inr ⟨targets, ?_, hleads.program⟩
      simpa [Search.Targets, h.root n] using htargets

end IsRun

theorem Step.state (h : Step b f reduction u v) (hroot : u.root = false)
    (hample : reduction = true → b.AmpleWithin) : ProductState.Step b u.state v.state := by
  obtain ⟨reduced, targets, hallowed, htargets, hleads, hsupports⟩ := h
  refine ⟨?_, hleads.property, hsupports⟩
  cases reduced with
  | true =>
      have hset : b.ample u.program = some (some targets) := by
        simpa [Search.Targets, hroot] using htargets
      obtain ⟨next, hnext, hsub⟩ := hample (hallowed rfl) _ _ hset
      exact ⟨next, hnext, .inl (hsub _ hleads.program)⟩
  | false =>
      have hnext : b.next? u.program = some targets := by
        simpa [Search.Targets, hroot] using htargets
      exact Behaviour.step_iff.2 ⟨targets, hnext, hleads.program⟩

theorem isChain_state (h : places.IsChain (Step b f reduction))
    (hroot : ∀ u ∈ places, u.root = false) (hample : reduction = true → b.AmpleWithin) :
    (places.map Place.state).IsChain (ProductState.Step b) := by
  rw [List.isChain_map]
  exact h.imp_of_mem_imp fun u v hu _ huv => huv.state (hroot u hu) hample

end Place

namespace Lasso

variable {b : Behaviour S} {f : Formula} {reduction : Bool} {path cycle : List (Place S)}

theorem exists_tail (h : Lasso b f reduction path cycle) :
    ∃ s first rest, b.initial = some s ∧
      path = ⟨s, .ofList [.next f], 0, true⟩ :: first :: rest := by
  obtain ⟨s, hs, hhead⟩ := h.start
  obtain ⟨u, hacc, hlast, -⟩ := h.seed
  obtain ⟨tail, rfl⟩ := List.head?_eq_some_iff.1 hhead
  cases tail with
  | nil =>
      obtain rfl : _ = u := by simpa using hlast
      cases hacc.1
  | cons first rest => exact ⟨s, first, rest, hs, rfl⟩

theorem root_cycle (h : Lasso b f reduction path cycle) : ∀ u ∈ cycle, u.root = false := by
  intro u hu
  obtain ⟨v, hacc, -, hhead⟩ := h.seed
  obtain ⟨tail, rfl⟩ := List.head?_eq_some_iff.1 hhead
  rcases List.mem_cons.1 hu with rfl | hu
  · exact hacc.1
  · exact Place.root_eq_false_of_mem_tail h.looped hu

theorem exists_back (h : Lasso b f reduction path cycle) :
    ∃ (k : Nat) (v : Place S), 1 ≤ k ∧ path[k]? = some v ∧ cycle.getLast? = some v := by
  obtain ⟨k, v, hk, hlast⟩ := h.back
  refine ⟨k, v, ?_, hk, hlast⟩
  rcases Nat.eq_zero_or_pos k with rfl | hpos
  · obtain ⟨s, first, rest, -, rfl⟩ := h.exists_tail
    obtain rfl : _ = v := by simpa using hk
    have := h.root_cycle _ (List.mem_of_getLast? hlast)
    cases this
  · exact hpos

theorem root_step (h : Lasso b f reduction path cycle) :
    ∃ s first rest, b.initial = some s ∧ path = ⟨s, .ofList [.next f], 0, true⟩ :: first :: rest ∧
      first.program = s ∧ first.property ∈ cover (.ofList [f]) ∧
      b.Supports first.program first.property := by
  obtain ⟨s, first, rest, hs, rfl⟩ := h.exists_tail
  obtain ⟨reduced, targets, -, htargets, hleads, hsupports⟩ := (List.isChain_cons_cons.1 h.linked).1
  refine ⟨s, first, rest, hs, rfl, ?_, hleads.property, hsupports⟩
  have hmem := hleads.program
  cases reduced <;> simp [Search.Targets] at htargets
  simpa [htargets] using hmem

/-- Going round the cycle for ever is a run of the product. -/
theorem exists_run (h : Lasso b f reduction path cycle) {k : Nat} {v : Place S} (hpos : 1 ≤ k)
    (hk : path[k]? = some v) (hlast : cycle.getLast? = some v) :
    ∃ place, Repeats (path.take k).tail (path.drop k ++ cycle.tail.dropLast) place ∧
      Place.IsRun b f reduction place := by
  have hlt : k < path.length := (List.getElem?_eq_some_iff.1 hk).1
  obtain ⟨seed, hacc, hseed, hhead⟩ := h.seed
  have hsplit : (path.take k).tail ++ (path.drop k ++ cycle.tail.dropLast) =
      path.tail ++ cycle.tail.dropLast := by
    rw [← List.append_assoc, tail_take_append_drop hpos hlt]
  have hjoined : cycle.head? = path.tail.getLast? := by
    rw [List.getLast?_tail, if_neg (by omega), hhead, hseed]
  have hfirst : (path.drop k ++ cycle.tail.dropLast).head? = some v := by
    rw [List.head?_append, List.head?_drop, hk]
    rfl
  have hchain := isChain_join h.linked.tail h.looped hjoined h.long hlast
  rw [← hsplit] at hchain
  obtain ⟨place, hplace⟩ :=
    exists_repeats (path.take k).tail (List.ne_nil_of_mem (List.mem_of_head? hfirst))
  have hstep : ∀ n, Place.Step b f reduction (place n) (place (n + 1)) := hplace.step hchain hfirst
  obtain ⟨s, first, rest, hs, hpath, hprogram, hproperty, hsupports⟩ := h.root_step
  have hzero : place 0 = first := by
    have hstart := hplace.head?
    rw [hsplit, hpath] at hstart
    simpa using hstart.symm
  have hroot : ∀ n, (place n).root = false := by
    intro n
    cases n with
    | zero => exact hzero ▸ Place.root_eq_false_of_mem_tail h.linked (by simp [hpath])
    | succ n => exact (hstep n).root
  -- the phase counter goes round the cycle and comes to the accepting seed again and again
  have hcounts : Place.Counts f (fun n => (place n).property) fun n => (place n).phase := by
    intro n
    obtain ⟨_, _, -, -, hleads, -⟩ := hstep n
    simp only [hleads.phase, Place.nextPhase, hroot n]
    rfl
  have hseed' : (path.drop k).getLast? = some seed := by
    rw [List.getLast?_drop, if_neg (by omega), hseed]
  have hmem : seed ∈ path.drop k ++ cycle.tail.dropLast :=
    List.mem_append_left _ (List.mem_of_getLast? hseed')
  have hfair := hcounts.fair_of_accepts
    ((hplace.infinitelyOften hmem).mono fun n hn => by rw [hn]; exact hacc.2)
  exact ⟨place, hplace, by rw [hzero, hprogram, hs], by rwa [hzero], by rwa [hzero],
    hstep, hroot, hfair⟩

theorem genuine (h : Lasso b f reduction path cycle) (hample : reduction = true → b.AmpleWithin) :
    Counterexample.Genuine b f ⟨path.map Place.state, cycle.map Place.state⟩ := by
  refine ⟨?_, ?_, Place.isChain_state h.looped h.root_cycle hample, by simpa using h.long, ?_, ?_⟩
  · obtain ⟨s, first, rest, hs, rfl, hprogram, hproperty, hsupports⟩ := h.root_step
    exact ⟨s, first.property, hs, rfl, by simp [Place.state, hprogram], hproperty,
      hprogram ▸ hsupports⟩
  · rw [← List.map_tail]
    exact Place.isChain_state h.linked.tail
      (fun u hu => Place.root_eq_false_of_mem_tail h.linked hu) hample
  · obtain ⟨u, -, hlast, hhead⟩ := h.seed
    simp [hlast, hhead]
  · obtain ⟨k, v, hpos, hk, hlast⟩ := h.exists_back
    exact ⟨k, hpos, by simpa using (List.getElem?_eq_some_iff.1 hk).1, by simp [hk, hlast]⟩

/-- The loop from the first position where the cycle can be closed meets every acceptance set. -/
theorem exists_keeps_loop (h : Lasso b f reduction path cycle) {i : Nat}
    (hfirst : ∀ j, Counterexample.ClosesAt ⟨path.map Place.state, cycle.map Place.state⟩ j →
      i ≤ j) :
    ∀ p ∈ f.promises, ∃ s ∈ Counterexample.loop ⟨path.map Place.state, cycle.map Place.state⟩ i,
      PropertyAutomaton.keeps s.property p = true := by
  intro p hp
  obtain ⟨k, v, hpos, hk, hlast⟩ := h.exists_back
  have hik : i ≤ k := hfirst k ⟨hpos, by simpa using (List.getElem?_eq_some_iff.1 hk).1,
    by simp [hk, hlast]⟩
  obtain ⟨place, hplace, hrun⟩ := h.exists_run hpos hk hlast
  obtain ⟨n, hn, hkeeps⟩ := hrun.fair p hp (path.take k).tail.length
  have hu := hplace.mem_loop hn
  refine ⟨(place n).state, ?_, hkeeps⟩
  rw [Counterexample.loop, ← List.map_drop, ← List.map_tail, ← List.map_dropLast, ← List.map_append]
  refine List.mem_map_of_mem ?_
  rcases List.mem_append.1 hu with hu | hu
  · exact List.mem_append_left _ (List.drop_subset_drop_left path hik hu)
  · exact List.mem_append_right _ hu

end Lasso

namespace Counterexample

variable {b : Behaviour S} {f : Formula} {c : Counterexample S} {i : Nat}

theorem holds_of_supports {run : Nat → S} {n : Nat} {q : PropertyState} (h : b.Supports (run n) q) :
    ∀ g ∈ q.literals, Formula.Holds (b.word run) g n := by
  intro g hg
  have htrue := h g hg
  have hliteral := (mem_literals.1 hg).2
  cases g with
  | prop p => exact htrue
  | neg a =>
      cases a <;> simp only [Formula.isLiteral, Bool.false_eq_true] at hliteral
      simp only [Behaviour.entails, Option.map_eq_some_iff, Bool.not_eq_true'] at htrue
      obtain ⟨v, hv, rfl⟩ := htrue
      intro hholds
      have heq := hv.symm.trans hholds
      cases heq
  | _ => simp [Formula.isLiteral] at hliteral

/-- A genuine counterexample whose loop meets every acceptance set is an execution that satisfies
the formula of the automaton. -/
theorem Genuine.exists_run (h : Genuine b f c) (hf : f.isNnf = true) (hi : c.ClosesAt i)
    (hkeeps : ∀ p ∈ f.promises, ∃ u ∈ c.loop i, PropertyAutomaton.keeps u.property p = true) :
    ∃ run, Repeats ((c.stem i).map ProductState.program) ((c.loop i).map ProductState.program) run ∧
      b.IsRun run ∧
      Formula.Satisfies (b.word run) f := by
  obtain ⟨hpos, hlt, hclose⟩ := hi
  obtain ⟨s, q, hs, -, hfirst, hq, hsupports⟩ := h.root
  have ha : c.path[i]? = some c.path[i] := List.getElem?_eq_getElem hlt
  have hsplit : c.stem i ++ c.loop i = c.path.tail ++ c.cycle.tail.dropLast := by
    rw [stem, loop, ← List.append_assoc, tail_take_append_drop hpos hlt]
  have hjoined : c.cycle.head? = c.path.tail.getLast? := by
    rw [List.getLast?_tail, if_neg (by omega), h.joined]
  have hloop : (c.loop i).head? = some c.path[i] := by
    rw [loop, List.head?_append, List.head?_drop, ha]
    rfl
  have hchain := isChain_join h.linked h.looped hjoined h.long (hclose ▸ ha)
  rw [← hsplit] at hchain
  obtain ⟨ps, hps⟩ := exists_repeats (c.stem i) (List.ne_nil_of_mem (List.mem_of_head? hloop))
  have hstep : ∀ n, ProductState.Step b (ps n) (ps (n + 1)) := hps.step hchain hloop
  have hzero : ps 0 = ⟨s, q⟩ := by
    have hhead := hps.head?
    rw [hsplit, List.head?_append, List.head?_tail, hfirst] at hhead
    exact (Option.some.inj hhead).symm
  have hliterals : ∀ n, b.Supports (ps n).program (ps n).property := by
    intro n
    cases n with
    | zero => rw [hzero]; exact hsupports
    | succ n => exact (hstep n).literals
  have hfollows : Follows f fun n => (ps n).property :=
    ⟨by simpa [hzero] using hq, fun n => (hstep n).property⟩
  have hfair : Fair f fun n => (ps n).property := by
    intro p hp
    obtain ⟨u, hu, hkeep⟩ := hkeeps p hp
    exact (hps.infinitelyOften hu).mono fun n hn => by simpa only [hn] using hkeep
  exact ⟨fun n => (ps n).program, hps.map _, ⟨by simp [hzero, hs], fun n => (hstep n).program⟩,
    hfollows.satisfies hf hfair fun n => holds_of_supports (hliterals n)⟩

end Counterexample

namespace Run

open Search

variable {η : Type} [DecidableEq S] [HasDigest S] {p : Program W S} {valid : W → Prop}
  {b : Behaviour S}

/-- A search that reports a violation has closed a cycle of the product. -/
theorem exists_lasso_of_violation {f : Formula} {x : Search W S} (hp : p.Behaves valid b)
    (hx : x.Sound valid b f) {log : List LogEvent} {jobs : List Job}
    {tick : Search W S → η → Bool × η} {limit : Nat} {h : η} {c : Counterexample S}
    (hviolation : (drive p tick limit (begin p x log jobs) h).1.verdict? = some (.violation c)) :
    ∃ P C, Lasso b f x.reduction P C ∧ c = ⟨P.map Place.state, C.map Place.state⟩ := by
  obtain ⟨hsound, hreduction, root, path, cycle, hroot, hcloses, hpath, hcycle⟩ :=
    (good_drive hp hx tick limit log jobs h).of_verdict hviolation
  obtain ⟨P, C, hlasso, hP, hC⟩ := hsound.exists_lasso hroot hcloses hpath hcycle
  rw [hreduction] at hlasso
  exact ⟨P, C, hlasso, by rw [← hP, ← hC]⟩

/-- What a search reports as a violation is a path and a cycle of the product, and the execution
that goes round from the first position where the cycle can be closed violates the property. -/
theorem violates_of_violation (hp : p.Behaves valid b) (f : Formula) {memory : W}
    (hmemory : valid memory) {reduction printTree : Bool}
    (hample : reduction = true → b.AmpleWithin) {log : List LogEvent} {jobs : List Job}
    {tick : Search W S → η → Bool × η} {limit : Nat} {h : η} {c : Counterexample S}
    (hviolation : (drive p tick limit (begin p
      { space := { memory := memory }, property := .ofViolations f, reduction := reduction,
        printTree := printTree }
      log jobs) h).1.verdict? = some (.violation c)) :
    c.Genuine b f.negate ∧ ∃ i, c.ClosesAt i ∧ (∀ j, c.ClosesAt j → i ≤ j) ∧
      ∃ run, Repeats ((c.stem i).map ProductState.program)
        ((c.loop i).map ProductState.program) run ∧
        b.IsRun run ∧ ¬ Formula.Satisfies (b.word run) f := by
  obtain ⟨P, C, hlasso, rfl⟩ := exists_lasso_of_violation hp
    (sound_of_nodes_empty (StateSpace.sound_start hmemory)
    (PropertyAutomaton.sound_ofFormula f.negate) rfl) hviolation
  have hgenuine := hlasso.genuine hample
  classical
  refine ⟨hgenuine, Nat.find hgenuine.back, Nat.find_spec hgenuine.back,
    fun j hj => Nat.find_min' _ hj, ?_⟩
  obtain ⟨run, hrepeats, hrun, hsatisfies⟩ := hgenuine.exists_run (Formula.isNnf_signed false f)
    (Nat.find_spec hgenuine.back) (hlasso.exists_keeps_loop fun j hj => Nat.find_min' _ hj)
  exact ⟨run, hrepeats, hrun, Formula.holds_negate.1 hsatisfies⟩

/-- A walk that may leave its middle node for good. The first node has an ample set. -/
def dropout : Graph :=
  { initial := 0, edges := [(0, 1), (1, 0), (1, 2), (2, 2)], ample := [(0, [1])] }

def dropoutSearch : Run Graph UInt32 :=
  (drive (Graph.program [(1, "middle")]) (fun _ (h : Unit) => (true, h)) 100
    (begin (Graph.program [(1, "middle")])
    { space := { memory := dropout },
      property := .ofViolations (.release .bot (.until .top (.prop "middle")))
      reduction := true } [] [.search]) ()).1

def dropoutWalk : Counterexample UInt32 :=
  let waiting : PropertyState :=
    .ofList [.next (.until .top (.release .bot (.neg (.prop "middle"))))]
  let gone : PropertyState :=
    .ofList [.neg (.prop "middle"), .next (.release .bot (.neg (.prop "middle")))]
  ⟨[⟨0, waiting⟩, ⟨0, waiting⟩, ⟨1, waiting⟩, ⟨2, gone⟩], [⟨2, gone⟩, ⟨2, gone⟩]⟩

theorem dropout_violates :
    dropoutSearch.verdict? = some (.violation dropoutWalk) ∧
    (dropout.behaviour [(1, "middle")]).AmpleWithin ∧
    dropoutWalk.Genuine (dropout.behaviour [(1, "middle")])
      (Formula.negate (.release .bot (.until .top (.prop "middle")))) ∧
    ∃ i, dropoutWalk.ClosesAt i ∧ (∀ j, dropoutWalk.ClosesAt j → i ≤ j) ∧
      ∃ run, Repeats ((dropoutWalk.stem i).map ProductState.program)
        ((dropoutWalk.loop i).map ProductState.program) run ∧
        (dropout.behaviour [(1, "middle")]).IsRun run ∧
        ¬ Formula.Satisfies ((dropout.behaviour [(1, "middle")]).word run)
          (.release .bot (.until .top (.prop "middle"))) := by
  have hviolation : dropoutSearch.verdict? = some (.violation dropoutWalk) := by decide +kernel
  have hample : (dropout.behaviour [(1, "middle")]).AmpleWithin := by
    intro s set hset
    simp only [Graph.behaviour, Graph.ampleOf, dropout, Option.some.injEq, List.lookup_cons,
      List.lookup_nil] at hset
    split at hset
    · rename_i hs
      obtain rfl : s = 0 := by simpa using hs
      obtain rfl : [1] = set := by simpa using hset
      exact ⟨[1], rfl, fun _ h => h⟩
    · cases hset
  exact ⟨hviolation, hample,
    violates_of_violation (dropout.behaves _) _ rfl (fun _ => hample) hviolation⟩

end Run

end TemporalCheck
