import TemporalCheck.Proofs.PassVerdict
import TemporalCheck.Proofs.Stutter

namespace TemporalCheck

open Relation Formula PropertyState

/-- States that hold along words which come closer to whatever they hold later, and keep early what
they can, form a fair sequence. -/
theorem PropertyState.fair_of_approach {f : Formula} {visible : OrderedSet String}
    {q : Nat → PropertyState} {v : Nat → Word} {full : Nat → Prop}
    (hholds : ∀ i, ∀ g ∈ q i, Holds (v i) g 0) (hplain : ∀ i g, .next g ∈ q i → Plain visible g)
    (hkeeps : ∀ i, KeepsEarly (v (i + 1)) 0 (q i).obligations (q (i + 1)))
    (hstays : ∀ i r d, ¬ full i → Plain visible r → Holds (v i) r d → ∃ d', d' ≤ d ∧
      Holds (v (i + 1)) r d')
    (hmoves : ∀ i r d, full i → Holds (v i) r (d + 1) → Holds (v (i + 1)) r d)
    (hfull : InfinitelyOften full) : Fair f q := by
  intro p hp n
  obtain ⟨l, r, rfl, -⟩ := promise_eq hp
  by_contra hnone
  have hcarried : ∀ m, n ≤ m → .next (.until l r) ∈ q m ∧
      ¬ derivable ((q m).insert .top) r = true := by
    intro m hm
    by_contra hc
    refine hnone ⟨m, hm, ?_⟩
    simp only [PropertyAutomaton.keeps, Bool.or_eq_true, decide_eq_true_eq]
    tauto
  have hr : Plain visible r := (plain_until.1 (hplain n _ (hcarried n (Nat.le_refl n)).1)).2
  have hnow : ∀ m, n < m → ¬ Holds (v m) r 0 := by
    intro m hm h
    obtain ⟨j, rfl⟩ : ∃ j, m = j + 1 := ⟨m - 1, by omega⟩
    have hasked := mem_obligations.2 (hcarried j (by omega)).1
    exact (hcarried (j + 1) (by omega)).2 (hkeeps j l r hasked h)
  -- The distance to the next position with `r` never grows, and full steps make it smaller.
  have hcloser : ∀ m d, n < m → Holds (v m) r d →
      ∃ d', d' ≤ d ∧ Holds (v (m + 1)) r d' ∧ (full m → d' < d) := by
    intro m d hm h
    by_cases hf : full m
    · cases d with
      | zero => exact absurd h (hnow m hm)
      | succ d => exact ⟨d, by omega, hmoves m r d hf h, fun _ => by omega⟩
    · obtain ⟨d', hd', h'⟩ := hstays m r d hf hr h
      exact ⟨d', hd', h', fun hf' => absurd hf' hf⟩
  have hwait : ∀ k m d, n < m → Holds (v m) r d → ∃ d', d' ≤ d ∧ Holds (v (m + k)) r d' := by
    intro k m d hm h
    induction k with
    | zero => exact ⟨d, Nat.le_refl d, h⟩
    | succ k ih =>
        obtain ⟨d₁, hd₁, h₁⟩ := ih
        obtain ⟨d₂, hd₂, h₂, -⟩ := hcloser (m + k) d₁ (by omega) h₁
        exact ⟨d₂, by omega, h₂⟩
  have hnever : ∀ d m, n < m → ¬ Holds (v m) r d := by
    intro d
    induction d using Nat.strongRecOn with
    | _ d ih =>
    intro m hm h
    obtain ⟨m', hm', hf⟩ := hfull m
    obtain ⟨d₁, hd₁, h₁⟩ := hwait (m' - m) m d hm h
    rw [Nat.add_sub_cancel' hm'] at h₁
    obtain ⟨d₂, -, h₂, hlt⟩ := hcloser m' d₁ (by omega) h₁
    exact ih d₂ (by have := hlt hf; omega) (m' + 1) (by omega) h₂
  obtain ⟨k, -, hk, -⟩ := hholds (n + 1) _ (hcarried (n + 1) (by omega)).1
  exact hnever k (n + 1) (by omega) hk

/-- A path makes program steps where these are defined, and for each ample set there is a path
through it that differs visibly in how long it stays only. -/
structure Behaviour.Replays {S : Type} (b : Behaviour S) (visible : OrderedSet String)
    (Path : (Nat → S) → Prop) : Prop where
  next : ∀ run, Path run → ∀ targets, b.next? (run 0) = some targets → run 1 ∈ targets
  drop : ∀ run, Path run → Path fun j => run (1 + j)
  ample : ∀ run, Path run → ∀ targets, b.ample (run 0) = some (some targets) →
    ∃ run' e, Path run' ∧ run' 0 ∈ targets ∧ Stretch e ∧
      ∀ j, ∀ p ∈ visible, b.holds (run j) p = b.holds (run' (e j)) p

theorem Behaviour.word_congr {S : Type} (b : Behaviour S) {visible : OrderedSet String}
    {run run' : Nat → S} {e : Nat → Nat}
    (h : ∀ j, ∀ p ∈ visible, b.holds (run j) p = b.holds (run' (e j)) p) :
    ∀ j, ∀ p ∈ visible, b.word run j p ↔ b.word run' (e j) p := by
  intro j p hp
  rw [word, word, h j p hp]

namespace Search

variable {W S : Type} [HasDigest S] {valid : W → Prop} {b : Behaviour S} {f : Formula}
  {x : Search W S} {root : Nat} {visible : OrderedSet String} {Path : (Nat → S) → Prop}

structure Station (S : Type) where
  id : Nat
  phase : Nat
  property : PropertyState
  run : Nat → S

def Station.place (y : Station S) : Place S := ⟨y.run 0, y.property, y.phase, false⟩

structure Station.Ready (x : Search W S) (b : Behaviour S) (visible : OrderedSet String)
    (Path : (Nat → S) → Prop) (root : Nat) (y : Station S) : Prop where
  reached : ReflTransGen x.marks.Edge root y.id
  stored : x.Stores y.id y.place
  path : Path y.run
  holds : ∀ g ∈ y.property, Holds (b.word y.run) g 0
  settled : ∀ g, .next g ∈ y.property → Plain visible g ∧
    derivable (y.property.insert .top) g = true

/-- One step of the search along the path of a station: by an ample set, staying visibly where it
is, or by a step of the path. -/
structure Station.Step (x : Search W S) (b : Behaviour S) (visible : OrderedSet String)
    (y z : Station S) : Prop where
  edge : x.marks.Edge y.id z.id
  keeps : KeepsEarly (b.word z.run) 0 y.property.obligations z.property
  advance : (x.marks.facts y.id).reduced = some true ∧
      (∃ e, Stretch e ∧ ∀ j, ∀ p ∈ visible, b.holds (y.run j) p = b.holds (z.run (e j)) p) ∨
    (x.marks.facts y.id).reduced = some false ∧ z.run = fun j => y.run (1 + j)

theorem Station.Ready.exists_step {y : Station S} (h : Sound valid b f x)
    (hpass : Outer (x.Accepting f) root x.marks []) (hb : b.Replays visible Path)
    (hy : y.Ready x b visible Path root) :
    ∃ z : Station S, z.Ready x b visible Path root ∧ y.Step x b visible z := by
  obtain ⟨reduced, targets, hreduced, -, htargets, hedge⟩ :=
    h.exists_edge hy.stored (hpass.reachable hy.reached).2.1
  -- Whatever path is taken, the cover of the obligations has a state that holds along it.
  have hgo : ∀ run', Path run' → run' 0 ∈ targets →
      (∀ g ∈ y.property.obligations, Holds (b.word run') g 0) →
      ∃ z : Station S, z.run = run' ∧ z.Ready x b visible Path root ∧ x.marks.Edge y.id z.id ∧
        KeepsEarly (b.word z.run) 0 y.property.obligations z.property := by
    intro run' hpath hmem hasked
    obtain ⟨q, hq, hholds, hkeeps⟩ := exists_mem_cover hasked
    obtain ⟨j, hj, hstored⟩ := hedge ⟨run' 0, q, y.place.nextPhase f, false⟩ ⟨hmem, hq, rfl, rfl⟩
      (Behaviour.not_refutes_of_holds hholds)
    refine ⟨⟨j, _, q, run'⟩, rfl, ⟨hy.reached.tail hj, hstored, hpath, hholds, fun g hg => ?_⟩,
      hj, hkeeps⟩
    exact plain_obligation (fun g hg => (hy.settled g (mem_obligations.1 hg)).1) hq hg
  cases reduced with
  | true =>
      obtain ⟨-, hample⟩ : y.place.root = false ∧ b.ample (y.run 0) = some (some targets) := by
        simpa [Targets, Station.place] using htargets
      obtain ⟨run', e, hpath, hmem, he, hagree⟩ := hb.ample y.run hy.path targets hample
      obtain ⟨z, rfl, hz, hj, hkeeps⟩ := hgo run' hpath hmem fun g hg => by
        obtain ⟨hplain, hderivable⟩ := hy.settled g (mem_obligations.1 hg)
        have hnow : Holds (b.word y.run) g 0 := by
          refine holds_of_derivable (fun a ha => ?_) hderivable
          rcases OrderedSet.mem_insert.1 ha with rfl | ha
          · trivial
          · exact hy.holds a ha
        rw [holds_stretch he hplain (b.word_congr hagree), he.start] at hnow
        exact hnow
      exact ⟨z, hz, hj, hkeeps, .inl ⟨hreduced, e, he, hagree⟩⟩
  | false =>
      have hnext : b.next? (y.run 0) = some targets := by
        simpa [Targets, Station.place] using htargets
      obtain ⟨z, hrun, hz, hj, hkeeps⟩ := hgo _ (hb.drop y.run hy.path)
        (hb.next y.run hy.path targets hnext)
        fun g hg => (holds_drop 1 g 0).2 (hy.holds _ (mem_obligations.1 hg))
      exact ⟨z, hz, hj, hkeeps, .inr ⟨hreduced, hrun⟩⟩

theorem Sound.exists_station (h : Sound valid b f x) (hpass : Outer (x.Accepting f) root x.marks [])
    (hroot : x.Rooted b f root) (hf : Plain visible f) {run : Nat → S}
    (hstart : b.initial = some (run 0)) (hpath : Path run) (hholds : Satisfies (b.word run) f) :
    ∃ y : Station S, y.Ready x b visible Path root ∧ y.phase = 0 := by
  obtain ⟨s, hs, hstored⟩ := hroot
  rw [hstart, Option.some.injEq] at hs
  subst hs
  obtain ⟨reduced, targets, -, -, htargets, hedge⟩ :=
    h.exists_edge hstored (hpass.reachable .refl).2.1
  obtain rfl : targets = [run 0] := by
    cases reduced with
    | false => simpa [Targets] using htargets
    | true => simp [Targets] at htargets
  have hset : ∀ g ∈ OrderedSet.ofList [f], Holds (b.word run) g 0 := by
    simpa [Satisfies] using hholds
  obtain ⟨q, hq, hq', -⟩ := exists_mem_cover hset
  obtain ⟨j, hj, hplace⟩ := hedge ⟨run 0, q, 0, false⟩ ⟨List.mem_singleton.2 rfl, hq, rfl, rfl⟩
    (Behaviour.not_refutes_of_holds hq')
  refine ⟨⟨j, 0, q, run⟩, ⟨.single hj, hplace, hpath, hq',
    fun g hg => plain_obligation (fun g hg => ?_) hq hg⟩, rfl⟩
  obtain rfl : g = f := by simpa using hg
  exact hf

omit [HasDigest S] in
/-- A search cannot go on by ample sets alone. -/
theorem infinitelyOften_full {ids : Nat → Nat} {place : Nat → Place S} (hproviso : Proviso x.marks)
    (hfinished : ∀ i, x.marks.Finished (ids i)) (hstores : ∀ i, x.Stores (ids i) (place i))
    (hedge : ∀ i, x.marks.Edge (ids i) (ids (i + 1))) :
    InfinitelyOften fun i => (x.marks.facts (ids i)).reduced ≠ some true := by
  intro n
  by_contra hnone
  have hreduced : ∀ m, n ≤ m → x.marks.ReducedEdge (ids m) (ids (m + 1)) := by
    intro m hm
    refine ⟨?_, hedge m⟩
    by_contra hr
    exact hnone ⟨m, hm, hr⟩
  have hbound : ∀ i, ids (n + i) < x.nodes.size := by
    intro i
    obtain ⟨node, hnode, -⟩ := hstores (n + i)
    exact StateTable.lt_size_of_get? hnode
  have hall : InfinitelyOften fun _ => True := fun m => ⟨m, Nat.le_refl m, trivial⟩
  obtain ⟨i, j, hij, -, heq⟩ := hall.exists_repetition hbound
  have hcycle := Nat.rel_of_forall_rel_succ_of_le_of_lt (TransGen x.marks.ReducedEdge)
    (fun m hm => .single (hreduced m hm)) (Nat.le_add_right n i) (Nat.add_lt_add_left hij n)
  rw [← heq] at hcycle
  exact hproviso.acyclic _ (hfinished _) hcycle

/-- After a search with reduction that has passed, no path violates the property. -/
theorem Sound.not_satisfies_of_replays (h : Sound valid b f x) (hproviso : Proviso x.marks)
    (hpass : Outer (x.Accepting f) root x.marks []) (hroot : x.Rooted b f root)
    (hb : b.Replays visible Path) (hf : Plain visible f) {run : Nat → S}
    (hstart : b.initial = some (run 0)) (hpath : Path run) : ¬ Satisfies (b.word run) f := by
  intro hholds
  obtain ⟨y, hy, hphase⟩ := h.exists_station hpass hroot hf hstart hpath hholds
  obtain ⟨y, hready, hstep⟩ := exists_sequence
    (P := fun i (y : Station S) => y.Ready x b visible Path root ∧ (i = 0 → y.phase = 0))
    (R := fun _ y z => y.Step x b visible z) ⟨y, hy, fun _ => hphase⟩ (by
      rintro i y ⟨hy, -⟩
      obtain ⟨z, hz, hyz⟩ := hy.exists_step h hpass hb
      exact ⟨z, ⟨hz, by omega⟩, hyz⟩)
  have hfull := infinitelyOften_full hproviso (fun i => (hpass.reachable (hready i).1.reached).1)
    (fun i => (hready i).1.stored) fun i => (hstep i).edge
  refine h.not_fair hpass (hready 0).1.reached (fun i => (hready i).1.stored)
    (fun i => (hstep i).edge) ((hready 0).2 rfl) rfl ?_
  refine fair_of_approach (v := fun i => b.word (y i).run) (fun i => (hready i).1.holds)
    (fun i g hg => ((hready i).1.settled g hg).1) (fun i => (hstep i).keeps)
    (fun i r d hi hr hd => ?_) (fun i r d hi hd => ?_) hfull
  · rcases (hstep i).advance with ⟨-, e, he, hagree⟩ | ⟨hfalse, -⟩
    · exact ⟨e d, he.le_self d, (holds_stretch he hr (b.word_congr hagree) d).1 hd⟩
    · exact absurd (by simp [hfalse]) hi
  · rcases (hstep i).advance with ⟨htrue, -⟩ | ⟨-, hrun⟩
    · exact absurd htrue hi
    · simp only [hrun]
      rw [Nat.add_comm] at hd
      exact (holds_drop 1 r d).2 hd

end Search

/-- A search with reduction that passes: no path that starts where the program does violates the
property. -/
theorem Run.not_satisfies_of_pass {W S η : Type} [DecidableEq S] [HasDigest S] {p : Program W S}
    {valid : W → Prop} {b : Behaviour S} {f : Formula} {visible : OrderedSet String}
    {Path : (Nat → S) → Prop} {x : Search W S} (hp : p.Behaves valid b) (hx : x.Sound valid b f)
    {log : List LogEvent} {jobs : List Job} {tick : Search W S → η → Bool × η} {limit : Nat} {h : η}
    (hpass : (drive p tick limit (begin p x log jobs) h).1.verdict? = some .pass)
    (hb : b.Replays visible Path) (hf : Plain visible f) {run : Nat → S}
    (hstart : b.initial = some (run 0)) (hpath : Path run) : ¬ Satisfies (b.word run) f := by
  obtain ⟨hsound, -, hproviso, root, hroot, houter⟩ :=
    (good_drive hp hx tick limit log jobs h).of_verdict hpass
  exact hsound.not_satisfies_of_replays hproviso houter hroot hb hf hstart hpath

end TemporalCheck
