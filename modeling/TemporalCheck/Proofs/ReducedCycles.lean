import TemporalCheck.Proofs.Frame
import TemporalCheck.Proofs.SearchRun
import TemporalCheck.Proofs.Sequence

namespace TemporalCheck

namespace Task

variable {σ α β : Type}

structure Ends (P : σ → Prop) (t : Task σ α) (l : Logged σ) : Prop where
  ok : ∀ {a l'}, t l = .ok a l' → P l'.state
  error : ∀ {e l'}, t l = .error e l' → P l'.state

namespace Ends

variable {P : σ → Prop} {t : Task σ α} {f : α → Task σ β} {l : Logged σ}

theorem bind (ht : ∀ e l', t l = .error e l' → P l'.state)
    (hf : ∀ a m, t l = .ok a m → Ends P (f a) m) : Ends P (t >>= f) l := by
  constructor
  · intro b l' h
    obtain ⟨a, m, htm, hfm⟩ := bind_eq_ok.1 h
    exact (hf a m htm).ok hfm
  · intro e l' h
    rcases bind_eq_error.1 h with htm | ⟨a, m, htm, hfm⟩
    · exact ht e l' htm
    · exact (hf a m htm).error hfm

theorem of_keeps {γ : Type} {view : σ → γ} (ht : Keeps view t)
    (hP : ∀ s, view s = view l.state → P s) : Ends P t l :=
  ⟨fun h => hP _ (ht.ok h), fun h => hP _ (ht.error h)⟩

end Ends

end Task

namespace Search

open Relation StateTable

variable {W S : Type} {p : Program W S} {valid : W → Prop} {b : Behaviour S} {f : Formula}
  {x x' : Search W S} {id : Nat} {n : ProductNode} {log log' : List LogEvent}

/-- No cycle of recorded successors comes from ample sets alone. -/
structure ProvisoKept (x : Search W S) : Prop where
  nodes : x.nodes.WellFormed
  noted : ∀ id ids, (x.marks.facts id).successors = some ids →
    ∃ reduced, (x.marks.facts id).reduced = some reduced
  acyclic : ∀ id, ¬ TransGen x.marks.ReducedEdge id id

namespace ProvisoKept

theorem congr (h : ProvisoKept x) (hrecorded : x'.recorded = x.recorded) : ProvisoKept x' := by
  simp only [recorded, Prod.mk.injEq] at hrecorded
  obtain ⟨hbare, hfacts⟩ := hrecorded
  have hboth (id : Nat) : (x'.marks.facts id).reduced = (x.marks.facts id).reduced ∧
      (x'.marks.facts id).successors = (x.marks.facts id).successors := by
    simpa using congrFun hfacts id
  have hedge : x'.marks.ReducedEdge = x.marks.ReducedEdge := by
    funext i j
    simp only [Marks.ReducedEdge, Marks.Edge, hboth]
  refine ⟨?_, fun id ids hids => ?_, ?_⟩
  · rw [← wellFormed_bare, hbare, wellFormed_bare]
    exact h.nodes
  · rw [(hboth id).1]
    exact h.noted id ids ((hboth id).2 ▸ hids)
  · rw [hedge]
    exact h.acyclic

theorem of_sound [HasDigest S] (h : x.Sound valid b f)
    (hacyclic : ∀ id, ¬ TransGen x.marks.ReducedEdge id id) : ProvisoKept x := by
  refine ⟨h.nodes, fun id ids hids => ?_, hacyclic⟩
  cases hinfo : x.nodes.info? id with
  | none => simp [marks, hinfo] at hids
  | some facts =>
      obtain ⟨n, hn⟩ := exists_get?_of_lt (lt_size_of_info? hinfo)
      obtain ⟨u, hu⟩ := h.stands id n hn
      obtain ⟨reduced, -, -, hreduced, -⟩ := h.expanded id u ids ⟨n, hn, hu⟩ hids
      exact ⟨reduced, hreduced⟩

theorem of_unexpanded (hnodes : x.nodes.WellFormed)
    (hnone : ∀ id, (x.marks.facts id).successors = none) : ProvisoKept x := by
  refine ⟨hnodes, fun id ids hids => ?_, fun id hcycle => ?_⟩
  · rw [hnone] at hids
    cases hids
  · obtain ⟨j, ⟨-, ids, hids, -⟩, -⟩ := TransGen.head'_iff.1 hcycle
    rw [hnone] at hids
    cases hids

end ProvisoKept

theorem wasReduced_eq (hnodes : x.nodes.WellFormed) (hn : x.nodes.get? id = some n) :
    x.wasReduced n = (x.marks.facts id).reduced := by
  obtain ⟨facts, hfacts⟩ := exists_info?_of_lt (lt_size_of_get? hn)
  simp [wasReduced, hnodes.lookup_eq_some_iff.2 hn, hfacts, marks]

def Links (x : Search W S) (n n' : ProductNode) : Prop :=
  ∃ i j, x.nodes.get? i = some n ∧ x.nodes.get? j = some n' ∧ x.marks.Edge i j

def IsCycle (x : Search W S) (cycle : List ProductNode) : Prop :=
  cycle ≠ [] ∧ (cycle ++ cycle.head?.toList).IsChain x.Links

/-- A chain of nodes that are all reduced is a chain of their numbers. -/
theorem exists_transGen_reducedEdge (hnodes : x.nodes.WellFormed) {i : Nat} {n' : ProductNode}
    (h : TransGen (fun n n' => x.Links n n' ∧ x.wasReduced n = some true) n n')
    (hi : x.nodes.get? i = some n) :
    ∃ j, x.nodes.get? j = some n' ∧ TransGen x.marks.ReducedEdge i j := by
  induction h with
  | single hlink =>
      obtain ⟨⟨i', j, hi', hj, hedge⟩, hreduced⟩ := hlink
      obtain rfl := hnodes.distinct i i' _ hi hi'
      exact ⟨j, hj, .single ⟨wasReduced_eq hnodes hi ▸ hreduced, hedge⟩⟩
  | tail _ hlink ih =>
      obtain ⟨k, hk, hik⟩ := ih
      obtain ⟨⟨k', j, hk', hj, hedge⟩, hreduced⟩ := hlink
      obtain rfl := hnodes.distinct k k' _ hk hk'
      exact ⟨j, hj, hik.tail ⟨wasReduced_eq hnodes hk ▸ hreduced, hedge⟩⟩

theorem ProvisoKept.exists_full (h : ProvisoKept x) {cycle : List ProductNode}
    (hcycle : x.IsCycle cycle) : ∃ n ∈ cycle, x.wasReduced n = some false := by
  obtain ⟨hne, hchain⟩ := hcycle
  obtain ⟨n, rest, rfl⟩ := List.exists_cons_of_ne_nil hne
  by_contra hnone
  push Not at hnone
  have hreduced : ∀ m m', m ∈ n :: rest → x.Links m m' → x.wasReduced m = some true := by
    rintro m m' hm ⟨i, j, hi, -, ids, hids, -⟩
    obtain ⟨reduced, hreduced⟩ := h.noted i ids hids
    have hm := hnone m hm
    rw [wasReduced_eq h.nodes hi, hreduced] at hm ⊢
    simpa using hm
  have htrue : TransGen (fun m m' => x.Links m m' ∧ x.wasReduced m = some true) n n := by
    suffices hpairs : (n :: rest ++ [n]).Pairwise (TransGen fun m m' => x.Links m m' ∧
        x.wasReduced m = some true) from
      (List.pairwise_append.1 hpairs).2.2 n List.mem_cons_self n List.mem_cons_self
    refine pairwise_transGen (List.IsChain.imp_of_mem_imp (fun m m' hm _ hlink => ?_) hchain)
    have hm : m ∈ n :: rest := by
      simp only [List.mem_cons, List.mem_append, List.not_mem_nil, or_false] at hm ⊢
      tauto
    exact ⟨hlink, hreduced m m' hm hlink⟩
  obtain ⟨-, ⟨⟨i, -, hi, -⟩, -⟩, -⟩ := TransGen.head'_iff.1 htrue
  obtain ⟨j, hj, hij⟩ := exists_transGen_reducedEdge h.nodes htrue hi
  obtain rfl := h.nodes.distinct i j n hi hj
  exact h.acyclic i hij

theorem provisoKept_start [DecidableEq S] [HasDigest S] (hp : p.Behaves valid b)
    (h : x.Sound valid b f) (log : List LogEvent) : Task.Ends ProvisoKept (start p) ⟨x, log⟩ := by
  refine ⟨fun hok => ?_, fun herror => ?_⟩
  · obtain ⟨hsound, -, hproviso, root, -, hinv⟩ := start_spec hp h hok
    obtain ⟨frames, hwalk⟩ := hinv.exists_walk
    exact .of_sound hsound (hproviso.not_reducedCycle hwalk)
  · have hblind : Blind fun y : Search W S => y.nodes := ⟨fun _ _ => rfl, fun _ _ => rfl⟩
    have hfresh (y : Search W S) (hy : y.nodes = .empty) (id : Nat) :
        (y.marks.facts id).successors = none := by
      simp only [marks, hy]
      rfl
    rw [start] at herror
    rcases Task.bind_eq_error.1 herror with herror | ⟨_, ⟨first, flog⟩, hclear, herror⟩
    · cases herror
    have hempty : first.nodes = .empty := by cases hclear; rfl
    rcases Task.bind_eq_error.1 herror with herror | ⟨program, ⟨y, ylog⟩, hprogram, herror⟩
    · have hnodes := ((hblind.inSpace _).error herror).trans hempty
      exact .of_unexpanded (hnodes ▸ wellFormed_empty) (hfresh _ hnodes)
    have hnodes : y.nodes = .empty := ((hblind.inSpace _).ok hprogram).trans hempty
    rcases Task.bind_eq_error.1 herror with herror | ⟨_, _, hread, herror⟩
    · cases herror
    obtain ⟨rfl, rfl⟩ := Task.read_eq_ok.1 hread
    rcases Task.bind_eq_error.1 herror with herror | ⟨ids, _, hstore, herror⟩
    · exact absurd herror (neverFails_store _ _ _ _)
    obtain ⟨rfl, rfl⟩ := store_eq_ok.1 hstore
    -- the root is stored now, and entering it is all that is left
    simp only [insertAll, Task.bind_eq_error] at herror
    rcases herror with herror | ⟨_, _, -, herror⟩
    · refine ProvisoKept.congr (.of_unexpanded ?_ ?_) (enter_fails _ _ _ _ herror)
      · simpa only [hnodes] using (wellFormed_empty.insert _).1
      · intro id
        have hgrows : y.nodes.Grows _ :=
          hnodes ▸ (wellFormed_empty.insert (⟨program, y.property.initial, 0, true⟩ :
            ProductNode)).2.1
        rw [marks_eq_of_grows hgrows]
        exact hfresh y hnodes id
    · cases herror

end Search

namespace Run

open Search

variable {W S η : Type} {p : Program W S} {valid : W → Prop} {b : Behaviour S} {f : Formula}
  {reduction : Bool} {x : Search W S} {log : List LogEvent} {r : Run W S}

theorem settle_ends {P : Search W S → Prop} {t : Task (Search W S) (RunStatus S)}
    (h : Task.Ends P t ⟨x, log⟩) : P (settle x log t).search := by
  rw [settle]
  split
  · rename_i hok
    exact h.ok hok
  · rename_i herror
    exact h.error herror

variable [HasDigest S] [DecidableEq S]

theorem provisoKept_nextJob (hp : p.Behaves valid b) (h : x.Sound valid b f) (hx : ProvisoKept x)
    (jobs : List Job) (log : List LogEvent) : Task.Ends ProvisoKept (nextJob p jobs) ⟨x, log⟩ := by
  have hkept {α : Type} {t : Task (Search W S) α} (ht : Task.Keeps recorded t) :
      Task.Ends ProvisoKept t ⟨x, log⟩ :=
    .of_keeps ht fun _ => hx.congr
  rcases jobs with _ | ⟨_ | _ | _, later⟩
  · exact hkept (.pure _)
  · exact hkept (.bind (blind_recorded.inSpace _) fun _ => .pure _)
  · exact hkept (.bind .read fun _ => .pure _)
  · have hstart := provisoKept_start hp h log
    exact .bind (fun _ _ => hstart.error) fun _ _ hok =>
      .of_keeps (show Task.Keeps recorded _ from .pure _) fun _ => (hstart.ok hok).congr

theorem provisoKept_afterSweep (hp : p.Behaves valid b) (h : x.Sound valid b f) (hx : ProvisoKept x)
    (message : String) (later : List Job) (log : List LogEvent) :
    Task.Ends ProvisoKept (Task.emit .debug message >>= fun _ => nextJob p later) ⟨x, log⟩ := by
  refine .bind (fun _ _ herror => by cases herror) fun _ m hemit => ?_
  obtain rfl := Task.emit_eq_ok.1 hemit
  exact provisoKept_nextJob hp h hx later _

theorem provisoKept_act {later : List Job} {stage : RunStage} (hp : p.Behaves valid b)
    (h : x.Sound valid b f) (hx : ProvisoKept x) (hj : Justified b f x (.going stage later))
    (log : List LogEvent) : Task.Ends ProvisoKept (act p later stage) ⟨x, log⟩ := by
  cases stage with
  | program id sweep =>
      refine .bind (fun _ _ herror => hx.congr ((blind_recorded.inSpace _).error herror))
        fun ids m hok => ?_
      have hm := hx.congr ((blind_recorded.inSpace _).ok hok)
      obtain ⟨⟨space, slog⟩, hids, rfl⟩ := inSpace_eq_ok.1 hok
      obtain ⟨hspace, hgrows, -⟩ := StateSpace.successors_spec hp h.space hids
      have hy := h.grow hspace h.property ⟨hgrows, .refl _, fun _ _ h => h, rfl⟩
      dsimp only
      split
      · exact .of_keeps (show Task.Keeps recorded _ from .pure _) fun _ => hm.congr
      · exact provisoKept_afterSweep hp hy hm _ _ _
  | property id sweep =>
      refine .bind (fun _ _ herror => hx.congr ((blind_recorded.inProperty _).error herror))
        fun ids m hok => ?_
      have hm := hx.congr ((blind_recorded.inProperty _).ok hok)
      obtain ⟨⟨a, alog⟩, hids, rfl⟩ := inProperty_eq_ok.1 hok
      obtain ⟨hproperty, hgrows, -⟩ := PropertyAutomaton.successors_spec h.property hids
      have hy := h.grow h.space hproperty ⟨fun _ _ h => h, hgrows, fun _ _ h => h, rfl⟩
      dsimp only
      split
      · exact .of_keeps (show Task.Keeps recorded _ from .pure _) fun _ => hm.congr
      · exact provisoKept_afterSweep hp hy hm _ _ _
  | search stage =>
      obtain ⟨hproviso, root, -, hinv⟩ := hj
      refine ⟨fun hok => ?_, fun herror => ?_⟩
      · obtain ⟨progress, _, hstep, hpure⟩ := Task.bind_eq_ok.1 hok
        obtain ⟨-, rfl⟩ := Task.pure_eq_ok.1 hpure
        obtain ⟨hsound, -, hinv', outcome, hmove, -⟩ := exists_move hp h hinv hstep
        exact .of_sound hsound (hmove.not_reducedCycle hinv' hproviso)
      · exact hx.congr ((step_fails stage).bind_pure _ _ _ herror)

theorem provisoKept_drive (hp : p.Behaves valid b) (h : x.Sound valid b f) (hx : ProvisoKept x)
    (tick : Search W S → η → Bool × η) (limit : Nat) (log : List LogEvent) (jobs : List Job)
    (now : η) : ProvisoKept (drive p tick limit (begin p x log jobs) now).1.search := by
  refine (drive_induction (P := fun r => Good valid b f x.reduction r ∧ ProvisoKept r.search)
    (fun r hr => ⟨hr.1.step hp, ?_⟩) (fun r hr => ⟨hr.1.cancel, ?_⟩) tick limit now ⟨?_, ?_⟩).2
  · obtain ⟨y, ylog, status⟩ := r
    obtain ⟨hgood, hy⟩ := hr
    cases status with
    | going stage later =>
        rcases hgood with ⟨fault, hfault⟩ | ⟨hsound, -, hj⟩
        · cases hfault
        · exact settle_ends (provisoKept_act hp hsound hy hj ylog)
    | ended verdict => exact hy
    | failed fault => exact hy
  · rw [search_cancel]
    exact hr.2
  · exact good_settle fun _ _ _ hok => nextJob_spec hp h hok
  · exact settle_ends (provisoKept_nextJob hp h hx jobs log)

/-- Every cycle of recorded successors has a node that was expanded in full, whenever one looks:
the run may be under way, have come to a verdict, have been stopped or have failed. -/
theorem exists_full_of_cycle (hp : p.Behaves valid b) (f : Formula) {memory : W}
    (hmemory : valid memory) (reduction printTree : Bool) (log : List LogEvent) (jobs : List Job)
    (tick : Search W S → η → Bool × η) (limit : Nat) (h : η) :
    let r := (drive p tick limit (begin p
      { space := { memory }, property := .ofViolations f, reduction, printTree } log jobs) h).1
    ∀ cycle, r.search.IsCycle cycle → ∃ n ∈ cycle, r.search.wasReduced n = some false := by
  intro r cycle hcycle
  have hkept : ProvisoKept r.search := by
    refine provisoKept_drive hp (sound_of_nodes_empty (StateSpace.sound_start hmemory)
      (PropertyAutomaton.sound_ofFormula f.negate) rfl) ?_ tick limit log jobs h
    exact .of_unexpanded StateTable.wellFormed_empty fun id => rfl
  exact hkept.exists_full hcycle

/-- Two nodes that lead to each other, each with an ample set. -/
def shuttle : Graph := { initial := 0, edges := [(0, 1), (1, 0)], ample := [(0, [1]), (1, [0])] }

def shuttleSearch : Run Graph UInt32 :=
  (drive (Graph.program []) (fun _ (h : Unit) => (true, h)) 100 (begin (Graph.program [])
    { space := { memory := shuttle }, property := .ofViolations (.release .bot (.neg (.prop "p"))),
      reduction := true }
    [] [.search]) ()).1

theorem shuttle_expands_in_full : shuttleSearch.verdict? = some .pass ∧
    shuttleSearch.search.IsCycle [⟨0, 0, 0, false⟩, ⟨1, 0, 0, false⟩] ∧
    shuttleSearch.search.wasReduced ⟨0, 0, 0, false⟩ = some true ∧
    ∃ n ∈ [⟨0, 0, 0, false⟩, ⟨1, 0, 0, false⟩], shuttleSearch.search.wasReduced n = some false := by
  have hcycle : shuttleSearch.search.IsCycle [⟨0, 0, 0, false⟩, ⟨1, 0, 0, false⟩] := by
    refine ⟨nofun, .cons_cons ?_ (.cons_cons ?_ (.singleton _))⟩
    · exact ⟨1, 2, by decide +kernel, by decide +kernel, [2], by decide +kernel, by decide⟩
    · exact ⟨2, 1, by decide +kernel, by decide +kernel, [1], by decide +kernel, by decide⟩
  refine ⟨by decide +kernel, hcycle, by decide +kernel, ?_⟩
  unfold shuttleSearch at hcycle ⊢
  exact exists_full_of_cycle (shuttle.behaves []) (.release .bot (.neg (.prop "p"))) rfl true false
    [] [.search] (fun _ (h : Unit) => (true, h)) 100 () _ hcycle

end Run

end TemporalCheck
