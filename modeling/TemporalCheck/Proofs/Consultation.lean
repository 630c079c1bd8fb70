import TemporalCheck.Proofs.Frame

namespace TemporalCheck

open TemporalCheck.Task

theorem Sweep.within_exhaust {σ : Type} {R : σ → σ → Prop} [IsPreorder σ R]
    {expand : Nat → Task σ (List Nat)} (h : ∀ id, Within R (expand id)) (limit : Nat)
    (sweep : Sweep) : Within R (exhaust expand limit sweep) := by
  induction limit generalizing sweep with
  | zero => exact .pure _
  | succ limit ih =>
      rw [exhaust]
      split
      · exact .pure _
      · exact .bind (h _) fun _ => ih _

namespace Search

variable {W S : Type} {p : Program W S} {Q : StateSpace W S → StateSpace W S → Prop}
  {P : PropertyAutomaton → PropertyAutomaton → Prop}

def Beside (Q : StateSpace W S → StateSpace W S → Prop)
    (P : PropertyAutomaton → PropertyAutomaton → Prop) (x x' : Search W S) : Prop :=
  Q x.space x'.space ∧ P x.property x'.property

variable [IsPreorder (StateSpace W S) Q] [IsPreorder PropertyAutomaton P]

instance isPreorderBeside : IsPreorder (Search W S) (Beside Q P) where
  refl _ := ⟨Std.Refl.refl _, Std.Refl.refl _⟩
  trans _ _ _ h h' := ⟨IsTrans.trans _ _ _ h.1 h'.1, IsTrans.trans _ _ _ h.2 h'.2⟩

/-- A search may keep any books of its own. -/
theorem within_change {g : Search W S → Search W S} (hspace : ∀ x, (g x).space = x.space)
    (hproperty : ∀ x, (g x).property = x.property) : Within (Beside Q P) (Task.change g) := by
  refine .change fun x => ?_
  rw [Beside, hspace, hproperty]
  exact ⟨Std.Refl.refl _, Std.Refl.refl _⟩

theorem within_note (id : Nat) (g : NodeFacts → NodeFacts) :
    Within (Beside Q P) (note id g : Task (Search W S) Unit) :=
  within_change (fun _ => rfl) fun _ => rfl

theorem within_store (nodes : List ProductNode) :
    Within (Beside Q P) (store nodes : Task (Search W S) (List Nat)) :=
  .bind .read fun _ => .bind (within_change (fun _ => rfl) fun _ => rfl) fun _ => .pure _

theorem within_leave (id : Nat) : Within (Beside Q P) (leave id : Task (Search W S) Unit) :=
  .bind (within_note id _) fun _ => within_change (fun _ => rfl) fun _ => rfl

variable [DecidableEq S] [HasDigest S]

structure Consults (p : Program W S) (Q : StateSpace W S → StateSpace W S → Prop)
    (P : PropertyAutomaton → PropertyAutomaton → Prop) : Prop where
  initial : Within Q (StateSpace.initial p)
  successors : ∀ id, Within Q (StateSpace.successors p id)
  ample : ∀ id, Within Q (StateSpace.ample p id)
  entailsAll : ∀ id literals, Within Q (StateSpace.entailsAll p id literals)
  property : ∀ id, Within P (PropertyAutomaton.successors id)

namespace Consults

theorem asks (h : Consults p Q P) : Asks p (Beside Q P) := by
  have hspace (x : Search W S) (s : StateSpace W S) (hs : Q x.space s) :
      Beside Q P x { x with space := s } :=
    ⟨hs, Std.Refl.refl _⟩
  exact ⟨within_inSpace h.initial hspace, fun id => within_inSpace (h.successors id) hspace,
    fun id => within_inSpace (h.ample id) hspace,
    fun id literals => within_inSpace (h.entailsAll id literals) hspace,
    fun id => within_inProperty (h.property id) fun x a ha => ⟨Std.Refl.refl _, ha⟩⟩

theorem expand (h : Consults p Q P) (id : Nat) : Within (Beside Q P) (Search.expand p id) := by
  have hrecord (reduced : Bool) (nodes : List ProductNode) : Within (Beside Q P) (do
      let ids ← store nodes
      note id fun f => { f with reduced := some reduced, successors := some ids }
      pure ids : Task (Search W S) (List Nat)) :=
    .bind (within_store nodes) fun _ => .bind (within_note id _) fun _ => .pure _
  refine .bind (.of_keeps (keeps_facts id)) fun facts => ?_
  cases facts.successors with
  | some ids => exact .pure ids
  | none =>
      refine .bind (.of_keeps (keeps_node id)) fun n => .bind (h.asks.reducedSuccessors n)
        fun reduced => ?_
      cases reduced with
      | some nodes =>
          exact .bind (within_change (fun _ => rfl) fun _ => rfl) fun _ =>
            .bind (.pure nodes) fun nodes => hrecord true nodes
      | none => exact .bind (h.asks.fullSuccessors n) fun nodes => hrecord false nodes

theorem enter (h : Consults p Q P) (id : Nat) : Within (Beside Q P) (Search.enter p id) := by
  refine .bind (within_note id _) fun _ => .bind (within_change (fun _ => rfl) fun _ => rfl)
    fun _ => .bind .read fun x => ?_
  dsimp only
  split
  · exact .bind (within_printNode id) fun _ => .bind (h.expand id) fun _ => .pure _
  · exact .bind (h.expand id) fun _ => .pure _

theorem start (h : Consults p Q P) : Within (Beside Q P) (Search.start p) := by
  refine .bind (within_change (fun _ => rfl) fun _ => rfl) fun _ => .bind h.asks.initial fun _ =>
    .bind .read fun _ => .bind (within_store _) fun ids => ?_
  cases ids with
  | nil => exact .pure _
  | cons root rest => exact .bind (h.enter root) fun _ => .pure _

theorem startInner (h : Consults p Q P) (seed : Nat) (below : List Frame) :
    Within (Beside Q P) (Search.startInner p seed below) :=
  .bind (within_change (fun _ => rfl) fun _ => rfl) fun _ => .bind (within_note seed _) fun _ =>
    .bind (h.expand seed) fun _ => .pure _

theorem outerStep (h : Consults p Q P) (top : Frame) (below : List Frame) :
    Within (Beside Q P) (Search.outerStep p top below) := by
  obtain ⟨node, rest⟩ := top
  cases rest with
  | cons id rest =>
      refine .bind (within_change (fun _ => rfl) fun _ => rfl) fun _ =>
        .bind (.of_keeps (keeps_facts id)) fun facts => ?_
      dsimp only
      split
      · exact .pure _
      · exact .bind (h.enter id) fun _ => .pure _
  | nil =>
      refine .bind (.of_keeps (keeps_isAccepting node)) fun accepting => ?_
      split
      · exact .bind (h.startInner node below) fun _ => .pure _
      · exact .bind (within_leave node) fun _ => .pure _

theorem innerStep (h : Consults p Q P) (below : List Frame) (seed : Nat) (top : Frame)
    (frames : List Frame) : Within (Beside Q P) (Search.innerStep p below seed top frames) := by
  obtain ⟨node, rest⟩ := top
  cases rest with
  | cons id rest =>
      refine .bind (within_change (fun _ => rfl) fun _ => rfl) fun _ =>
        .bind (.of_keeps (keeps_facts id)) fun facts => ?_
      dsimp only
      split
      · exact .bind (.bind .read fun _ => within_productStates _) fun _ =>
          .bind (within_productStates _) fun _ => .pure _
      · split
        · exact .pure _
        · exact .bind (within_note id _) fun _ => .bind (h.expand id) fun _ => .pure _
  | nil =>
      simp only [Search.innerStep]
      split
      · exact .bind (within_leave seed) fun _ => .pure _
      · exact .pure _

theorem step (h : Consults p Q P) (stage : Stage) : Within (Beside Q P) (Search.step p stage) := by
  rcases stage with (_ | ⟨top, below⟩) | ⟨below, seed, _ | ⟨top, frames⟩⟩
  · exact .pure _
  · exact h.outerStep top below
  · exact .bind (within_leave seed) fun _ => .pure _
  · exact h.innerStep below seed top frames

theorem nextJob (h : Consults p Q P) (jobs : List Job) :
    Within (Beside Q P) (Run.nextJob p jobs) := by
  rcases jobs with _ | ⟨_ | _ | _, later⟩
  · exact .pure _
  · exact .bind h.asks.initial fun _ => .pure _
  · exact .bind .read fun _ => .pure _
  · exact .bind h.start fun _ => .pure _

theorem act (h : Consults p Q P) (later : List Job) (stage : RunStage) :
    Within (Beside Q P) (Run.act p later stage) := by
  cases stage with
  | program id sweep =>
      refine .bind (h.asks.successors id) fun ids => ?_
      dsimp only
      split
      · exact .pure _
      · exact .bind (.emit _ _) fun _ => h.nextJob later
  | property id sweep =>
      refine .bind (h.asks.property id) fun ids => ?_
      dsimp only
      split
      · exact .pure _
      · exact .bind (.emit _ _) fun _ => h.nextJob later
  | search stage => exact .bind (h.step stage) fun _ => .pure _

omit [IsPreorder (StateSpace W S) Q] [IsPreorder PropertyAutomaton P] [DecidableEq S]
  [HasDigest S] in
theorem settle {t : Task (Search W S) (RunStatus S)} (ht : Within (Beside Q P) t) (x : Search W S)
    (log : List LogEvent) : Beside Q P x (Run.settle x log t).search := by
  rw [Run.settle]
  split
  · rename_i hok
    exact ht.ok hok
  · rename_i herror
    exact ht.error herror

theorem begin (h : Consults p Q P) (x : Search W S) (log : List LogEvent) (jobs : List Job) :
    Beside Q P x (Run.begin p x log jobs).search :=
  settle (h.nextJob jobs) x log

theorem runStep (h : Consults p Q P) (r : Run W S) : Beside Q P r.search (r.step p).search := by
  obtain ⟨x, log, status⟩ := r
  cases status with
  | going stage later => exact settle (h.act later stage) x log
  | ended verdict => exact Std.Refl.refl x
  | failed fault => exact Std.Refl.refl x

theorem iterate (h : Consults p Q P) (r : Run W S) (k : Nat) :
    Beside Q P r.search ((Run.step p)^[k] r).search := by
  induction k with
  | zero => exact Std.Refl.refl _
  | succ k ih =>
      rw [Function.iterate_succ_apply']
      exact IsTrans.trans _ _ _ ih (h.runStep _)

end Consults

end Search

end TemporalCheck
