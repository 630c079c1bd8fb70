import TemporalCheck.Proofs.Product
import TemporalCheck.Product.Run

namespace TemporalCheck

namespace Task

variable {σ α β γ : Type} {l l' : Logged σ} {e : Fault}

theorem bind_eq_error {t : Task σ α} {f : α → Task σ β} :
    (t >>= f) l = .error e l' ↔ t l = .error e l' ∨ ∃ a m, t l = .ok a m ∧ f a m = .error e l' := by
  change EStateM.bind t f l = _ ↔ _
  rw [EStateM.bind]
  split
  · rename_i a m h
    simp only [h, reduceCtorEq, EStateM.Result.ok.injEq, false_or]
    constructor
    · intro hf
      exact ⟨a, m, ⟨rfl, rfl⟩, hf⟩
    · rintro ⟨a, m, ⟨rfl, rfl⟩, hf⟩
      exact hf
  · rename_i h
    simp [h]

def NeverFails (t : Task σ α) : Prop := ∀ l e l', t l ≠ .error e l'

namespace NeverFails

theorem pure (a : α) : NeverFails (pure a : Task σ α) := nofun

theorem change (f : σ → σ) : NeverFails (Task.change f) := nofun

theorem read : NeverFails (Task.read : Task σ σ) := nofun

theorem bind {t : Task σ α} {f : α → Task σ β} (ht : NeverFails t) (hf : ∀ a, NeverFails (f a)) :
    NeverFails (t >>= f) := by
  intro l e l' h
  rcases bind_eq_error.1 h with h | ⟨a, m, -, h⟩
  · exact ht l e l' h
  · exact hf a m e l' h

end NeverFails

/-- A task after which `view` sees the same state, also if it fails. -/
structure Keeps (view : σ → γ) (t : Task σ α) : Prop where
  ok : ∀ {l a l'}, t l = .ok a l' → view l'.state = view l.state
  error : ∀ {l e l'}, t l = .error e l' → view l'.state = view l.state

def KeepsOnError (view : σ → γ) (t : Task σ α) : Prop :=
  ∀ l e l', t l = .error e l' → view l'.state = view l.state

variable {view : σ → γ} {t : Task σ α} {f : α → Task σ β}

namespace Keeps

theorem pure (a : α) : Keeps view (pure a : Task σ α) := by
  refine ⟨fun h => ?_, fun h => absurd h (NeverFails.pure a _ _ _)⟩
  obtain ⟨-, rfl⟩ := pure_eq_ok.1 h
  rfl

theorem bind (ht : Keeps view t) (hf : ∀ a, Keeps view (f a)) : Keeps view (t >>= f) := by
  constructor
  · intro l b l' h
    obtain ⟨a, m, htm, hfm⟩ := bind_eq_ok.1 h
    rw [(hf a).ok hfm, ht.ok htm]
  · intro l e l' h
    rcases bind_eq_error.1 h with htm | ⟨a, m, htm, hfm⟩
    · exact ht.error htm
    · rw [(hf a).error hfm, ht.ok htm]

theorem map {g : α → β} (ht : Keeps view t) : Keeps view (g <$> t) := by
  rw [map_eq_pure_bind]
  exact .bind ht fun _ => .pure _

theorem read : Keeps view (Task.read : Task σ σ) :=
  ⟨fun h => by cases h; rfl, fun h => by cases h⟩

theorem require (a : Option α) : Keeps view (Task.require a : Task σ α) := by
  cases a with
  | none => exact ⟨nofun, fun h => by cases h; rfl⟩
  | some a => exact .pure a

theorem emit (level : LogLevel) (message : String) :
    Keeps view (Task.emit level message : Task σ Unit) :=
  ⟨fun h => by cases h; rfl, fun h => by cases h⟩

theorem change {g : σ → σ} (hg : ∀ s, view (g s) = view s) : Keeps view (Task.change g) :=
  ⟨fun h => by cases h; exact hg _, fun h => by cases h⟩

end Keeps

namespace KeepsOnError

theorem bind (ht : Keeps view t) (hf : ∀ a, KeepsOnError view (f a)) :
    KeepsOnError view (t >>= f) := by
  intro l e l' h
  rcases bind_eq_error.1 h with htm | ⟨a, m, htm, hfm⟩
  · exact ht.error htm
  · rw [hf a _ _ _ hfm, ht.ok htm]

theorem of_neverFails (ht : NeverFails t) : KeepsOnError view t :=
  fun l e l' h => absurd h (ht l e l')

/-- What comes last matters only if it can fail. -/
theorem bind_of_neverFails (ht : KeepsOnError view t) (hf : ∀ a, NeverFails (f a)) :
    KeepsOnError view (t >>= f) := by
  intro l e l' h
  rcases bind_eq_error.1 h with htm | ⟨a, m, htm, hfm⟩
  · exact ht l e l' htm
  · exact absurd hfm (hf a m e l')

theorem bind_pure {g : α → β} (ht : KeepsOnError view t) :
    KeepsOnError view (t >>= fun a => Pure.pure (g a)) :=
  ht.bind_of_neverFails fun _ => .pure _

end KeepsOnError

structure Within (R : σ → σ → Prop) (t : Task σ α) : Prop where
  ok : ∀ {l a l'}, t l = .ok a l' → R l.state l'.state
  error : ∀ {l e l'}, t l = .error e l' → R l.state l'.state

def Same (view : σ → γ) (s s' : σ) : Prop := view s' = view s

instance isPreorderSame (view : σ → γ) : IsPreorder σ (Same view) where
  refl _ := rfl
  trans _ _ _ h h' := h'.trans h

namespace Within

theorem keeps (h : Within (Same view) t) : Keeps view t := ⟨h.ok, h.error⟩

theorem of_view (h : Keeps view t) : Within (Same view) t := ⟨h.ok, h.error⟩

variable {R : σ → σ → Prop} [IsPreorder σ R]

theorem of_keeps (h : Keeps (fun s => s) t) : Within R t :=
  ⟨fun hok => h.ok hok ▸ Std.Refl.refl _, fun herror => h.error herror ▸ Std.Refl.refl _⟩

theorem pure (a : α) : Within R (pure a : Task σ α) := of_keeps (.pure a)

theorem read : Within R (Task.read : Task σ σ) := of_keeps .read

theorem emit (level : LogLevel) (message : String) :
    Within R (Task.emit level message : Task σ Unit) :=
  of_keeps (.emit level message)

omit [IsPreorder σ R] in
theorem change {g : σ → σ} (hg : ∀ s, R s (g s)) : Within R (Task.change g) :=
  ⟨fun h => by cases h; exact hg _, fun h => by cases h⟩

theorem bind (ht : Within R t) (hf : ∀ a, Within R (f a)) : Within R (t >>= f) := by
  constructor
  · intro l b l' h
    obtain ⟨a, m, htm, hfm⟩ := bind_eq_ok.1 h
    exact IsTrans.trans _ _ _ (ht.ok htm) ((hf a).ok hfm)
  · intro l e l' h
    rcases bind_eq_error.1 h with htm | ⟨a, m, htm, hfm⟩
    · exact ht.error htm
    · exact IsTrans.trans _ _ _ (ht.ok htm) ((hf a).error hfm)

end Within

end Task

namespace Search

open TemporalCheck.Task

variable {W S α γ : Type} {p : Program W S} {id : Nat}

structure Blind (view : Search W S → γ) : Prop where
  space : ∀ x s, view { x with space := s } = view x
  property : ∀ x a, view { x with property := a } = view x

section

variable {view : Search W S → γ}

theorem Blind.inSpace (hview : Blind view) (t : Task (StateSpace W S) α) :
    Keeps view (Search.inSpace t) := by
  constructor
  · intro l a l' h
    obtain ⟨m, -, rfl⟩ := inSpace_eq_ok.1 h
    exact hview.space _ _
  · rintro ⟨x, log⟩ e l' h
    simp only [Search.inSpace] at h
    split at h
    · cases h
    · cases h
      exact hview.space x _

theorem keeps_inProperty (hview : ∀ x a, view { x with property := a } = view x)
    (t : Task PropertyAutomaton α) : Keeps view (Search.inProperty t) := by
  constructor
  · intro l a l' h
    obtain ⟨m, -, rfl⟩ := inProperty_eq_ok.1 h
    exact hview _ _
  · rintro ⟨x, log⟩ e l' h
    simp only [Search.inProperty] at h
    split at h
    · cases h
    · cases h
      exact hview x _

theorem Blind.inProperty (hview : Blind view) (t : Task PropertyAutomaton α) :
    Keeps view (Search.inProperty t) :=
  keeps_inProperty hview.property t

structure Unmoved [DecidableEq S] [HasDigest S] (p : Program W S) (view : Search W S → γ) :
    Prop where
  initial : Keeps view (Search.inSpace (StateSpace.initial p))
  successors : ∀ id, Keeps view (Search.inSpace (StateSpace.successors p id))
  ample : ∀ id, Keeps view (Search.inSpace (StateSpace.ample p id))
  entailsAll : ∀ id literals, Keeps view (Search.inSpace (StateSpace.entailsAll p id literals))
  state : ∀ id, Keeps view (Search.inSpace (StateSpace.state id))
  property : ∀ {α : Type} (t : Task PropertyAutomaton α), Keeps view (Search.inProperty t)

theorem Blind.unmoved [DecidableEq S] [HasDigest S] (hview : Blind view) : Unmoved p view :=
  ⟨hview.inSpace _, fun _ => hview.inSpace _, fun _ => hview.inSpace _, fun _ _ => hview.inSpace _,
    fun _ => hview.inSpace _, hview.inProperty⟩

theorem keeps_node (id : Nat) : Keeps view (node id) := .bind .read fun _ => .require _

theorem keeps_facts (id : Nat) : Keeps view (facts id) := .bind .read fun _ => .require _

theorem keeps_nextPhase (n : ProductNode) : Keeps view (nextPhase n) := by
  refine .bind .read fun x => ?_
  dsimp only
  split
  · exact .pure _
  · refine .bind (.require _) fun met => ?_
    split <;> exact .pure _

theorem keeps_isAccepting (id : Nat) : Keeps view (isAccepting id) := by
  refine .bind (keeps_node id) fun n => .bind .read fun x => ?_
  dsimp only
  split
  · exact .pure _
  · split
    · exact .pure _
    · split
      · exact .require _
      · exact .pure _

theorem within_inSpace {Q : StateSpace W S → StateSpace W S → Prop}
    {R : Search W S → Search W S → Prop} {t : Task (StateSpace W S) α} (ht : Within Q t)
    (h : ∀ x s, Q x.space s → R x { x with space := s }) : Within R (Search.inSpace t) := by
  constructor
  · intro l a l' hok
    obtain ⟨m, hm, rfl⟩ := inSpace_eq_ok.1 hok
    exact h _ _ (ht.ok hm)
  · rintro ⟨x, log⟩ e l' herror
    simp only [Search.inSpace] at herror
    split at herror
    · cases herror
    · rename_i hm
      cases herror
      exact h x _ (ht.error hm)

theorem within_inProperty {Q : PropertyAutomaton → PropertyAutomaton → Prop}
    {R : Search W S → Search W S → Prop} {t : Task PropertyAutomaton α} (ht : Within Q t)
    (h : ∀ x a, Q x.property a → R x { x with property := a }) :
    Within R (Search.inProperty t) := by
  constructor
  · intro l a l' hok
    obtain ⟨m, hm, rfl⟩ := inProperty_eq_ok.1 hok
    exact h _ _ (ht.ok hm)
  · rintro ⟨x, log⟩ e l' herror
    simp only [Search.inProperty] at herror
    split at herror
    · cases herror
    · rename_i hm
      cases herror
      exact h x _ (ht.error hm)

section

variable [DecidableEq S] [HasDigest S] {R : Search W S → Search W S → Prop}
  [IsPreorder (Search W S) R]

structure Asks (p : Program W S) (R : Search W S → Search W S → Prop) : Prop where
  initial : Within R (Search.inSpace (StateSpace.initial p))
  successors : ∀ id, Within R (Search.inSpace (StateSpace.successors p id))
  ample : ∀ id, Within R (Search.inSpace (StateSpace.ample p id))
  entailsAll : ∀ id literals, Within R (Search.inSpace (StateSpace.entailsAll p id literals))
  property : ∀ id, Within R (Search.inProperty (PropertyAutomaton.successors id))

omit [DecidableEq S] [HasDigest S] in
theorem within_programState (id : Nat) : Within R (Search.inSpace (StateSpace.state id)) := by
  have hstate : Within Eq (StateSpace.state id : Task (StateSpace W S) S) :=
    .of_keeps (.bind .read fun _ => .require _)
  refine within_inSpace hstate ?_
  rintro x _ rfl
  exact Std.Refl.refl x

omit [DecidableEq S] [HasDigest S] in
theorem within_propertyState (id : Nat) :
    Within R (Search.inProperty (PropertyAutomaton.state id)) := by
  have hstate : Within Eq (PropertyAutomaton.state id) :=
    .of_keeps (.bind .read fun _ => .require _)
  refine within_inProperty hstate ?_
  rintro x _ rfl
  exact Std.Refl.refl x

theorem Asks.matching (hR : Asks p R) (property phase : Nat) (literals : List Formula)
    (ids : List Nat) : Within R (Search.matching p property phase literals ids) := by
  induction ids with
  | nil => exact .pure _
  | cons s rest ih => exact .bind (hR.entailsAll _ _) fun _ => .bind ih fun _ => .pure _

theorem Asks.pairUp (hR : Asks p R) (phase : Nat) (programIds propertyIds : List Nat) :
    Within R (Search.pairUp p phase programIds propertyIds) := by
  induction propertyIds with
  | nil => exact .pure _
  | cons q rest ih =>
      exact .bind (within_propertyState q) fun state => .bind (hR.matching _ _ _ _) fun _ =>
        .bind ih fun _ => .pure _

theorem Asks.productSuccessors (hR : Asks p R) (n : ProductNode) (ids : List Nat) :
    Within R (Search.productSuccessors p n ids) :=
  .bind (.of_keeps (keeps_nextPhase n)) fun _ => .bind (hR.property _) fun _ => hR.pairUp _ _ _

theorem Asks.reducedSuccessors (hR : Asks p R) (n : ProductNode) :
    Within R (Search.reducedSuccessors p n) := by
  refine .bind .read fun x => ?_
  split
  · refine .bind (hR.ample _) fun ample => ?_
    cases ample with
    | none => exact .pure _
    | some ids => exact .bind (hR.productSuccessors n ids) fun _ => .bind .read fun _ => .pure _
  · exact .pure _

theorem Asks.fullSuccessors (hR : Asks p R) (n : ProductNode) :
    Within R (Search.fullSuccessors p n) := by
  rw [Search.fullSuccessors]
  split
  · exact .bind (.pure _) fun ids => hR.productSuccessors n ids
  · exact .bind (hR.successors _) fun ids => hR.productSuccessors n ids

omit [DecidableEq S] [HasDigest S] in
theorem within_productState (id : Nat) : Within R (Search.productState id) :=
  .bind (.of_keeps (keeps_node id)) fun _ => .bind (within_programState _) fun _ =>
    .bind (within_propertyState _) fun _ => .pure _

omit [DecidableEq S] [HasDigest S] in
theorem within_productStates (ids : List Nat) : Within R (Search.productStates ids) := by
  induction ids with
  | nil => exact .pure _
  | cons id ids ih => exact .bind (within_productState id) fun _ => .bind ih fun _ => .pure _

omit [DecidableEq S] [HasDigest S] in
theorem within_printNode (id : Nat) : Within R (Search.printNode p id) :=
  .bind (within_productState id) fun _ => .bind (.of_keeps (keeps_node id)) fun _ =>
    .bind .read fun _ => .emit _ _

end

section

variable [DecidableEq S] [HasDigest S]

theorem Unmoved.asks (hview : Unmoved p view) : Asks p (Same view) where
  initial := .of_view hview.initial
  successors id := .of_view (hview.successors id)
  ample id := .of_view (hview.ample id)
  entailsAll id literals := .of_view (hview.entailsAll id literals)
  property _ := .of_view (hview.property _)

theorem Unmoved.reducedSuccessors (hview : Unmoved p view) (n : ProductNode) :
    Keeps view (Search.reducedSuccessors p n) := (hview.asks.reducedSuccessors n).keeps

theorem Unmoved.fullSuccessors (hview : Unmoved p view) (n : ProductNode) :
    Keeps view (Search.fullSuccessors p n) :=
  (hview.asks.fullSuccessors n).keeps

omit [DecidableEq S] [HasDigest S] in
theorem neverFails_store (nodes : List ProductNode) :
    NeverFails (store nodes : Task (Search W S) (List Nat)) :=
  .bind .read fun _ => .bind (.change _) fun _ => .pure _

/-- Nothing is recorded before the last point where expanding a node can fail. -/
theorem Unmoved.expand (hview : Unmoved p view) (id : Nat) :
    KeepsOnError view (Search.expand p id) := by
  refine .bind (keeps_facts id) fun facts => ?_
  cases facts.successors with
  | some ids => exact .of_neverFails (.pure ids)
  | none =>
      refine .bind (keeps_node id) fun n => .bind (hview.reducedSuccessors n) fun reduced => ?_
      cases reduced with
      | some next =>
          exact .of_neverFails (.bind (.change _) fun _ => .bind (.pure next) fun next =>
            .bind (neverFails_store next) fun ids => .bind (.change _) fun _ => .pure ids)
      | none =>
          exact .bind_of_neverFails (fun _ _ _ => (hview.fullSuccessors n).error) fun next =>
            .bind (neverFails_store next) fun ids => .bind (.change _) fun _ => .pure ids

theorem Unmoved.keeps_expand {id : Nat} (hview : Unmoved p view)
    (hcount : ∀ x k, view { x with reducedNodes := k } = view x)
    (hrecord : ∀ (reduced : Bool) (nodes : List ProductNode), Keeps view (do
      let ids ← store nodes
      note id fun f => { f with reduced := some reduced, successors := some ids }
      pure ids : Task (Search W S) (List Nat))) : Keeps view (Search.expand p id) := by
  refine .bind (keeps_facts id) fun facts => ?_
  cases facts.successors with
  | some ids => exact .pure ids
  | none =>
      refine .bind (keeps_node id) fun n => .bind (hview.reducedSuccessors n) fun reduced => ?_
      cases reduced with
      | some nodes =>
          exact .bind (.change fun _ => hcount _ _) fun _ => .bind (.pure nodes) fun nodes =>
            hrecord true nodes
      | none => exact .bind (hview.fullSuccessors n) fun nodes => hrecord false nodes

end

end

/-- The nodes of a search and what is recorded of their successors. -/
def recorded (x : Search W S) :
    StateTable ProductNode Unit × (Nat → Option Bool × Option (List Nat)) :=
  (x.nodes.bare, fun id => ((x.marks.facts id).reduced, (x.marks.facts id).successors))

theorem blind_recorded : Blind (recorded : Search W S → _) := ⟨fun _ _ => rfl, fun _ _ => rfl⟩

theorem marks_note_congr (view : NodeFacts → γ) {g : NodeFacts → NodeFacts}
    (hg : ∀ f, view (g f) = view f) (x : Search W S) (id j : Nat) :
    view (({ x with nodes := x.nodes.modifyInfo id g } : Search W S).marks.facts j) =
      view (x.marks.facts j) := by
  simp only [marks]
  rw [StateTable.info?_modifyInfo]
  split
  · cases x.nodes.info? j with
    | none => rfl
    | some f => exact hg f
  · rfl

theorem keeps_mark {g : NodeFacts → NodeFacts}
    (hg : ∀ f, (g f).reduced = f.reduced ∧ (g f).successors = f.successors) :
    Keeps recorded (note id g : Task (Search W S) Unit) := by
  apply Keeps.change
  intro x
  simp only [recorded, Prod.mk.injEq]
  refine ⟨StateTable.bare_modifyInfo _ _ _, funext fun j => ?_⟩
  exact marks_note_congr (fun f => (f.reduced, f.successors))
    (fun f => Prod.ext (hg f).1 (hg f).2) x id j

theorem keeps_countTransition : Keeps recorded (countTransition : Task (Search W S) Unit) :=
  .change fun _ => rfl

theorem neverFails_leave (id : Nat) : NeverFails (leave id : Task (Search W S) Unit) :=
  .bind (.change _) fun _ => .change _

section

variable [DecidableEq S] [HasDigest S]

theorem enter_fails (id : Nat) : KeepsOnError recorded (enter p id) := by
  refine .bind (keeps_mark fun _ => ⟨rfl, rfl⟩) fun _ => .bind (.change fun _ => rfl) fun _ =>
    .bind .read fun x => ?_
  dsimp only
  split
  · exact .bind (within_printNode id).keeps fun _ => .bind_pure (blind_recorded.unmoved.expand id)
  · exact .bind_pure (blind_recorded.unmoved.expand id)

theorem startInner_fails (seed : Nat) (below : List Frame) :
    KeepsOnError recorded (startInner p seed below) :=
  .bind (.change fun _ => rfl) fun _ => .bind (keeps_mark fun _ => ⟨rfl, rfl⟩) fun _ =>
    .bind_pure (blind_recorded.unmoved.expand seed)

theorem outerStep_fails (top : Frame) (below : List Frame) :
    KeepsOnError recorded (outerStep p top below) := by
  obtain ⟨node, rest⟩ := top
  cases rest with
  | cons id rest =>
      refine .bind keeps_countTransition fun _ => .bind (keeps_facts id) fun facts => ?_
      dsimp only
      split
      · exact .of_neverFails (.pure _)
      · exact .bind_pure (enter_fails id)
  | nil =>
      refine .bind (keeps_isAccepting node) fun accepting => ?_
      split
      · exact .bind_pure (startInner_fails node below)
      · exact .of_neverFails (.bind (neverFails_leave node) fun _ => .pure _)

theorem innerStep_fails (below : List Frame) (seed : Nat) (top : Frame) (frames : List Frame) :
    KeepsOnError recorded (innerStep p below seed top frames) := by
  obtain ⟨node, rest⟩ := top
  cases rest with
  | cons id rest =>
      refine .bind keeps_countTransition fun _ => .bind (keeps_facts id) fun facts => ?_
      dsimp only
      split
      · exact .bind (.bind .read fun x => (within_productStates _).keeps) fun _ =>
          .bind (within_productStates _).keeps fun _ => .of_neverFails (.pure _)
      · split
        · exact .of_neverFails (.pure _)
        · exact .bind (keeps_mark fun _ => ⟨rfl, rfl⟩) fun _ =>
            .bind_pure (blind_recorded.unmoved.expand id)
  | nil =>
      simp only [innerStep]
      split
      · exact .of_neverFails (.bind (neverFails_leave seed) fun _ => .pure _)
      · exact .of_neverFails (.pure _)

/-- A step of the search that fails has recorded no successors. -/
theorem step_fails (stage : Stage) : KeepsOnError recorded (Search.step p stage) := by
  rcases stage with (_ | ⟨top, below⟩) | ⟨below, seed, _ | ⟨top, frames⟩⟩
  · exact .of_neverFails (.pure _)
  · exact outerStep_fails top below
  · exact .of_neverFails (.bind (neverFails_leave seed) fun _ => .pure _)
  · exact innerStep_fails below seed top frames

end

end Search

end TemporalCheck
