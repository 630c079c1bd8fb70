import Mathlib.Data.List.Forall2
import TemporalCheck.Proofs.Product

namespace TemporalCheck

open PropertyState

instance Behaviour.decidableSupports {S : Type} (b : Behaviour S) (s : S) (q : PropertyState) :
    Decidable (b.Supports s q) :=
  inferInstanceAs (Decidable (∀ g ∈ q.literals, b.entails s g = some true))

namespace Place

variable {S : Type}

def matching (b : Behaviour S) (phase : Nat) (targets : List S) (q : PropertyState) :
    List (Place S) :=
  (targets.filter fun s => b.Supports s q).map fun s => ⟨s, q, phase, false⟩

theorem matching_cons (b : Behaviour S) (phase : Nat) (s : S) (targets : List S)
    (q : PropertyState) : matching b phase (s :: targets) q =
      if b.Supports s q then ⟨s, q, phase, false⟩ :: matching b phase targets q
      else matching b phase targets q := by
  by_cases h : b.Supports s q <;> simp [matching, h]

def successors (b : Behaviour S) (f : Formula) (u : Place S) (targets : List S) : List (Place S) :=
  (cover u.property.obligations).toList.flatMap (matching b (u.nextPhase f) targets)

def reduced? (b : Behaviour S) (f : Formula) (reduction : Bool) (u : Place S) :
    Option (List (Place S)) :=
  if reduction && !u.root then (b.ampleSet u.program).map (u.successors b f) else none

def full? (b : Behaviour S) (f : Formula) (u : Place S) : Option (List (Place S)) :=
  if u.root then some (u.successors b f [u.program]) else (b.next? u.program).map (u.successors b f)

end Place

namespace Search

open StateTable

variable {W S : Type} {p : Program W S} {valid : W → Prop} {b : Behaviour S} {f : Formula}
  {x x' : Search W S} {id : Nat} {n n' : ProductNode} {u : Place S} {places : List (Place S)}
  {nodes : List ProductNode} {log log' : List LogEvent}

/-- The nodes stand for the places, one by one. -/
def Means (x : Search W S) (nodes : List ProductNode) (places : List (Place S)) : Prop :=
  List.Forall₂ x.Stands nodes places

theorem Means.mono (h : x.Means nodes places) (hgrows : Grows x x') : x'.Means nodes places :=
  List.Forall₂.imp (fun _ _ => hgrows.stands) h

theorem Means.append {nodes' : List ProductNode} {places' : List (Place S)}
    (h : x.Means nodes places) (h' : x.Means nodes' places') :
    x.Means (nodes ++ nodes') (places ++ places') :=
  List.rel_append h h'

theorem Means.any_iff {P : ProductNode → Bool} {Q : Place S → Prop} (h : x.Means nodes places)
    (hPQ : ∀ n u, x.Stands n u → (P n = true ↔ Q u)) : nodes.any P = true ↔ ∃ u ∈ places, Q u := by
  induction h with
  | nil => simp
  | cons hm _ ih => simp [hPQ _ _ hm, ih]

section

variable [HasDigest S]

theorem matching_means {q : PropertyState} {j phase : Nat} {ids : List Nat} {targets : List S}
    (hp : p.Behaves valid b) (h : x.space.Sound valid b) (hq : x.property.table.get? j = some q)
    (hids : x.space.table.Names ids targets)
    (hok : Search.matching p j phase q.literals ids ⟨x, log⟩ = .ok nodes ⟨x', log'⟩) :
    x'.Means nodes (Place.matching b phase targets q) := by
  induction ids generalizing x log targets nodes with
  | nil =>
      obtain ⟨rfl, hx⟩ := Task.pure_eq_ok.1 hok
      obtain rfl := hids.eq_nil
      exact .nil
  | cons id ids ih =>
      obtain ⟨s, targets, rfl, hs, hids⟩ := hids.eq_cons
      simp only [Search.matching, Task.bind_eq_ok, inSpace_eq_ok, Task.pure_eq_ok] at hok
      obtain ⟨v, _, ⟨m, hm, rfl⟩, others, _, hothers, rfl, rfl⟩ := hok
      obtain ⟨hsound, hgrows, s', hs', htrue, hfalse⟩ := StateSpace.entailsAll_spec hp h hm
      rw [hs, Option.some.injEq] at hs'
      subst hs'
      have hrest := ih (x := { x with space := m.state }) hsound hq (hids.mono hgrows) hothers
      obtain ⟨-, hgrows', hx', -⟩ :=
        matching_spec (x := { x with space := m.state }) hp hsound (hids.mono hgrows) hothers
      cases v with
      | true =>
          have hsupports : b.Supports s q := htrue rfl
          rw [Place.matching_cons, if_pos hsupports, if_pos rfl]
          refine .cons ⟨hgrows' id s (hgrows id s hs), ?_, rfl, rfl⟩ hrest
          rw [hx']
          exact hq
      | false =>
          have hrefuted : ¬ b.Supports s q := fun hsupports => hsupports.not_refutes (hfalse rfl)
          rw [Place.matching_cons, if_neg hrefuted]
          exact hrest

theorem pairUp_means {phase : Nat} {programIds propertyIds : List Nat} {targets : List S}
    {states : List PropertyState} (hp : p.Behaves valid b) (h : x.space.Sound valid b)
    (hprogram : x.space.table.Names programIds targets)
    (hproperty : x.property.table.Names propertyIds states)
    (hok : pairUp p phase programIds propertyIds ⟨x, log⟩ = .ok nodes ⟨x', log'⟩) :
    x'.Means nodes (states.flatMap (Place.matching b phase targets)) := by
  induction propertyIds generalizing x log states nodes with
  | nil =>
      obtain ⟨rfl, hx⟩ := Task.pure_eq_ok.1 hok
      obtain rfl := hproperty.eq_nil
      exact .nil
  | cons j propertyIds ih =>
      obtain ⟨q, states, rfl, hq, hproperty⟩ := hproperty.eq_cons
      simp only [pairUp, Task.bind_eq_ok, inProperty_eq_ok, propertyState_eq_ok,
        Task.pure_eq_ok] at hok
      obtain ⟨q', _, ⟨_, ⟨hq', rfl⟩, rfl⟩, found, ⟨y, ylog⟩, hfound, others, _, hothers,
          rfl, rfl⟩ := hok
      rw [hq, Option.some.injEq] at hq'
      subst hq'
      have hmatching := matching_means hp h hq hprogram hfound
      obtain ⟨hsound, hgrows, hy, -⟩ := matching_spec hp h hprogram hfound
      have hyproperty : y.property.table.Names propertyIds states := by
        rw [hy]
        exact hproperty
      have hrest := ih hsound (hprogram.mono hgrows) hyproperty hothers
      obtain ⟨-, hgrows', hx', -⟩ := pairUp_spec hp hsound (hprogram.mono hgrows) hyproperty hothers
      have hlater : Grows y x' := by
        rw [hx']
        exact ⟨hgrows', .refl _, fun _ _ h => h, rfl⟩
      exact (hmatching.mono hlater).append hrest

theorem productSuccessors_means {ids : List Nat} {targets : List S} (hp : p.Behaves valid b)
    (h : Sound valid b f x) (hn : x.Stands n u) (hids : x.space.table.Names ids targets)
    (hok : productSuccessors p n ids ⟨x, log⟩ = .ok nodes ⟨x', log'⟩) :
    x'.Means nodes (u.successors b f targets) := by
  simp only [productSuccessors, Task.bind_eq_ok, inProperty_eq_ok] at hok
  obtain ⟨phase, ⟨y, ylog⟩, hphase, propertyIds, _, ⟨⟨a, alog⟩, ha, rfl⟩, hok⟩ := hok
  obtain ⟨rfl, rfl⟩ := nextPhase_spec h.property hn hphase
  obtain ⟨-, -, q, hq, hstates⟩ := PropertyAutomaton.successors_spec h.property ha
  rw [hn.property, Option.some.injEq] at hq
  subst hq
  exact pairUp_means (x := { y with property := a }) hp h.space hids hstates hok

def OnPath (x : Search W S) (u : Place S) : Prop :=
  ∃ id, x.Stores id u ∧ (x.marks.facts id).onPath = true

def Usable (x : Search W S) (places : List (Place S)) : Prop :=
  places ≠ [] ∧ ∀ u ∈ places, ¬ x.OnPath u

theorem Sound.eq_of_stands (h : Sound valid b f x) (hn : x.Stands n u) (hn' : x.Stands n' u) :
    n = n' := by
  obtain ⟨i, j, phase, root⟩ := n
  obtain ⟨i', j', phase', root'⟩ := n'
  have hprogram := h.space.table.distinct _ _ _ hn.program hn'.program
  have hproperty := h.property.table.distinct _ _ _ hn.property hn'.property
  have hphase := hn.phase.trans hn'.phase.symm
  have hroot := hn.root.trans hn'.root.symm
  simp_all

theorem Sound.stores_iff (h : Sound valid b f x) (hn : x.Stands n u) :
    x.Stores id u ↔ x.nodes.get? id = some n := by
  constructor
  · rintro ⟨m, hm, hmu⟩
    rwa [h.eq_of_stands hn hmu]
  · intro hid
    exact ⟨n, hid, hn⟩

theorem Sound.closesCycle_iff (h : Sound valid b f x) (hn : x.Stands n u) :
    x.closesCycle n = true ↔ x.OnPath u := by
  rw [closesCycle]
  constructor
  · intro hcloses
    split at hcloses
    · rename_i id hid
      refine ⟨id, (h.stores_iff hn).2 (h.nodes.lookup_eq_some_iff.1 hid), ?_⟩
      cases hfacts : x.nodes.info? id <;> simp_all [marks]
    · cases hcloses
  · rintro ⟨id, hid, hon⟩
    rw [h.nodes.lookup_eq_some_iff.2 ((h.stores_iff hn).1 hid)]
    cases hfacts : x.nodes.info? id with
    | some facts => simpa [marks, hfacts] using hon
    | none =>
        simp only [marks, hfacts] at hon
        cases hon

theorem stores_of_grows (h : Sound valid b f x) (hgrows : Grows x x')
    (hnodes : x'.nodes = x.nodes) : x'.Stores id u ↔ x.Stores id u := by
  constructor
  · rintro ⟨n, hn, hnu⟩
    rw [hnodes] at hn
    obtain ⟨v, hv⟩ := h.stands id n hn
    obtain rfl := (hgrows.stands hv).unique hnu
    exact ⟨n, hn, hv⟩
  · exact hgrows.stores

variable [DecidableEq S]

theorem fullSuccessors_means (hp : p.Behaves valid b) (h : Sound valid b f x) (hn : x.Stands n u)
    (hok : fullSuccessors p n ⟨x, log⟩ = .ok nodes ⟨x', log'⟩) :
    ∃ places, u.full? b f = some places ∧ x'.Means nodes places := by
  simp only [fullSuccessors] at hok
  split at hok
  · rename_i hroot
    simp only [Task.bind_eq_ok, Task.pure_eq_ok] at hok
    obtain ⟨_, _, ⟨rfl, rfl⟩, hok⟩ := hok
    refine ⟨_, ?_, productSuccessors_means hp h hn (.cons hn.program .nil) hok⟩
    rw [Place.full?, ← hn.root, if_pos hroot]
  · rename_i hroot
    simp only [Task.bind_eq_ok, inSpace_eq_ok] at hok
    obtain ⟨ids, _, ⟨⟨y, ylog⟩, hids, rfl⟩, hok⟩ := hok
    obtain ⟨hy, hygrows, s, next, hs, hnext, hnames⟩ := StateSpace.successors_spec hp h.space hids
    rw [hn.program, Option.some.injEq] at hs
    subst hs
    have hgrows : Grows x { x with space := y, property := x.property } :=
      ⟨hygrows, .refl _, fun _ _ h => h, rfl⟩
    refine ⟨_, ?_, productSuccessors_means hp (h.grow hy h.property hgrows)
      (hgrows.stands hn) hnames hok⟩
    rw [Place.full?, ← hn.root, if_neg hroot, hnext, Option.map_some]

/-- An ample set is taken exactly if it gives places that may replace all the others. -/
theorem reducedSuccessors_means {reduced : Option (List ProductNode)} (hp : p.Behaves valid b)
    (h : Sound valid b f x) (hn : x.Stands n u)
    (hok : reducedSuccessors p n ⟨x, log⟩ = .ok reduced ⟨x', log'⟩) :
    (reduced = none ∧ ∀ places, u.reduced? b f x.reduction = some places → ¬ x.Usable places) ∨
      ∃ nodes places, reduced = some nodes ∧ u.reduced? b f x.reduction = some places ∧
        x.Usable places ∧
        x'.Means nodes places := by
  obtain ⟨hsound, hgrows, hx', -⟩ := reducedSuccessors_spec hp h hn hok
  simp only [reducedSuccessors, Task.bind_eq_ok, Task.read_eq_ok] at hok
  obtain ⟨_, _, ⟨rfl, rfl⟩, hok⟩ := hok
  rw [Place.reduced?, ← hn.root]
  split at hok
  · rename_i hcond
    rw [if_pos hcond]
    simp only [Task.bind_eq_ok, inSpace_eq_ok] at hok
    obtain ⟨set, _, ⟨⟨y, ylog⟩, hset, rfl⟩, hok⟩ := hok
    obtain ⟨hy, hygrows, s, hs, hspec⟩ := StateSpace.ample_spec hp h.space hset
    rw [hn.program, Option.some.injEq] at hs
    subst hs
    have hygrows : Grows x { x with space := y, property := x.property } :=
      ⟨hygrows, .refl _, fun _ _ h => h, rfl⟩
    generalize b.ampleSet u.program = chosen at hspec
    cases hspec with
    | none =>
        obtain ⟨rfl, -⟩ := Task.pure_eq_ok.1 hok
        exact .inl ⟨rfl, by rintro _ ⟨⟩⟩
    | @some ids targets hnames =>
        simp only [Task.bind_eq_ok, Task.read_eq_ok, Task.pure_eq_ok] at hok
        obtain ⟨next, _, hnext, _, _, ⟨rfl, rfl⟩, rfl, rfl⟩ := hok
        have hmeans := productSuccessors_means hp (h.grow hy h.property hygrows)
          (hygrows.stands hn) hnames hnext
        have hnodes : x'.nodes = x.nodes := by rw [hx']
        have hmarks : x'.marks = x.marks := by rw [hx']; rfl
        -- looking for successors stores no node, so the places on the path are those of before
        have honPath : ∀ v, x'.OnPath v ↔ x.OnPath v := by
          intro v
          simp only [OnPath, hmarks, stores_of_grows h hgrows hnodes]
        have hrefused : (next.isEmpty || next.any x'.closesCycle) = true ↔
            ¬ x.Usable (u.successors b f targets) := by
          rw [Bool.or_eq_true, hmeans.any_iff fun n v hnv => (hsound.closesCycle_iff hnv).trans
            (honPath v)]
          have hempty : next.isEmpty = true ↔ u.successors b f targets = [] := by
            rw [List.isEmpty_iff, ← List.length_eq_zero_iff, List.Forall₂.length_eq hmeans,
              List.length_eq_zero_iff]
          rw [hempty, Usable]
          grind
        by_cases husable : x.Usable (u.successors b f targets)
        · refine .inr ⟨next, _, if_neg ?_, rfl, husable, hmeans⟩
          exact fun hrefuse => hrefused.1 hrefuse husable
        · refine .inl ⟨if_pos (hrefused.2 husable), ?_⟩
          rintro _ ⟨⟩
          exact husable
  · rename_i hcond
    obtain ⟨rfl, -⟩ := Task.pure_eq_ok.1 hok
    rw [if_neg hcond]
    exact .inl ⟨rfl, by rintro _ ⟨⟩⟩

end

end Search

end TemporalCheck
