import Mathlib.Data.Finset.Card
import Mathlib.Data.Set.Finite.Lattice
import Mathlib.Data.Set.Finite.Powerset
import Mathlib.Logic.Relation
import TemporalCheck.Proofs.Canonical
import TemporalCheck.Proofs.Cone
import TemporalCheck.Proofs.PropertyAutomaton
import TemporalCheck.Proofs.Stutter

/-!
The automaton of a property has finitely many states. Taking `l U r` apart gives `X (l U r)`, which
is larger than what it came from, but nothing larger than the next step of a subformula ever comes
up: the states are sets over a universe that the formula fixes. A sweep over the automaton ends
and leaves exactly the reachable states, each of them expanded once.
-/

namespace TemporalCheck

namespace Formula

variable {f g : Formula} {fs : List Formula} {names : OrderedSet String}

def Within (f g : Formula) : Prop := Relation.ReflTransGen (fun f g => g ∈ f.parts) f g

theorem finite_within_of_parts (h : ∀ g ∈ f.parts, {a | Within g a}.Finite) :
    {a | Within f a}.Finite := by
  have hparts : (⋃ g ∈ {g | g ∈ f.parts}, {a | Within g a}).Finite :=
    (List.finite_toSet f.parts).biUnion h
  apply (hparts.insert f).subset
  intro a ha
  rcases ha.cases_head with rfl | ⟨g, hg, ha⟩
  · exact Set.mem_insert f _
  · apply Set.mem_insert_of_mem
    simp only [Set.mem_iUnion]
    exact ⟨g, hg, ha⟩

theorem finite_within (f : Formula) : {g | Within f g}.Finite := by
  induction f using structural with
  | prop p | top | bot => exact finite_within_of_parts fun g hg => by cases hg
  | neg f ih | next f ih =>
      apply finite_within_of_parts
      intro g hg
      rw [List.mem_singleton.1 hg]
      exact ih
  | conj fs ih | disj fs ih => exact finite_within_of_parts ih
  | till l r ihl ihr | release l r ihl ihr =>
      apply finite_within_of_parts
      intro g hg
      simp only [parts, List.mem_cons, List.not_mem_nil, or_false] at hg
      rcases hg with rfl | rfl
      · exact ihl
      · exact ihr

theorem Over.part (h : Over names f) (hg : g ∈ f.parts) : Over names g := by
  cases f with
  | conj fs | disj fs => exact over_conj.1 h g hg
  | neg f | next f =>
      rw [List.mem_singleton.1 hg]
      exact h
  | «until» l r | release l r =>
      simp only [parts, List.mem_cons, List.not_mem_nil, or_false] at hg
      rcases hg with rfl | rfl
      · exact (over_until.1 h).1
      · exact (over_until.1 h).2
  | _ => cases hg

theorem Over.within (h : Over names f) (hg : Within f g) : Over names g := by
  induction hg with
  | refl => exact h
  | tail _ hpart ih => exact ih.part hpart

theorem Over.signed (h : Over names f) (positive : Bool) : Over names (f.signed positive) := by
  have htop : Over names .top := by simp [Over, occurrences]
  have hbot : Over names .bot := by simp [Over, occurrences]
  refine signed_of_parts (fun _ _ => Over.part) (fun p hp => ⟨hp, hp⟩) (fun _ _ _ hg => hg)
    (fun _ => ?_) (fun _ => ?_) (fun l r hl hr => ⟨over_until.2 ⟨hl, hr⟩, over_until.2 ⟨hl, hr⟩⟩)
    htop hbot h positive
  · exact and_induction htop fun fs => over_conj
  · exact or_induction hbot fun fs => over_disj

end Formula

namespace PropertyState

open Formula

variable {f g : Formula} {q : PropertyState}

/-- The states of the automaton of `f`: the initial one asks for `f` from the next step on. -/
inductive Reachable (f : Formula) : PropertyState → Prop
  | start : Reachable f (.ofList [.next f])
  | step {q q' : PropertyState} (hq : Reachable f q) (hq' : q' ∈ cover q.obligations) :
      Reachable f q'

def Universe (f g : Formula) : Prop := Within f g ∨ ∃ h, g = .next h ∧ Within f h

theorem Universe.next (h : Universe f (.next g)) : Within f g := by
  rcases h with h | ⟨a, ha, h⟩
  · exact h.tail (List.mem_singleton.2 rfl)
  · cases ha
    exact h

theorem Universe.branch {branch : OrderedSet Formula} {a : Formula} (h : Universe f g)
    (hg : g.isElementary = false) (hbranch : branch ∈ g.branches) (ha : a ∈ branch) :
    Universe f a := by
  have hwithin : Within f g := by
    rcases h with h | ⟨b, rfl, -⟩
    · exact h
    · cases hg
  rcases mem_branch hg hbranch ha with hpart | rfl
  · exact .inl (hwithin.tail hpart)
  · exact .inr ⟨g, rfl, hwithin⟩

theorem Reachable.universe (h : Reachable f q) (hg : g ∈ q) : Universe f g := by
  induction h generalizing g with
  | start => exact .inr ⟨f, List.mem_singleton.1 (OrderedSet.mem_ofList.1 hg), .refl⟩
  | step _ hq' ih =>
      refine closed_of_mem_cover hq'
        (fun a ha _ hel branch hbranch b hb => ha.branch hel hbranch hb) ?_ g hg
      intro a ha
      exact .inl (ih (mem_obligations.1 ha)).next

theorem finite_universe (f : Formula) : {g | Universe f g}.Finite := by
  have hwithin := finite_within f
  apply (hwithin.union (hwithin.image .next)).subset
  rintro g (hg | ⟨a, rfl, ha⟩)
  · exact .inl hg
  · exact .inr ⟨a, ha, rfl⟩

theorem finite_reachable (f : Formula) : {q | Reachable f q}.Finite := by
  -- a state is fixed by its members, and those come from a finite universe
  have hinjective : Function.Injective fun q : PropertyState => {g | g ∈ q} :=
    fun q q' h => OrderedSet.eq_of_mem_iff fun g => Set.ext_iff.1 h g
  apply Set.Finite.of_finite_image _ hinjective.injOn
  apply (finite_universe f).finite_subsets.subset
  rintro _ ⟨q, hq, rfl⟩ g hg
  exact hq.universe hg

noncomputable def reachable (f : Formula) : Finset PropertyState := (finite_reachable f).toFinset

theorem mem_reachable : q ∈ reachable f ↔ Reachable f q := (finite_reachable f).mem_toFinset

theorem Reachable.canonical (hf : f.Canonical) (h : Reachable f q) : ∀ g ∈ q, g.Canonical := by
  induction h with
  | start =>
      intro g hg
      rw [List.mem_singleton.1 (OrderedSet.mem_ofList.1 hg)]
      exact .next hf
  | step _ hq' ih =>
      apply canonical_of_mem_cover _ hq'
      intro a ha
      cases ih _ (mem_obligations.1 ha)
      assumption

/-- A state is made of literals and of next steps of subformulas. -/
theorem Reachable.literal_or_next (hf : f.Canonical) (h : Reachable f q) (hg : g ∈ q) :
    g.isLiteral = true ∧ Within f g ∨ ∃ a, g = .next a ∧ Within f a := by
  have hcanonical := h.canonical hf g hg
  have huniverse := h.universe hg
  cases h with
  | start => exact .inr ⟨f, List.mem_singleton.1 (OrderedSet.mem_ofList.1 hg), .refl⟩
  | step _ hq' =>
      obtain ⟨hel, htop⟩ := elementary_of_mem_cover hq' hg
      have hbot : g ≠ .bot := by
        rintro rfl
        exact bot_not_mem_of_mem_cover hq' hg
      rcases hcanonical.literal_or_next hel htop hbot with hliteral | ⟨a, rfl⟩
      · rcases huniverse with hwithin | ⟨a, rfl, -⟩
        · exact .inl ⟨hliteral, hwithin⟩
        · cases hliteral
      · exact .inr ⟨a, rfl, huniverse.next⟩

theorem cover_eq_of_weight_lt {set : OrderedSet Formula} {n : Nat}
    (hn : weightOfAll set.toList < n) : .ofList (coverFrom n set ∅) = cover set := by
  apply OrderedSet.eq_of_mem_iff
  intro q
  rw [OrderedSet.mem_ofList, mem_cover_iff]
  exact ⟨covers_of_mem, fun h => mem_of_covers h hn⟩

end PropertyState

namespace Sweep

variable {s s' : Sweep} {id : Nat} {seen : OrderedSet Nat} {pending rest : List Nat}

theorem nextUnseen_eq_none (h : nextUnseen seen pending = none) : ∀ j ∈ pending, j ∈ seen := by
  induction pending with
  | nil => simp
  | cons i pending ih =>
      rw [nextUnseen] at h
      split at h
      · rename_i hi
        exact List.forall_mem_cons.2 ⟨hi, ih h⟩
      · cases h

theorem nextUnseen_eq_some (h : nextUnseen seen pending = some (id, rest)) :
    id ∉ seen ∧ id ∈ pending ∧ (∀ j ∈ rest, j ∈ pending) ∧ ∀ j ∈ pending, j ∈ seen ∨
      j = id ∨ j ∈ rest := by
  induction pending with
  | nil => cases h
  | cons i pending ih =>
      rw [nextUnseen] at h
      split at h
      · rename_i hi
        obtain ⟨hid, hmem, hrest, hpending⟩ := ih h
        exact ⟨hid, List.mem_cons_of_mem i hmem, fun j hj => List.mem_cons_of_mem i (hrest j hj),
          List.forall_mem_cons.2 ⟨.inl hi, hpending⟩⟩
      · rename_i hi
        cases h
        exact ⟨hi, List.mem_cons_self, fun j hj => List.mem_cons_of_mem _ hj,
          fun j hj => .inr (List.mem_cons.1 hj)⟩

def Found (s : Sweep) (id : Nat) : Prop := id ∈ s.seen ∨ id ∈ s.pending

theorem next?_eq_none (h : s.next? = none) (hid : s.Found id) : id ∈ s.seen := by
  rw [next?, Option.map_eq_none_iff] at h
  rcases hid with hid | hid
  · exact hid
  · exact nextUnseen_eq_none h id hid

theorem next?_eq_some (h : s.next? = some (id, s')) :
    id ∉ s.seen ∧ s.Found id ∧ s'.seen = s.seen.insert id ∧
    ∀ j, s'.Found j ↔ s.Found j := by
  rw [next?, Option.map_eq_some_iff] at h
  obtain ⟨⟨i, rest⟩, h, heq⟩ := h
  cases heq
  obtain ⟨hid, hmem, hrest, hpending⟩ := nextUnseen_eq_some h
  refine ⟨hid, .inr hmem, rfl, fun j => ⟨?_, ?_⟩⟩
  · rintro (hj | hj)
    · rcases OrderedSet.mem_insert.1 hj with rfl | hj
      · exact .inr hmem
      · exact .inl hj
    · exact .inr (hrest j hj)
  · rintro (hj | hj)
    · exact .inl (OrderedSet.mem_insert.2 (.inr hj))
    · rcases hpending j hj with hj | rfl | hj
      · exact .inl (OrderedSet.mem_insert.2 (.inr hj))
      · exact .inl (OrderedSet.mem_insert.2 (.inl rfl))
      · exact .inr hj

theorem found_push {ids : List Nat} : (s.push ids).Found id ↔ id ∈ ids ∨ s.Found id := by
  simp only [Found, push, List.mem_append, List.mem_reverse, List.mem_filter, decide_eq_true_eq]
  tauto

end Sweep

theorem StateTable.WellFormed.size_le {S I : Type} [HasDigest S] {t : StateTable S I}
    (h : t.WellFormed) (states : Finset S) (hstates : ∀ id s, t.get? id = some s → s ∈ states) :
    t.size ≤ states.card := by
  rw [← Finset.card_range t.size, ← Finset.card_map Function.Embedding.some (s := states)]
  apply Finset.card_le_card_of_injOn t.get?
  · intro id hid
    obtain ⟨s, hs⟩ := exists_get?_of_lt (Finset.mem_range.1 hid)
    rw [hs]
    exact Finset.mem_map_of_mem _ (hstates id s hs)
  · intro i hi j hj heq
    obtain ⟨s, hs⟩ := exists_get?_of_lt (Finset.mem_range.1 hi)
    exact h.distinct i j s hs (heq ▸ hs)

namespace PropertyAutomaton

open Formula PropertyState

variable {f : Formula} {a a' : PropertyAutomaton} {id : Nat} {ids : List Nat}
  {log log' : List LogEvent}

/-- The automaton of the violations of `f` after any expansions of its states. -/
inductive Explored (f : Formula) : PropertyAutomaton → Prop
  | start : Explored f (ofViolations f)
  | step {a a' : PropertyAutomaton} {id : Nat} {ids : List Nat} {log log' : List LogEvent}
      (ha : Explored f a) (hids : successors id ⟨a, log⟩ = .ok ids ⟨a', log'⟩) : Explored f a'

def Leads (a : PropertyAutomaton) (i j : Nat) : Prop :=
  ∃ ids, a.table.info? i = some (some ids) ∧ j ∈ ids

def known (a : PropertyAutomaton) : Finset Nat :=
  (Finset.range a.table.size).filter fun id => (a.table.info? id).join.isSome = true

theorem mem_known : id ∈ a.known ↔ ∃ ids, a.table.info? id = some (some ids) := by
  simp only [known, Finset.mem_filter, Finset.mem_range, Option.isSome_iff_exists,
    Option.join_eq_some_iff]
  constructor
  · exact And.right
  · rintro ⟨ids, h⟩
    exact ⟨StateTable.lt_size_of_info? h, ids, h⟩

/-- What all explored automata have: the stored states are reachable ones, they are linked to the
initial one, and the counters tell how many have been expanded. -/
structure Traced (f : Formula) (a : PropertyAutomaton) : Prop where
  sound : Sound f a
  reached : ∀ id q, a.table.get? id = some q → Reachable f q
  linked : ∀ id < a.table.size, Relation.ReflTransGen a.Leads a.initial id
  expanded : a.expanded = a.known.card
  coverCalls : a.coverCalls = a.known.card

theorem traced_ofFormula (f : Formula) : Traced f (ofFormula f) := by
  have htable : (ofFormula f).table =
      (StateTable.empty.insert (.ofList [.next f] : PropertyState)).2 := rfl
  have hget : ∀ id q, (ofFormula f).table.get? id = some q → q = .ofList [.next f] := by
    intro id q hq
    rw [htable] at hq
    rcases StateTable.get?_insert hq with hq | rfl
    · simp at hq
    · rfl
  have hlt : ∀ id < (ofFormula f).table.size, id = (ofFormula f).initial := by
    intro id hid
    rw [htable] at hid
    rcases StateTable.lt_size_insert hid with hid | rfl
    · simp at hid
    · rfl
  have hknown : (ofFormula f).known = ∅ := by
    apply Finset.eq_empty_of_forall_notMem
    intro id hid
    obtain ⟨ids, hids⟩ := mem_known.1 hid
    have hnone := (StateTable.grows_insert StateTable.empty (.ofList [.next f] :
      PropertyState)).fresh id (some ids) (StateTable.info?_empty id) hids
    cases hnone
  refine ⟨sound_ofFormula f, fun id q hq => ?_, fun id hid => ?_, ?_, ?_⟩
  · rw [hget id q hq]
    exact .start
  · rw [hlt id hid]
  · rw [hknown]
    rfl
  · rw [hknown]
    rfl

theorem info?_expandedAt {q : PropertyState} {known : List Nat} (hid : a.table.info? id = some none)
    (j : Nat) : (a.expandedAt id q).table.info? j = some (some known) ↔
      j = id ∧ (a.table.insertAll (cover q.obligations).toList).1 = known ∨
        a.table.info? j = some (some known) := by
  have hgrows := StateTable.grows_insertAll a.table (cover q.obligations).toList
  by_cases hj : id = j
  · subst hj
    rw [expandedAt, StateTable.info?_modifyInfo_self _ (hgrows.info _ _ hid), hid]
    simp
  · rw [expandedAt, StateTable.info?_modifyInfo_of_ne _ hj]
    constructor
    · intro h
      cases hold : a.table.info? j with
      | none => cases hgrows.fresh j _ hold h
      | some i =>
          rw [hgrows.info j i hold] at h
          exact .inr h
    · rintro (⟨rfl, -⟩ | h)
      · exact absurd rfl hj
      · exact hgrows.info j _ h

theorem known_expandedAt {q : PropertyState} (hid : a.table.info? id = some none) :
    (a.expandedAt id q).known = insert id a.known := by
  ext j
  simp only [mem_known, Finset.mem_insert, info?_expandedAt hid]
  constructor
  · rintro ⟨ids, ⟨rfl, -⟩ | h⟩
    · exact .inl rfl
    · exact .inr ⟨ids, h⟩
  · rintro (rfl | ⟨ids, h⟩)
    · exact ⟨_, .inl ⟨rfl, rfl⟩⟩
    · exact ⟨ids, .inr h⟩

theorem card_known_expandedAt {q : PropertyState} (hid : a.table.info? id = some none) :
    (a.expandedAt id q).known.card = a.known.card + 1 := by
  rw [known_expandedAt hid]
  apply Finset.card_insert_of_notMem
  rw [mem_known, hid]
  simp

theorem Traced.expandedAt {q : PropertyState} (h : Traced f a) (hid : a.table.info? id = some none)
    (hq : a.table.get? id = some q) : Traced f (a.expandedAt id q) := by
  have hreach : ∀ j < a.table.size,
      Relation.ReflTransGen (a.expandedAt id q).Leads a.initial j := by
    intro j hj
    refine Relation.ReflTransGen.mono ?_ _ _ (h.linked j hj)
    rintro i k ⟨ids, hids, hk⟩
    exact ⟨ids, (info?_expandedAt hid i).2 (.inr hids), hk⟩
  refine ⟨(h.sound.expandedAt hid hq).1, fun j s hs => ?_, fun j hj => ?_, ?_, ?_⟩
  · rw [PropertyAutomaton.expandedAt, StateTable.get?_modifyInfo] at hs
    rcases StateTable.get?_insertAll hs with hs | hs
    · exact h.reached j s hs
    · exact .step (h.reached id q hq) hs
  · rw [PropertyAutomaton.expandedAt, StateTable.size_modifyInfo] at hj
    rcases StateTable.lt_size_insertAll hj with hj | hj
    · exact hreach j hj
    · exact (hreach id (StateTable.lt_size_of_get? hq)).tail
        ⟨_, (info?_expandedAt hid id).2 (.inl ⟨rfl, rfl⟩), hj⟩
  · rw [card_known_expandedAt hid, ← h.expanded]
    rfl
  · rw [card_known_expandedAt hid, ← h.coverCalls]
    rfl

theorem Traced.successors (h : Traced f a) (hids : successors id ⟨a, log⟩ = .ok ids ⟨a', log'⟩) :
    Traced f a' := by
  obtain ⟨-, ⟨-, rfl⟩ | ⟨hid, q, hq, -, rfl⟩⟩ := successors_eq_ok.1 hids
  · exact h
  · exact h.expandedAt hid hq

theorem Explored.traced (h : Explored f a) : Traced f.negate a := by
  induction h with
  | start => exact traced_ofFormula f.negate
  | step _ hids ih => exact ih.successors hids

theorem Traced.size_le (h : Traced f a) : a.table.size ≤ (reachable f).card :=
  h.sound.table.size_le (reachable f) fun id q hq => mem_reachable.2 (h.reached id q hq)

/-- An automaton with every stored state expanded stores all states. -/
theorem Traced.stored (h : Traced f a) (hknown : ∀ id < a.table.size, id ∈ a.known)
    {q : PropertyState} (hq : Reachable f q) : ∃ id, a.table.get? id = some q := by
  induction hq with
  | start => exact ⟨a.initial, h.sound.initial⟩
  | step _ hq' ih =>
      obtain ⟨id, hid⟩ := ih
      obtain ⟨ids, hids⟩ := mem_known.1 (hknown id (StateTable.lt_size_of_get? hid))
      obtain ⟨j, -, hj⟩ := (h.sound.expanded id _ ids hid hids).exists_id hq'
      exact ⟨j, hj⟩

theorem Traced.size_eq (h : Traced f a) (hknown : ∀ id < a.table.size, id ∈ a.known) :
    a.table.size = (reachable f).card := by
  apply Nat.le_antisymm h.size_le
  rw [← Finset.card_range a.table.size]
  apply Finset.card_le_card_of_surjOn fun id => (a.table.get? id).getD ∅
  intro q hq
  obtain ⟨id, hid⟩ := h.stored hknown (mem_reachable.1 hq)
  refine ⟨id, Finset.mem_coe.2 (Finset.mem_range.2 (StateTable.lt_size_of_get? hid)), ?_⟩
  simp [hid]

structure Swept (f : Formula) (a : PropertyAutomaton) (s : Sweep) : Prop where
  traced : Traced f a
  initial : s.Found a.initial
  stored : ∀ id, s.Found id → id < a.table.size
  seen : ∀ id ∈ s.seen, id ∈ a.known
  leads : ∀ id ∈ s.seen, ∀ j, a.Leads id j → s.Found j

theorem Swept.size_le {s : Sweep} (h : Swept f a s) : s.seen.size ≤ a.table.size := by
  have hsubset : s.seen.toList ⊆ List.range a.table.size := by
    intro id hid
    exact List.mem_range.2 (h.stored id (.inl hid))
  have hle := (s.seen.nodup.subperm hsubset).length_le
  rwa [List.length_range] at hle

theorem Swept.mem_seen {s : Sweep} (h : Swept f a s) (hend : s.next? = none) :
    ∀ id < a.table.size, id ∈ s.seen := by
  intro id hid
  have hlinked := h.traced.linked id hid
  clear hid
  induction hlinked with
  | refl => exact Sweep.next?_eq_none hend h.initial
  | tail _ hlead ih => exact Sweep.next?_eq_none hend (h.leads _ ih _ hlead)

/-- Asking for the successors of a state notes them there and nothing elsewhere. -/
theorem info?_successors {j : Nat} {js : List Nat}
    (hids : successors id ⟨a, log⟩ = .ok ids ⟨a', log'⟩) :
    a'.table.info? j = some (some js) ↔ j = id ∧ ids = js ∨ a.table.info? j = some (some js) := by
  obtain ⟨-, ⟨hknown, rfl⟩ | ⟨hnew, q, -, rfl, rfl⟩⟩ := successors_eq_ok.1 hids
  · constructor
    · exact .inr
    · rintro (⟨rfl, rfl⟩ | h)
      · exact hknown
      · exact h
  · exact info?_expandedAt hnew j

theorem Swept.visit {s s' : Sweep} (h : Swept f a s) (hnext : s.next? = some (id, s'))
    (hids : successors id ⟨a, log⟩ = .ok ids ⟨a', log'⟩) : Swept f a' (s'.push ids) := by
  obtain ⟨-, hid, hseen, hfound⟩ := Sweep.next?_eq_some hnext
  obtain ⟨-, hgrows, q, -, hnames⟩ := successors_spec h.traced.sound hids
  have hself : a'.table.info? id = some (some ids) := (info?_successors hids).2 (.inl ⟨rfl, rfl⟩)
  refine ⟨h.traced.successors hids, ?_, fun j hj => ?_, fun j hj => ?_, fun i hi j hlead => ?_⟩
  · rw [Sweep.found_push, hfound, hgrows.initial]
    exact .inr h.initial
  · rcases Sweep.found_push.1 hj with hj | hj
    · obtain ⟨q', -, hq'⟩ := hnames.exists_state hj
      exact StateTable.lt_size_of_get? hq'
    · obtain ⟨q', hq'⟩ := StateTable.exists_get?_of_lt (h.stored j ((hfound j).1 hj))
      exact StateTable.lt_size_of_get? (hgrows.get j q' hq')
  · change j ∈ s'.seen at hj
    rw [hseen, OrderedSet.mem_insert] at hj
    rcases hj with rfl | hj
    · exact mem_known.2 ⟨ids, hself⟩
    · obtain ⟨js, hjs⟩ := mem_known.1 (h.seen j hj)
      exact mem_known.2 ⟨js, (info?_successors hids).2 (.inr hjs)⟩
  · change i ∈ s'.seen at hi
    rw [hseen, OrderedSet.mem_insert] at hi
    rw [Sweep.found_push, hfound]
    obtain ⟨is, his, hj⟩ := hlead
    by_cases heq : i = id
    · subst heq
      rw [hself] at his
      cases his
      exact .inl hj
    · have hold := ((info?_successors hids).1 his).resolve_left fun hc => heq hc.1
      exact .inr (h.leads i (hi.resolve_left heq) j ⟨is, hold, hj⟩)

theorem coverCalls_successors (hids : successors id ⟨a, log⟩ = .ok ids ⟨a', log'⟩) :
    a' = a ∨ a.coverCalls < a'.coverCalls := by
  obtain ⟨-, ⟨-, rfl⟩ | ⟨-, q, -, -, rfl⟩⟩ := successors_eq_ok.1 hids
  · exact .inl rfl
  · exact .inr (Nat.lt_succ_self _)

/-- A sweep with steps left for everything that it has not seen ends with all states expanded. -/
theorem exhaust_spec {s : Sweep} {limit : Nat} (h : Swept f a s)
    (hlimit : (reachable f).card < limit + s.seen.size) (log : List LogEvent) :
    ∃ a', Sweep.exhaust successors limit s ⟨a, log⟩ = .ok (some (reachable f).card) ⟨a', log⟩ ∧
      Traced f a' ∧ (∀ id < a'.table.size, id ∈ a'.known) ∧
      (a' = a ∨ a.coverCalls < a'.coverCalls) := by
  induction limit generalizing a s with
  | zero =>
      -- no steps are left only if more has been seen than there is
      have hsize := h.size_le.trans h.traced.size_le
      omega
  | succ limit ih =>
      cases hnext : s.next? with
      | none =>
          have hall := h.mem_seen hnext
          have hknown : ∀ id < a.table.size, id ∈ a.known := fun id hid => h.seen id (hall id hid)
          have hsize : s.seen.size = a.table.size := by
            apply Nat.le_antisymm h.size_le
            have hsubset : List.range a.table.size ⊆ s.seen.toList :=
              fun id hid => hall id (List.mem_range.1 hid)
            have hle := (List.nodup_range.subperm hsubset).length_le
            rwa [List.length_range] at hle
          refine ⟨a, ?_, h.traced, hknown, .inl rfl⟩
          rw [Sweep.exhaust, hnext, Task.pure_eq_ok, hsize, h.traced.size_eq hknown]
          exact ⟨rfl, rfl⟩
      | some p =>
          obtain ⟨id, s'⟩ := p
          obtain ⟨hid, hfound, hseen, -⟩ := Sweep.next?_eq_some hnext
          obtain ⟨q, hq⟩ := StateTable.exists_get?_of_lt (h.stored id hfound)
          obtain ⟨ids, b, hids⟩ := exists_successors hq log
          have hcount : (s'.push ids).seen.size = s.seen.size + 1 := by
            change s'.seen.size = _
            rw [hseen, OrderedSet.size_insert hid]
          obtain ⟨a', hok, htraced, hknown, hcalls⟩ := ih (h.visit hnext hids) (by omega)
          refine ⟨a', ?_, htraced, hknown, ?_⟩
          · rw [Sweep.exhaust, hnext, Task.bind_eq_ok]
            exact ⟨ids, _, hids, hok⟩
          · rcases coverCalls_successors hids with rfl | hlt
            · exact hcalls
            · rcases hcalls with rfl | hlt'
              · exact .inr hlt
              · exact .inr (hlt.trans hlt')

theorem Traced.swept (h : Traced f a) : Swept f a { pending := [a.initial] } := by
  refine ⟨h, .inr List.mem_cons_self, fun id hid => ?_, fun id hid => ?_, fun id hid => ?_⟩
  · rcases hid with hid | hid
    · exact absurd hid (OrderedSet.not_mem_empty id)
    · rw [List.mem_singleton.1 hid]
      exact StateTable.lt_size_of_get? h.sound.initial
  · exact absurd hid (OrderedSet.not_mem_empty id)
  · exact absurd hid (OrderedSet.not_mem_empty id)

theorem generate_spec {limit : Nat} (h : Traced f a) (hlimit : (reachable f).card < limit)
    (log : List LogEvent) :
    ∃ a', generate limit ⟨a, log⟩ = .ok (some (reachable f).card) ⟨a', log⟩ ∧
      Traced f a' ∧ (∀ id < a'.table.size, id ∈ a'.known) ∧
      (a' = a ∨ a.coverCalls < a'.coverCalls) := by
  have hsteps : (reachable f).card < limit + ({ pending := [a.initial] } : Sweep).seen.size :=
    Nat.lt_add_right _ hlimit
  obtain ⟨a', hok, h'⟩ := exhaust_spec h.swept hsteps log
  refine ⟨a', ?_, h'⟩
  rw [generate, Task.bind_eq_ok]
  exact ⟨a, _, rfl, hok⟩

theorem card_known (hknown : ∀ id < a.table.size, id ∈ a.known) : a.known.card = a.table.size := by
  have hall : a.known = Finset.range a.table.size := by
    ext id
    rw [Finset.mem_range]
    exact ⟨fun hid => Finset.mem_range.1 (Finset.mem_filter.1 hid).1, hknown id⟩
  rw [hall, Finset.card_range]

/-- The states of the automaton are sets of literals over the propositions of the formula and of
next steps of subformulas of its negation, so there are finitely many of them. From wherever an
expansion has been left, generating the automaton expands each of them once, and generating it
again changes nothing. -/
theorem generate_exact (f : Formula) :
    (∀ q, Reachable f.negate q → ∀ g ∈ q,
      g.isLiteral = true ∧ Over f.propositions g ∨ ∃ h, g = .next h ∧ Within f.negate h) ∧
    (∀ (set : OrderedSet Formula) (n : Nat), weightOfAll set.toList < n →
      .ofList (coverFrom n set ∅) = cover set) ∧
    ∃ states : Finset PropertyState, (∀ q, q ∈ states ↔ Reachable f.negate q) ∧
      ∀ a, Explored f a → ∀ limit log, states.card < limit →
        ∃ a', generate limit ⟨a, log⟩ = .ok (some states.card) ⟨a', log⟩ ∧
          (∀ q, (∃ id, a'.table.get? id = some q) ↔ q ∈ states) ∧
          a'.table.size = states.card ∧ a'.expanded = states.card ∧ a'.coverCalls = states.card ∧
          ∀ limit' log', states.card < limit' →
            generate limit' ⟨a', log'⟩ = .ok (some states.card) ⟨a', log'⟩ := by
  refine ⟨fun q hq g hg => ?_, fun set n hn => cover_eq_of_weight_lt hn,
    reachable f.negate, fun q => mem_reachable, fun a ha limit log hlimit => ?_⟩
  · have hover : Over f.propositions f.negate := by
      apply Over.signed
      intro p hp
      exact OrderedSet.mem_ofList.2 hp
    rcases hq.literal_or_next (canonical_signed false f) hg with ⟨hliteral, hwithin⟩ | hnext
    · exact .inl ⟨hliteral, hover.within hwithin⟩
    · exact .inr hnext
  · obtain ⟨a', hok, htraced, hknown, -⟩ := generate_spec ha.traced hlimit log
    have hsize := htraced.size_eq hknown
    have hcard := card_known hknown
    have hcalls : a'.coverCalls = (reachable f.negate).card := by
      rw [htraced.coverCalls, hcard, hsize]
    refine ⟨a', hok, fun q => ⟨?_, ?_⟩, hsize, ?_, hcalls, fun limit' log' hlimit' => ?_⟩
    · rintro ⟨id, hid⟩
      exact mem_reachable.2 (htraced.reached id q hid)
    · intro hq
      exact htraced.stored hknown (mem_reachable.1 hq)
    · rw [htraced.expanded, hcard, hsize]
    · obtain ⟨b, hok', htraced', hknown', rfl | hmore⟩ := generate_spec htraced hlimit' log'
      · exact hok'
      · rw [htraced'.coverCalls, card_known hknown', htraced'.size_eq hknown'] at hmore
        omega

theorem handover_generated : ∃ (n : Nat) (ids : List Nat) (a a' : PropertyAutomaton),
    successors 0 ⟨ofViolations (.until (.prop "p") (.prop "q")), []⟩ = .ok ids ⟨a, []⟩ ∧
      generate (n + 1) ⟨a, []⟩ = .ok (some n) ⟨a', []⟩ ∧ a'.table.size = n ∧ a'.coverCalls = n ∧
      generate (n + 1) ⟨a', []⟩ = .ok (some n) ⟨a', []⟩ := by
  obtain ⟨ids, a, hids⟩ := exists_successors
    (sound_ofFormula (.negate (.until (.prop "p") (.prop "q")))).initial []
  obtain ⟨states, -, h⟩ := (generate_exact (.until (.prop "p") (.prop "q"))).2.2
  obtain ⟨a', hok, -, hsize, -, hcalls, hagain⟩ :=
    h a (.step .start hids) (states.card + 1) [] (Nat.lt_succ_self _)
  exact ⟨states.card, ids, a, a', hids, hok, hsize, hcalls, hagain _ _ (Nat.lt_succ_self _)⟩

end PropertyAutomaton

end TemporalCheck
