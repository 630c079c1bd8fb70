import Mathlib.Logic.Equiv.Basic
import Mathlib.Order.Bounds.Basic
import TemporalCheck.Proofs.Cone

/-!
The cone of influence as a least closed set. A pass over the transitions depends on their order,
since what a kept transition reads is relevant for those after it. Where the passes end does not:
they keep exactly the least set of transitions that holds every transition which writes something
visible, something that an invariant reads, or something that a transition of the set reads.
-/

namespace TemporalCheck

namespace Transition

def Writes (t : Transition) (x : String) : Prop := ∃ a ∈ t.actions, a.var = x

def Reads (t : Transition) (x : String) : Prop :=
  x ∈ t.guard.support ∨ ∃ a ∈ t.actions, x ∈ a.support

theorem mem_modifies {t : Transition} {x : String} : x ∈ t.modifies ↔ t.Writes x := by
  simp [modifies, Writes]

end Transition

namespace Model

variable {m m' : Model} {vars relevant : OrderedSet String} {kept : OrderedSet Nat} {keep : Set Nat}
  {x : String}

/-- The variables that matter if the transitions with numbers in `keep` do. -/
def Matters (m : Model) (vars : OrderedSet String) (keep : Set Nat) (x : String) : Prop :=
  x ∈ vars ∨ (∃ i ∈ m.invariants, x ∈ i.predicate.support) ∨
    ∃ j ∈ keep, ∃ t, m.transitions[j]? = some t ∧ t.Reads x

/-- A set of numbers that holds those of all transitions which write something that matters. -/
def Closed (m : Model) (vars : OrderedSet String) (keep : Set Nat) : Prop :=
  ∀ i t, m.transitions[i]? = some t → ∀ x, t.Writes x → m.Matters vars keep x → i ∈ keep

theorem closed_coneOfInfluence (m : Model) (vars : OrderedSet String) :
    m.Closed vars {i | i ∈ m.coneOfInfluence vars} := by
  obtain ⟨relevant, hcone⟩ := m.exists_cone vars
  intro i t ht x hwrites hmatters
  by_contra hi
  refine hcone.modifies i t ht hi x (Transition.mem_modifies.2 hwrites) ?_
  rcases hmatters with hx | ⟨inv, hinv, hx⟩ | ⟨j, hj, u, hu, hx⟩
  · exact hcone.visible x hx
  · exact hcone.invariants inv hinv x hx
  · exact hcone.reads j hj u hu x (Transition.mem_reads.2 hx)

structure Below (m : Model) (vars : OrderedSet String) (keep : Set Nat) (kept : OrderedSet Nat)
    (relevant : OrderedSet String) : Prop where
  kept : ∀ i ∈ kept, i ∈ keep
  relevant : ∀ x ∈ relevant, m.Matters vars keep x

theorem below_watched (m : Model) (vars : OrderedSet String) (keep : Set Nat) :
    m.Below vars keep ∅ (m.watched vars) := by
  refine ⟨fun i hi => absurd hi (OrderedSet.not_mem_empty i), fun x hx => ?_⟩
  rcases mem_watched.1 hx with hx | hx
  · exact .inl hx
  · exact .inr (.inl hx)

theorem Below.conePass (hclosed : m.Closed vars keep) {ts : List (Transition × Nat)}
    (hts : ∀ p ∈ ts, m.transitions[p.2]? = some p.1) (h : m.Below vars keep kept relevant) :
    m.Below vars keep (conePass kept relevant ts).1 (conePass kept relevant ts).2 := by
  induction ts generalizing kept relevant with
  | nil => exact h
  | cons p ts ih =>
      obtain ⟨t, i⟩ := p
      rw [List.forall_mem_cons] at hts
      rw [Model.conePass]
      split
      · rename_i hnew
        obtain ⟨-, x, hwrites, hx⟩ : i ∉ kept ∧ ∃ x ∈ t.modifies, x ∈ relevant := by
          simpa [← Bool.not_eq_true, disjointNames_iff] using hnew
        -- What `t` writes is relevant, so matters for `keep`: a closed set has `i`, and then what
        -- `t` reads matters too.
        have hi : i ∈ keep := hclosed i t hts.1 x (Transition.mem_modifies.1 hwrites)
          (h.relevant x hx)
        refine ih hts.2 ⟨fun j hj => ?_, fun y hy => ?_⟩
        · rcases OrderedSet.mem_insert.1 hj with rfl | hj
          · exact hi
          · exact h.kept j hj
        · rcases OrderedSet.mem_union.1 hy with hy | hy
          · exact .inr (.inr ⟨i, hi, t, hts.1, Transition.mem_reads.1 hy⟩)
          · exact h.relevant y hy
      · exact ih hts.2 h

theorem Below.coneLoop (hclosed : m.Closed vars keep) (n : Nat)
    (h : m.Below vars keep kept relevant) :
    ∀ i ∈ coneLoop m.transitions.zipIdx n kept relevant, i ∈ keep := by
  induction n generalizing kept relevant with
  | zero => exact h.kept
  | succ n ih =>
      have hpass := h.conePass hclosed mem_zipIdx_transitions
      simp only [Model.coneLoop]
      split
      · exact hpass.kept
      · exact ih hpass

def conePasses (m : Model) (vars : OrderedSet String) : Nat → OrderedSet Nat × OrderedSet String
  | 0 => (∅, m.watched vars)
  | n + 1 => conePass (m.conePasses vars n).1 (m.conePasses vars n).2 m.transitions.zipIdx

theorem coneLoop_succ (m : Model) (vars : OrderedSet String) (n k : Nat) :
    coneLoop m.transitions.zipIdx (n + 1) (m.conePasses vars k).1 (m.conePasses vars k).2 =
      if (m.conePasses vars (k + 1)).1.size = (m.conePasses vars k).1.size then
        (m.conePasses vars (k + 1)).1
      else
        coneLoop m.transitions.zipIdx n (m.conePasses vars (k + 1)).1
          (m.conePasses vars (k + 1)).2 := rfl

theorem supported_conePasses (m : Model) (vars : OrderedSet String) (k : Nat) :
    m.Supported (m.conePasses vars k).1 (m.conePasses vars k).2 := by
  induction k with
  | zero => exact supported_empty m (m.watched vars)
  | succ k ih => exact (conePass_spec mem_zipIdx_transitions ih).1

theorem conePasses_grow (m : Model) (vars : OrderedSet String) (k : Nat) :
    (m.conePasses vars k).1.size < (m.conePasses vars (k + 1)).1.size ∨
      m.conePasses vars (k + 1) = m.conePasses vars k := by
  obtain ⟨-, -, hgrows⟩ := conePass_spec mem_zipIdx_transitions (m.supported_conePasses vars k)
  exact hgrows.imp_right And.left

theorem conePasses_of_quiet {j k : Nat} (h : m.conePasses vars (j + 1) = m.conePasses vars j)
    (hk : j ≤ k) : m.conePasses vars k = m.conePasses vars j := by
  induction k, hk using Nat.le_induction with
  | base => rfl
  | succ k _ ih =>
      rw [conePasses, ih]
      exact h

/-- The passes end with one that keeps nothing new. Every pass before it has kept a transition more,
which makes up for the pass that the loop has used up. -/
theorem exists_quiet_pass (vars : OrderedSet String) (k : Nat) {n : Nat}
    (hn : m.transitions.length < (m.conePasses vars k).1.size + n) :
    ∃ j < n, m.conePasses vars (k + j + 1) = m.conePasses vars (k + j) ∧
      coneLoop m.transitions.zipIdx n (m.conePasses vars k).1 (m.conePasses vars k).2 =
        (m.conePasses vars (k + j)).1 := by
  induction n generalizing k with
  | zero => exact absurd (m.supported_conePasses vars k).size_le (by omega)
  | succ n ih =>
      rw [coneLoop_succ]
      rcases m.conePasses_grow vars k with hlt | hquiet
      · rw [if_neg (Nat.ne_of_gt hlt)]
        obtain ⟨j, hj, hpass, hloop⟩ := ih (k + 1) (by omega)
        rw [Nat.add_right_comm k 1 j] at hpass hloop
        exact ⟨j + 1, by omega, hpass, hloop⟩
      · rw [if_pos (by rw [hquiet]), hquiet]
        exact ⟨0, by omega, hquiet, rfl⟩

theorem coneLoop_eq_passes (vars : OrderedSet String) {n : Nat} (hn : m.transitions.length < n) :
    ∃ j < n, m.conePasses vars (j + 1) = m.conePasses vars j ∧
      coneLoop m.transitions.zipIdx n ∅ (m.watched vars) = (m.conePasses vars j).1 := by
  obtain ⟨j, hj, hquiet, hloop⟩ := exists_quiet_pass vars 0 (Nat.lt_add_left _ hn)
  rw [Nat.zero_add] at hquiet hloop
  exact ⟨j, hj, hquiet, hloop⟩

/-- Once there are more passes than transitions, their number does not matter. -/
theorem coneLoop_eq {n k : Nat} (hn : m.transitions.length < n) (hk : m.transitions.length < k) :
    coneLoop m.transitions.zipIdx n ∅ (m.watched vars) =
      coneLoop m.transitions.zipIdx k ∅ (m.watched vars) := by
  obtain ⟨i, -, hi, hloop⟩ := coneLoop_eq_passes vars hn
  obtain ⟨j, -, hj, hloop'⟩ := coneLoop_eq_passes vars hk
  rw [hloop, hloop']
  rcases Nat.le_total i j with hij | hji
  · rw [conePasses_of_quiet hi hij]
  · rw [conePasses_of_quiet hj hji]

/-- `m'` is `m` with its transitions in another order: number `i` has become `place i`. -/
structure Reorders (m m' : Model) (place : Equiv.Perm Nat) : Prop where
  transitions : ∀ i, m'.transitions[place i]? = m.transitions[i]?
  invariants : m'.invariants = m.invariants

namespace Reorders

variable {place : Equiv.Perm Nat}

theorem symm (h : m.Reorders m' place) : m'.Reorders m place.symm := by
  refine ⟨fun i => ?_, h.invariants.symm⟩
  rw [← h.transitions, Equiv.apply_symm_apply]

theorem closed (h : m.Reorders m' place) (hclosed : m'.Closed vars keep) :
    m.Closed vars {i | place i ∈ keep} := by
  intro i t ht x hwrites hmatters
  refine hclosed (place i) t ((h.transitions i).trans ht) x hwrites ?_
  rcases hmatters with hx | ⟨inv, hinv, hx⟩ | ⟨j, hj, u, hu, hx⟩
  · exact .inl hx
  · exact .inr (.inl ⟨inv, h.invariants ▸ hinv, hx⟩)
  · exact .inr (.inr ⟨place j, hj, u, (h.transitions j).trans hu, hx⟩)

end Reorders

theorem isLeast_coneOfInfluence (m : Model) (vars : OrderedSet String) :
    IsLeast {keep | m.Closed vars keep} {i | i ∈ m.coneOfInfluence vars} :=
  ⟨closed_coneOfInfluence m vars, fun keep hclosed =>
    (below_watched m vars keep).coneLoop hclosed (m.transitions.length + 1)⟩

theorem Reorders.place_mem {place : Equiv.Perm Nat} (h : m.Reorders m' place) {i : Nat}
    (hi : i ∈ m.coneOfInfluence vars) : place i ∈ m'.coneOfInfluence vars :=
  (isLeast_coneOfInfluence m vars).2 (h.closed (closed_coneOfInfluence m' vars)) hi

/-- The cone of influence is the least closed set of transitions, in increasing order. After at most
as many passes as there are transitions one keeps nothing new: what is kept then is the cone, and
further passes change nothing. In a model with another order of the transitions the same ones are
kept. -/
theorem coneOfInfluence_least (m : Model) (vars : OrderedSet String) :
    (∃ n ≤ m.transitions.length, m.conePasses vars (n + 1) = m.conePasses vars n ∧
      (m.conePasses vars n).1.toList = m.coneOfInfluence vars) ∧
    (∀ n, m.transitions.length < n →
      (coneLoop m.transitions.zipIdx n ∅ (m.watched vars)).toList = m.coneOfInfluence vars) ∧
    (m.coneOfInfluence vars).Pairwise (· < ·) ∧
    (∀ i ∈ m.coneOfInfluence vars, i < m.transitions.length) ∧
    IsLeast {keep | m.Closed vars keep} {i | i ∈ m.coneOfInfluence vars} ∧
    ∀ (m' : Model) (place : Equiv.Perm Nat), m.Reorders m' place →
      ∀ i, place i ∈ m'.coneOfInfluence vars ↔ i ∈ m.coneOfInfluence vars := by
  refine ⟨?_, fun n hn => ?_, ?_, fun i hi => ?_, isLeast_coneOfInfluence m vars,
    fun m' place h i => ⟨fun hi => ?_, ?_⟩⟩
  · obtain ⟨n, hn, hquiet, hloop⟩ := coneLoop_eq_passes vars (Nat.lt_succ_self m.transitions.length)
    exact ⟨n, Nat.le_of_lt_succ hn, hquiet, congrArg OrderedSet.toList hloop.symm⟩
  · exact congrArg OrderedSet.toList (coneLoop_eq hn (Nat.lt_succ_self _))
  · refine (coneLoop m.transitions.zipIdx (m.transitions.length + 1) ∅
      (m.watched vars)).increasing.imp ?_
    intro i j hij
    exact Nat.compare_eq_lt.1 hij
  · -- The numbers of all transitions are closed, so the least set is among them.
    have hnumbers : m.Closed vars {i | i < m.transitions.length} := fun i t ht _ _ _ =>
      (List.getElem?_eq_some_iff.1 ht).1
    exact (isLeast_coneOfInfluence m vars).2 hnumbers hi
  · simpa using h.symm.place_mem hi
  · exact h.place_mem

/-- Each basin fills the one below it. A pass from the top keeps only the lowest basin that is not
yet kept, and the gauge, which an invariant reads; the bell below rings for nobody. -/
def cascade : Model where
  name := "cascade"
  transitions :=
    [{ name := "spring", guard := .top, actions := [.assign "a" (.bool true)] },
     { name := "upper", guard := .isTrue "a", actions := [.assign "b" (.bool true)] },
     { name := "lower", guard := .isTrue "b", actions := [.assign "c" (.bool true)] },
     { name := "bell", guard := .isTrue "c", actions := [.assign "rung" (.bool true)] },
     { name := "gauge", guard := .top, actions := [{ var := "mark", value := .any }] }]
  invariants := [⟨"low", .isTrue "mark"⟩]

def reversedCascade : Model := { cascade with transitions := cascade.transitions.reverse }

def reversal : Equiv.Perm Nat :=
  Function.Involutive.toPerm (fun i => if i < 5 then 4 - i else i) fun i => by grind

theorem cascade_reordered : cascade.coneOfInfluence (.ofList ["c"]) = [0, 1, 2, 4] ∧
    cascade.Reorders reversedCascade reversal ∧
    ∀ i, reversal i ∈ reversedCascade.coneOfInfluence (.ofList ["c"]) ↔ i ∈ [0, 1, 2, 4] := by
  have hcone : cascade.coneOfInfluence (.ofList ["c"]) = [0, 1, 2, 4] := by decide +kernel
  have hreorders : cascade.Reorders reversedCascade reversal := by
    refine ⟨fun i => ?_, rfl⟩
    have hplace : reversal i = if i < 5 then 4 - i else i := rfl
    rcases Nat.lt_or_ge i 5 with hi | hi
    · have hreverse : reversedCascade.transitions[4 - i]? = cascade.transitions[5 - 1 - (4 - i)]? :=
        List.getElem?_reverse (l := cascade.transitions) (Nat.lt_succ_of_le (Nat.sub_le 4 i))
      rw [hplace, if_pos hi, hreverse, Nat.sub_sub_self (by omega)]
    · rw [hplace, if_neg (by omega), List.getElem?_eq_none hi, List.getElem?_eq_none hi]
  refine ⟨hcone, hreorders, ?_⟩
  rw [← hcone]
  exact (coneOfInfluence_least cascade (.ofList ["c"])).2.2.2.2.2 reversedCascade reversal hreorders

end Model

end TemporalCheck
