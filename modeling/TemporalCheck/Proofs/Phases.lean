import TemporalCheck.Proofs.Product

namespace TemporalCheck

/-- A counter with `k` phases. It moves on, modulo `k`, at the positions that meet the set it
points at. -/
def Rotates (k : Nat) (met : Nat → Nat → Bool) (phase : Nat → Nat) : Prop :=
  ∀ i, phase (i + 1) = if k = 0 then 0 else if met i (phase i) then (phase i + 1) % k else phase i

namespace Rotates

variable {k i j : Nat} {met : Nat → Nat → Bool} {phase : Nat → Nat}

theorem succ_of_met (h : Rotates k met phase) (hk : 0 < k) (hm : met i (phase i) = true) :
    phase (i + 1) = (phase i + 1) % k := by
  rw [h i, if_neg (by omega), if_pos hm]

theorem succ_of_not_met (h : Rotates k met phase) (hk : 0 < k) (hm : ¬ met i (phase i) = true) :
    phase (i + 1) = phase i := by
  rw [h i, if_neg (by omega), if_neg hm]

theorem phase_lt (h : Rotates k met phase) (hstart : phase 0 = 0) (hk : 0 < k) (i : Nat) :
    phase i < k := by
  induction i with
  | zero => rwa [hstart]
  | succ i ih =>
      by_cases hm : met i (phase i) = true
      · rw [h.succ_of_met hk hm]
        exact Nat.mod_lt _ hk
      · rwa [h.succ_of_not_met hk hm]

/-- A counter that points at a set waits for it to be met. -/
theorem exists_met (h : Rotates k met phase) (hk : 0 < k) (hi : phase i = j) {m : Nat} (him : i ≤ m)
    (hm : met m j = true) : ∃ n, i ≤ n ∧ phase n = j ∧ met n j = true := by
  induction him using Nat.decreasingInduction with
  | self => exact ⟨m, Nat.le_refl m, hi, hm⟩
  | of_succ i _ ih =>
      by_cases hnow : met i j = true
      · exact ⟨i, Nat.le_refl i, hi, hnow⟩
      · subst hi
        obtain ⟨n, hn, hrest⟩ := ih (h.succ_of_not_met hk hnow)
        exact ⟨n, by omega, hrest⟩

theorem exists_zero (h : Rotates k met phase) (hstart : phase 0 = 0)
    (hmet : ∀ j < k, InfinitelyOften fun i => met i j = true) (hk : 0 < k) (i : Nat) :
    ∃ n, i ≤ n ∧ phase n = 0 := by
  have hcount : ∀ d i, k - phase i ≤ d → ∃ n, i ≤ n ∧ phase n = 0 := by
    intro d
    induction d with
    | zero =>
        intro i hd
        have := h.phase_lt hstart hk i
        omega
    | succ d ih =>
        intro i hd
        have hlt := h.phase_lt hstart hk i
        obtain ⟨m, him, hm⟩ := hmet _ hlt i
        obtain ⟨n, hin, hn, hnow⟩ := h.exists_met hk rfl him hm
        rw [← hn] at hnow
        have hnext : phase (n + 1) = (phase i + 1) % k := by rw [h.succ_of_met hk hnow, hn]
        by_cases hlast : phase i + 1 = k
        · exact ⟨n + 1, by omega, by rw [hnext, hlast, Nat.mod_self]⟩
        · rw [Nat.mod_eq_of_lt (by omega)] at hnext
          obtain ⟨l, hl, hzero⟩ := ih (n + 1) (by omega)
          exact ⟨l, by omega, hzero⟩
  exact hcount _ i (Nat.le_refl _)

/-- A counter does not get past a set that is not met any more. -/
theorem phase_le (h : Rotates k met phase) (hj : j < k) (hpos : 0 < j) (hi : phase i = 1)
    (hnever : ∀ n, i ≤ n → ¬ met n j = true) {n : Nat} (hin : i ≤ n) :
    1 ≤ phase n ∧ phase n ≤ j := by
  induction n, hin using Nat.le_induction with
  | base => omega
  | succ n hin ih =>
      by_cases hm : met n (phase n) = true
      · have hne : phase n ≠ j := by
          rintro rfl
          exact hnever n hin hm
        rw [h.succ_of_met (by omega) hm, Nat.mod_eq_of_lt (by omega)]
        omega
      · rwa [h.succ_of_not_met (by omega) hm]

/-- A counter that accepts again and again has met every set in between. -/
theorem met_of_accepts (h : Rotates k met phase)
    (hacc : InfinitelyOften fun i => k = 0 ∨ phase i = 0 ∧ met i 0 = true) (hj : j < k) :
    InfinitelyOften fun i => met i j = true := by
  intro n
  have hne : k ≠ 0 := by omega
  obtain ⟨i, hni, hi⟩ := hacc n
  obtain ⟨hzero, hmet⟩ := hi.resolve_left hne
  by_contra hnever
  simp only [not_exists, not_and] at hnever
  have hpos : 0 < j := by
    rcases Nat.eq_zero_or_pos j with rfl | hpos
    · exact absurd hmet (hnever i hni)
    · exact hpos
  rw [← hzero] at hmet
  have hone : phase (i + 1) = 1 := by
    rw [h.succ_of_met (by omega) hmet, hzero, Nat.mod_eq_of_lt (by omega)]
  obtain ⟨m, hm, hacc⟩ := hacc (i + 1)
  have hle := (h.phase_le hj hpos hone (fun m hm => hnever m (by omega)) hm).1
  have := (hacc.resolve_left hne).1
  omega

/-- Where every set is met again and again, a counter that starts at `0` accepts again and again. -/
theorem accepts_of_met (h : Rotates k met phase) (hstart : phase 0 = 0)
    (hmet : ∀ j < k, InfinitelyOften fun i => met i j = true) :
    InfinitelyOften fun i => k = 0 ∨ phase i = 0 ∧ met i 0 = true := by
  intro n
  rcases Nat.eq_zero_or_pos k with hzero | hk
  · exact ⟨n, Nat.le_refl n, .inl hzero⟩
  · obtain ⟨i, hni, hi⟩ := h.exists_zero hstart hmet hk n
    obtain ⟨m, him, hm⟩ := hmet 0 hk i
    obtain ⟨l, hil, hl, hnow⟩ := h.exists_met hk hi him hm
    exact ⟨l, by omega, .inr ⟨hl, hnow⟩⟩

end Rotates

namespace Place

open PropertyState

def Counts (f : Formula) (q : Nat → PropertyState) (phase : Nat → Nat) : Prop :=
  ∀ i, phase (i + 1) = phaseAfter f (q i) (phase i)

variable {f : Formula} {q : Nat → PropertyState} {phase : Nat → Nat}

theorem fair_iff : Fair f q ↔ ∀ j < f.promises.length, InfinitelyOften fun i =>
    meets f (q i) j = true := by
  have hmeets (j : Nat) (hj : j < f.promises.length) (i : Nat) :
      meets f (q i) j = PropertyAutomaton.keeps (q i) f.promises[j] := by
    simp [meets, List.getElem?_eq_getElem hj]
  constructor
  · intro h j hj
    exact (h _ (List.getElem_mem hj)).mono fun i hi => by rw [hmeets j hj, hi]
  · intro h p hp
    obtain ⟨j, hj, rfl⟩ := List.mem_iff_getElem.1 hp
    exact (h j hj).mono fun i hi => by rw [← hmeets j hj, hi]

namespace Counts

theorem rotates (h : Counts f q phase) : Rotates f.promises.length (fun i => meets f (q i)) phase :=
  h

theorem fair_of_accepts (h : Counts f q phase)
    (hacc : InfinitelyOften fun i => Accepts f (q i) (phase i)) : Fair f q :=
  fair_iff.2 fun _ hj => h.rotates.met_of_accepts hacc hj

theorem accepts_of_fair (h : Counts f q phase) (hstart : phase 0 = 0) (hfair : Fair f q) :
    InfinitelyOften fun i => Accepts f (q i) (phase i) :=
  h.rotates.accepts_of_met hstart (fair_iff.1 hfair)

end Counts

end Place

end TemporalCheck
