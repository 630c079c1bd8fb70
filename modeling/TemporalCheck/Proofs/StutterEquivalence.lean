import TemporalCheck.Proofs.Stutter

namespace TemporalCheck

/-- Where letter `n` begins in a word that writes each letter `m` before it `times m` times. -/
def blockStart (times : Nat → Nat) : Nat → Nat
  | 0 => 0
  | n + 1 => blockStart times n + times n

def blockAt (times : Nat → Nat) : Nat → Nat
  | 0 => 0
  | j + 1 =>
      if j + 1 = blockStart times (blockAt times j + 1) then blockAt times j + 1
      else blockAt times j

/-- `w` is made from `c` by writing each letter `n` `times n` times in a row. -/
structure Prolongs (c : Word) (times : Nat → Nat) (w : Word) : Prop where
  pos : ∀ n, 0 < times n
  letter : ∀ n k, k < times n → w (blockStart times n + k) = c n

/-- Both words are made from a common one by repeating its letters. -/
def StutterEquivalent (w w' : Word) : Prop :=
  ∃ (c : Word) (times times' : Nat → Nat), Prolongs c times w ∧ Prolongs c times' w'

variable {times : Nat → Nat} {c w w' : Word} {f : Formula}

theorem strictMono_blockStart (hpos : ∀ n, 0 < times n) : StrictMono (blockStart times) :=
  strictMono_nat_of_lt_succ fun n => Nat.lt_add_of_pos_right (hpos n)

theorem blockAt_bounds (hpos : ∀ n, 0 < times n) (j : Nat) :
    blockStart times (blockAt times j) ≤ j ∧ j < blockStart times (blockAt times j + 1) := by
  induction j with
  | zero => exact ⟨Nat.le_refl 0, strictMono_blockStart hpos Nat.zero_lt_one⟩
  | succ j ih =>
      rw [blockAt]
      split
      · rename_i hend
        have hnext := strictMono_blockStart hpos (Nat.lt_add_one (blockAt times j + 1))
        exact ⟨Nat.le_of_eq hend.symm, Nat.lt_of_le_of_lt (Nat.le_of_eq hend) hnext⟩
      · omega

theorem stretch_blockAt (hpos : ∀ n, 0 < times n) : Stretch (blockAt times) := by
  refine ⟨rfl, fun j => ?_, fun n => ⟨blockStart times n, ?_⟩⟩
  · rw [blockAt]
    split
    · exact .inr rfl
    · exact .inl rfl
  · obtain ⟨hle, hlt⟩ := blockAt_bounds hpos (blockStart times n)
    have hle' := (strictMono_blockStart hpos).le_iff_le.1 hle
    have hlt' := (strictMono_blockStart hpos).lt_iff_lt.1 hlt
    omega

namespace Prolongs

theorem eq_blockAt (h : Prolongs c times w) (j : Nat) : w j = c (blockAt times j) := by
  obtain ⟨hle, hlt⟩ := blockAt_bounds h.pos j
  obtain ⟨k, hk⟩ := Nat.exists_eq_add_of_le hle
  rw [blockStart] at hlt
  have hletter := h.letter (blockAt times j) k (by omega)
  rwa [← hk] at hletter

theorem satisfies_iff (h : Prolongs c times w) (hf : f.isStutterInvariant = true) :
    Formula.Satisfies w f ↔ Formula.Satisfies c f := by
  refine Formula.holds_stretch (stretch_blockAt h.pos) (Formula.plain_of_isStutterInvariant hf)
    (fun j p _ => ?_) 0
  rw [h.eq_blockAt j]

end Prolongs

/-- A formula without `next` does not tell two stutter equivalent words apart. -/
theorem satisfies_iff_of_stutterEquivalent (f : Formula) (hf : f.isStutterInvariant = true)
    (w w' : Word) (h : StutterEquivalent w w') :
    Formula.Satisfies w f ↔ Formula.Satisfies w' f := by
  obtain ⟨c, times, times', hw, hw'⟩ := h
  exact (hw.satisfies_iff hf).trans (hw'.satisfies_iff hf).symm

theorem blockStart_const (k n : Nat) : blockStart (fun _ => k) n = k * n := by
  induction n with
  | zero => rfl
  | succ n ih => rw [blockStart, ih, Nat.mul_succ]

theorem prolongs_div (c : Word) {k : Nat} (hk : 0 < k) :
    Prolongs c (fun _ => k) fun j => c (j / k) := by
  refine ⟨fun _ => hk, fun n i hi => ?_⟩
  rw [blockStart_const, Nat.mul_add_div hk, Nat.div_eq_of_lt hi, Nat.add_zero]

def blinking : Word := fun n name => n % 2 = 0 ∧ name = "p"

def switching : Formula :=
  .always (.implies (.prop "p") (.until (.prop "p") (.neg (.prop "p"))))

theorem blinking_switching : switching.isStutterInvariant = true ∧
    StutterEquivalent (fun j => blinking (j / 2)) (fun j => blinking (j / 3)) ∧
    (Formula.Satisfies (fun j => blinking (j / 2)) switching ↔
      Formula.Satisfies (fun j => blinking (j / 3)) switching) := by
  have hinvariant : switching.isStutterInvariant = true := by decide +kernel
  have hequivalent : StutterEquivalent (fun j => blinking (j / 2)) (fun j => blinking (j / 3)) :=
    ⟨blinking, _, _, prolongs_div blinking (by decide), prolongs_div blinking (by decide)⟩
  exact ⟨hinvariant, hequivalent,
    satisfies_iff_of_stutterEquivalent switching hinvariant _ _ hequivalent⟩

end TemporalCheck
