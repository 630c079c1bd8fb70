import TemporalCheck.Formula.Basic

namespace TemporalCheck

abbrev Word := Nat → String → Prop

namespace Formula

mutual

/-- A formula holds from position `i` on. The left side of `until` has to hold before the right
side does; the right side of `release` up to and with the position where the left side holds. -/
def Holds (w : Word) : Formula → Nat → Prop
  | prop p, i => w i p
  | neg f, i => ¬ Holds w f i
  | next f, i => Holds w f (i + 1)
  | conj fs, i => HoldsAll w fs i
  | disj fs, i => HoldsAny w fs i
  | .until l r, i => ∃ k, i ≤ k ∧ Holds w r k ∧ ∀ j, i ≤ j → j < k → Holds w l j
  | release l r, i => ∀ k, i ≤ k → Holds w r k ∨ ∃ j, i ≤ j ∧ j < k ∧ Holds w l j
  | top, _ => True
  | bot, _ => False

def HoldsAll (w : Word) : List Formula → Nat → Prop
  | [], _ => True
  | f :: fs, i => Holds w f i ∧ HoldsAll w fs i

def HoldsAny (w : Word) : List Formula → Nat → Prop
  | [], _ => False
  | f :: fs, i => Holds w f i ∨ HoldsAny w fs i

end

variable {w : Word} {fs : List Formula} {i : Nat}

theorem holdsAll_iff : HoldsAll w fs i ↔ ∀ f ∈ fs, Holds w f i := by
  induction fs with
  | nil => simp [HoldsAll]
  | cons f fs ih => simp [HoldsAll, ih]

theorem holdsAny_iff : HoldsAny w fs i ↔ ∃ f ∈ fs, Holds w f i := by
  induction fs with
  | nil => simp [HoldsAny]
  | cons f fs ih => simp [HoldsAny, ih]

def Satisfies (w : Word) (f : Formula) : Prop := Holds w f 0

end Formula

end TemporalCheck
