import Mathlib.Tactic.Common
import TemporalCheck.Formula.Normal
import TemporalCheck.Formula.Semantics

namespace TemporalCheck

namespace Formula

variable {w : Word} {f : Formula} {fs : List Formula} {i : Nat}

/-- Induction over formulas in which a member list gives the hypothesis for each member. -/
theorem structural {motive : Formula → Prop} (prop : ∀ p, motive (.prop p))
    (neg : ∀ f, motive f → motive (.neg f)) (next : ∀ f, motive f → motive (.next f))
    (conj : ∀ fs, (∀ f ∈ fs, motive f) → motive (.conj fs))
    (disj : ∀ fs, (∀ f ∈ fs, motive f) → motive (.disj fs))
    (till : ∀ l r, motive l → motive r → motive (.until l r))
    (release : ∀ l r, motive l → motive r → motive (.release l r))
    (top : motive .top) (bot : motive .bot) (f : Formula) : motive f := by
  refine @Formula.rec motive (fun fs => ∀ f ∈ fs, motive f)
    prop neg next conj disj till release top bot ?_ ?_ f
  · simp
  · intro f fs hf hfs
    simpa using ⟨hf, hfs⟩

def parts : Formula → List Formula
  | conj fs => fs
  | disj fs => fs
  | .until l r => [l, r]
  | release l r => [l, r]
  | neg f => [f]
  | next f => [f]
  | _ => []

theorem holds_conj : Holds w (.conj fs) i ↔ ∀ f ∈ fs, Holds w f i := by
  rw [Holds, holdsAll_iff]

theorem holds_disj : Holds w (.disj fs) i ↔ ∃ f ∈ fs, Holds w f i := by
  rw [Holds, holdsAny_iff]

theorem holds_conjuncts : (∀ g ∈ f.conjuncts, Holds w g i) ↔ Holds w f i := by
  cases f with
  | conj fs => rw [conjuncts, holds_conj]
  | _ => simp [conjuncts]

theorem holds_disjuncts : (∃ g ∈ f.disjuncts, Holds w g i) ↔ Holds w f i := by
  cases f with
  | disj fs => rw [disjuncts, holds_disj]
  | _ => simp [disjuncts]

theorem holds_and : Holds w (.and fs) i ↔ ∀ f ∈ fs, Holds w f i := by
  have hset : (∀ f ∈ OrderedSet.ofList (fs.flatMap conjuncts), Holds w f i) ↔
      ∀ f ∈ fs, Holds w f i := by
    simp only [OrderedSet.mem_ofList, List.mem_flatMap, forall_exists_index, and_imp]
    constructor
    · intro h f hf
      exact holds_conjuncts.1 fun g hg => h g f hf hg
    · intro h g f hf hg
      exact holds_conjuncts.2 (h f hf) g hg
  rw [← hset, Formula.and]
  change _ ↔ ∀ f ∈ (OrderedSet.ofList (fs.flatMap conjuncts)).toList, Holds w f i
  split
  · rename_i h
    simp [h, Holds]
  · rename_i h
    simp [h]
  · exact holds_conj

theorem holds_or : Holds w (.or fs) i ↔ ∃ f ∈ fs, Holds w f i := by
  have hset : (∃ f ∈ OrderedSet.ofList (fs.flatMap disjuncts), Holds w f i) ↔
      ∃ f ∈ fs, Holds w f i := by
    simp only [OrderedSet.mem_ofList, List.mem_flatMap]
    constructor
    · rintro ⟨g, ⟨f, hf, hg⟩, hh⟩
      exact ⟨f, hf, holds_disjuncts.1 ⟨g, hg, hh⟩⟩
    · rintro ⟨f, hf, hh⟩
      obtain ⟨g, hg, hh⟩ := holds_disjuncts.2 hh
      exact ⟨g, ⟨f, hf, hg⟩, hh⟩
  rw [← hset, Formula.or]
  change _ ↔ ∃ f ∈ (OrderedSet.ofList (fs.flatMap disjuncts)).toList, Holds w f i
  split
  · rename_i h
    simp [h, Holds]
  · rename_i h
    simp [h]
  · exact holds_disj

theorem signedAll_eq_map (positive : Bool) (fs : List Formula) :
    signedAll positive fs = fs.map (signed positive) := by
  induction fs with
  | nil => rfl
  | cons f fs ih => rw [signedAll, ih, List.map_cons]

theorem not_holds_until {l r : Formula} : ¬ Holds w (.until l r) i ↔
    ∀ k, i ≤ k → ¬ Holds w r k ∨ ∃ j, i ≤ j ∧ j < k ∧ ¬ Holds w l j := by
  simp only [Holds]
  push Not
  exact forall_congr' fun k => imp_congr_right fun _ => imp_iff_not_or

theorem not_holds_release {l r : Formula} : ¬ Holds w (.release l r) i ↔
    ∃ k, i ≤ k ∧ ¬ Holds w r k ∧ ∀ j, i ≤ j → j < k → ¬ Holds w l j := by
  simp only [Holds]
  push Not
  rfl

theorem holds_signed (positive : Bool) (f : Formula) (i : Nat) :
    Holds w (f.signed positive) i ↔ if positive then Holds w f i else ¬ Holds w f i := by
  induction f using structural generalizing positive i with
  | prop p => cases positive <;> simp [signed, Holds]
  | neg f ih => cases positive <;> simp [signed, Holds, ih]
  | next f ih => simp [signed, Holds, ih]
  | conj fs ih =>
      cases positive
      · rw [signed, if_neg (by decide), signedAll_eq_map, holds_or]
        simpa [holds_conj] using exists_congr fun f => and_congr_right fun hf => ih f hf false i
      · rw [signed, if_pos rfl, signedAll_eq_map, holds_and]
        simpa [holds_conj] using forall_congr' fun f => imp_congr_right fun hf => ih f hf true i
  | disj fs ih =>
      cases positive
      · rw [signed, if_neg (by decide), signedAll_eq_map, holds_and]
        simpa [holds_disj] using forall_congr' fun f => imp_congr_right fun hf => ih f hf false i
      · rw [signed, if_pos rfl, signedAll_eq_map, holds_or]
        simpa [holds_disj] using exists_congr fun f => and_congr_right fun hf => ih f hf true i
  | till l r ihl ihr =>
      cases positive
      · rw [signed, if_neg (by decide), if_neg (by decide), not_holds_until]
        simp [Holds, ihl, ihr]
      · simp [signed, Holds, ihl, ihr]
  | release l r ihl ihr =>
      cases positive
      · rw [signed, if_neg (by decide), if_neg (by decide), not_holds_release]
        simp [Holds, ihl, ihr]
      · simp [signed, Holds, ihl, ihr]
  | top => cases positive <;> simp [signed, Holds]
  | bot => cases positive <;> simp [signed, Holds]

theorem holds_nnf : Holds w f.nnf i ↔ Holds w f i := by
  rw [nnf, holds_signed, if_pos rfl]

theorem holds_negate : Holds w f.negate i ↔ ¬ Holds w f i := by
  rw [negate, holds_signed, if_neg (by decide)]

/-- The words that satisfy the normal form of a formula are those that satisfy the formula, and all
other words satisfy the normal form of its negation. -/
theorem satisfies_nnf_and_negate (f : Formula) (w : Word) :
    (Satisfies w f.nnf ↔ Satisfies w f) ∧ (Satisfies w f.negate ↔ ¬ Satisfies w f) :=
  ⟨holds_nnf, holds_negate⟩

-- member lists with no and with one member
example : (Formula.conj [.disj [], .conj [.prop "p"]]).negate = .disj [.neg (.prop "p"), .top] := by
  decide +kernel

/-- What holds of a conjunction exactly if it holds of its members carries over to the flattened
conjunction. -/
theorem and_induction {P : Formula → Prop} (htop : P .top)
    (hconj : ∀ fs, P (.conj fs) ↔ ∀ f ∈ fs, P f) (h : ∀ f ∈ fs, P f) : P (.and fs) := by
  have hset : ∀ f ∈ (OrderedSet.ofList (fs.flatMap conjuncts)).toList, P f := by
    intro g hg
    obtain ⟨f, hf, hg⟩ := List.mem_flatMap.1 (OrderedSet.mem_ofList.1 hg)
    have hp := h f hf
    cases f with
    | conj gs => exact (hconj gs).1 hp g hg
    | _ => simp_all [conjuncts]
  rw [Formula.and]
  split
  · exact htop
  · rename_i g hg
    exact hset g (by simp [hg])
  · exact (hconj _).2 hset

theorem or_induction {P : Formula → Prop} (hbot : P .bot)
    (hdisj : ∀ fs, P (.disj fs) ↔ ∀ f ∈ fs, P f) (h : ∀ f ∈ fs, P f) : P (.or fs) := by
  have hset : ∀ f ∈ (OrderedSet.ofList (fs.flatMap disjuncts)).toList, P f := by
    intro g hg
    obtain ⟨f, hf, hg⟩ := List.mem_flatMap.1 (OrderedSet.mem_ofList.1 hg)
    have hp := h f hf
    cases f with
    | disj gs => exact (hdisj gs).1 hp g hg
    | _ => simp_all [disjuncts]
  rw [Formula.or]
  split
  · exact hbot
  · rename_i g hg
    exact hset g (by simp [hg])
  · exact (hdisj _).2 hset

theorem allNnf_iff : allNnf fs = true ↔ ∀ f ∈ fs, f.isNnf = true := by
  induction fs with
  | nil => simp [allNnf]
  | cons f fs ih => simp [allNnf, ih]

/-- If a formula and all that stands below it are as `H` says, its normal form has every property
that holds of literals over such formulas and is kept by what builds normal forms. -/
theorem signed_of_parts {H P : Formula → Prop} (hparts : ∀ f g, H f → g ∈ f.parts → H g)
    (hprop : ∀ p, H (.prop p) → P (.prop p) ∧ P (.neg (.prop p)))
    (hnext : ∀ f g, H (.next f) → P g → P (.next g)) (hand : ∀ fs, (∀ f ∈ fs, P f) → P (.and fs))
    (hor : ∀ fs, (∀ f ∈ fs, P f) → P (.or fs))
    (htemporal : ∀ l r, P l → P r → P (.until l r) ∧ P (.release l r)) (htop : P .top)
    (hbot : P .bot) (h : H f) (positive : Bool) : P (f.signed positive) := by
  induction f using structural generalizing positive with
  | prop p =>
      cases positive
      · exact (hprop p h).2
      · exact (hprop p h).1
  | neg f ih =>
      apply ih
      exact hparts _ f h (by simp [parts])
  | next f ih =>
      apply hnext f _ h
      apply ih
      exact hparts _ f h (by simp [parts])
  | conj fs ih =>
      have hall : ∀ f ∈ fs.map (signed positive), P f := by
        simpa using fun f hf => ih f hf (hparts _ f h hf) positive
      rw [signed, signedAll_eq_map]
      split
      · exact hand _ hall
      · exact hor _ hall
  | disj fs ih =>
      have hall : ∀ f ∈ fs.map (signed positive), P f := by
        simpa using fun f hf => ih f hf (hparts _ f h hf) positive
      rw [signed, signedAll_eq_map]
      split
      · exact hor _ hall
      · exact hand _ hall
  | till l r ihl ihr =>
      obtain ⟨huntil, hrelease⟩ := htemporal _ _ (ihl (hparts _ l h (by simp [parts])) positive)
        (ihr (hparts _ r h (by simp [parts])) positive)
      rw [signed]
      split
      · exact huntil
      · exact hrelease
  | release l r ihl ihr =>
      obtain ⟨huntil, hrelease⟩ := htemporal _ _ (ihl (hparts _ l h (by simp [parts])) positive)
        (ihr (hparts _ r h (by simp [parts])) positive)
      rw [signed]
      split
      · exact hrelease
      · exact huntil
  | top =>
      cases positive
      · exact hbot
      · exact htop
  | bot =>
      cases positive
      · exact htop
      · exact hbot

theorem isNnf_signed (positive : Bool) (f : Formula) : (f.signed positive).isNnf = true := by
  refine signed_of_parts (H := fun _ => True) (P := fun f => f.isNnf = true)
    (fun _ _ _ _ => trivial) (fun _ _ => ⟨rfl, rfl⟩) (fun _ _ _ hg => hg) (fun _ => ?_)
    (fun _ => ?_) (fun l r hl hr => ?_) rfl rfl trivial positive
  · exact and_induction rfl fun fs => by rw [isNnf, allNnf_iff]
  · exact or_induction rfl fun fs => by rw [isNnf, allNnf_iff]
  · simp [isNnf, hl, hr]

end Formula

end TemporalCheck
