import TemporalCheck.Proofs.Stutter

namespace TemporalCheck

namespace Formula

variable {w : Word} {f g l r : Formula} {fs : List Formula} {visible : OrderedSet String}
  {i k n n' : Nat}

/-- The first `n` positions of a word already rule the formula out at position `i`. -/
def RuledOut (visible : OrderedSet String) (w : Word) (i : Nat) (f : Formula) (n : Nat) : Prop :=
  ∀ w' : Word, (∀ j, j < n → ∀ p ∈ visible, w j p ↔ w' j p) → ¬ Holds w' f i

theorem RuledOut.mono (h : RuledOut visible w i f n) (hn : n ≤ n') : RuledOut visible w i f n' :=
  fun w' hw => h w' fun j hj => hw j (Nat.lt_of_lt_of_le hj hn)

theorem exists_common {α : Type} {P : α → Nat → Prop} (hmono : ∀ a n n', P a n → n ≤ n' → P a n')
    {l : List α} (h : ∀ a ∈ l, ∃ n, P a n) : ∃ n, ∀ a ∈ l, P a n := by
  induction l with
  | nil => exact ⟨0, by simp⟩
  | cons a l ih =>
      rw [List.forall_mem_cons] at h
      obtain ⟨⟨n, hn⟩, hl⟩ := h
      obtain ⟨n', hn'⟩ := ih hl
      refine ⟨max n n', List.forall_mem_cons.2 ⟨hmono _ _ _ hn (Nat.le_max_left _ _),
        fun b hb => ?_⟩⟩
      exact hmono _ _ _ (hn' b hb) (Nat.le_max_right _ _)

theorem RuledOut.conj (hg : g ∈ fs) (h : RuledOut visible w i g n) :
    RuledOut visible w i (.conj fs) n :=
  fun w' hw hholds => h w' hw (holds_conj.1 hholds g hg)

theorem exists_ruledOut_disj (h : ∀ g ∈ fs, ∃ n, RuledOut visible w i g n) :
    ∃ n, RuledOut visible w i (.disj fs) n := by
  obtain ⟨n, hn⟩ := exists_common (P := RuledOut visible w i) (fun _ _ _ => RuledOut.mono) h
  refine ⟨n, fun w' hw hholds => ?_⟩
  obtain ⟨g, hg, hholds⟩ := holds_disj.1 hholds
  exact hn g hg w' hw hholds

theorem exists_ruledOut_release (hk : i ≤ k) (hr : ∃ n, RuledOut visible w k r n)
    (hl : ∀ j, i ≤ j → j < k → ∃ n, RuledOut visible w j l n) :
    ∃ n, RuledOut visible w i (.release l r) n := by
  have hbefore : ∀ j, j ∈ List.range' i (k - i) ↔ i ≤ j ∧ j < k := by
    intro j
    rw [List.mem_range'_1]
    omega
  obtain ⟨n, hn⟩ := hr
  obtain ⟨n', hn'⟩ := exists_common (P := fun j n => RuledOut visible w j l n)
    (l := List.range' i (k - i)) (fun _ _ _ => RuledOut.mono) fun j hj =>
      hl j ((hbefore j).1 hj).1 ((hbefore j).1 hj).2
  refine ⟨max n n', fun w' hw => not_holds_release.2 ⟨k, hk, ?_, fun j hij hjk => ?_⟩⟩
  · exact hn.mono (Nat.le_max_left n n') w' hw
  · exact (hn' j ((hbefore j).2 ⟨hij, hjk⟩)).mono (Nat.le_max_right n n') w' hw

theorem untilPartsAll_eq_nil : untilPartsAll fs = [] ↔ ∀ f ∈ fs, f.untilParts = [] := by
  induction fs with
  | nil => simp [untilPartsAll]
  | cons f fs ih => simp [untilPartsAll, ih]

/-- A formula without `until` fails after finitely many positions. -/
theorem exists_ruledOut (hf : Over visible f) (hnnf : f.isNnf = true) (hsafe : f.untilParts = [])
    (h : ¬ Holds w f i) : ∃ n, RuledOut visible w i f n := by
  induction f using structural generalizing i with
  | prop p =>
      refine ⟨i + 1, fun w' hw => ?_⟩
      exact (not_congr (hw i (Nat.lt_succ_self i) p (hf p (by simp [occurrences])))).1 h
  | neg f ih =>
      cases f <;> simp only [isNnf, isLiteral, Bool.false_eq_true] at hnnf
      rename_i p
      refine ⟨i + 1, fun w' hw => ?_⟩
      exact (not_congr (not_congr (hw i (Nat.lt_succ_self i) p (hf p (by simp [occurrences]))))).1 h
  | next f ih => exact ih hf hnnf hsafe h
  | conj fs ih =>
      rw [isNnf, allNnf_iff] at hnnf
      rw [untilParts, untilPartsAll_eq_nil] at hsafe
      rw [holds_conj] at h
      push Not at h
      obtain ⟨g, hg, hfails⟩ := h
      obtain ⟨n, hn⟩ := ih g hg (over_conj.1 hf g hg) (hnnf g hg) (hsafe g hg) hfails
      exact ⟨n, hn.conj hg⟩
  | disj fs ih =>
      rw [isNnf, allNnf_iff] at hnnf
      rw [untilParts, untilPartsAll_eq_nil] at hsafe
      rw [holds_disj] at h
      push Not at h
      exact exists_ruledOut_disj fun g hg => ih g hg (over_disj.1 hf g hg) (hnnf g hg)
        (hsafe g hg) (h g hg)
  | till l r => simp [untilParts] at hsafe
  | release l r ihl ihr =>
      obtain ⟨hl, hr⟩ := over_until.1 hf
      simp only [isNnf, Bool.and_eq_true] at hnnf
      simp only [untilParts, List.append_eq_nil_iff] at hsafe
      obtain ⟨k, hk, hfails, hbefore⟩ := not_holds_release.1 h
      exact exists_ruledOut_release hk (ihr hr hnnf.2 hsafe.2 hfails) fun j hij hjk =>
        ihl hl hnnf.1 hsafe.1 (hbefore j hij hjk)
  | top => exact absurd trivial h
  | bot => exact ⟨0, fun w' _ => id⟩

theorem untilParts_nnf_of_isSyntacticSafety (h : f.isSyntacticSafety = true) :
    f.nnf.untilParts = [] := by
  have hempty : f.nnf.untils.toList = [] := List.isEmpty_iff.1 h
  refine List.eq_nil_iff_forall_not_mem.2 fun g hg => ?_
  have hmem : g ∈ f.nnf.untils.toList := OrderedSet.mem_ofList.2 hg
  rw [hempty] at hmem
  cases hmem

/-- A word that violates a syntactic safety property does so by its first positions, however it
goes on. -/
theorem exists_violating_beginning (f : Formula) (hsafety : f.isSyntacticSafety = true) (w : Word)
    (hw : ¬ Satisfies w f) : ∃ n, ∀ v : Word, (∀ i, i < n → v i = w i) → ¬ Satisfies v f := by
  have hover : Over f.nnf.propositions f.nnf := fun p hp => OrderedSet.mem_ofList.2 hp
  obtain ⟨n, hn⟩ := exists_ruledOut hover (isNnf_signed true f)
    (untilParts_nnf_of_isSyntacticSafety hsafety) (mt holds_nnf.1 hw)
  refine ⟨n, fun v hv hholds => hn v (fun j hj p _ => ?_) (holds_nnf.2 hholds)⟩
  rw [hv j hj]

/-- `p` is never true twice in a row before `q` has been: `q R !(p & X p)`, with its negations
outside. -/
def unrepeated : Formula :=
  .neg (.until (.neg (.prop "q")) (.conj [.prop "p", .next (.prop "p")]))

def late : Word := fun i name => 2 ≤ i ∧ name = "p"

theorem late_violates_unrepeated : unrepeated.isSyntacticSafety = true ∧
    ¬ Satisfies late unrepeated ∧
    ∃ n, ∀ v : Word, (∀ i, i < n → v i = late i) → ¬ Satisfies v unrepeated := by
  have hsafety : unrepeated.isSyntacticSafety = true := by decide +kernel
  have hviolated : ¬ Satisfies late unrepeated := by
    simp only [Satisfies, unrepeated, Holds, HoldsAll, not_not]
    refine ⟨2, by omega, ⟨⟨by omega, rfl⟩, ⟨by omega, rfl⟩, trivial⟩, fun j _ _ hq => ?_⟩
    exact absurd hq.2 (by decide)
  exact ⟨hsafety, hviolated, exists_violating_beginning unrepeated hsafety late hviolated⟩

end Formula

end TemporalCheck
