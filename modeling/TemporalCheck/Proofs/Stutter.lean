import TemporalCheck.Proofs.PropertyRun

namespace TemporalCheck

/-- `e j` is the position of a word that a slower one has come to at position `j`. -/
structure Stretch (e : Nat → Nat) : Prop where
  start : e 0 = 0
  step : ∀ j, e (j + 1) = e j ∨ e (j + 1) = e j + 1
  onto : ∀ n, ∃ j, e j = n

namespace Stretch

variable {e : Nat → Nat}

theorem mono (h : Stretch e) : Monotone e := by
  refine monotone_nat_of_le_succ fun j => ?_
  rcases h.step j with hj | hj <;> omega

theorem le_self (h : Stretch e) (j : Nat) : e j ≤ j := by
  induction j with
  | zero => rw [h.start]
  | succ j ih => rcases h.step j with hj | hj <;> omega

theorem exists_first (h : Stretch e) {j n : Nat} (hn : e j ≤ n) :
    ∃ k, j ≤ k ∧ e k = n ∧ ∀ m, j ≤ m → m < k → e m < n := by
  have hsome : ∃ k, j ≤ k ∧ e k = n := by
    obtain ⟨k, hk⟩ := h.onto n
    rcases Nat.le_total j k with hjk | hkj
    · exact ⟨k, hjk, hk⟩
    · have hle := h.mono hkj
      exact ⟨j, Nat.le_refl j, by omega⟩
  refine ⟨Nat.find hsome, (Nat.find_spec hsome).1, (Nat.find_spec hsome).2, fun m hjm hm => ?_⟩
  have hle := h.mono (Nat.le_of_lt hm)
  rw [(Nat.find_spec hsome).2] at hle
  exact lt_of_le_of_ne hle fun heq => Nat.find_min hsome hm ⟨hjm, heq⟩

theorem until_iff (h : Stretch e) {L R : Nat → Prop} {j : Nat} :
    (∃ k, j ≤ k ∧ R (e k) ∧ ∀ m, j ≤ m → m < k → L (e m)) ↔
      ∃ k, e j ≤ k ∧ R k ∧ ∀ m, e j ≤ m → m < k → L m := by
  constructor
  · rintro ⟨k, hjk, hr, hl⟩
    refine ⟨e k, h.mono hjk, hr, fun n hn hnk => ?_⟩
    obtain ⟨m, hjm, rfl, -⟩ := h.exists_first hn
    exact hl m hjm (Nat.lt_of_not_le fun hkm => Nat.not_le_of_lt hnk (h.mono hkm))
  · rintro ⟨n, hn, hr, hl⟩
    obtain ⟨k, hjk, rfl, hfirst⟩ := h.exists_first hn
    exact ⟨k, hjk, hr, fun m hjm hmk => hl (e m) (h.mono hjm) (hfirst m hjm hmk)⟩

theorem identity : Stretch fun j => j := ⟨rfl, fun _ => .inr rfl, fun n => ⟨n, rfl⟩⟩

theorem pause (k : Nat) : Stretch fun j => if j ≤ k then j else j - 1 := by
  refine ⟨by simp, fun j => ?_, fun n => ?_⟩
  · split <;> split <;> omega
  · by_cases hn : n ≤ k
    · exact ⟨n, by simp [hn]⟩
    · exact ⟨n + 1, by simp; omega⟩

end Stretch

namespace Formula

variable {w c : Word} {f g : Formula} {fs : List Formula} {visible : OrderedSet String}
  {e : Nat → Nat}

theorem mem_occurrencesAll {p : String} : p ∈ occurrencesAll fs ↔ ∃ f ∈ fs, p ∈ occurrences f := by
  induction fs with
  | nil => simp [occurrencesAll]
  | cons f fs ih => simp [occurrencesAll, ih]

def Over (names : OrderedSet String) (f : Formula) : Prop := ∀ p ∈ f.occurrences, p ∈ names

theorem over_conj : Over visible (.conj fs) ↔ ∀ f ∈ fs, Over visible f := by
  constructor
  · intro h f hf p hp
    exact h p (mem_occurrencesAll.2 ⟨f, hf, hp⟩)
  · intro h p hp
    obtain ⟨f, hf, hp⟩ := mem_occurrencesAll.1 hp
    exact h f hf p hp

theorem over_disj : Over visible (.disj fs) ↔ ∀ f ∈ fs, Over visible f := over_conj

theorem over_until {l r : Formula} : Over visible (.until l r) ↔ Over visible l ∧ Over visible r :=
  List.forall_mem_append

theorem anyHasNext_iff : anyHasNext fs = false ↔ ∀ f ∈ fs, f.hasNext = false := by
  induction fs with
  | nil => simp [anyHasNext]
  | cons f fs ih => simp [anyHasNext, ih]

def Plain (visible : OrderedSet String) (f : Formula) : Prop :=
  f.hasNext = false ∧ ∀ p ∈ f.occurrences, p ∈ visible

theorem plain_of_isStutterInvariant (h : f.isStutterInvariant = true) : Plain f.propositions f :=
  ⟨by simpa [isStutterInvariant] using h, fun _ hp => OrderedSet.mem_ofList.2 hp⟩

theorem plain_conj : Plain visible (.conj fs) ↔ ∀ f ∈ fs, Plain visible f := by
  constructor
  · rintro ⟨hnext, hover⟩ f hf
    exact ⟨anyHasNext_iff.1 hnext f hf, over_conj.1 hover f hf⟩
  · intro h
    exact ⟨anyHasNext_iff.2 fun f hf => (h f hf).1, over_conj.2 fun f hf => (h f hf).2⟩

theorem plain_disj : Plain visible (.disj fs) ↔ ∀ f ∈ fs, Plain visible f := plain_conj

theorem plain_until {l r : Formula} : Plain visible (.until l r) ↔ Plain visible l ∧
    Plain visible r := by
  constructor
  · rintro ⟨hnext, hover⟩
    simp only [hasNext, Bool.or_eq_false_iff] at hnext
    exact ⟨⟨hnext.1, (over_until.1 hover).1⟩, ⟨hnext.2, (over_until.1 hover).2⟩⟩
  · rintro ⟨hl, hr⟩
    exact ⟨by simp [hasNext, hl.1, hr.1], over_until.2 ⟨hl.2, hr.2⟩⟩

theorem plain_release {l r : Formula} : Plain visible (.release l r) ↔ Plain visible l ∧
    Plain visible r :=
  plain_until

theorem Plain.part (h : Plain visible f) (hg : g ∈ f.parts) : Plain visible g := by
  cases f with
  | conj fs => exact plain_conj.1 h g hg
  | disj fs => exact plain_disj.1 h g hg
  | «until» l r | release l r =>
      simp only [parts, List.mem_cons, List.not_mem_nil, or_false] at hg
      rcases hg with rfl | rfl
      · exact (plain_until.1 h).1
      · exact (plain_until.1 h).2
  | neg a =>
      obtain rfl := List.mem_singleton.1 hg
      exact h
  | next a => exact absurd h.1 (by simp [hasNext])
  | _ => cases hg

theorem Plain.signed (h : Plain visible f) (positive : Bool) :
    Plain visible (f.signed positive) := by
  have htop : Plain visible .top := ⟨rfl, by simp [occurrences]⟩
  have hbot : Plain visible .bot := ⟨rfl, by simp [occurrences]⟩
  refine signed_of_parts (fun _ _ => Plain.part) (fun p hp => ⟨hp, hp⟩) (fun f g hf => ?_)
    (fun _ => ?_) (fun _ => ?_)
    (fun l r hl hr => ⟨plain_until.2 ⟨hl, hr⟩, plain_release.2 ⟨hl, hr⟩⟩) htop hbot h positive
  · exact absurd hf.1 (by simp [hasNext])
  · exact and_induction htop fun fs => plain_conj
  · exact or_induction hbot fun fs => plain_disj

/-- What holds along a word from some position on holds along the rest of the word. -/
theorem holds_drop (n : Nat) (f : Formula) (i : Nat) : Holds (fun j => w (n + j)) f i ↔
    Holds w f (n + i) := by
  have huntil : ∀ (L R : Nat → Prop) (i : Nat),
      (∃ k, i ≤ k ∧ R (n + k) ∧ ∀ j, i ≤ j → j < k → L (n + j)) ↔
        ∃ k, n + i ≤ k ∧ R k ∧ ∀ j, n + i ≤ j → j < k → L j := by
    intro L R i
    constructor
    · rintro ⟨k, hk, hr, hl⟩
      refine ⟨n + k, by omega, hr, fun j h₁ h₂ => ?_⟩
      obtain ⟨m, rfl⟩ : ∃ m, j = n + m := ⟨j - n, by omega⟩
      exact hl m (by omega) (by omega)
    · rintro ⟨k, hk, hr, hl⟩
      obtain ⟨m, rfl⟩ : ∃ m, k = n + m := ⟨k - n, by omega⟩
      exact ⟨m, by omega, hr, fun j h₁ h₂ => hl (n + j) (by omega) (by omega)⟩
  induction f using structural generalizing i with
  | prop p => rfl
  | neg f ih => exact not_congr (ih i)
  | next f ih => exact ih (i + 1)
  | conj fs ih => simpa only [holds_conj] using forall₂_congr fun f hf => ih f hf i
  | disj fs ih =>
      simpa only [holds_disj] using exists_congr fun f => and_congr_right fun hf => ih f hf i
  | till l r ihl ihr =>
      simp only [Holds, ihl, ihr]
      exact huntil (Holds w l) (Holds w r) i
  | release l r ihl ihr =>
      rw [← not_iff_not, not_holds_release, not_holds_release]
      simp only [ihl, ihr]
      exact huntil (fun j => ¬ Holds w l j) (fun j => ¬ Holds w r j) i
  | top => rfl
  | bot => rfl

/-- A formula without `next` holds along the slower word where it holds along the other one. -/
theorem holds_stretch (he : Stretch e) (hf : Plain visible f)
    (hw : ∀ j, ∀ p ∈ visible, w j p ↔ c (e j) p) (j : Nat) : Holds w f j ↔ Holds c f (e j) := by
  induction f using structural generalizing j with
  | prop p => exact hw j p (hf.2 p (by simp [occurrences]))
  | neg f ih => exact not_congr (ih hf j)
  | next f ih => exact absurd hf.1 (by simp [hasNext])
  | conj fs ih =>
      simpa only [holds_conj] using forall₂_congr fun f hm => ih f hm (plain_conj.1 hf f hm) j
  | disj fs ih =>
      simpa only [holds_disj] using
        exists_congr fun f => and_congr_right fun hm => ih f hm (plain_disj.1 hf f hm) j
  | till l r ihl ihr =>
      obtain ⟨hl, hr⟩ := plain_until.1 hf
      simp only [Holds, ihl hl, ihr hr]
      exact he.until_iff
  | release l r ihl ihr =>
      obtain ⟨hl, hr⟩ := plain_release.1 hf
      rw [← not_iff_not, not_holds_release, not_holds_release]
      simp only [ihl hl, ihr hr]
      exact he.until_iff (L := fun j => ¬ Holds c l j) (R := fun j => ¬ Holds c r j)
  | top => rfl
  | bot => rfl

end Formula

namespace PropertyState

open Formula

variable {visible : OrderedSet String} {set : OrderedSet Formula} {q : PropertyState} {g : Formula}

/-- Formulas without `next` are asked for later only where they also follow now. -/
theorem plain_obligation (hset : ∀ g ∈ set, Plain visible g) (hq : q ∈ cover set)
    (hg : .next g ∈ q) : Plain visible g ∧ derivable (q.insert .top) g = true := by
  have hall : ∀ g ∈ q, Plain visible g ∨
      ∃ a, g = .next a ∧ Plain visible a ∧ derivable (q.insert .top) a = true := by
    refine closed_of_mem_cover hq (fun f hf hd hel branch hbranch a ha => ?_) fun g hg =>
      .inl (hset g hg)
    rcases hf with hf | ⟨b, rfl, -⟩
    · rcases mem_branch hel hbranch ha with hpart | rfl
      · exact .inl (hf.part hpart)
      · exact .inr ⟨f, rfl, hf, hd⟩
    · cases hel
  rcases hall _ hg with hplain | ⟨a, heq, ha⟩
  · exact absurd hplain.1 (by simp [hasNext])
  · obtain rfl := Formula.next.inj heq
    exact ha

end PropertyState

end TemporalCheck
