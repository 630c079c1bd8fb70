import TemporalCheck.Proofs.NormalForm
import TemporalCheck.Property.Cover

namespace TemporalCheck

namespace Formula

variable {w : Word} {s t : OrderedSet Formula} {f : Formula} {fs : List Formula} {i : Nat}

theorem derivableAll_iff : derivableAll s fs = true ↔ ∀ f ∈ fs, derivable s f = true := by
  induction fs with
  | nil => simp [derivableAll]
  | cons f fs ih => simp [derivableAll, ih]

theorem derivableAny_iff : derivableAny s fs = true ↔ ∃ f ∈ fs, derivable s f = true := by
  induction fs with
  | nil => simp [derivableAny]
  | cons f fs ih => simp [derivableAny, ih]

theorem derivable_conj : derivable s (.conj fs) = true ↔ ∀ f ∈ fs, derivable s f = true := by
  rw [derivable, derivableAll_iff]

theorem derivable_disj : derivable s (.disj fs) = true ↔ ∃ f ∈ fs, derivable s f = true := by
  rw [derivable, derivableAny_iff]

theorem derivable_until {l r : Formula} : derivable s (.until l r) = true ↔
    derivable s r = true ∨ derivable s l = true ∧ .next (.until l r) ∈ s := by
  simp [derivable]

theorem derivable_release {l r : Formula} : derivable s (.release l r) = true ↔
    derivable s r = true ∧ (derivable s l = true ∨ .next (.release l r) ∈ s) := by
  simp [derivable]

theorem derivable_elementary (h : f.isElementary = true) : derivable s f = true ↔ f ∈ s := by
  cases f <;> simp_all [derivable, isElementary]

theorem mem_branch {branch : OrderedSet Formula} {g : Formula} (hf : f.isElementary = false)
    (hbranch : branch ∈ f.branches) (hg : g ∈ branch) : g ∈ f.parts ∨ g = .next f := by
  cases f with
  | conj fs =>
      simp only [branches, List.mem_singleton] at hbranch
      subst hbranch
      exact .inl (OrderedSet.mem_ofList.1 hg)
  | disj fs =>
      simp only [branches, List.mem_map] at hbranch
      obtain ⟨f, hm, rfl⟩ := hbranch
      simp only [OrderedSet.mem_ofList, List.mem_singleton] at hg
      subst hg
      exact .inl hm
  | «until» l r | release l r =>
      simp only [branches, List.mem_cons, List.not_mem_nil, or_false] at hbranch
      rcases hbranch with rfl | rfl <;>
        simp only [OrderedSet.mem_ofList, List.mem_cons, List.not_mem_nil, or_false] at hg <;>
        simp only [parts, List.mem_cons, List.not_mem_nil, or_false]
      all_goals tauto
  | _ => simp [isElementary] at hf

/-- A compound formula is derivable if all members of one of its branches are. -/
theorem derivable_iff_branch (hf : f.isElementary = false) :
    derivable s f = true ↔ ∃ branch ∈ f.branches, ∀ g ∈ branch, derivable s g = true := by
  cases f with
  | conj fs => simp [branches, derivable_conj]
  | disj fs => simp [branches, derivable_disj]
  | «until» l r =>
      have hnext : derivable s (.next (.until l r)) = true ↔ .next (.until l r) ∈ s :=
        derivable_elementary rfl
      simp [branches, derivable_until, hnext]
  | release l r =>
      have hnext : derivable s (.next (.release l r)) = true ↔ .next (.release l r) ∈ s :=
        derivable_elementary rfl
      simp only [branches, derivable_release, List.mem_cons, List.not_mem_nil, or_false,
        exists_eq_or_imp, exists_eq_left, OrderedSet.mem_ofList, forall_eq_or_imp, forall_eq, hnext]
      tauto
  | _ => simp [isElementary] at hf

/-- Only the elementary members of a set count for what is derivable from it. -/
theorem derivable_trans (h : ∀ g ∈ s, g.isElementary = true → g ∈ t) (hf : derivable s f = true) :
    derivable t f = true := by
  induction f using structural with
  | conj fs ih => exact derivable_conj.2 fun f hm => ih f hm (derivable_conj.1 hf f hm)
  | disj fs ih =>
      obtain ⟨f, hm, hd⟩ := derivable_disj.1 hf
      exact derivable_disj.2 ⟨f, hm, ih f hm hd⟩
  | till l r ihl ihr =>
      rcases derivable_until.1 hf with hr | ⟨hl, hn⟩
      · exact derivable_until.2 (.inl (ihr hr))
      · exact derivable_until.2 (.inr ⟨ihl hl, h _ hn rfl⟩)
  | release l r ihl ihr =>
      obtain ⟨hr, hl | hn⟩ := derivable_release.1 hf
      · exact derivable_release.2 ⟨ihr hr, .inl (ihl hl)⟩
      · exact derivable_release.2 ⟨ihr hr, .inr (h _ hn rfl)⟩
  | prop | neg | next | top | bot =>
      exact (derivable_elementary rfl).2 (h _ ((derivable_elementary rfl).1 hf) rfl)

theorem holds_until_iff {l r : Formula} : Holds w (.until l r) i ↔
    Holds w r i ∨ Holds w l i ∧ Holds w (.until l r) (i + 1) := by
  simp only [Holds]
  constructor
  · rintro ⟨k, hik, hr, hl⟩
    rcases Nat.eq_or_lt_of_le hik with rfl | hlt
    · exact .inl hr
    · exact .inr ⟨hl i (Nat.le_refl i) hlt, k, hlt, hr, fun j hj => hl j (by omega)⟩
  · rintro (hr | ⟨hl, k, hik, hr, hj⟩)
    · exact ⟨i, Nat.le_refl i, hr, fun j h₁ h₂ => by omega⟩
    · refine ⟨k, by omega, hr, fun j h₁ h₂ => ?_⟩
      rcases Nat.eq_or_lt_of_le h₁ with rfl | hlt
      · exact hl
      · exact hj j hlt h₂

theorem holds_release_iff {l r : Formula} : Holds w (.release l r) i ↔
    Holds w r i ∧ (Holds w l i ∨ Holds w (.release l r) (i + 1)) := by
  simp only [Holds]
  constructor
  · intro h
    refine ⟨?_, ?_⟩
    · rcases h i (Nat.le_refl i) with hr | ⟨j, h₁, h₂, -⟩
      · exact hr
      · omega
    · by_cases hl : Holds w l i
      · exact .inl hl
      · refine .inr fun k hk => (h k (by omega)).imp_right ?_
        rintro ⟨j, h₁, h₂, hj⟩
        rcases Nat.eq_or_lt_of_le h₁ with rfl | hlt
        · exact absurd hj hl
        · exact ⟨j, hlt, h₂, hj⟩
  · rintro ⟨hr, hl | h⟩ k hk
    · rcases Nat.eq_or_lt_of_le hk with rfl | hlt
      · exact .inl hr
      · exact .inr ⟨i, Nat.le_refl i, hlt, hl⟩
    · rcases Nat.eq_or_lt_of_le hk with rfl | hlt
      · exact .inl hr
      · refine (h k hlt).imp_right ?_
        rintro ⟨j, h₁, h₂, hj⟩
        exact ⟨j, by omega, h₂, hj⟩

theorem holds_of_derivable (h : ∀ g ∈ s, Holds w g i) (hf : derivable s f = true) :
    Holds w f i := by
  induction f using structural with
  | conj fs ih => exact holds_conj.2 fun f hm => ih f hm (derivable_conj.1 hf f hm)
  | disj fs ih =>
      obtain ⟨f, hm, hd⟩ := derivable_disj.1 hf
      exact holds_disj.2 ⟨f, hm, ih f hm hd⟩
  | till l r ihl ihr =>
      rcases derivable_until.1 hf with hr | ⟨hl, hn⟩
      · exact holds_until_iff.2 (.inl (ihr hr))
      · exact holds_until_iff.2 (.inr ⟨ihl hl, h _ hn⟩)
  | release l r ihl ihr =>
      obtain ⟨hr, hl | hn⟩ := derivable_release.1 hf
      · exact holds_release_iff.2 ⟨ihr hr, .inl (ihl hl)⟩
      · exact holds_release_iff.2 ⟨ihr hr, .inr (h _ hn)⟩
  | prop | neg | next | top | bot => exact h _ ((derivable_elementary rfl).1 hf)

/-- A word that satisfies a compound formula satisfies one of its branches; of `l U r` the first
one if it satisfies `r`. -/
theorem exists_branch (hf : f.isElementary = false) (h : Holds w f i) :
    ∃ branch ∈ f.branches, (∀ g ∈ branch, Holds w g i) ∧
      ∀ l r, f = .until l r → Holds w r i → r ∈ branch := by
  cases f with
  | conj fs =>
      exact ⟨_, List.mem_singleton.2 rfl, fun g hg => holds_conj.1 h g (OrderedSet.mem_ofList.1 hg),
        by simp⟩
  | disj fs =>
      obtain ⟨f, hm, hh⟩ := holds_disj.1 h
      exact ⟨_, List.mem_map.2 ⟨f, hm, rfl⟩, by simpa using hh, by simp⟩
  | «until» l r =>
      by_cases hr : Holds w r i
      · exact ⟨.ofList [r], by simp [branches], by simpa using hr, by simp⟩
      · obtain hr' | ⟨hl, hn⟩ := holds_until_iff.1 h
        · exact absurd hr' hr
        · refine ⟨.ofList [l, .next (.until l r)], by simp [branches], ?_, ?_⟩
          · simpa using ⟨hl, hn⟩
          · rintro _ _ ⟨⟩ hr'
            exact absurd hr' hr
  | release l r =>
      obtain ⟨hr, hl | hn⟩ := holds_release_iff.1 h
      · exact ⟨.ofList [l, r], by simp [branches], by simpa using ⟨hl, hr⟩, by simp⟩
      · exact ⟨.ofList [r, .next (.release l r)], by simp [branches], by simpa using ⟨hr, hn⟩,
          by simp⟩
  | _ => simp [isElementary] at hf

section Weight

theorem weightOfAll_place_le (f : Formula) (fs : List Formula) :
    weightOfAll (OrderedSet.place f fs) ≤ weight f + weightOfAll fs := by
  induction fs with
  | nil => simp [OrderedSet.place, weightOfAll]
  | cons g gs ih =>
      rw [OrderedSet.place]
      split <;> simp only [weightOfAll] <;> omega

theorem weightOfAll_insertAll_le (s : OrderedSet Formula) (fs : List Formula) :
    weightOfAll (s.insertAll fs).toList ≤ weightOfAll fs + weightOfAll s.toList := by
  induction fs generalizing s with
  | nil => simp [OrderedSet.insertAll, weightOfAll]
  | cons f fs ih =>
      have hplace := weightOfAll_place_le f s.toList
      have hrest := ih (s.insert f)
      change weightOfAll ((s.insert f).insertAll fs).toList ≤ _
      change weightOfAll ((s.insert f).insertAll fs).toList ≤
        weightOfAll fs + weightOfAll (OrderedSet.place f s.toList) at hrest
      simp only [weightOfAll]
      omega

theorem weightOfAll_ofList_le (fs : List Formula) :
    weightOfAll (OrderedSet.ofList fs).toList ≤ weightOfAll fs :=
  weightOfAll_insertAll_le OrderedSet.empty fs

theorem weightOfAll_filter_le (p : Formula → Bool) (fs : List Formula) :
    weightOfAll (fs.filter p) ≤ weightOfAll fs := by
  induction fs with
  | nil => simp
  | cons f fs ih =>
      rw [List.filter_cons]
      split <;> simp only [weightOfAll] <;> omega

theorem weight_le_weightOfAll (h : f ∈ fs) : weight f ≤ weightOfAll fs := by
  induction fs with
  | nil => simp at h
  | cons g gs ih =>
      simp only [weightOfAll]
      rcases List.mem_cons.1 h with rfl | h
      · omega
      · have := ih h
        omega

theorem weight_branch_lt {branch : OrderedSet Formula} (hf : f.isElementary = false)
    (hbranch : branch ∈ f.branches) : weightOfAll branch.toList < weight f := by
  cases f with
  | conj fs =>
      simp only [branches, List.mem_singleton] at hbranch
      subst hbranch
      exact Nat.lt_succ_of_le (weightOfAll_ofList_le fs)
  | disj fs =>
      simp only [branches, List.mem_map] at hbranch
      obtain ⟨f, hm, rfl⟩ := hbranch
      have hle := weight_le_weightOfAll hm
      have hone := weightOfAll_ofList_le [f]
      simp only [weight, weightOfAll] at hone ⊢
      omega
  | «until» l r =>
      simp only [branches, List.mem_cons, List.not_mem_nil, or_false] at hbranch
      have hnow := weightOfAll_ofList_le [r]
      have hlater := weightOfAll_ofList_le [l, .next (.until l r)]
      simp only [weight, weightOfAll] at hnow hlater ⊢
      rcases hbranch with rfl | rfl <;> omega
  | release l r =>
      simp only [branches, List.mem_cons, List.not_mem_nil, or_false] at hbranch
      have hnow := weightOfAll_ofList_le [l, r]
      have hlater := weightOfAll_ofList_le [r, .next (.release l r)]
      simp only [weight, weightOfAll] at hnow hlater ⊢
      rcases hbranch with rfl | rfl <;> omega
  | _ => simp [isElementary] at hf

end Weight

end Formula

namespace PropertyState

open Formula

def context (rest current : OrderedSet Formula) : OrderedSet Formula :=
  (rest.union current).insert .top

theorem mem_context {rest current : OrderedSet Formula} {g : Formula} :
    g ∈ context rest current ↔ g = .top ∨ g ∈ current ∨ g ∈ rest := by
  simp [context]

def afterBranch (rest branch current : OrderedSet Formula) : OrderedSet Formula :=
  rest.union (branch.filter fun g => g ∉ current)

theorem mem_afterBranch {rest branch current : OrderedSet Formula} {g : Formula} :
    g ∈ afterBranch rest branch current ↔ (g ∈ branch ∧ g ∉ current) ∨ g ∈ rest := by
  simp [afterBranch]

/-- `q` extends `current` by a cover of `pending`. -/
inductive Covers : OrderedSet Formula → OrderedSet Formula → PropertyState → Prop
  | done {current : OrderedSet Formula} (hbot : .bot ∉ current) : Covers ∅ current current
  | skip {pending rest current : OrderedSet Formula} {f : Formula} {q : PropertyState}
      (hleast : pending.takeLeast = some (f, rest))
      (hsound : derivable (context rest current) f.negate = false)
      (hredundant : redundant (context rest current) f = true)
      (hrest : Covers rest current q) : Covers pending current q
  | keep {pending rest current : OrderedSet Formula} {f : Formula} {q : PropertyState}
      (hleast : pending.takeLeast = some (f, rest))
      (hsound : derivable (context rest current) f.negate = false)
      (hredundant : redundant (context rest current) f = false) (hf : f.isElementary = true)
      (hrest : Covers rest (if f = .top then current else current.insert f) q) :
      Covers pending current q
  | split {pending rest current branch : OrderedSet Formula} {f : Formula} {q : PropertyState}
      (hleast : pending.takeLeast = some (f, rest))
      (hsound : derivable (context rest current) f.negate = false)
      (hredundant : redundant (context rest current) f = false) (hf : f.isElementary = false)
      (hbranch : branch ∈ f.branches) (hrest : Covers (afterBranch rest branch current) current q) :
      Covers pending current q

variable {w : Word} {i : Nat} {pending rest current set : OrderedSet Formula} {q : PropertyState}

theorem toList_of_takeLeast {f : Formula} (h : pending.takeLeast = some (f, rest)) :
    pending.toList = f :: rest.toList := by
  rcases pending with ⟨_ | ⟨a, as⟩, hp⟩
  · cases h
  · cases h
    rfl

theorem mem_of_takeLeast {f g : Formula} (h : pending.takeLeast = some (f, rest)) :
    g ∈ pending ↔ g = f ∨ g ∈ rest := by
  change g ∈ pending.toList ↔ _
  rw [toList_of_takeLeast h]
  exact List.mem_cons

theorem eq_empty_of_takeLeast (h : pending.takeLeast = none) : pending = ∅ := by
  rcases pending with ⟨_ | ⟨a, as⟩, hp⟩
  · rfl
  · cases h

theorem coverFrom_of_takeLeast {f : Formula} (n : Nat) (h : pending.takeLeast = some (f, rest)) :
    coverFrom (n + 1) pending current =
      if derivable (context rest current) f.negate then []
      else if redundant (context rest current) f then coverFrom n rest current
      else if f.isElementary then coverFrom n rest (if f = .top then current else current.insert f)
      else f.branches.flatMap fun branch =>
        coverFrom n (afterBranch rest branch current) current := by
  rw [coverFrom, h]
  rfl

theorem covers_of_mem {n : Nat} (h : q ∈ coverFrom n pending current) :
    Covers pending current q := by
  induction n generalizing pending current with
  | zero => simp [coverFrom] at h
  | succ n ih =>
      cases hleast : pending.takeLeast with
      | none =>
          obtain rfl := eq_empty_of_takeLeast hleast
          rw [coverFrom, hleast] at h
          by_cases hbot : .bot ∈ current
          · simp [hbot] at h
          · simp only [hbot, if_false, List.mem_singleton] at h
            subst h
            exact .done hbot
      | some p =>
          obtain ⟨f, rest⟩ := p
          rw [coverFrom_of_takeLeast n hleast] at h
          cases hsound : derivable (context rest current) f.negate with
          | true => simp [hsound] at h
          | false =>
              cases hredundant : redundant (context rest current) f with
              | true =>
                  exact .skip hleast hsound hredundant (ih (by simpa [hsound, hredundant] using h))
              | false =>
                  cases hf : f.isElementary with
                  | true =>
                      exact .keep hleast hsound hredundant hf
                        (ih (by simpa [hsound, hredundant, hf] using h))
                  | false =>
                      simp only [hsound, hredundant, hf, Bool.false_eq_true, if_false] at h
                      obtain ⟨branch, hbranch, hq⟩ := List.mem_flatMap.1 h
                      exact .split hleast hsound hredundant hf hbranch (ih hq)

theorem weightOfAll_afterBranch_lt {f : Formula} {branch : OrderedSet Formula}
    (current : OrderedSet Formula) (hleast : pending.takeLeast = some (f, rest))
    (hf : f.isElementary = false) (hbranch : branch ∈ f.branches) :
    weightOfAll (afterBranch rest branch current).toList < weightOfAll pending.toList := by
  have hunion := weightOfAll_insertAll_le rest (branch.filter fun g => g ∉ current).toList
  have hfilter := weightOfAll_filter_le (fun g => g ∉ current) branch.toList
  have hlt := weight_branch_lt hf hbranch
  rw [toList_of_takeLeast hleast]
  change weightOfAll (rest.insertAll (branch.filter fun g => g ∉ current).toList).toList < _
  change _ ≤ weightOfAll (branch.toList.filter fun g => g ∉ current) + _ at hunion
  simp only [weightOfAll]
  omega

theorem weight_pos (f : Formula) : 0 < weight f := by
  cases f <;> simp [weight]

theorem weightOfAll_rest_lt {f : Formula} (hleast : pending.takeLeast = some (f, rest)) :
    weightOfAll rest.toList < weightOfAll pending.toList := by
  have := weight_pos f
  rw [toList_of_takeLeast hleast, weightOfAll]
  omega

theorem mem_of_covers {n : Nat} (h : Covers pending current q)
    (hn : weightOfAll pending.toList < n) : q ∈ coverFrom n pending current := by
  induction h generalizing n with
  | done hbot =>
      cases n with
      | zero => omega
      | succ n =>
          simp [coverFrom, EmptyCollection.emptyCollection, OrderedSet.empty,
            OrderedSet.takeLeast, hbot]
  | skip hleast hsound hredundant hrest ih =>
      have hlt := weightOfAll_rest_lt hleast
      cases n with
      | zero => omega
      | succ n =>
          rw [coverFrom_of_takeLeast n hleast]
          simpa [hsound, hredundant] using ih (by omega)
  | keep hleast hsound hredundant hf hrest ih =>
      have hlt := weightOfAll_rest_lt hleast
      cases n with
      | zero => omega
      | succ n =>
          rw [coverFrom_of_takeLeast n hleast]
          simpa [hsound, hredundant, hf] using ih (by omega)
  | split hleast hsound hredundant hf hbranch hrest ih =>
      rename_i pending rest current branch f q
      have hlt := weightOfAll_afterBranch_lt current hleast hf hbranch
      cases n with
      | zero => omega
      | succ n =>
          rw [coverFrom_of_takeLeast n hleast]
          simp only [hsound, hredundant, hf, Bool.false_eq_true, if_false]
          exact List.mem_flatMap.2 ⟨branch, hbranch, ih (by omega)⟩

theorem mem_cover_iff : q ∈ cover set ↔ Covers set ∅ q := by
  rw [cover, OrderedSet.mem_ofList]
  exact ⟨covers_of_mem, fun h => mem_of_covers h (Nat.lt_succ_self _)⟩

namespace Covers

theorem current_subset (h : Covers pending current q) : ∀ g ∈ current, g ∈ q := by
  induction h with
  | done hbot => exact fun g hg => hg
  | skip hleast hsound hredundant hrest ih => exact ih
  | keep hleast hsound hredundant hf hrest ih =>
      intro g hg
      apply ih
      split
      · exact hg
      · exact OrderedSet.mem_insert.2 (.inr hg)
  | split hleast hsound hredundant hf hbranch hrest ih => exact ih

theorem bot_not_mem (h : Covers pending current q) : .bot ∉ q := by
  induction h with
  | done hbot => exact hbot
  | skip hleast hsound hredundant hrest ih => exact ih
  | keep hleast hsound hredundant hf hrest ih => exact ih
  | split hleast hsound hredundant hf hbranch hrest ih => exact ih

end Covers

theorem derivable_of_redundant {context : OrderedSet Formula} {f : Formula}
    (h : redundant context f = true) :
    derivable context f = true ∧ ∀ l r, f = .until l r → derivable context r = true := by
  cases f <;> simp_all [redundant]

theorem derivable_of_context {f : Formula} (hrest : ∀ g ∈ rest, derivable (q.insert .top) g = true)
    (hcurrent : ∀ g ∈ current, g ∈ q) (h : derivable (context rest current) f = true) :
    derivable (q.insert .top) f = true := by
  refine derivable_trans (fun g hg hel => ?_) h
  rcases mem_context.1 hg with rfl | hg | hg
  · exact OrderedSet.mem_insert.2 (.inl rfl)
  · exact OrderedSet.mem_insert.2 (.inr (hcurrent g hg))
  · exact (derivable_elementary hel).1 (hrest g hg)

theorem Covers.derivable_pending (h : Covers pending current q)
    (hcurrent : ∀ g ∈ current, g.isElementary = true) :
    ∀ f ∈ pending, derivable (q.insert .top) f = true := by
  induction h with
  | done hbot => exact fun f hf => absurd hf (OrderedSet.not_mem_empty f)
  | skip hleast hsound hredundant hrest ih =>
      intro g hg
      rcases (mem_of_takeLeast hleast).1 hg with rfl | hg
      · exact derivable_of_context (ih hcurrent) hrest.current_subset
          (derivable_of_redundant hredundant).1
      · exact ih hcurrent g hg
  | keep hleast hsound hredundant hf hrest ih =>
      rename_i pending rest current f q
      intro g hg
      rcases (mem_of_takeLeast hleast).1 hg with rfl | hg
      · rw [derivable_elementary hf, OrderedSet.mem_insert]
        by_cases htop : g = .top
        · exact .inl htop
        · exact .inr (hrest.current_subset g (by simp [htop]))
      · refine ih (fun g hg => ?_) g hg
        split at hg
        · exact hcurrent g hg
        · rcases OrderedSet.mem_insert.1 hg with rfl | hg
          · exact hf
          · exact hcurrent g hg
  | split hleast hsound hredundant hf hbranch hrest ih =>
      rename_i pending rest current branch f q
      intro g hg
      rcases (mem_of_takeLeast hleast).1 hg with rfl | hg
      · refine (derivable_iff_branch hf).2 ⟨branch, hbranch, fun a ha => ?_⟩
        by_cases hc : a ∈ current
        · exact (derivable_elementary (hcurrent a hc)).2
            (OrderedSet.mem_insert.2 (.inr (hrest.current_subset a hc)))
        · exact ih hcurrent a (mem_afterBranch.2 (.inl ⟨ha, hc⟩))
      · exact ih hcurrent g (mem_afterBranch.2 (.inr hg))

/-- What all formulas of a set have, and branches of what the state makes derivable take over, all
formulas of the state have. -/
theorem Covers.closed {P : Formula → Prop} (h : Covers pending current q)
    (helementary : ∀ g ∈ current, g.isElementary = true)
    (hbranches : ∀ f, P f → derivable (q.insert .top) f = true → f.isElementary = false →
      ∀ branch ∈ f.branches, ∀ g ∈ branch, P g)
    (hpending : ∀ f ∈ pending, P f) (hcurrent : ∀ f ∈ current, P f) : ∀ g ∈ q, P g := by
  induction h with
  | done hbot => exact hcurrent
  | skip hleast hsound hredundant hrest ih =>
      exact ih helementary hbranches
        (fun f hf => hpending f ((mem_of_takeLeast hleast).2 (.inr hf))) hcurrent
  | keep hleast hsound hredundant hf hrest ih =>
      rename_i pending rest current f q
      have hsub : ∀ g ∈ (if f = .top then current else current.insert f), g = f ∨ g ∈ current := by
        intro g hg
        split at hg
        · exact .inr hg
        · exact OrderedSet.mem_insert.1 hg
      refine ih (fun g hg => ?_) hbranches
        (fun f hf => hpending f ((mem_of_takeLeast hleast).2 (.inr hf)))
        fun g hg => ?_
      · rcases hsub g hg with rfl | hg
        · exact hf
        · exact helementary g hg
      · rcases hsub g hg with rfl | hg
        · exact hpending g ((mem_of_takeLeast hleast).2 (.inl rfl))
        · exact hcurrent g hg
  | split hleast hsound hredundant hf hbranch hrest ih =>
      rename_i pending rest current branch f q
      refine ih helementary hbranches (fun g hg => ?_) hcurrent
      rcases mem_afterBranch.1 hg with ⟨hg, -⟩ | hg
      · have hmem := (mem_of_takeLeast hleast).2 (.inl rfl)
        have hall : Covers pending current q := .split hleast hsound hredundant hf hbranch hrest
        exact hbranches f (hpending f hmem) (hall.derivable_pending helementary f hmem) hf
          branch hbranch g hg
      · exact hpending g ((mem_of_takeLeast hleast).2 (.inr hg))

/-- A word that satisfies the pending and the current formulas chooses a state of the cover. Of a
pending `l U r` it takes `r` whenever it can. -/
theorem exists_covers (pending current : OrderedSet Formula) (hpending : ∀ f ∈ pending, Holds w f i)
    (hcurrent : ∀ f ∈ current, Holds w f i) (helementary : ∀ f ∈ current, f.isElementary = true) :
    ∃ q, Covers pending current q ∧ (∀ g ∈ q, Holds w g i) ∧
      ∀ l r, .until l r ∈ pending → Holds w r i → derivable (q.insert .top) r = true := by
  induction hn : weightOfAll pending.toList using Nat.strongRecOn generalizing pending current with
  | _ n ih =>
  subst hn
  cases hleast : pending.takeLeast with
  | none =>
      obtain rfl := eq_empty_of_takeLeast hleast
      refine ⟨current, .done fun hbot => ?_, hcurrent,
        fun l r hu => absurd hu (OrderedSet.not_mem_empty _)⟩
      simpa [Holds] using hcurrent _ hbot
  | some p =>
      obtain ⟨f, rest⟩ := p
      have hf : Holds w f i := hpending f ((mem_of_takeLeast hleast).2 (.inl rfl))
      have hrest : ∀ g ∈ rest, Holds w g i :=
        fun g hg => hpending g ((mem_of_takeLeast hleast).2 (.inr hg))
      have hcontext : ∀ g ∈ context rest current, Holds w g i := by
        intro g hg
        rcases mem_context.1 hg with rfl | hg | hg
        · simp [Holds]
        · exact hcurrent g hg
        · exact hrest g hg
      have hsound : derivable (context rest current) f.negate = false :=
        Bool.eq_false_iff.2 fun h => holds_negate.1 (holds_of_derivable hcontext h) hf
      cases hredundant : redundant (context rest current) f with
      | true =>
          obtain ⟨q, hq, hholds, hkeep⟩ :=
            ih _ (weightOfAll_rest_lt hleast) rest current hrest hcurrent helementary rfl
          refine ⟨q, .skip hleast hsound hredundant hq, hholds, fun l r hu hr => ?_⟩
          rcases (mem_of_takeLeast hleast).1 hu with rfl | hu
          · exact derivable_of_context (hq.derivable_pending helementary) hq.current_subset
              ((derivable_of_redundant hredundant).2 l r rfl)
          · exact hkeep l r hu hr
      | false =>
          cases hel : f.isElementary with
          | true =>
              obtain ⟨q, hq, hholds, hkeep⟩ := ih _ (weightOfAll_rest_lt hleast)
                rest (if f = .top then current else current.insert f) hrest
                (by
                  intro g hg
                  split at hg
                  · exact hcurrent g hg
                  · rcases OrderedSet.mem_insert.1 hg with rfl | hg
                    · exact hf
                    · exact hcurrent g hg)
                (by
                  intro g hg
                  split at hg
                  · exact helementary g hg
                  · rcases OrderedSet.mem_insert.1 hg with rfl | hg
                    · exact hel
                    · exact helementary g hg) rfl
              refine ⟨q, .keep hleast hsound hredundant hel hq, hholds, fun l r hu hr => ?_⟩
              rcases (mem_of_takeLeast hleast).1 hu with rfl | hu
              · simp [isElementary] at hel
              · exact hkeep l r hu hr
          | false =>
              obtain ⟨branch, hbranch, hb, hchoice⟩ := exists_branch hel hf
              obtain ⟨q, hq, hholds, hkeep⟩ := ih _
                (weightOfAll_afterBranch_lt current hleast hel hbranch) _ current
                (fun g hg => (mem_afterBranch.1 hg).elim (fun h => hb g h.1) (hrest g)) hcurrent
                helementary rfl
              refine ⟨q, .split hleast hsound hredundant hel hbranch hq, hholds,
                fun l r hu hr => ?_⟩
              rcases (mem_of_takeLeast hleast).1 hu with rfl | hu
              · have hmem := hchoice l r rfl hr
                by_cases hc : r ∈ current
                · exact (derivable_elementary (helementary r hc)).2
                    (OrderedSet.mem_insert.2 (.inr (hq.current_subset r hc)))
                · exact hq.derivable_pending helementary r (mem_afterBranch.2 (.inl ⟨hmem, hc⟩))
              · exact hkeep l r (mem_afterBranch.2 (.inr hu)) hr

theorem derivable_of_mem_cover {f : Formula} (hq : q ∈ cover set) (hf : f ∈ set) :
    derivable (q.insert .top) f = true :=
  (mem_cover_iff.1 hq).derivable_pending (fun g hg => absurd hg (OrderedSet.not_mem_empty g)) f hf

theorem closed_of_mem_cover {P : Formula → Prop} (hq : q ∈ cover set)
    (hbranches : ∀ f, P f → derivable (q.insert .top) f = true → f.isElementary = false →
      ∀ branch ∈ f.branches, ∀ g ∈ branch, P g)
    (hset : ∀ f ∈ set, P f) : ∀ g ∈ q, P g :=
  (mem_cover_iff.1 hq).closed (fun g hg => absurd hg (OrderedSet.not_mem_empty g)) hbranches hset
    fun g hg => absurd hg (OrderedSet.not_mem_empty g)

theorem bot_not_mem_of_mem_cover (hq : q ∈ cover set) : .bot ∉ q := (mem_cover_iff.1 hq).bot_not_mem

theorem exists_mem_cover (h : ∀ f ∈ set, Holds w f i) :
    ∃ q ∈ cover set, (∀ g ∈ q, Holds w g i) ∧
      ∀ l r, .until l r ∈ set → Holds w r i → derivable (q.insert .top) r = true := by
  obtain ⟨q, hq, hholds, hkeep⟩ := exists_covers set ∅ h
    (fun g hg => absurd hg (OrderedSet.not_mem_empty g))
    (fun g hg => absurd hg (OrderedSet.not_mem_empty g))
  exact ⟨q, mem_cover_iff.2 hq, hholds, hkeep⟩

/-- Each formula of a set is derivable from each state of its cover. A word that satisfies the set
satisfies a state that makes `r` derivable for each `l U r` of the set whose `r` holds. Derivable is
what is a member or has all members of a branch derivable; the larger the set the more is, and all
of it holds where the set does. -/
theorem cover_derives (set : OrderedSet Formula) :
    (∀ q ∈ cover set, ∀ f ∈ set, derivable (q.insert .top) f = true) ∧
    (∀ w : Word, (∀ f ∈ set, Satisfies w f) → ∃ q ∈ cover set, (∀ g ∈ q, Satisfies w g) ∧
      ∀ l r, .until l r ∈ set → Satisfies w r → derivable (q.insert .top) r = true) ∧
    ∀ (s : OrderedSet Formula) (f : Formula),
      (derivable s f = true ↔ if f.isElementary then f ∈ s
        else ∃ branch ∈ f.branches, ∀ g ∈ branch, derivable s g = true) ∧
      (∀ t : OrderedSet Formula, (∀ g ∈ s, g ∈ t) → derivable s f = true → derivable t f = true) ∧
      (derivable s f = true → ∀ w : Word, (∀ g ∈ s, Satisfies w g) → Satisfies w f) := by
  refine ⟨fun q hq f hf => derivable_of_mem_cover hq hf, fun w hw => exists_mem_cover hw,
    fun s f => ⟨?_, ?_, ?_⟩⟩
  · cases hf : f.isElementary with
    | true => exact derivable_elementary hf
    | false => exact derivable_iff_branch hf
  · intro t hsubset hs
    exact derivable_trans (fun g hg _ => hsubset g hg) hs
  · intro hs w hw
    exact holds_of_derivable hw hs

/-- `p`, `p | q`, `(p | q) U r` and `G F r`: what is to be covered depends on what is still
pending. -/
def overlap : OrderedSet Formula :=
  .ofList [.prop "p", .disj [.prop "p", .prop "q"],
    .until (.disj [.prop "p", .prop "q"]) (.prop "r"), .release .bot (.until .top (.prop "r"))]

/-- From two of the three states `r` is derivable; where `p` and `r` always hold, the word chooses
one of these. -/
theorem overlap_derives : (cover overlap).size = 3 ∧
    (cover overlap).toList.countP (fun q => derivable (q.insert .top) (.prop "r")) = 2 ∧
    (∀ q ∈ cover overlap, derivable (q.insert .top) (.disj [.prop "p", .prop "q"]) = true) ∧
    ∃ q ∈ cover overlap, (∀ g ∈ q, Satisfies (fun _ x => x = "p" ∨ x = "r") g) ∧
      derivable (q.insert .top) (.prop "r") = true := by
  obtain ⟨hderives, hchoice, -⟩ := cover_derives overlap
  have hp (i : Nat) : Holds (fun _ x => x = "p" ∨ x = "r") (.disj [.prop "p", .prop "q"]) i :=
    holds_disj.2 ⟨.prop "p", by simp, .inl rfl⟩
  have hr (l : Formula) (i : Nat) : Holds (fun _ x => x = "p" ∨ x = "r") (.until l (.prop "r")) i :=
    holds_until_iff.2 (.inl (.inr rfl))
  have hword : ∀ f ∈ overlap, Satisfies (fun _ x => x = "p" ∨ x = "r") f := by
    simp only [overlap, OrderedSet.mem_ofList, List.forall_mem_cons]
    exact ⟨.inl rfl, hp 0, hr _ 0, fun k _ => .inl (hr _ k), by simp⟩
  obtain ⟨q, hq, hholds, hkeeps⟩ := hchoice _ hword
  refine ⟨by decide +kernel, by decide +kernel, fun q hq => hderives q hq _ (by simp [overlap]), q,
    hq, hholds, ?_⟩
  exact hkeeps (.disj [.prop "p", .prop "q"]) (.prop "r") (by simp [overlap]) (.inr rfl)

end PropertyState

end TemporalCheck
