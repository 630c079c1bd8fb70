import TemporalCheck.Proofs.Cover
import TemporalCheck.Proofs.Sequence
import TemporalCheck.Property.Automaton

namespace TemporalCheck

open Formula PropertyState

def Formula.promises (f : Formula) : List Promise :=
  f.untils.toList.filterMap PropertyAutomaton.promiseOf

namespace PropertyState

/-- Infinitely many states meet each acceptance set of the automaton of `f`. -/
def Fair (f : Formula) (q : Nat → PropertyState) : Prop :=
  ∀ p ∈ f.promises, InfinitelyOften fun i => PropertyAutomaton.keeps (q i) p = true

structure Follows (f : Formula) (q : Nat → PropertyState) : Prop where
  start : q 0 ∈ cover (.ofList [f])
  step : ∀ i, q (i + 1) ∈ cover (q i).obligations

def Belongs (f g : Formula) : Prop := g.isNnf = true ∧ ∀ u ∈ g.untilParts, u ∈ f.untilParts

variable {w : Word} {f g : Formula} {fs : List Formula} {q : Nat → PropertyState} {i : Nat}

theorem mem_obligations {q : PropertyState} : g ∈ q.obligations ↔ .next g ∈ q := by
  simp only [obligations, OrderedSet.mem_ofList, List.mem_filterMap]
  constructor
  · rintro ⟨h, hq, hg⟩
    cases h <;> simp only [obligation, reduceCtorEq, Option.some.injEq] at hg
    subst hg
    exact hq
  · intro h
    exact ⟨_, h, rfl⟩

theorem mem_literals {q : PropertyState} : g ∈ q.literals ↔ g ∈ q ∧ g.isLiteral = true :=
  List.mem_filter

theorem mem_promises {l r : Formula} :
    (⟨.next (.until l r), r⟩ : Promise) ∈ f.promises ↔ .until l r ∈ f.untilParts := by
  simp only [promises, List.mem_filterMap]
  constructor
  · rintro ⟨u, hu, hp⟩
    cases u <;> simp only [PropertyAutomaton.promiseOf, reduceCtorEq, Option.some.injEq,
      Promise.mk.injEq, Formula.next.injEq, Formula.until.injEq] at hp
    obtain ⟨⟨rfl, rfl⟩, -⟩ := hp
    exact OrderedSet.mem_ofList.1 hu
  · intro h
    exact ⟨_, OrderedSet.mem_ofList.2 h, rfl⟩

theorem promise_eq {p : Promise} (h : p ∈ f.promises) :
    ∃ l r, p = ⟨.next (.until l r), r⟩ ∧ .until l r ∈ f.untilParts := by
  obtain ⟨u, hu, hp⟩ := List.mem_filterMap.1 h
  cases u <;> simp only [PropertyAutomaton.promiseOf, reduceCtorEq, Option.some.injEq] at hp
  exact ⟨_, _, hp.symm, OrderedSet.mem_ofList.1 hu⟩

theorem mem_untilPartsAll {u : Formula} : u ∈ untilPartsAll fs ↔ ∃ g ∈ fs, u ∈ untilParts g := by
  induction fs with
  | nil => simp [untilPartsAll]
  | cons f fs ih => simp [untilPartsAll, ih]

theorem Belongs.part {a : Formula} (h : Belongs f g) (hg : g.isElementary = false)
    (ha : a ∈ g.parts) : Belongs f a := by
  obtain ⟨hnnf, hparts⟩ := h
  cases g with
  | conj gs | disj gs =>
      rw [isNnf, allNnf_iff] at hnnf
      exact ⟨hnnf a ha, fun u hu => hparts u (mem_untilPartsAll.2 ⟨a, ha, hu⟩)⟩
  | «until» l r | release l r =>
      simp only [isNnf, Bool.and_eq_true] at hnnf
      simp only [parts, List.mem_cons, List.not_mem_nil, or_false] at ha
      rcases ha with rfl | rfl
      · exact ⟨hnnf.1, fun u hu => hparts u (by simp [untilParts, hu])⟩
      · exact ⟨hnnf.2, fun u hu => hparts u (by simp [untilParts, hu])⟩
  | _ => simp [isElementary] at hg

namespace Follows

theorem bot_not_mem (h : Follows f q) (i : Nat) : .bot ∉ q i := by
  cases i with
  | zero => exact bot_not_mem_of_mem_cover h.start
  | succ i => exact bot_not_mem_of_mem_cover (h.step i)

theorem derivable_obligation (h : Follows f q) (hg : .next g ∈ q i) :
    derivable ((q (i + 1)).insert .top) g = true :=
  derivable_of_mem_cover (h.step i) (mem_obligations.2 hg)

theorem next_mem_insert_top {q : PropertyState} : .next g ∈ q.insert .top ↔ .next g ∈ q := by
  simp

/-- An `l U r` that is derivable is kept at a later step with `l` derivable before it, or is
carried on as far as one looks. -/
theorem until_kept_or_carried {l r : Formula} (h : Follows f q)
    (hd : derivable ((q i).insert .top) (.until l r) = true) (d : Nat) :
    (∃ k, i ≤ k ∧ derivable ((q k).insert .top) r = true ∧
      ∀ j, i ≤ j → j < k → derivable ((q j).insert .top) l = true) ∨
    ∀ j, i ≤ j → j ≤ i + d → derivable ((q j).insert .top) l = true ∧ .next (.until l r) ∈ q j ∧
      ¬ derivable ((q j).insert .top) r = true := by
  have hsplit : ∀ j, derivable ((q j).insert .top) (.until l r) = true →
      derivable ((q j).insert .top) r = true ∨ derivable ((q j).insert .top) l = true ∧
        .next (.until l r) ∈ q j ∧ ¬ derivable ((q j).insert .top) r = true := by
    intro j hj
    by_cases hr : derivable ((q j).insert .top) r = true
    · exact .inl hr
    · obtain hr' | ⟨hl, hn⟩ := derivable_until.1 hj
      · exact .inl hr'
      · exact .inr ⟨hl, next_mem_insert_top.1 hn, hr⟩
  induction d with
  | zero =>
      rcases hsplit i hd with hr | hc
      · exact .inl ⟨i, Nat.le_refl i, hr, fun j h₁ h₂ => by omega⟩
      · refine .inr fun j h₁ h₂ => ?_
        obtain rfl : j = i := by omega
        exact hc
  | succ d ih =>
      rcases ih with hk | hc
      · exact .inl hk
      · have hlast := hc (i + d) (by omega) (Nat.le_refl _)
        rcases hsplit (i + d + 1) (h.derivable_obligation hlast.2.1) with hr | hnew
        · exact .inl ⟨i + d + 1, by omega, hr, fun j h₁ h₂ => (hc j h₁ (by omega)).1⟩
        · refine .inr fun j h₁ h₂ => ?_
          rcases Nat.lt_or_ge (i + d) j with hlt | hge
          · obtain rfl : j = i + d + 1 := by omega
            exact hnew
          · exact hc j h₁ hge

theorem until_kept {l r : Formula} (h : Follows f q) (hfair : Fair f q)
    (hu : .until l r ∈ f.untilParts) (hd : derivable ((q i).insert .top) (.until l r) = true) :
    ∃ k, i ≤ k ∧ derivable ((q k).insert .top) r = true ∧
      ∀ j, i ≤ j → j < k → derivable ((q j).insert .top) l = true := by
  obtain ⟨m, him, hkeep⟩ := hfair _ (mem_promises.2 hu) i
  rcases h.until_kept_or_carried hd (m - i) with hk | hc
  · exact hk
  · obtain ⟨-, hnext, hr⟩ := hc m him (by omega)
    simp [PropertyAutomaton.keeps, hnext, hr] at hkeep

theorem release_step {l r : Formula} (h : Follows f q)
    (hd : derivable ((q i).insert .top) (.release l r) = true) (d : Nat) :
    (∃ j, i ≤ j ∧ j < i + d ∧ derivable ((q j).insert .top) l = true) ∨
      derivable ((q (i + d)).insert .top) (.release l r) = true := by
  induction d with
  | zero => exact .inr hd
  | succ d ih =>
      rcases ih with ⟨j, h₁, h₂, hl⟩ | hlast
      · exact .inl ⟨j, h₁, by omega, hl⟩
      · obtain ⟨-, hl | hn⟩ := derivable_release.1 hlast
        · exact .inl ⟨i + d, by omega, by omega, hl⟩
        · exact .inr (h.derivable_obligation (next_mem_insert_top.1 hn))

/-- Along a fair sequence whose literals are true, all that is derivable holds. -/
theorem holds_of_derivable (h : Follows f q) (hfair : Fair f q)
    (hliterals : ∀ i, ∀ g ∈ (q i).literals, Holds w g i) (hg : Belongs f g)
    (hd : derivable ((q i).insert .top) g = true) : Holds w g i := by
  have hliteral : ∀ i (a : Formula), a.isLiteral = true → derivable ((q i).insert .top) a = true →
      Holds w a i := by
    intro i a ha hda
    rw [derivable_elementary (by cases a <;> simp_all [isLiteral, isElementary]),
      OrderedSet.mem_insert] at hda
    rcases hda with rfl | hda
    · simp [isLiteral] at ha
    · exact hliterals i a (mem_literals.2 ⟨hda, ha⟩)
  induction g using structural generalizing i with
  | prop p => exact hliteral i _ rfl hd
  | neg a ih => exact hliteral i _ hg.1 hd
  | next a ih =>
      rw [derivable_elementary rfl] at hd
      exact ih hg (h.derivable_obligation (next_mem_insert_top.1 hd))
  | conj gs ih => exact holds_conj.2 fun a ha => ih a ha (hg.part rfl ha) (derivable_conj.1 hd a ha)
  | disj gs ih =>
      obtain ⟨a, ha, hda⟩ := derivable_disj.1 hd
      exact holds_disj.2 ⟨a, ha, ih a ha (hg.part rfl ha) hda⟩
  | till l r ihl ihr =>
      have hl : Belongs f l := hg.part rfl (by simp [parts])
      have hr : Belongs f r := hg.part rfl (by simp [parts])
      obtain ⟨k, hik, hdr, hdl⟩ := h.until_kept hfair (hg.2 _ (by simp [untilParts])) hd
      exact ⟨k, hik, ihr hr hdr, fun j h₁ h₂ => ihl hl (hdl j h₁ h₂)⟩
  | release l r ihl ihr =>
      have hl : Belongs f l := hg.part rfl (by simp [parts])
      have hr : Belongs f r := hg.part rfl (by simp [parts])
      intro k hik
      rcases h.release_step hd (k - i) with ⟨j, h₁, h₂, hdl⟩ | hlast
      · exact .inr ⟨j, h₁, by omega, ihl hl hdl⟩
      · rw [Nat.add_sub_cancel' hik] at hlast
        exact .inl (ihr hr (derivable_release.1 hlast).1)
  | top => trivial
  | bot =>
      rw [derivable_elementary rfl, OrderedSet.mem_insert] at hd
      rcases hd with hd | hd
      · cases hd
      · exact absurd hd (h.bot_not_mem i)

end Follows

/-- A fair sequence whose literals are true along a word shows that the word satisfies the
formula. -/
theorem Follows.satisfies (h : Follows f q) (hf : f.isNnf = true) (hfair : Fair f q)
    (hliterals : ∀ i, ∀ g ∈ (q i).literals, Holds w g i) : Satisfies w f := by
  refine h.holds_of_derivable hfair hliterals ⟨hf, fun u hu => hu⟩ ?_
  exact derivable_of_mem_cover h.start (by simp)

/-- The state keeps every `l U r` asked of it whose `r` holds now. -/
def KeepsEarly (w : Word) (i : Nat) (asked : OrderedSet Formula) (q : PropertyState) : Prop :=
  ∀ l r, .until l r ∈ asked → Holds w r i → derivable (q.insert .top) r = true

/-- States that hold along a word and keep early what they can form a fair sequence. -/
theorem fair_of_keepsEarly (hholds : ∀ i, ∀ g ∈ q i, Holds w g i)
    (hkeeps : ∀ i, KeepsEarly w (i + 1) (q i).obligations (q (i + 1))) : Fair f q := by
  intro p hp n
  obtain ⟨l, r, rfl, -⟩ := promise_eq hp
  by_contra hnone
  have hcarried : ∀ m, n ≤ m → .next (.until l r) ∈ q m ∧
      ¬ derivable ((q m).insert .top) r = true := by
    intro m hm
    by_contra hc
    refine hnone ⟨m, hm, ?_⟩
    simp only [PropertyAutomaton.keeps, Bool.or_eq_true, decide_eq_true_eq]
    tauto
  obtain ⟨k, hk, hr, -⟩ := hholds n _ (hcarried n (Nat.le_refl n)).1
  obtain ⟨j, rfl⟩ : ∃ j, k = j + 1 := ⟨k - 1, by omega⟩
  exact (hcarried (j + 1) (by omega)).2
    (hkeeps j l r (mem_obligations.2 (hcarried j (by omega)).1) hr)

/-- A word that satisfies a formula is followed by a fair sequence of states that hold along it. -/
theorem exists_follows (h : Satisfies w f) :
    ∃ q, Follows f q ∧ Fair f q ∧ ∀ i, ∀ g ∈ q i, Holds w g i := by
  obtain ⟨q, hq, hstep⟩ := exists_sequence
    (P := fun i (q : PropertyState) => (∀ g ∈ q, Holds w g i) ∧ (i = 0 → q ∈ cover (.ofList [f])))
    (R := fun i q q' => q' ∈ cover q.obligations ∧ KeepsEarly w (i + 1) q.obligations q')
    (by
      have hset : ∀ g ∈ OrderedSet.ofList [f], Holds w g 0 := by simpa [Satisfies] using h
      obtain ⟨q, hq, hholds, -⟩ := exists_mem_cover hset
      exact ⟨q, hholds, fun _ => hq⟩)
    (by
      rintro i q ⟨hholds, -⟩
      have hnext : ∀ g ∈ q.obligations, Holds w g (i + 1) :=
        fun g hg => hholds _ (mem_obligations.1 hg)
      obtain ⟨q', hq', hholds', hkeep⟩ := exists_mem_cover hnext
      exact ⟨q', ⟨hholds', by omega⟩, hq', hkeep⟩)
  exact ⟨q, ⟨(hq 0).2 rfl, fun i => (hstep i).1⟩,
    fair_of_keepsEarly (fun i => (hq i).1) (fun i => (hstep i).2), fun i => (hq i).1⟩

end PropertyState

end TemporalCheck
