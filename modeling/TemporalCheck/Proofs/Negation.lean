import TemporalCheck.Proofs.FiniteAutomaton

namespace TemporalCheck

namespace Formula

variable {f g : Formula} {fs : List Formula}

theorem Canonical.mem_disjuncts_negate (h : f.Canonical) :
    g ∈ f.negate.disjuncts ↔ g ∈ f.conjuncts.map negate := by
  by_cases hflat : f.conjuncts = [f]
  · rw [h.involution.2.1 hflat, hflat, List.map_singleton]
  · cases h with
    | @conj s hmembers hsimple htwo =>
        rw [negate_conj (fun f hf => (Canonical.involution (hmembers f hf)).1)
          (fun f hf => (Canonical.involution (hmembers f hf)).2.1 (hsimple f hf)) htwo]
        exact OrderedSet.mem_ofList
    | _ => exact absurd rfl hflat

theorem Canonical.mem_conjuncts_negate (h : f.Canonical) :
    g ∈ f.negate.conjuncts ↔ g ∈ f.disjuncts.map negate := by
  by_cases hflat : f.disjuncts = [f]
  · rw [h.involution.2.2 hflat, hflat, List.map_singleton]
  · cases h with
    | @disj s hmembers hsimple htwo =>
        rw [negate_disj (fun f hf => (Canonical.involution (hmembers f hf)).1)
          (fun f hf => (Canonical.involution (hmembers f hf)).2.2 (hsimple f hf)) htwo]
        exact OrderedSet.mem_ofList
    | _ => exact absurd rfl hflat

section

variable {parts parts' : Formula → List Formula}

theorem mem_negations_flatMap
    (hparts : ∀ f ∈ fs, ∀ g, g ∈ parts' f.negate ↔ g ∈ (parts f).map negate) :
    g ∈ negations (.ofList (fs.flatMap parts)) ↔ g ∈ (fs.map negate).flatMap parts' := by
  calc g ∈ negations (.ofList (fs.flatMap parts))
    _ ↔ ∃ a ∈ OrderedSet.ofList (fs.flatMap parts), a.negate = g := by
      rw [negations, OrderedSet.mem_ofList, List.mem_map]
      rfl
    _ ↔ ∃ f ∈ fs, g ∈ (parts f).map negate := by
      simp only [OrderedSet.mem_ofList]
      rw [← List.mem_map, List.map_flatMap, List.mem_flatMap]
    _ ↔ ∃ f ∈ fs, g ∈ parts' f.negate := exists_congr fun f => and_congr_right fun hf =>
      (hparts f hf g).symm
    _ ↔ g ∈ (fs.map negate).flatMap parts' := by rw [List.flatMap_map, List.mem_flatMap]

/-- The negation of what is gathered gathers the negations in the dual way. -/
theorem negate_gather {unit unit' : Formula} {wrap wrap' : List Formula → Formula}
    (hunit : unit.negate = unit') (hmembers : ∀ f ∈ fs, ∀ g ∈ parts f, g.Canonical ∧ parts g = [g])
    (hparts : ∀ f ∈ fs, ∀ g, g ∈ parts' f.negate ↔ g ∈ (parts f).map negate)
    (hwrap : ∀ s : OrderedSet Formula, (∀ f ∈ s, f.Canonical ∧ parts f = [f]) →
      2 ≤ s.toList.length →
      (wrap s.toList).negate = wrap' (negations s).toList) :
    (gather unit wrap parts fs).negate = gather unit' wrap' parts' (fs.map negate) := by
  have hcanonical : ∀ g ∈ OrderedSet.ofList (fs.flatMap parts), g.Canonical ∧ parts g = [g] := by
    intro g hg
    obtain ⟨f, hf, hg⟩ := List.mem_flatMap.1 (OrderedSet.mem_ofList.1 hg)
    exact hmembers f hf g hg
  have hset : OrderedSet.ofList ((fs.map negate).flatMap parts') =
      negations (.ofList (fs.flatMap parts)) := by
    apply OrderedSet.eq_of_mem_iff
    intro g
    rw [OrderedSet.mem_ofList, mem_negations_flatMap hparts]
  rcases hlist : (OrderedSet.ofList (fs.flatMap parts)).toList with _ | ⟨a, _ | ⟨b, rest⟩⟩
  · rw [gather, gather, hset, negations, hlist]
    exact hunit
  · rw [gather, gather, hset, negations, hlist]
    rfl
  · -- negation is injective on the members, so two of them stay two
    have htwo : 2 ≤ (OrderedSet.ofList (fs.flatMap parts)).toList.length := by simp [hlist]
    have hinv : ∀ f ∈ OrderedSet.ofList (fs.flatMap parts), f.negate.negate = f :=
      fun f hf => (hcanonical f hf).1.involution.1
    rw [gather_of_mem_iff (fun _ => OrderedSet.mem_ofList) htwo,
      gather_of_mem_iff (fun _ => mem_negations_flatMap hparts) (by rwa [length_negations hinv])]
    exact hwrap _ hcanonical htwo

end

theorem negate_and (h : ∀ f ∈ fs, f.Canonical) : (Formula.and fs).negate = .or (fs.map negate) := by
  refine negate_gather rfl (fun f hf _ => (h f hf).conjunct)
    (fun f hf _ => (h f hf).mem_disjuncts_negate) ?_
  intro s hs htwo
  exact negate_conj (fun f hf => (hs f hf).1.involution.1)
    (fun f hf => (hs f hf).1.involution.2.1 (hs f hf).2) htwo

theorem negate_or (h : ∀ f ∈ fs, f.Canonical) : (Formula.or fs).negate = .and (fs.map negate) := by
  refine negate_gather rfl (fun f hf _ => (h f hf).disjunct)
    (fun f hf _ => (h f hf).mem_conjuncts_negate) ?_
  intro s hs htwo
  exact negate_disj (fun f hf => (hs f hf).1.involution.1)
    (fun f hf => (hs f hf).1.involution.2.2 (hs f hf).2) htwo

theorem canonical_map_signed (positive : Bool) (fs : List Formula) :
    ∀ f ∈ fs.map (signed positive), f.Canonical := by
  intro g hg
  obtain ⟨f, -, rfl⟩ := List.mem_map.1 hg
  exact canonical_signed positive f

theorem map_negate_signed {positive : Bool}
    (h : ∀ f ∈ fs, (f.signed positive).negate = f.signed (!positive)) :
    (fs.map (signed positive)).map negate = fs.map (signed !positive) := by
  rw [List.map_map]
  exact List.map_congr_left h

theorem negate_signed (positive : Bool) (f : Formula) :
    (f.signed positive).negate = f.signed (!positive) := by
  induction f using structural generalizing positive with
  | prop p => cases positive <;> rfl
  | neg f ih => exact ih (!positive)
  | next f ih => exact congrArg Formula.next (ih positive)
  | conj fs ih =>
      -- `fs` may be any list, but what is gathered from it has been brought to normal form before
      rw [signed, signed, signedAll_eq_map,
        signedAll_eq_map, ← map_negate_signed fun f hf => ih f hf positive]
      cases positive
      · exact negate_or (canonical_map_signed false fs)
      · exact negate_and (canonical_map_signed true fs)
  | disj fs ih =>
      rw [signed, signed, signedAll_eq_map,
        signedAll_eq_map, ← map_negate_signed fun f hf => ih f hf positive]
      cases positive
      · exact negate_and (canonical_map_signed false fs)
      · exact negate_or (canonical_map_signed true fs)
  | till l r ihl ihr =>
      cases positive
      · exact congrArg₂ Formula.until (ihl false) (ihr false)
      · exact congrArg₂ Formula.release (ihl true) (ihr true)
  | release l r ihl ihr =>
      cases positive
      · exact congrArg₂ Formula.release (ihl false) (ihr false)
      · exact congrArg₂ Formula.until (ihl true) (ihr true)
  | top => cases positive <;> rfl
  | bot => cases positive <;> rfl

theorem Canonical.within (h : f.Canonical) (hg : Within f g) : g.Canonical := by
  induction hg with
  | refl => exact h
  | tail _ hpart ih => exact ih.part hpart

def Flattened (wrap : List Formula → Formula) (fs : List Formula) : Prop :=
  ∃ s : OrderedSet Formula, s.toList = fs ∧ 2 ≤ s.size ∧ ∀ g ∈ s, ∀ gs, g ≠ wrap gs

theorem ne_conj_of_conjuncts (h : f.conjuncts = [f]) (gs : List Formula) : f ≠ .conj gs := by
  rintro rfl
  have hsize : sizeOf gs = 1 + (1 + sizeOf gs) + 1 := by simpa [conjuncts] using congrArg sizeOf h
  omega

theorem ne_disj_of_disjuncts (h : f.disjuncts = [f]) (gs : List Formula) : f ≠ .disj gs := by
  rintro rfl
  have hsize : sizeOf gs = 1 + (1 + sizeOf gs) + 1 := by simpa [disjuncts] using congrArg sizeOf h
  omega

theorem Canonical.flattened_conj (h : (Formula.conj fs).Canonical) : Flattened .conj fs := by
  cases h with
  | @conj s hmembers hflat htwo =>
      exact ⟨s, rfl, htwo, fun g hg => ne_conj_of_conjuncts (hflat g hg)⟩

theorem Canonical.flattened_disj (h : (Formula.disj fs).Canonical) : Flattened .disj fs := by
  cases h with
  | @disj s hmembers hflat htwo =>
      exact ⟨s, rfl, htwo, fun g hg => ne_disj_of_disjuncts (hflat g hg)⟩

/-- The normal form is reached in one step and keeps what negation gives. Negating twice is bringing
to normal form, and in a normal form every conjunction and every disjunction, however deep, is
flattened. -/
theorem negation_involutive (f : Formula) :
    f.nnf.isNnf = true ∧ f.nnf.nnf = f.nnf ∧ f.negate.negate = f.nnf ∧ f.nnf.negate = f.negate ∧
    (∀ fs, Within f.nnf (.conj fs) → Flattened .conj fs) ∧
    ∀ fs, Within f.nnf (.disj fs) → Flattened .disj fs := by
  have hcanonical : f.nnf.Canonical := canonical_signed true f
  refine ⟨isNnf_signed true f, canonical_iff.1 hcanonical, negate_signed false f,
    negate_signed true f, ?_, ?_⟩
  · intro fs hfs
    exact (hcanonical.within hfs).flattened_conj
  · intro fs hfs
    exact (hcanonical.within hfs).flattened_disj

-- sets within sets, with no and with one member
example : (Formula.conj [.conj [.prop "p", .conj []], .disj [.disj [.prop "q"]]]).nnf =
    .conj [.prop "p", .prop "q", .top] := by decide +kernel

end Formula

end TemporalCheck
