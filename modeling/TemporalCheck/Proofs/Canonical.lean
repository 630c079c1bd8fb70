import TemporalCheck.Proofs.PropertyRun

namespace TemporalCheck

namespace Formula

variable {f g : Formula} {fs : List Formula} {s : OrderedSet Formula}

/-- Formulas with the given propositions and with negations above the given formulas, in which a
conjunction or disjunction has its two or more members in order, none of its own kind. -/
inductive Gathered (atom : String → Prop) (negated : Formula → Prop) : Formula → Prop
  | prop {p : String} (hp : atom p) : Gathered atom negated (.prop p)
  | neg {f : Formula} (hf : Gathered atom negated f) (hnegated : negated f) :
      Gathered atom negated (.neg f)
  | next {f : Formula} (hf : Gathered atom negated f) : Gathered atom negated (.next f)
  | conj {s : OrderedSet Formula} (hmembers : ∀ f ∈ s.toList, Gathered atom negated f)
      (hflat : ∀ f ∈ s.toList, f.conjuncts = [f]) (htwo : 2 ≤ s.toList.length) :
      Gathered atom negated (.conj s.toList)
  | disj {s : OrderedSet Formula} (hmembers : ∀ f ∈ s.toList, Gathered atom negated f)
      (hflat : ∀ f ∈ s.toList, f.disjuncts = [f]) (htwo : 2 ≤ s.toList.length) :
      Gathered atom negated (.disj s.toList)
  | till {l r : Formula} (hl : Gathered atom negated l) (hr : Gathered atom negated r) :
      Gathered atom negated (.until l r)
  | release {l r : Formula} (hl : Gathered atom negated l) (hr : Gathered atom negated r) :
      Gathered atom negated (.release l r)
  | top : Gathered atom negated .top
  | bot : Gathered atom negated .bot

namespace Gathered

variable {atom : String → Prop} {negated : Formula → Prop}

theorem conjunct (h : Gathered atom negated f) (hg : g ∈ f.conjuncts) :
    Gathered atom negated g ∧ g.conjuncts = [g] := by
  cases h with
  | conj hmembers hflat htwo => exact ⟨hmembers g hg, hflat g hg⟩
  | _ =>
      obtain rfl := List.mem_singleton.1 hg
      exact ⟨by constructor <;> assumption, rfl⟩

theorem disjunct (h : Gathered atom negated f) (hg : g ∈ f.disjuncts) :
    Gathered atom negated g ∧ g.disjuncts = [g] := by
  cases h with
  | disj hmembers hflat htwo => exact ⟨hmembers g hg, hflat g hg⟩
  | _ =>
      obtain rfl := List.mem_singleton.1 hg
      exact ⟨by constructor <;> assumption, rfl⟩

theorem part (h : Gathered atom negated f) (hg : g ∈ f.parts) : Gathered atom negated g := by
  cases h with
  | neg hf | next hf =>
      obtain rfl := List.mem_singleton.1 hg
      exact hf
  | conj hmembers hflat htwo => exact hmembers g hg
  | disj hmembers hflat htwo => exact hmembers g hg
  | till hl hr | release hl hr =>
      simp only [parts, List.mem_cons, List.not_mem_nil, or_false] at hg
      rcases hg with rfl | rfl <;> assumption
  | _ => cases hg

end Gathered

abbrev Canonical : Formula → Prop := Gathered (fun _ => True) fun f => ∃ p, f = .prop p

/-- How `Formula.and` and `Formula.or` build formulas, each by definition: `parts` is what a formula
contributes, `wrap` puts two or more members together, and no members give `unit`. -/
def gather (unit : Formula) (wrap : List Formula → Formula) (parts : Formula → List Formula)
    (fs : List Formula) : Formula :=
  match (OrderedSet.ofList (fs.flatMap parts)).toList with
  | [] => unit
  | [f] => f
  | fs => wrap fs

section

variable {unit : Formula} {wrap : List Formula → Formula} {parts : Formula → List Formula}

/-- What holds of the unit, of all contributions and of what is put together from them holds of the
result. -/
theorem gather_induction {P : Formula → Prop} (hunit : P unit)
    (hparts : ∀ f ∈ fs, ∀ g ∈ parts f, P g ∧ parts g = [g])
    (hwrap : ∀ s : OrderedSet Formula, (∀ g ∈ s.toList, P g) → (∀ g ∈ s.toList, parts g = [g]) →
      2 ≤ s.toList.length → P (wrap s.toList)) : P (gather unit wrap parts fs) := by
  have hmember : ∀ g ∈ (OrderedSet.ofList (fs.flatMap parts)).toList, P g ∧ parts g = [g] := by
    intro g hg
    obtain ⟨f, hf, hg⟩ := List.mem_flatMap.1 (OrderedSet.mem_ofList.1 hg)
    exact hparts f hf g hg
  rw [gather]
  split
  · exact hunit
  · rename_i g hg
    exact (hmember g (by simp [hg])).1
  · rename_i hnil hone
    refine hwrap _ (fun g hg => (hmember g hg).1) (fun g hg => (hmember g hg).2) ?_
    rcases hs : (OrderedSet.ofList (fs.flatMap parts)).toList with _ | ⟨a, _ | ⟨b, gs⟩⟩
    · exact absurd hs hnil
    · exact absurd hs (hone a)
    · simp

theorem gather_of_mem_iff (hs : ∀ f, f ∈ s ↔ f ∈ fs.flatMap parts) (htwo : 2 ≤ s.toList.length) :
    gather unit wrap parts fs = wrap s.toList := by
  have hset : OrderedSet.ofList (fs.flatMap parts) = s := by
    apply OrderedSet.eq_of_mem_iff
    intro g
    rw [OrderedSet.mem_ofList, hs]
  rw [gather, hset]
  split
  · simp_all
  · simp_all
  · rfl

/-- Members that contribute only themselves are not taken apart. -/
theorem gather_eq_wrap (hflat : ∀ f ∈ fs, parts f = [f]) (hs : ∀ f, f ∈ s ↔ f ∈ fs)
    (htwo : 2 ≤ s.toList.length) : gather unit wrap parts fs = wrap s.toList := by
  refine gather_of_mem_iff (fun f => ?_) htwo
  rw [List.flatMap_congr hflat, List.flatMap_singleton', hs]

theorem gather_congr {gs : List Formula} (h : ∀ g, g ∈ fs.flatMap parts ↔ g ∈ gs.flatMap parts) :
    gather unit wrap parts fs = gather unit wrap parts gs := by
  have hset : OrderedSet.ofList (fs.flatMap parts) = OrderedSet.ofList (gs.flatMap parts) := by
    apply OrderedSet.eq_of_mem_iff
    intro g
    rw [OrderedSet.mem_ofList, OrderedSet.mem_ofList, h]
  rw [gather, gather, hset]

theorem mem_parts_gather (hwrap : ∀ l, parts (wrap l) = l) (hflat : ∀ g ∈ f :: fs, parts g = [g]) :
    g ∈ parts (gather unit wrap parts (f :: fs)) ↔ g ∈ f :: fs := by
  have hmem : ∀ g, g ∈ (OrderedSet.ofList (f :: fs)).toList ↔ g ∈ f :: fs :=
    fun g => OrderedSet.mem_ofList
  rw [← hmem, gather, List.flatMap_congr hflat, List.flatMap_singleton']
  split
  · rename_i hnil
    simpa [hnil] using hmem f
  · rename_i e he
    rw [he, hflat e ((hmem e).1 (by simp [he]))]
  · rw [hwrap]

theorem foldl_gather (hwrap : ∀ l, parts (wrap l) = l) (hflat : ∀ g ∈ f :: fs, parts g = [g]) :
    fs.foldl (fun f g => gather unit wrap parts [f, g]) f = gather unit wrap parts (f :: fs) := by
  induction fs using List.reverseRecOn with
  | nil =>
      rw [gather, List.flatMap_singleton, hflat f (by simp)]
      rfl
  | append_singleton fs g ih =>
      have hmembers : ∀ e ∈ f :: fs, parts e = [e] := by
        intro e he
        apply hflat
        rw [← List.cons_append]
        exact List.mem_append_left [g] he
      have hall : (f :: (fs ++ [g])).flatMap parts = f :: fs ++ [g] := by
        rw [List.flatMap_congr hflat, List.flatMap_singleton', List.cons_append]
      rw [List.foldl_concat, ih hmembers]
      apply gather_congr
      intro e
      rw [hall, List.flatMap_cons, List.flatMap_singleton, hflat g (by simp), List.mem_append,
        mem_parts_gather hwrap hmembers, List.mem_append]

/-- Gathering the members one after the other. -/
theorem foldl_gather_eq_wrap (hwrap : ∀ l, parts (wrap l) = l) (hs : s.toList = f :: fs)
    (hflat : ∀ g ∈ f :: fs, parts g = [g]) (htwo : 2 ≤ (f :: fs).length) :
    fs.foldl (fun f g => gather unit wrap parts [f, g]) f = wrap (f :: fs) := by
  rw [foldl_gather hwrap hflat, ← hs]
  rw [← hs] at hflat htwo
  exact gather_eq_wrap hflat (fun g => Iff.rfl) htwo

end

namespace Gathered

variable {atom : String → Prop} {negated : Formula → Prop}

theorem and (h : ∀ f ∈ fs, Gathered atom negated f) : Gathered atom negated (Formula.and fs) :=
  gather_induction .top (fun f hf _ => (h f hf).conjunct) fun _ => .conj

theorem or (h : ∀ f ∈ fs, Gathered atom negated f) : Gathered atom negated (Formula.or fs) :=
  gather_induction .bot (fun f hf _ => (h f hf).disjunct) fun _ => .disj

/-- Bringing a formula to normal form gathers it, whatever it was built like. -/
theorem signed {H : Formula → Prop} (hparts : ∀ f g, H f → g ∈ f.parts → H g)
    (hprop : ∀ p, H (.prop p) → atom p) (hnegated : ∀ p, negated (.prop p)) (h : H f)
    (positive : Bool) : Gathered atom negated (f.signed positive) := by
  refine signed_of_parts hparts (fun p hp => ?_) (fun _ _ _ => .next) (fun _ => .and) (fun _ => .or)
    (fun _ _ hl hr => ⟨.till hl hr, .release hl hr⟩) .top .bot h positive
  exact ⟨.prop (hprop p hp), .neg (.prop (hprop p hp)) (hnegated p)⟩

end Gathered

theorem canonical_signed (positive : Bool) (f : Formula) : (f.signed positive).Canonical :=
  .signed (H := fun _ => True) (fun _ _ _ _ => trivial) (fun _ _ => trivial)
    (fun p => ⟨p, rfl⟩) trivial positive

theorem canonical_iff : f.Canonical ↔ f.nnf = f := by
  refine ⟨fun h => ?_, fun h => h ▸ canonical_signed true f⟩
  induction h with
  | prop _ => rfl
  | neg _ hnegated =>
      obtain ⟨p, rfl⟩ := hnegated
      rfl
  | next hf ih => exact congrArg Formula.next ih
  | @conj s hmembers hflat htwo ih =>
      have hmap : s.toList.map (signed true) = s.toList :=
        (List.map_congr_left ih).trans (List.map_id _)
      rw [nnf, signed, if_pos rfl, signedAll_eq_map, hmap]
      exact gather_eq_wrap hflat (fun f => Iff.rfl) htwo
  | @disj s hmembers hflat htwo ih =>
      have hmap : s.toList.map (signed true) = s.toList :=
        (List.map_congr_left ih).trans (List.map_id _)
      rw [nnf, signed, if_pos rfl, signedAll_eq_map, hmap]
      exact gather_eq_wrap hflat (fun f => Iff.rfl) htwo
  | till hl hr ihl ihr => exact congrArg₂ Formula.until ihl ihr
  | release hl hr ihl ihr => exact congrArg₂ Formula.release ihl ihr
  | top => rfl
  | bot => rfl

def negations (s : OrderedSet Formula) : OrderedSet Formula := .ofList (s.toList.map negate)

theorem length_negations (hinv : ∀ f ∈ s, f.negate.negate = f) :
    (negations s).toList.length = s.toList.length := by
  have hnodup : (s.toList.map negate).Nodup := by
    refine List.Nodup.map_on (fun f hf g hg heq => ?_) s.nodup
    rw [← hinv f hf, heq, hinv g hg]
  rw [negations, (OrderedSet.perm_ofList hnodup).length_eq, List.length_map]

theorem mem_map_negations (hinv : ∀ f ∈ s, f.negate.negate = f) :
    g ∈ s ↔ g ∈ (negations s).toList.map negate := by
  constructor
  · intro hg
    exact List.mem_map.2 ⟨g.negate, OrderedSet.mem_ofList.2 (List.mem_map_of_mem hg), hinv g hg⟩
  · intro hg
    obtain ⟨_, hmem, rfl⟩ := List.mem_map.1 hg
    obtain ⟨f, hf, rfl⟩ := List.mem_map.1 (OrderedSet.mem_ofList.1 hmem)
    exact (hinv f hf).symm ▸ hf

theorem negate_conj (hinv : ∀ f ∈ s, f.negate.negate = f)
    (hflat : ∀ f ∈ s, f.negate.disjuncts = [f.negate]) (htwo : 2 ≤ s.toList.length) :
    (Formula.conj s.toList).negate = .disj (negations s).toList := by
  rw [negate, signed, if_neg (by decide), signedAll_eq_map]
  refine gather_eq_wrap (fun g hg => ?_) (fun g => OrderedSet.mem_ofList)
    (by rwa [length_negations hinv])
  obtain ⟨f, hf, rfl⟩ := List.mem_map.1 hg
  exact hflat f hf

theorem negate_disj (hinv : ∀ f ∈ s, f.negate.negate = f)
    (hflat : ∀ f ∈ s, f.negate.conjuncts = [f.negate]) (htwo : 2 ≤ s.toList.length) :
    (Formula.disj s.toList).negate = .conj (negations s).toList := by
  rw [negate, signed, if_neg (by decide), signedAll_eq_map]
  refine gather_eq_wrap (fun g hg => ?_) (fun g => OrderedSet.mem_ofList)
    (by rwa [length_negations hinv])
  obtain ⟨f, hf, rfl⟩ := List.mem_map.1 hg
  exact hflat f hf

/-- Negating twice gives the formula back. The other two facts keep the induction going: members
that are not flattened are not flattened in the negation either. -/
theorem Canonical.involution (h : f.Canonical) : f.negate.negate = f ∧
    (f.conjuncts = [f] → f.negate.disjuncts = [f.negate]) ∧
    (f.disjuncts = [f] → f.negate.conjuncts = [f.negate]) := by
  induction h with
  | prop _ => exact ⟨rfl, fun _ => rfl, fun _ => rfl⟩
  | neg _ hnegated =>
      obtain ⟨p, rfl⟩ := hnegated
      exact ⟨rfl, fun _ => rfl, fun _ => rfl⟩
  | next hf ih => exact ⟨congrArg Formula.next ih.1, fun _ => rfl, fun _ => rfl⟩
  | @conj s hmembers hflat htwo ih =>
      have hinv : ∀ f ∈ s, f.negate.negate = f := fun f hf => (ih f hf).1
      have hnegate := negate_conj hinv (fun f hf => (ih f hf).2.1 (hflat f hf)) htwo
      refine ⟨?_, fun hone => ?_, fun _ => by rw [hnegate]; rfl⟩
      · rw [hnegate, negate, signed, if_neg (by decide), signedAll_eq_map]
        exact gather_eq_wrap (fun g hg => hflat g ((mem_map_negations hinv).2 hg))
          (fun g => mem_map_negations hinv) htwo
      · have hlength := congrArg List.length hone
        simp only [conjuncts, List.length_singleton] at hlength
        omega
  | @disj s hmembers hflat htwo ih =>
      have hinv : ∀ f ∈ s, f.negate.negate = f := fun f hf => (ih f hf).1
      have hnegate := negate_disj hinv (fun f hf => (ih f hf).2.2 (hflat f hf)) htwo
      refine ⟨?_, fun _ => by rw [hnegate]; rfl, fun hone => ?_⟩
      · rw [hnegate, negate, signed, if_neg (by decide), signedAll_eq_map]
        exact gather_eq_wrap (fun g hg => hflat g ((mem_map_negations hinv).2 hg))
          (fun g => mem_map_negations hinv) htwo
      · have hlength := congrArg List.length hone
        simp only [disjuncts, List.length_singleton] at hlength
        omega
  | till hl hr ihl ihr => exact ⟨congrArg₂ Formula.until ihl.1 ihr.1, fun _ => rfl, fun _ => rfl⟩
  | release hl hr ihl ihr =>
      exact ⟨congrArg₂ Formula.release ihl.1 ihr.1, fun _ => rfl, fun _ => rfl⟩
  | top => exact ⟨rfl, fun _ => rfl, fun _ => rfl⟩
  | bot => exact ⟨rfl, fun _ => rfl, fun _ => rfl⟩

theorem negate_ne (f : Formula) : f.negate ≠ f := by
  intro h
  have hnot := holds_negate (w := fun _ _ => True) (f := f) (i := 0)
  rw [h] at hnot
  tauto

theorem Canonical.isElementary_negate (h : f.Canonical) (hf : f.isElementary = true) :
    f.negate.isElementary = true := by
  cases h with
  | neg _ hnegated =>
      obtain ⟨p, rfl⟩ := hnegated
      rfl
  | _ => first | rfl | cases hf

/-- An elementary canonical formula other than a constant. -/
theorem Canonical.literal_or_next (h : f.Canonical) (hf : f.isElementary = true) (htop : f ≠ .top)
    (hbot : f ≠ .bot) : f.isLiteral = true ∨ ∃ g, f = .next g := by
  cases h with
  | prop _ => exact .inl rfl
  | neg _ hnegated =>
      obtain ⟨p, rfl⟩ := hnegated
      exact .inl rfl
  | next hf => exact .inr ⟨_, rfl⟩
  | top => exact absurd rfl htop
  | bot => exact absurd rfl hbot
  | _ => cases hf

end Formula

namespace PropertyState

open Formula

variable {pending current set : OrderedSet Formula} {q : PropertyState} {w : Word} {i : Nat}

theorem Covers.kept (h : Covers pending current q) {g : Formula} (hg : g ∈ q) :
    g ∈ current ∨ g.isElementary = true ∧ g ≠ .top := by
  induction h with
  | done hbot => exact .inl hg
  | skip hleast hsound hredundant hrest ih => exact ih hg
  | keep hleast hsound hredundant hf hrest ih =>
      refine (ih hg).elim (fun hmem => ?_) .inr
      split at hmem
      · exact .inl hmem
      · rename_i htop
        rcases OrderedSet.mem_insert.1 hmem with rfl | hmem
        · exact .inr ⟨hf, htop⟩
        · exact .inl hmem
  | split hleast hsound hredundant hf hbranch hrest ih => exact ih hg

/-- A formula is kept only if its negation is not there yet, and by the involution it is not the
negation of one that is. -/
theorem Covers.consistent (h : Covers pending current q) (hcanonical : ∀ g ∈ q, g.Canonical)
    (hcurrent : ∀ g ∈ current, g.negate ∉ current) : ∀ g ∈ q, g.negate ∉ q := by
  induction h with
  | done hbot => exact hcurrent
  | skip hleast hsound hredundant hrest ih => exact ih hcanonical hcurrent
  | @keep pending rest current f q hleast hsound hredundant hf hrest ih =>
      refine ih hcanonical ?_
      split
      · exact hcurrent
      · rename_i htop
        rw [if_neg htop] at hrest
        have hkept := hrest.current_subset
        have hnegate : f.negate ∉ current := by
          intro hmem
          have helementary := (hcanonical f (hkept f (by simp))).isElementary_negate hf
          rw [(derivable_elementary helementary).2 (mem_context.2 (.inr (.inl hmem)))] at hsound
          cases hsound
        intro g hg hng
        rcases OrderedSet.mem_insert.1 hg with rfl | hg <;> rcases OrderedSet.mem_insert.1 hng
          with hng | hng
        · exact negate_ne _ hng
        · exact hnegate hng
        · refine hnegate ?_
          rw [← hng, (hcanonical g (hkept g (by simp [hg]))).involution.1]
          exact hg
        · exact hcurrent g hg hng
  | split hleast hsound hredundant hf hbranch hrest ih => exact ih hcanonical hcurrent

theorem holds_cover_iff : (∀ f ∈ set, Holds w f i) ↔ ∃ q ∈ cover set, ∀ g ∈ q, Holds w g i := by
  constructor
  · intro h
    obtain ⟨q, hq, hholds, -⟩ := exists_mem_cover h
    exact ⟨q, hq, hholds⟩
  · rintro ⟨q, hq, hholds⟩ f hf
    refine holds_of_derivable (fun g hg => ?_) (derivable_of_mem_cover hq hf)
    rcases OrderedSet.mem_insert.1 hg with rfl | hg
    · simp [Holds]
    · exact hholds g hg

theorem canonical_of_mem_cover (hset : ∀ f ∈ set, f.Canonical) (hq : q ∈ cover set) :
    ∀ g ∈ q, g.Canonical := by
  refine closed_of_mem_cover hq (fun f hf _ hel branch hbranch g hg => ?_) hset
  rcases mem_branch hel hbranch hg with hpart | rfl
  · exact hf.part hpart
  · exact .next hf

theorem elementary_of_mem_cover (hq : q ∈ cover set) {g : Formula} (hg : g ∈ q) :
    g.isElementary = true ∧ g ≠ .top :=
  ((mem_cover_iff.1 hq).kept hg).resolve_left (OrderedSet.not_mem_empty g)

/-- The cover of a set of formulas in normal form amounts to the set. Its states consist of
literals and `next`s, and none holds a formula together with its negation. -/
theorem cover_equivalent (set : OrderedSet Formula) (hset : ∀ f ∈ set, f.nnf = f) :
    (∀ w : Word, (∀ f ∈ set, Satisfies w f) ↔ ∃ q ∈ cover set, ∀ g ∈ q, Satisfies w g) ∧
    ∀ q ∈ cover set,
      (∀ g ∈ q, g.isLiteral = true ∨ ∃ a, g = .next a) ∧
      (∀ g, g ∈ q ↔ g ∈ q.literals ∨ ∃ a ∈ q.obligations, g = .next a) ∧
      ∀ g ∈ q, g.negate ∉ q := by
  refine ⟨fun w => holds_cover_iff, fun q hq => ?_⟩
  have hcanonical := canonical_of_mem_cover (fun f hf => canonical_iff.2 (hset f hf)) hq
  have hkinds : ∀ g ∈ q, g.isLiteral = true ∨ ∃ a, g = .next a := by
    intro g hg
    obtain ⟨helementary, htop⟩ := elementary_of_mem_cover hq hg
    have hbot : g ≠ .bot := by
      rintro rfl
      exact bot_not_mem_of_mem_cover hq hg
    exact (hcanonical g hg).literal_or_next helementary htop hbot
  refine ⟨hkinds, fun g => ⟨fun hg => ?_, ?_⟩, ?_⟩
  · rcases hkinds g hg with hliteral | ⟨a, rfl⟩
    · exact .inl (mem_literals.2 ⟨hg, hliteral⟩)
    · exact .inr ⟨a, mem_obligations.2 hg, rfl⟩
  · rintro (hg | ⟨a, ha, rfl⟩)
    · exact (mem_literals.1 hg).1
    · exact mem_obligations.1 ha
  · exact (mem_cover_iff.1 hq).consistent hcanonical fun g hg =>
      absurd hg (OrderedSet.not_mem_empty g)

def demands : OrderedSet Formula :=
  .ofList [.until (.prop "p") (.prop "q"), .release (.prop "r") (.next (.neg (.prop "p"))),
    .disj [.prop "r", .neg (.prop "q")]]

theorem demands_cover_equivalent : (∀ f ∈ demands.toList, f.nnf = f) ∧ (cover demands).size = 6 ∧
    (∀ w : Word, (∀ f ∈ demands, Satisfies w f) ↔ ∃ q ∈ cover demands, ∀ g ∈ q, Satisfies w g) ∧
    ∀ q ∈ cover demands, ∀ g ∈ q, (g.isLiteral = true ∨ ∃ a, g = .next a) ∧ g.negate ∉ q := by
  have hdemands : ∀ f ∈ demands.toList, f.nnf = f := by decide +kernel
  obtain ⟨hmeaning, hstates⟩ := cover_equivalent demands hdemands
  exact ⟨hdemands, by decide +kernel, hmeaning,
    fun q hq g hg => ⟨(hstates q hq).1 g hg, (hstates q hq).2.2 g hg⟩⟩

end PropertyState

end TemporalCheck
