import TemporalCheck.Proofs.AmpleSets

namespace TemporalCheck

theorem OrderedSet.size_insert {α : Type} [Ord α] [Std.TransOrd α] [Std.LawfulEqOrd α]
    {s : OrderedSet α} {a : α} (h : a ∉ s) : (s.insert a).size = s.size + 1 := by
  have hperm : (s.insert a).toList.Perm (a :: s.toList) := by
    refine (List.perm_ext_iff_of_nodup (nodup _) (List.nodup_cons.2 ⟨h, s.nodup⟩)).2 fun x => ?_
    rw [List.mem_cons]
    exact mem_insert
  exact hperm.length_eq

namespace Model

variable {m : Model} {vars relevant : OrderedSet String} {kept : OrderedSet Nat} {i : Nat}
  {t : Transition}

/-- The numbers of transitions that read relevant variables only. -/
def Supported (m : Model) (kept : OrderedSet Nat) (relevant : OrderedSet String) : Prop :=
  ∀ i ∈ kept, ∃ t, m.transitions[i]? = some t ∧ ∀ x ∈ t.reads, x ∈ relevant

theorem supported_empty (m : Model) (relevant : OrderedSet String) : m.Supported ∅ relevant :=
  fun i hi => absurd hi (OrderedSet.not_mem_empty i)

theorem Supported.size_le (h : m.Supported kept relevant) : kept.size ≤ m.transitions.length := by
  have hsubset : kept.toList ⊆ List.range m.transitions.length := by
    intro i hi
    obtain ⟨t, ht, -⟩ := h i hi
    exact List.mem_range.2 (List.getElem?_eq_some_iff.1 ht).1
  have hle := (kept.nodup.subperm hsubset).length_le
  rwa [List.length_range] at hle

theorem Supported.insert (h : m.Supported kept relevant) (ht : m.transitions[i]? = some t) :
    m.Supported (kept.insert i) (relevant.union t.reads) := by
  intro j hj
  rcases OrderedSet.mem_insert.1 hj with rfl | hj
  · exact ⟨t, ht, fun x hx => OrderedSet.mem_union.2 (.inl hx)⟩
  · obtain ⟨u, hu, hreads⟩ := h j hj
    exact ⟨u, hu, fun x hx => OrderedSet.mem_union.2 (.inr (hreads x hx))⟩

/-- A pass keeps something new, or finds nothing to keep. -/
theorem conePass_spec {ts : List (Transition × Nat)}
    (hts : ∀ p ∈ ts, m.transitions[p.2]? = some p.1) (h : m.Supported kept relevant) :
    m.Supported (conePass kept relevant ts).1 (conePass kept relevant ts).2 ∧
      (∀ x ∈ relevant, x ∈ (conePass kept relevant ts).2) ∧
      (kept.size < (conePass kept relevant ts).1.size ∨
        conePass kept relevant ts = (kept, relevant) ∧
        ∀ p ∈ ts, p.2 ∉ kept → ∀ x ∈ p.1.modifies, x ∉ relevant) := by
  induction ts generalizing kept relevant with
  | nil => exact ⟨h, fun x hx => hx, .inr ⟨rfl, by simp⟩⟩
  | cons p ts ih =>
      obtain ⟨t, i⟩ := p
      have ht : m.transitions[i]? = some t := hts _ List.mem_cons_self
      have hts' : ∀ p ∈ ts, m.transitions[p.2]? = some p.1 :=
        fun p hp => hts p (List.mem_cons_of_mem _ hp)
      rw [conePass]
      split
      · rename_i hnew
        simp only [Bool.and_eq_true, decide_eq_true_eq] at hnew
        obtain ⟨hsupported, hmono, hsize⟩ := ih hts' (h.insert ht)
        have hinsert := OrderedSet.size_insert hnew.1
        refine ⟨hsupported, fun x hx => hmono x (OrderedSet.mem_union.2 (.inr hx)), .inl ?_⟩
        rcases hsize with hlt | ⟨heq, -⟩
        · omega
        · rw [heq, hinsert]
          exact Nat.lt_succ_self _
      · rename_i hold
        obtain ⟨hsupported, hmono, hsize⟩ := ih hts' h
        refine ⟨hsupported, hmono, hsize.imp_right fun hsame => ⟨hsame.1, ?_⟩⟩
        rw [List.forall_mem_cons]
        refine ⟨fun hi => ?_, hsame.2⟩
        rw [← disjointNames_iff]
        simpa [hi] using hold

theorem mem_zipIdx_transitions : ∀ p ∈ m.transitions.zipIdx, m.transitions[p.2]? = some p.1 :=
  fun _ hp => List.mem_zipIdx_iff_getElem?.1 hp

theorem coneLoop_spec {n : Nat} (h : m.Supported kept relevant)
    (hn : m.transitions.length < kept.size + n) : ∃ relevant', (∀ x ∈ relevant, x ∈ relevant') ∧
      m.Supported (coneLoop m.transitions.zipIdx n kept relevant) relevant' ∧
      ∀ i t, m.transitions[i]? = some t → i ∉ coneLoop m.transitions.zipIdx n kept relevant →
        ∀ x ∈ t.modifies, x ∉ relevant' := by
  induction n generalizing kept relevant with
  | zero =>
      -- no more passes are left only if more is kept than there is
      exact absurd h.size_le (by omega)
  | succ n ih =>
      obtain ⟨hsupported, hmono, hsize⟩ := conePass_spec mem_zipIdx_transitions h
      rcases hpass : conePass kept relevant m.transitions.zipIdx with ⟨kept', relevant'⟩
      simp only [hpass, Prod.mk.injEq] at hsupported hmono hsize
      simp only [coneLoop, hpass]
      rcases hsize with hlt | ⟨⟨rfl, rfl⟩, hquiet⟩
      · rw [if_neg (Nat.ne_of_gt hlt)]
        obtain ⟨relevant'', hmono', hcone⟩ := ih hsupported (by omega)
        exact ⟨relevant'', fun x hx => hmono' x (hmono x hx), hcone⟩
      · rw [if_pos rfl]
        refine ⟨relevant', fun x hx => hx, h, fun i t ht hi => ?_⟩
        exact hquiet (t, i) (List.mem_zipIdx_iff_getElem?.2 ht) hi

def watched (m : Model) (vars : OrderedSet String) : OrderedSet String :=
  vars.insertAll (m.invariants.flatMap fun i => i.predicate.support.toList)

theorem mem_watched {x : String} :
    x ∈ m.watched vars ↔ x ∈ vars ∨ ∃ i ∈ m.invariants, x ∈ i.predicate.support := by
  rw [watched, OrderedSet.mem_insertAll, List.mem_flatMap, or_comm]
  exact Iff.rfl

/-- All that the invariants and the kept transitions read is relevant, and nothing that another one
writes. -/
structure Insulates (m : Model) (vars : OrderedSet String) (relevant : OrderedSet String) :
    Prop where
  invariants : ∀ i ∈ m.invariants, ∀ x ∈ i.predicate.support, x ∈ relevant
  reads : ∀ i ∈ m.coneOfInfluence vars, ∀ t, m.transitions[i]? = some t →
    ∀ x ∈ t.reads, x ∈ relevant
  modifies : ∀ i t, m.transitions[i]? = some t → i ∉ m.coneOfInfluence vars →
    ∀ x ∈ t.modifies, x ∉ relevant

structure Cone (m : Model) (vars : OrderedSet String) (relevant : OrderedSet String) : Prop
    extends m.Insulates vars relevant where
  visible : ∀ x ∈ vars, x ∈ relevant

theorem exists_cone (m : Model) (vars : OrderedSet String) : ∃ relevant, m.Cone vars relevant := by
  obtain ⟨relevant, hmono, hsupported, hquiet⟩ := coneLoop_spec (n := m.transitions.length + 1)
    (m.supported_empty (m.watched vars)) (by omega)
  refine ⟨relevant, ⟨fun i hi x hx => ?_, fun i hi t ht x hx => ?_, hquiet⟩, fun x hx => ?_⟩
  · exact hmono x (mem_watched.2 (.inr ⟨i, hi, hx⟩))
  · obtain ⟨t', ht', hreads⟩ := hsupported i hi
    obtain rfl : t' = t := Option.some.inj (ht'.symm.trans ht)
    exact hreads x hx
  · exact hmono x (mem_watched.2 (.inl hx))

end Model

/-- From states of the same length the actions lead to states that differ only where they did
before. -/
theorem Transition.Updates.transfer {t : Transition} {vars : List Variable}
    {s s₂ u u' w : ModelState} {as : List Action} (h : t.Updates vars s as u u')
    (hvalues : ∀ a ∈ as, ∀ v, t.values s v a = t.values s₂ v a) (hlen : u.length = w.length) :
    ∃ w', t.Updates vars s₂ as w w' ∧ ∀ i : Nat, u[i]? = w[i]? → u'[i]? = w'[i]? := by
  induction as generalizing u w with
  | nil =>
      obtain rfl : u' = u := h
      exact ⟨w, rfl, fun i hi => hi⟩
  | cons a as ih =>
      obtain ⟨i, v, xs, x, htarget, hxs, hx, hrest⟩ := h
      obtain ⟨w', hw', hsame⟩ :=
        ih (w := w.set i x) hrest (fun a ha => hvalues a (by simp [ha])) (by simpa using hlen)
      refine ⟨w', ⟨i, v, xs, x, htarget, hvalues a (by simp) v ▸ hxs, hx, hw'⟩,
        fun j hj => hsame j ?_⟩
      rw [List.getElem?_set, List.getElem?_set, hlen, hj]

namespace Model

variable {m : Model} {options options' : ProgramOptions} {relevant : OrderedSet String}
  {t : Transition} {s s' u v : ModelState}

structure Agree (m : Model) (relevant : OrderedSet String) (s u : ModelState) : Prop where
  length : s.length = u.length
  lookup : ∀ x ∈ relevant, lookup m.place s x = lookup m.place u x

theorem Agree.refl (m : Model) (relevant : OrderedSet String) (s : ModelState) :
    m.Agree relevant s s :=
  ⟨rfl, fun _ _ => rfl⟩

theorem Agree.symm (h : m.Agree relevant s u) : m.Agree relevant u s :=
  ⟨h.length.symm, fun x hx => (h.lookup x hx).symm⟩

theorem Agree.trans (h : m.Agree relevant s u) (h' : m.Agree relevant u v) : m.Agree relevant s v :=
  ⟨h.length.trans h'.length, fun x hx => (h.lookup x hx).trans (h'.lookup x hx)⟩

theorem mem_active_configured {n : Nat} : (t, n) ∈ (m.configured options).active ↔
    n ∈ (m.configured options).preparation.active ∧ ∃ t₀, m.transitions[n]? = some t₀ ∧
      t₀.resolve m.place = t := by
  have hresolved : (m.configured options).transitions = m.transitions.map (·.resolve m.place) := rfl
  simp only [active, List.mem_filterMap, hresolved, List.getElem?_map, Option.map_map,
    Option.map_eq_some_iff, Function.comp_apply, Prod.mk.injEq]
  constructor
  · rintro ⟨_, hn, t₀, ht₀, rfl, rfl⟩
    exact ⟨hn, t₀, ht₀, rfl⟩
  · rintro ⟨hn, t₀, ht₀, rfl⟩
    exact ⟨n, hn, t₀, ht₀, rfl, rfl⟩

theorem active_sliced (hsliced : options.slicing = true) :
    (m.configured options).preparation.active = m.coneOfInfluence (m.visibleVars options.visible) :=
  if_pos hsliced

/-- Actions that assign the same values lead from states that agree to states that agree. -/
theorem Agree.updates (h : m.Agree relevant s u) {vars : List Variable}
    (hupdates : t.Updates vars s t.actions s s')
    (hvalues : ∀ a ∈ t.actions, ∀ v, t.values s v a = t.values u v a) :
    ∃ u', t.Updates vars u t.actions u u' ∧ m.Agree relevant s' u' := by
  obtain ⟨u', hupdates', hsame⟩ := hupdates.transfer hvalues h.length
  refine ⟨u', hupdates', ?_, fun x hx => ?_⟩
  · rw [hupdates.length_eq, hupdates'.length_eq, h.length]
  · have hx := h.lookup x hx
    unfold TemporalCheck.lookup at hx ⊢
    cases hi : m.place x with
    | none => rfl
    | some i =>
        rw [hi] at hx
        exact hsame i hx

theorem Agree.eval_invariant (h : m.Agree relevant s u)
    (hinvariants : ∀ i ∈ m.invariants, ∀ x ∈ i.predicate.support, x ∈ relevant) :
    ∀ i ∈ (m.configured options).invariants, i.predicate.eval s = i.predicate.eval u := by
  intro i hi
  obtain ⟨i₀, hi₀, rfl⟩ := List.mem_map.1 hi
  exact Predicate.eval_congr fun x hx => h.lookup x (hinvariants i₀ hi₀ x hx)

/-- A step that reads relevant variables only is possible in a state that agrees, and leads to
one. -/
theorem Moves.transfer (h : (m.configured options).Moves t s s')
    (hactive : ∃ n, (t, n) ∈ (m.configured options').active) (hreads : ∀ x ∈ t.reads, x ∈ relevant)
    (hinvariants : ∀ i ∈ m.invariants, ∀ x ∈ i.predicate.support, x ∈ relevant)
    (hagree : m.Agree relevant s u) : ∃ u', (m.configured options').Moves t u u' ∧
      m.Agree relevant s' u' := by
  have hres : t.Resolved m.place := (resolved_configured m options).transitions t h.mem
  have hlookup : ∀ x ∈ t.reads, TemporalCheck.lookup m.place s x =
      TemporalCheck.lookup m.place u x :=
    fun x hx => hagree.lookup x (hreads x hx)
  obtain ⟨u', hupdates, hagree'⟩ :=
    hagree.updates h.updates fun a ha v => hres.values_congr hlookup ha v
  refine ⟨u', ⟨hactive, hres.isEnabled_congr hlookup ▸ h.enabled, hupdates, fun i hi => ?_⟩,
    hagree'⟩
  rw [← hagree'.eval_invariant hinvariants i hi]
  exact h.valid i hi

theorem Moves.unslice (h : (m.configured options).Moves t s s') (hsliced : options.slicing = true)
    (hfull : options'.slicing = false)
    (hcone : m.Insulates (m.visibleVars options.visible) relevant) (hagree : m.Agree relevant s u) :
    ∃ u', (m.configured options').Moves t u u' ∧ m.Agree relevant s' u' := by
  obtain ⟨n, hn⟩ := h.active
  obtain ⟨hkept, t₀, ht₀, rfl⟩ := mem_active_configured.1 hn
  rw [active_sliced hsliced] at hkept
  refine h.transfer (exists_mem_active hfull (List.mem_of_getElem? ht₀))
    (fun x hx => ?_) hcone.invariants hagree
  rw [t₀.reads_resolve] at hx
  exact hcone.reads n hkept t₀ ht₀ x hx

/-- A step of the full model is one of the sliced model, or does not show. -/
theorem Moves.slice (h : (m.configured options').Moves t s s') (hsliced : options.slicing = true)
    (hcone : m.Insulates (m.visibleVars options.visible) relevant) (hagree : m.Agree relevant s u) :
    m.Agree relevant s' u ∨ ∃ u', (m.configured options).Moves t u u' ∧ m.Agree relevant s' u' := by
  obtain ⟨n, hn⟩ := h.active
  obtain ⟨-, t₀, ht₀, rfl⟩ := mem_active_configured.1 hn
  by_cases hkept : n ∈ m.coneOfInfluence (m.visibleVars options.visible)
  · right
    refine h.transfer ⟨n, mem_active_configured.2 ⟨?_, t₀, ht₀, rfl⟩⟩
      (fun x hx => ?_) hcone.invariants hagree
    · rwa [active_sliced hsliced]
    · rw [t₀.reads_resolve] at hx
      exact hcone.reads n hkept t₀ ht₀ x hx
  · left
    refine Agree.trans ⟨h.length_eq,
      fun x hx => h.lookup_eq (resolved_configured m options') fun hmem => ?_⟩ hagree
    rw [t₀.modifies_resolve] at hmem
    exact hcone.modifies n t₀ ht₀ hkept x hmem hx

end Model

end TemporalCheck
