import TemporalCheck.Proofs.ModelStep
import TemporalCheck.Proofs.Stutter

namespace TemporalCheck

theorem getElem?_of_placeOf {names : List String} {x : String} {i : Nat}
    (h : placeOf names x = some i) : names[i]? = some x := by
  simp only [placeOf, Option.map_eq_some_iff] at h
  obtain ⟨j, hj, rfl⟩ := h
  obtain ⟨hlt, heq, -⟩ := List.findIdx?_eq_some_iff_getElem.1 hj
  rw [List.length_reverse] at hlt
  rw [List.getElem_reverse, beq_iff_eq] at heq
  rw [List.getElem?_eq_getElem (by omega), heq]

theorem placeOf_injective {names : List String} {x y : String} {i : Nat}
    (hx : placeOf names x = some i) (hy : placeOf names y = some i) : x = y := by
  have hxy := (getElem?_of_placeOf hx).symm.trans (getElem?_of_placeOf hy)
  exact Option.some.inj hxy

/-- A variable that a transition does not write keeps its value. -/
theorem Transition.Updates.lookup_eq {t : Transition} {vars : List Variable} {s u u' : ModelState}
    {names : List String} {x : String} (h : t.Updates vars s t.actions u u')
    (ht : t.Resolved (placeOf names)) (hx : x ∉ t.modifies) :
    lookup (placeOf names) u' x = lookup (placeOf names) u x := by
  unfold lookup
  cases hi : placeOf names x with
  | none => rfl
  | some i =>
      refine h.getElem?_eq fun a ha v htarget => hx ?_
      rw [placeOf_injective hi (ht.target_eq_ok ha htarget)]
      exact var_mem_modifies ha

section Overlay

variable {own : Nat → Prop} [DecidablePred own] {s u : ModelState} {i : Nat}

def overlay (own : Nat → Prop) [DecidablePred own] (s u : ModelState) : ModelState :=
  u.mapIdx fun i x => if own i then s.getD i x else x

theorem length_overlay : (overlay own s u).length = u.length := List.length_mapIdx

theorem getElem?_overlay (hlen : s.length = u.length) (i : Nat) :
    (overlay own s u)[i]? = if own i then s[i]? else u[i]? := by
  rw [overlay, List.getElem?_mapIdx]
  by_cases hi : i < u.length
  · have hs : i < s.length := by omega
    rw [List.getElem?_eq_getElem hi, List.getElem?_eq_getElem hs]
    split <;> simp_all
  · have hs : ¬ i < s.length := by omega
    simp [hi, hs]

theorem overlay_set (hlen : s.length = u.length) (hi : own i) (x : Value) :
    overlay own (s.set i x) u = (overlay own s u).set i x := by
  apply List.ext_getElem?
  intro j
  rw [getElem?_overlay (by simpa using hlen), List.getElem?_set, List.getElem?_set,
    getElem?_overlay hlen, length_overlay, hlen]
  by_cases hij : i = j
  · subst hij
    simp [hi]
  · simp [hij]

theorem overlay_not (hlen : s.length = u.length) :
    overlay (fun i => ¬ own i) s u = overlay own u s := by
  apply List.ext_getElem?
  intro j
  rw [getElem?_overlay hlen, getElem?_overlay hlen.symm, ite_not]

theorem Transition.Updates.overlay {t : Transition} {vars : List Variable} {s u u' : ModelState}
    {as : List Action} (h : t.Updates vars s as u u') (own : Nat → Prop) [DecidablePred own]
    (s₂ w : ModelState) (hown : ∀ a ∈ as, ∀ i v, t.target vars a = .ok (i, v) → own i)
    (hvalues : ∀ a ∈ as, ∀ v, t.values s v a = t.values s₂ v a) (hlen : u.length = w.length) :
    t.Updates vars s₂ as (TemporalCheck.overlay own u w) (TemporalCheck.overlay own u' w) := by
  induction as generalizing u with
  | nil => rw [show u' = u from h]; rfl
  | cons a as ih =>
      obtain ⟨i, v, xs, x, htarget, hxs, hx, hrest⟩ := h
      refine ⟨i, v, xs, x, htarget, hvalues a (by simp) v ▸ hxs, hx, ?_⟩
      rw [← overlay_set hlen (hown a (by simp) i v htarget)]
      exact ih hrest (fun a ha => hown a (by simp [ha])) (fun a ha => hvalues a (by simp [ha]))
        (by simpa using hlen)

end Overlay

namespace Model

variable {m : Model} {agent x : String} {t : Transition} {s s' u v w : ModelState}
  {run : Nat → ModelState} {k : Nat}

def Writes (m : Model) (agent x : String) : Prop :=
  ∃ t ∈ m.transitions, t.agent = agent ∧ x ∈ t.modifies

def OthersWrite (m : Model) (agent x : String) : Prop :=
  ∃ t ∈ m.transitions, t.agent ≠ agent ∧ x ∈ t.modifies

structure Resolved (m : Model) : Prop where
  transitions : ∀ t ∈ m.transitions, t.Resolved m.place
  invariants : ∀ i ∈ m.invariants, i.predicate.resolve m.place = i.predicate

/-- An agent apart: it shares what it reads or writes with no transition of the others that writes
it, and no invariant reads both what it writes and what others write. -/
structure Apart (m : Model) (agent : String) : Prop extends m.Resolved where
  writes : ∀ x, m.Writes agent x → ¬ m.OthersWrite agent x
  unread : ∀ t ∈ m.transitions, t.agent ≠ agent → ∀ x ∈ t.reads, ¬ m.Writes agent x
  reads : ∀ t ∈ m.transitions, t.agent = agent → ∀ x ∈ t.reads, ¬ m.OthersWrite agent x
  uncoupled : ∀ i ∈ m.invariants, (∀ x ∈ i.predicate.support, ¬ m.Writes agent x) ∨
    ∀ x ∈ i.predicate.support, ¬ m.OthersWrite agent x

theorem Moves.mem (h : m.Moves t s s') : t ∈ m.transitions := by
  obtain ⟨n, hn⟩ := h.active
  exact mem_transitions_of_active hn

theorem Moves.length_eq (h : m.Moves t s s') : s'.length = s.length := h.updates.length_eq

theorem Moves.lookup_eq (h : m.Moves t s s') (hm : m.Resolved) (hx : x ∉ t.modifies) :
    lookup m.place s' x = lookup m.place s x := h.updates.lookup_eq (hm.transitions t h.mem) hx

def OwnPlace (m : Model) (agent : String) (i : Nat) : Prop :=
  ∃ t ∈ m.transitions, t.agent = agent ∧ ∃ x ∈ t.modifies.toList, m.place x = some i

instance : DecidablePred (m.OwnPlace agent) := fun i =>
  inferInstanceAs (Decidable (∃ t ∈ m.transitions, t.agent = agent ∧
    ∃ x ∈ t.modifies.toList, m.place x = some i))

theorem ownPlace_iff {i : Nat} : m.OwnPlace agent i ↔ ∃ x, m.Writes agent x ∧
    m.place x = some i := by
  constructor
  · rintro ⟨t, ht, hagent, x, hx, hi⟩
    exact ⟨x, ⟨t, ht, hagent, hx⟩, hi⟩
  · rintro ⟨x, ⟨t, ht, hagent, hx⟩, hi⟩
    exact ⟨t, ht, hagent, x, hx, hi⟩

/-- A state with the variables that the agent writes as in `s`, the others as in `u`. -/
def mix (m : Model) (agent : String) (s u : ModelState) : ModelState :=
  overlay (m.OwnPlace agent) s u

theorem lookup_mix_own (hlen : s.length = u.length) (hx : m.Writes agent x) :
    lookup m.place (m.mix agent s u) x = lookup m.place s x := by
  unfold lookup
  cases hi : m.place x with
  | none => rfl
  | some i => exact (getElem?_overlay hlen i).trans (if_pos (ownPlace_iff.2 ⟨x, hx, hi⟩))

theorem lookup_mix_other (hlen : s.length = u.length) (hx : ¬ m.Writes agent x) :
    lookup m.place (m.mix agent s u) x = lookup m.place u x := by
  unfold lookup
  cases hi : m.place x with
  | none => rfl
  | some i =>
      refine (getElem?_overlay hlen i).trans (if_neg fun hown => ?_)
      obtain ⟨y, hy, hyi⟩ := ownPlace_iff.1 hown
      exact hx (placeOf_injective hi hyi ▸ hy)

theorem mix_eq_right (hlen : s.length = u.length)
    (h : ∀ x, m.Writes agent x → lookup m.place s x = lookup m.place u x) :
    m.mix agent s u = u := by
  apply List.ext_getElem?
  intro i
  rw [mix, getElem?_overlay hlen]
  split
  · rename_i hi
    obtain ⟨x, hx, hxi⟩ := ownPlace_iff.1 hi
    simpa [lookup, hxi] using h x hx
  · rfl

theorem mix_mix (hlen : s.length = u.length) (hlen' : u.length = w.length) :
    m.mix agent (m.mix agent s u) w = m.mix agent s w := by
  apply List.ext_getElem?
  intro i
  rw [mix, mix, mix, getElem?_overlay (length_overlay.trans hlen'), getElem?_overlay hlen,
    getElem?_overlay (hlen.trans hlen')]
  split <;> rfl

theorem Moves.mix_eq (h : m.Moves t s s') (hm : m.Resolved) (ht : t.agent = agent) :
    m.mix agent s' s = s' := by
  apply List.ext_getElem?
  intro i
  rw [mix, getElem?_overlay h.length_eq]
  split
  · rfl
  · rename_i hi
    refine (h.updates.getElem?_eq fun a ha v htarget => hi ?_).symm
    exact ⟨t, h.mem, ht, a.var, Transition.var_mem_modifies ha,
      (hm.transitions t h.mem).target_eq_ok ha htarget⟩

theorem Valid.mix (hu : m.Valid u) (hv : m.Valid v) (ha : m.Apart agent)
    (hlen : u.length = v.length) (h : ∀ x, ¬ m.Writes agent x → ¬ m.OthersWrite agent x →
      lookup m.place u x = lookup m.place v x) :
    m.Valid (m.mix agent u v) := by
  intro i hi
  rw [← ha.invariants i hi]
  rcases ha.uncoupled i hi with hwrites | hothers
  · rw [Predicate.eval_congr fun x hx => lookup_mix_other hlen (hwrites x hx), ha.invariants i hi]
    exact hv i hi
  · rw [Predicate.eval_congr (u := u), ha.invariants i hi]
    · exact hu i hi
    · intro x hx
      by_cases hw : m.Writes agent x
      · exact lookup_mix_own hlen hw
      · rw [lookup_mix_other hlen hw, h x hw (hothers x hx)]

/-- A step of another agent goes on as before when the agent has moved. -/
theorem Moves.mix_other (h : m.Moves t s s') (ha : m.Apart agent) (ht : t.agent ≠ agent)
    (hlen : u.length = s.length) (hvalid : m.Valid (m.mix agent u s')) :
    m.Moves t (m.mix agent u s) (m.mix agent u s') := by
  have hres := ha.transitions t h.mem
  have hreads : ∀ x ∈ t.reads, lookup m.place s x = lookup m.place (m.mix agent u s) x :=
    fun x hx => (lookup_mix_other hlen (ha.unread t h.mem ht x hx)).symm
  refine ⟨h.active, hres.isEnabled_congr hreads ▸ h.enabled, ?_, hvalid⟩
  have hupdates := h.updates.overlay (fun i => ¬ m.OwnPlace agent i) (m.mix agent u s) u
    (fun a haction i v htarget hown => ?_) (fun a haction v => hres.values_congr hreads haction v)
    hlen.symm
  · rwa [overlay_not hlen.symm, overlay_not (h.length_eq.trans hlen.symm)] at hupdates
  · obtain ⟨x, hx, hxi⟩ := ownPlace_iff.1 hown
    refine ha.writes x hx ⟨t, h.mem, ht, ?_⟩
    rw [placeOf_injective hxi (hres.target_eq_ok haction htarget)]
    exact Transition.var_mem_modifies haction

/-- A step of the agent is possible wherever the others have left its variables alone. -/
theorem Moves.mix_own (h : m.Moves t s s') (ha : m.Apart agent) (ht : t.agent = agent)
    (hlen : s.length = w.length)
    (hw : ∀ x, ¬ m.OthersWrite agent x → lookup m.place s x = lookup m.place w x)
    (hvalid : m.Valid (m.mix agent s' w)) : m.Moves t w (m.mix agent s' w) := by
  have hres := ha.transitions t h.mem
  have hreads : ∀ x ∈ t.reads, lookup m.place s x = lookup m.place w x :=
    fun x hx => hw x (ha.reads t h.mem ht x hx)
  refine ⟨h.active, hres.isEnabled_congr hreads ▸ h.enabled, ?_, hvalid⟩
  have hupdates := h.updates.overlay (m.OwnPlace agent) w w (fun a haction i v htarget => ?_)
    (fun a haction v => hres.values_congr hreads haction v) hlen
  · have hsame : overlay (m.OwnPlace agent) s w = w :=
      mix_eq_right hlen fun x hx => hw x (ha.writes x hx)
    rwa [hsame] at hupdates
  · exact ⟨t, h.mem, ht, a.var, Transition.var_mem_modifies haction,
      hres.target_eq_ok haction htarget⟩

/-- A path of single steps through states that satisfy the invariants; where nothing is left to do
it stays. -/
structure Path (m : Model) (run : Nat → ModelState) : Prop where
  start : m.Valid (run 0)
  step : ∀ i, (∃ t, m.Moves t (run i) (run (i + 1))) ∨ m.successors? (run i) = .ok [] ∧
    run (i + 1) = run i

namespace Path

theorem valid (h : m.Path run) (i : Nat) : m.Valid (run i) := by
  induction i with
  | zero => exact h.start
  | succ i ih =>
      rcases h.step i with ⟨t, ht⟩ | ⟨-, heq⟩
      · exact ht.valid
      · exact heq ▸ ih

theorem length_eq (h : m.Path run) (i j : Nat) : (run i).length = (run j).length := by
  have hzero : ∀ i, (run i).length = (run 0).length := by
    intro i
    induction i with
    | zero => rfl
    | succ i ih =>
        rcases h.step i with ⟨t, ht⟩ | ⟨-, heq⟩
        · exact ht.length_eq.trans ih
        · exact heq ▸ ih
  rw [hzero i, hzero j]

theorem drop (h : m.Path run) (n : Nat) : m.Path fun j => run (n + j) :=
  ⟨h.valid n, fun i => h.step (n + i)⟩

end Path

/-- The first `k` steps are steps of other agents. -/
def Quiet (m : Model) (agent : String) (run : Nat → ModelState) (k : Nat) : Prop :=
  ∀ j, j < k → ∃ t, t.agent ≠ agent ∧ m.Moves t (run j) (run (j + 1))

theorem Quiet.lookup_eq (h : m.Quiet agent run k) (hm : m.Resolved) (hx : ¬ m.OthersWrite agent x)
    {j : Nat} (hj : j ≤ k) : lookup m.place (run 0) x = lookup m.place (run j) x := by
  induction j with
  | zero => rfl
  | succ j ih =>
      obtain ⟨t, ht, hmove⟩ := h j hj
      rw [hmove.lookup_eq hm fun hmem => hx ⟨t, hmove.mem, ht, hmem⟩]
      exact ih (by omega)

/-- As long as the others move, a step that the agent can take at the beginning is open to it. -/
theorem Quiet.moves (h : m.Quiet agent run k) (hpath : m.Path run) (ha : m.Apart agent)
    (hmove : m.Moves t (run 0) s) (ht : t.agent = agent) {j : Nat} (hj : j ≤ k) :
    m.Moves t (run j) (m.mix agent s (run j)) := by
  refine hmove.mix_own ha ht (hpath.length_eq 0 j) (fun x hx => h.lookup_eq ha.toResolved hx hj) ?_
  refine hmove.valid.mix (hpath.valid j) ha (hmove.length_eq.trans (hpath.length_eq 0 j))
    fun x hw ho => ?_
  rw [← h.lookup_eq ha.toResolved ho hj]
  exact hmove.lookup_eq ha.toResolved fun hmem => hw ⟨t, hmove.mem, ht, hmem⟩

theorem Quiet.mix (h : m.Quiet agent run k) (hpath : m.Path run) (ha : m.Apart agent)
    (hmove : m.Moves t (run 0) s) (ht : t.agent = agent) {j : Nat} (hj : j < k) :
    ∃ t', m.Moves t' (m.mix agent s (run j)) (m.mix agent s (run (j + 1))) := by
  obtain ⟨t', ht', hmove'⟩ := h j hj
  exact ⟨t', hmove'.mix_other ha ht' (hmove.length_eq.trans (hpath.length_eq 0 j))
    (h.moves hpath ha hmove ht hj).valid⟩

theorem Path.quiet_of_forall (h : m.Path run) (ha : m.Apart agent) (hmove : m.Moves t (run 0) s)
    (ht : t.agent = agent) (hothers : ∀ j, j < k → ¬ ∃ t, t.agent = agent ∧
      m.Moves t (run j) (run (j + 1))) :
    m.Quiet agent run k := by
  induction k with
  | zero => exact fun j hj => by omega
  | succ k ih =>
      have hquiet := ih fun j hj => hothers j (by omega)
      intro j hj
      rcases Nat.lt_or_ge j k with hlt | hge
      · exact hquiet j hlt
      · obtain rfl : j = k := by omega
        rcases h.step j with ⟨t', hmove'⟩ | ⟨hrest, -⟩
        · exact ⟨t', fun hagent => hothers j hj ⟨t', hagent, hmove'⟩, hmove'⟩
        · -- where the agent can still move, not everything is done
          have hopen := (mem_successors? hrest).2 ⟨t, hquiet.moves h ha hmove ht (Nat.le_refl j)⟩
          simp at hopen

/-- The first step of the agent can be taken before the steps of the others that come before it. -/
theorem Quiet.moves_first (h : m.Quiet agent run k) (hpath : m.Path run) (ha : m.Apart agent)
    (hmove : m.Moves t (run k) (run (k + 1))) (ht : t.agent = agent) :
    m.Moves t (run 0) (m.mix agent (run (k + 1)) (run 0)) := by
  refine hmove.mix_own ha ht (hpath.length_eq k 0)
    (fun x hx => (h.lookup_eq ha.toResolved hx (Nat.le_refl k)).symm) ?_
  refine hmove.valid.mix hpath.start ha (hpath.length_eq (k + 1) 0) fun x hw ho => ?_
  rw [h.lookup_eq ha.toResolved ho (Nat.le_refl k)]
  exact hmove.lookup_eq ha.toResolved fun hmem => hw ⟨t, hmove.mem, ht, hmem⟩

theorem Quiet.exists_replay (h : m.Quiet agent run k) (hpath : m.Path run) (ha : m.Apart agent)
    (hmove : m.Moves t (run k) (run (k + 1))) (ht : t.agent = agent) :
    ∃ run', m.Path run' ∧ m.Moves t (run 0) (run' 0) ∧ (∀ j, j ≤ k → ∀ x, ¬ m.Writes agent x →
      lookup m.place (run' j) x = lookup m.place (run j) x) ∧ ∀ j, k ≤ j →
        run' j = run (j + 1) := by
  have hfirst := h.moves_first hpath ha hmove ht
  generalize hs : m.mix agent (run (k + 1)) (run 0) = s at hfirst
  have hlen : ∀ j, s.length = (run j).length :=
    fun j => hfirst.length_eq.trans (hpath.length_eq 0 j)
  have hlast : m.mix agent s (run k) = run (k + 1) := by
    rw [← hs, mix_mix (hpath.length_eq (k + 1) 0) (hpath.length_eq 0 k),
      hmove.mix_eq ha.toResolved ht]
  let run' : Nat → ModelState := fun j => if j ≤ k then m.mix agent s (run j) else run (j + 1)
  have hearly : ∀ j, j ≤ k → run' j = m.mix agent s (run j) := fun j hj => if_pos hj
  have hlate : ∀ j, k ≤ j → run' j = run (j + 1) := by
    intro j hj
    rcases Nat.eq_or_lt_of_le hj with rfl | hlt
    · rw [hearly k (Nat.le_refl k), hlast]
    · exact if_neg (by omega)
  have hstart := h.moves hpath ha hfirst ht (Nat.zero_le k)
  rw [← hearly 0 (Nat.zero_le k)] at hstart
  refine ⟨run', ⟨hstart.valid, fun j => ?_⟩, hstart, fun j hj x hx => ?_, hlate⟩
  · rcases Nat.lt_or_ge j k with hlt | hge
    · rw [hearly j (by omega), hearly (j + 1) hlt]
      exact .inl (h.mix hpath ha hfirst ht hlt)
    · rw [hlate j hge, hlate (j + 1) (by omega)]
      exact hpath.step (j + 1)
  · rw [hearly j hj]
    exact lookup_mix_other (hlen j) hx

/-- If an agent apart can move at the beginning of a path, then a path that begins with a step of
the agent goes through the same values of all variables that the agent does not write. -/
theorem Path.exists_replay (h : m.Path run) (ha : m.Apart agent) (hmove : m.Moves t (run 0) s)
    (ht : t.agent = agent) :
    ∃ run' e, m.Path run' ∧ (∃ t, t.agent = agent ∧ m.Moves t (run 0) (run' 0)) ∧ Stretch e ∧
      ∀ j x, ¬ m.Writes agent x → lookup m.place (run j) x = lookup m.place (run' (e j)) x := by
  by_cases hown : ∃ k t, t.agent = agent ∧ m.Moves t (run k) (run (k + 1))
  · classical
    obtain ⟨t', ht', hmove'⟩ := Nat.find_spec hown
    have hquiet : m.Quiet agent run (Nat.find hown) :=
      h.quiet_of_forall ha hmove ht fun j hj => Nat.find_min hown hj
    generalize Nat.find hown = k at hquiet hmove'
    obtain ⟨run', hpath, hfirst, hearly, hlate⟩ := hquiet.exists_replay h ha hmove' ht'
    refine ⟨run', _, hpath, ⟨t', ht', hfirst⟩, .pause k, fun j x hx => ?_⟩
    by_cases hj : j ≤ k
    · rw [if_pos hj, hearly j hj x hx]
    · rw [if_neg hj, hlate (j - 1) (by omega), Nat.sub_add_cancel (by omega)]
  · have hquiet : ∀ k, m.Quiet agent run k := fun k =>
      h.quiet_of_forall ha hmove ht fun j _ hj => hown ⟨j, hj⟩
    have hlen : ∀ j, s.length = (run j).length := fun j => hmove.length_eq.trans (h.length_eq 0 j)
    refine ⟨fun j => m.mix agent s (run j), fun j => j, ⟨?_, fun j => .inl ?_⟩, ⟨t, ht, ?_⟩,
      .identity, fun j x hx => ?_⟩
    · exact ((hquiet 0).moves h ha hmove ht (Nat.le_refl 0)).valid
    · exact (hquiet (j + 1)).mix h ha hmove ht (Nat.lt_succ_self j)
    · exact (hquiet 0).moves h ha hmove ht (Nat.le_refl 0)
    · exact (lookup_mix_other (hlen j) hx).symm

end Model

end TemporalCheck
