import TemporalCheck.Proofs.Firing

namespace TemporalCheck

namespace Transition

variable {t u : Transition} {vars : List Variable} {s s' w : ModelState} {a : Action}
  {next : List ModelState} {x : String} {offers : List (List (Nat × Value))}
  {c : List (Nat × Value)}

/-- Firing `t` and then `u` may lead from `s` to `w`. -/
def FiresThen (t u : Transition) (vars : List Variable) (s w : ModelState) : Prop :=
  ∃ next, t.fire s vars = .ok next ∧ ∃ s' ∈ next, ∃ found, u.fire s' vars = .ok found ∧ w ∈ found

theorem independentOf_iff : t.independentOf u = true ↔
    (∀ x ∈ t.modifies, x ∉ u.modifies) ∧ (∀ x ∈ t.modifies, x ∉ u.reads) ∧
    ∀ x ∈ u.modifies, x ∉ t.reads := by
  simp only [independentOf, Bool.and_eq_true, disjointNames_iff, and_assoc]

theorem independentOf_symm (h : t.independentOf u = true) : u.independentOf t = true := by
  obtain ⟨hwrites, hread, hreads⟩ := independentOf_iff.1 h
  exact independentOf_iff.2 ⟨fun x hx hxt => hwrites x hxt hx, hreads, hread⟩

/-- The offers depend on the variables that are read only. -/
theorem Resolved.mapM_offer_congr (h : t.Resolved (placeIn vars))
    (hreads : ∀ x ∈ t.reads, valueIn vars s x = valueIn vars s' x) :
    t.actions.mapM (t.offer vars s) = t.actions.mapM (t.offer vars s') := by
  refine except_mapM_congr fun a ha => ?_
  rw [offer, offer]
  exact bind_congr fun r => by rw [h.values_congr hreads ha]

/-- An independent transition leaves everything that is read as it was. -/
theorem valueIn_of_independent (ht : t.Resolved (placeIn vars)) (h : t.independentOf u = true)
    (hfire : t.fire s vars = .ok next) (hs' : s' ∈ next) :
    ∀ x ∈ u.reads, valueIn vars s' x = valueIn vars s x := by
  intro x hx
  refine ((mem_fire hfire).1 hs').lookup_eq ht fun hmem => ?_
  exact (independentOf_iff.1 h).2.1 x hmem hx

/-- After an independent transition the same offers are taken from another state. -/
theorem fire_of_independent (ht : t.Resolved (placeIn vars)) (hu : u.Resolved (placeIn vars))
    (h : t.independentOf u = true) (hs : s.length = vars.length) (hfire : t.fire s vars = .ok next)
    (hs' : s' ∈ next) :
    u.fire s' vars = (fun offers => (choices offers).map (assignAll s')) <$> u.actions.mapM
      (u.offer vars s) := by
  have hlength : s'.length = vars.length := ((mem_fire hfire).1 hs').length_eq.trans hs
  rw [fire_eq hlength, hu.mapM_offer_congr (valueIn_of_independent ht h hfire hs')]

/-- An independent transition is enabled as before, and fails as before. -/
theorem undisturbed_of_independent (ht : t.Resolved (placeIn vars)) (hu : u.Resolved (placeIn vars))
    (h : t.independentOf u = true) (hs : s.length = vars.length) (hfire : t.fire s vars = .ok next)
    (hs' : s' ∈ next) :
    u.isEnabled s' = u.isEnabled s ∧ ∀ e, u.fire s' vars = .error e ↔ u.fire s vars = .error e := by
  refine ⟨hu.isEnabled_congr (valueIn_of_independent ht h hfire hs'), fun e => ?_⟩
  rw [fire_of_independent ht hu h hs hfire hs', fire_eq hs]
  cases u.actions.mapM (u.offer vars s) <;> simp

/-- A choice assigns to the places of variables that the transition writes. -/
theorem Resolved.place_of_choice (h : t.Resolved (placeIn vars)) (hs : s.length = vars.length)
    (hoffers : t.actions.mapM (t.offer vars s) = .ok offers) (hc : c ∈ choices offers) :
    ∀ p ∈ c, ∃ x ∈ t.modifies, placeIn vars x = some p.1 := by
  obtain ⟨hadmissible, rfl⟩ := (except_mapM_eq_ok fun a ha _ => h.offer_eq_ok hs ha).1 hoffers
  intro p hp
  obtain ⟨_, hoffer, hp⟩ := exists_of_mem_choice hc hp
  obtain ⟨a, ha, rfl⟩ := List.mem_map.1 hoffer
  obtain ⟨x, -, rfl⟩ := List.mem_map.1 hp
  obtain ⟨i, hi⟩ := exists_placeIn (hadmissible a ha).known
  exact ⟨a.var, var_mem_modifies ha, by rw [Action.assigning_eq hi, hi]⟩

theorem firesThen_iff {ts us : List (List (Nat × Value))} (ht : t.Resolved (placeIn vars))
    (hu : u.Resolved (placeIn vars)) (h : t.independentOf u = true) (hs : s.length = vars.length)
    (hts : t.actions.mapM (t.offer vars s) = .ok ts)
    (hus : u.actions.mapM (u.offer vars s) = .ok us) :
    t.FiresThen u vars s w ↔ ∃ c ∈ choices ts, ∃ d ∈ choices us,
      w = assignAll (assignAll s c) d := by
  have hfire : t.fire s vars = .ok ((choices ts).map (assignAll s)) := by rw [fire_eq hs, hts]; rfl
  have hthen {c : List (Nat × Value)} (hc : c ∈ choices ts) :
      u.fire (assignAll s c) vars = .ok ((choices us).map (assignAll (assignAll s c))) := by
    rw [fire_of_independent ht hu h hs hfire (List.mem_map_of_mem hc), hus]
    rfl
  constructor
  · rintro ⟨next, hnext, s', hs', found, hfound, hw⟩
    obtain rfl := Except.ok.inj (hfire.symm.trans hnext)
    obtain ⟨c, hc, rfl⟩ := List.mem_map.1 hs'
    obtain rfl := Except.ok.inj ((hthen hc).symm.trans hfound)
    obtain ⟨d, hd, rfl⟩ := List.mem_map.1 hw
    exact ⟨c, hc, d, hd, rfl⟩
  · rintro ⟨c, hc, d, hd, rfl⟩
    exact ⟨_, hfire, _, List.mem_map_of_mem hc, _, hthen hc, List.mem_map_of_mem hd⟩

/-- Independent transitions do not disturb each other, and both orders lead to the same states. -/
theorem independent_commute (ht : t.Resolved (placeIn vars)) (hu : u.Resolved (placeIn vars))
    (h : t.independentOf u = true) (hs : s.length = vars.length) :
    (∀ next, t.fire s vars = .ok next → ∀ s' ∈ next,
      u.isEnabled s' = u.isEnabled s ∧ ∀ e, u.fire s' vars = .error e ↔ u.fire s vars = .error e) ∧
    (∀ next, u.fire s vars = .ok next → ∀ s' ∈ next,
      t.isEnabled s' = t.isEnabled s ∧ ∀ e, t.fire s' vars = .error e ↔ t.fire s vars = .error e) ∧
    ∀ next next', t.fire s vars = .ok next → u.fire s vars = .ok next' →
      {w | t.FiresThen u vars s w} = {w | u.FiresThen t vars s w} := by
  have hsymm := independentOf_symm h
  refine ⟨fun next hnext s' => undisturbed_of_independent ht hu h hs hnext,
    fun next hnext s' => undisturbed_of_independent hu ht hsymm hs hnext,
    fun next next' hnext hnext' => ?_⟩
  rw [fire_eq hs, except_map_eq_ok] at hnext hnext'
  obtain ⟨ts, hts, -⟩ := hnext
  obtain ⟨us, hus, -⟩ := hnext'
  have hcomm : ∀ c ∈ choices ts, ∀ d ∈ choices us, assignAll (assignAll s c) d =
      assignAll (assignAll s d) c := by
    intro c hc d hd
    refine assignAll_comm fun p hp q hq heq => ?_
    obtain ⟨x, hx, hxp⟩ := ht.place_of_choice hs hts hc p hp
    obtain ⟨y, hy, hyq⟩ := hu.place_of_choice hs hus hd q hq
    obtain rfl := placeOf_injective hxp (heq ▸ hyq)
    exact (independentOf_iff.1 h).1 x hx hy
  refine Set.ext fun w => ?_
  change t.FiresThen u vars s w ↔ u.FiresThen t vars s w
  rw [firesThen_iff ht hu h hs hts hus, firesThen_iff hu ht hsymm hs hus hts]
  constructor
  · rintro ⟨c, hc, d, hd, rfl⟩
    exact ⟨d, hd, c, hc, hcomm c hc d hd⟩
  · rintro ⟨d, hd, c, hc, rfl⟩
    exact ⟨c, hc, d, hd, (hcomm c hc d hd).symm⟩

def shift : Transition :=
  ({ name := "shift", guard := .eq (.named "right") (.value (.int 1)),
     actions := [{ var := "left", value := .any }] } : Transition).resolve (placeIn cells)

def blink : Transition :=
  ({ name := "blink", guard := .top,
     actions := [{ var := "lamp", value := .predicate (.neg (.isTrue "lamp")) }] } :
    Transition).resolve (placeIn cells)

theorem shift_blink_commute : shift.independentOf blink = true ∧
    (shift.isEnabled [.int 0, .int 1, .bool true] = shift.isEnabled [.int 0, .int 1, .bool false] ∧
      ∀ e, shift.fire [.int 0, .int 1, .bool true] cells = .error e ↔
        shift.fire [.int 0, .int 1, .bool false] cells = .error e) ∧
    {w | shift.FiresThen blink cells [.int 0, .int 1, .bool false] w} =
      {w | blink.FiresThen shift cells [.int 0, .int 1, .bool false] w} := by
  have hindependent : shift.independentOf blink = true := by decide +kernel
  have hshift : shift.fire [.int 0, .int 1, .bool false] cells =
      .ok [[.int 0, .int 1, .bool false], [.int 1, .int 1, .bool false]] :=
    except_toOption_eq_some.1 (by decide +kernel)
  have hblink : blink.fire [.int 0, .int 1, .bool false] cells =
      .ok [[.int 0, .int 1, .bool true]] :=
    except_toOption_eq_some.1 (by decide +kernel)
  have hresolved : shift.Resolved (placeIn cells) ∧ blink.Resolved (placeIn cells) :=
    ⟨resolved_resolve _, resolved_resolve _⟩
  obtain ⟨-, hundisturbed, hsame⟩ :=
    independent_commute hresolved.1 hresolved.2 hindependent
      (s := [.int 0, .int 1, .bool false]) rfl
  exact ⟨hindependent, hundisturbed _ hblink _ (by simp), hsame _ _ hshift hblink⟩

end Transition

end TemporalCheck
