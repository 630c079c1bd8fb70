import TemporalCheck.Proofs.ModelStep

namespace TemporalCheck

/-- The variables that decide a proposition: those of the condition read under its name, or else the
one of that name. -/
def PropositionReader.reads (r : PropositionReader) (p : String) : OrderedSet String :=
  match r.predicate? p with
  | some condition => condition.support
  | none => .ofList [p]

namespace Model

variable {m : Model} {options : ProgramOptions} {visible : OrderedSet String} {p x : String}
  {s u : ModelState}

theorem predicate?_reader (m : Model) (p : String) : m.reader.predicate? p =
    (m.predicates.reverse.find? (·.name = p)).map fun c => c.predicate.resolve m.place := by
  rw [PropositionReader.predicate?, reader, ← List.map_reverse, List.find?_map]
  simp [Function.comp_def, NamedPredicate.resolve]

theorem holds_eq_of_reads (h : ∀ x ∈ m.reader.reads p, lookup m.place s x = lookup m.place u x) :
    m.reader.holds s p = m.reader.holds u p := by
  rw [PropositionReader.reads] at h
  rw [PropositionReader.holds, PropositionReader.holds]
  cases hc : m.reader.predicate? p with
  | some c =>
      rw [hc] at h
      rw [predicate?_reader, Option.map_eq_some_iff] at hc
      obtain ⟨c, -, rfl⟩ := hc
      simp only [Predicate.support_resolve] at h
      exact Predicate.eval_congr h
  | none =>
      rw [hc] at h
      have hlookup := h p (by simp [OrderedSet.mem_ofList])
      simp only [lookup, place] at hlookup
      simp only [reader, hlookup]

/-- What the condition read under a name looks at counts as visible. -/
def Shows (m : Model) (visible : OrderedSet String) (p : String) : Prop :=
  ∀ c ∈ m.reader.predicate? p, ∀ x ∈ c.support.toList, x ∈ m.visibleVars visible

instance decidableShows : Decidable (m.Shows visible p) :=
  inferInstanceAs (Decidable (∀ c ∈ m.reader.predicate? p, _))

/-- The variables that decide a visible proposition count as visible. -/
def Sees (m : Model) (visible : OrderedSet String) : Prop := ∀ p ∈ visible.toList, m.Shows visible p

instance decidableSees : Decidable (m.Sees visible) := List.decidableBAll _ _

theorem find?_predicates_eq_none (h : m.reader.predicate? p = none) :
    m.predicates.find? (·.name = p) = none := by
  rw [predicate?_reader, Option.map_eq_none_iff, List.find?_eq_none] at h
  rw [List.find?_eq_none]
  exact fun c hc => h c (List.mem_reverse.2 hc)

theorem Shows.mem_visibleVars (h : m.Shows visible p) (hp : p ∈ visible)
    (hx : x ∈ m.reader.reads p) : x ∈ m.visibleVars visible := by
  cases hc : m.reader.predicate? p with
  | some c =>
      rw [PropositionReader.reads, hc] at hx
      exact h c hc x hx
  | none =>
      rw [PropositionReader.reads, hc, OrderedSet.mem_ofList] at hx
      rw [visibleVars, OrderedSet.mem_ofList, List.mem_flatMap]
      exact ⟨p, hp, by rwa [find?_predicates_eq_none hc]⟩

/-- The name shows in particular if all its conditions read the same variables. -/
theorem shows_of_support_eq (hp : p ∈ visible) (h : ∀ c ∈ m.predicates, ∀ c' ∈ m.predicates,
    c.name = p → c'.name = p → c.predicate.support = c'.predicate.support) : m.Shows visible p := by
  intro c hc x hx
  rw [Option.mem_def, predicate?_reader, Option.map_eq_some_iff] at hc
  obtain ⟨c, hlast, rfl⟩ := hc
  rw [Predicate.support_resolve] at hx
  have hmem : c ∈ m.predicates := List.mem_reverse.1 (List.mem_of_find?_eq_some hlast)
  have hname : c.name = p := by simpa using List.find?_some hlast
  rw [visibleVars, OrderedSet.mem_ofList, List.mem_flatMap]
  refine ⟨p, hp, ?_⟩
  cases hfirst : m.predicates.find? (·.name = p) with
  | none =>
      rw [List.find?_eq_none] at hfirst
      exact absurd (decide_eq_true hname) (hfirst c hmem)
  | some c' =>
      have hname' : c'.name = p := by simpa using List.find?_some hfirst
      rw [h c hmem c' (List.mem_of_find?_eq_some hfirst) hname hname'] at hx
      exact hx

/-- Where no two conditions share a name, the one that is read is the one that is looked at. -/
theorem sees_of_nodup (h : (m.predicates.map (·.name)).Nodup) (visible : OrderedSet String) :
    m.Sees visible := by
  intro p hp
  refine shows_of_support_eq hp fun c hc c' hc' hname hname' => ?_
  rw [List.inj_on_of_nodup_map h hc hc' (hname.trans hname'.symm)]

theorem holds_congr (h : m.Sees visible) (hp : p ∈ visible)
    (hagree : ∀ x ∈ m.visibleVars visible, lookup m.place s x = lookup m.place u x) :
    m.reader.holds s p = m.reader.holds u p :=
  holds_eq_of_reads fun x hx => hagree x ((h p hp).mem_visibleVars hp hx)

/-- A model that has been set up for a run. -/
def configured (m : Model) (options : ProgramOptions) : Model :=
  { m with
    preparation :=
      { m.preparation with options := options, ready := false, disposed := false } }.prepared

theorem configure_eq_ok {l l' : Logged Model} (h : configure options l = .ok () l') :
    l'.state = l.state.configured options := by
  simp only [configure, prepare, Task.bind_eq_ok, Task.change_eq_ok, Task.read_eq_ok] at h
  obtain ⟨_, _, rfl, _, _, ⟨rfl, rfl⟩, h⟩ := h
  simp only [Bool.not_false, if_true] at h
  split at h
  · simp only [Task.bind_eq_ok, Task.emit_eq_ok, Task.change_eq_ok] at h
    obtain ⟨_, _, rfl, rfl⟩ := h
    rfl
  · rw [Task.change_eq_ok] at h
    exact h ▸ rfl

/-- The answer to a visible proposition depends on nothing but the variables that a model counts as
visible, if what the condition read under its name looks at does. -/
theorem holds_eq_of_visible {l l' : Logged Model} (hconfigure : configure options l = .ok () l')
    (hp : p ∈ options.visible) (hshows : l.state.Shows options.visible p)
    (hagree : ∀ x ∈ l'.state.preparation.visibleVars,
      lookup l.state.place s x = lookup l.state.place u x) :
    l.state.reader.holds s p = l.state.reader.holds u p := by
  rw [configure_eq_ok hconfigure] at hagree
  exact holds_eq_of_reads fun x hx => hagree x (hshows.mem_visibleVars hp hx)

def veiled : Model where
  name := "veiled"
  vars := [.boolean "x" false, .boolean "y" false, .boolean "z" false]
  predicates := [⟨"z", .disj [.isTrue "x", .neg (.isTrue "y")]⟩]

/-- The value of `z` itself does not matter. -/
theorem veiled_holds_eq : ∃ l', configure { visible := .ofList ["z"] } ⟨veiled, []⟩ = .ok () l' ∧
    l'.state.preparation.visibleVars = .ofList ["x", "y"] ∧
    veiled.reader.holds [.bool false, .bool true, .bool true] "z" =
      veiled.reader.holds [.bool false, .bool true, .bool false] "z" := by
  refine ⟨_, rfl, by decide +kernel, ?_⟩
  have hconfigure : configure { visible := .ofList ["z"] } ⟨veiled, []⟩ = .ok () _ := rfl
  exact holds_eq_of_visible hconfigure (by decide +kernel) (by decide +kernel) (by decide +kernel)

/-- Two conditions of one name: the last one is read, the first one decides what is sliced away. -/
def overshadowed : Model where
  name := "overshadowed"
  vars := [.boolean "x" false, .boolean "z" false]
  predicates := [⟨"p", .isTrue "z"⟩, ⟨"p", .isTrue "x"⟩]
  transitions := [{ name := "t", guard := .top, actions := [.assign "x" (.bool true)] }]

/-- The model looks at `z` only, and `x` decides. -/
theorem overshadowed_holds_ne :
    ∃ l', configure { visible := .ofList ["p"] } ⟨overshadowed, []⟩ = .ok () l' ∧
    (∀ x ∈ l'.state.preparation.visibleVars.toList,
      lookup overshadowed.place [.bool false, .bool false] x =
      lookup overshadowed.place [.bool true, .bool false] x) ∧
    overshadowed.reader.holds [.bool false, .bool false] "p" = .ok false ∧
    overshadowed.reader.holds [.bool true, .bool false] "p" = .ok true := by
  exact ⟨_, rfl, by decide +kernel, by decide +kernel, by decide +kernel⟩

end Model

end TemporalCheck
