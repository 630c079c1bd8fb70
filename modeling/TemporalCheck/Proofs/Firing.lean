import Mathlib.Data.List.Forall2
import TemporalCheck.Proofs.WellFormedStates

namespace TemporalCheck

section Truth

variable {place : String → Option Nat} {s : ModelState}

def Term.denote (value : String → Option Value) : Term → Option Value
  | .value v => some v
  | .var name _ => value name

theorem Term.eval_eq_ok {t : Term} {v : Value} :
    (t.resolve place).eval s = .ok v ↔ t.denote (lookup place s) = some v := by
  cases t with
  | value w => simp [resolve, eval, denote]
  | var name index =>
      simp only [resolve, eval, denote, lookup]
      cases (place name).bind fun i => s[i]? <;> simp

theorem Term.isSome_denote {value : String → Option Value} {t : Term} :
    (t.denote value).isSome ↔ ∀ x ∈ t.support, (value x).isSome := by
  cases t <;> simp [denote, support]

namespace Predicate

mutual

/-- What a condition says of the values, whatever the order of its parts. -/
def truth (value : String → Option Value) : Predicate → Bool
  | conj ps => allTrue value ps
  | disj ps => anyTrue value ps
  | neg p => !truth value p
  | top => true
  | bot => false
  | eq x y => x.denote value = y.denote value
  | ne x y => x.denote value ≠ y.denote value

def allTrue (value : String → Option Value) : List Predicate → Bool
  | [] => true
  | p :: ps => truth value p && allTrue value ps

def anyTrue (value : String → Option Value) : List Predicate → Bool
  | [] => false
  | p :: ps => truth value p || anyTrue value ps

end

mutual

/-- The variables that evaluation comes to from left to right, as long as all of them have
values. -/
def reached (value : String → Option Value) : Predicate → List String
  | conj ps => reachedUntil value false ps
  | disj ps => reachedUntil value true ps
  | neg p => reached value p
  | top => []
  | bot => []
  | eq x y => x.support ++ y.support
  | ne x y => x.support ++ y.support

def reachedUntil (value : String → Option Value) (decisive : Bool) : List Predicate → List String
  | [] => []
  | p :: ps =>
      reached value p ++ if truth value p = decisive then [] else reachedUntil value decisive ps

end

/-- Evaluation gives the truth, and gives it where all that it comes to has a value. -/
def Evaluates (place : String → Option Nat) (s : ModelState) (p : Predicate) : Prop :=
  ∀ b, (p.resolve place).eval s = .ok b ↔
    (∀ x ∈ p.reached (lookup place s), (lookup place s x).isSome) ∧ p.truth (lookup place s) = b

theorem evalUntil_eq_ok {ps : List Predicate} (h : ∀ p ∈ ps, Evaluates place s p)
    (decisive b : Bool) : evalUntil s decisive (resolveAll place ps) = .ok b ↔
      (∀ x ∈ reachedUntil (lookup place s) decisive ps, (lookup place s x).isSome) ∧
        (if decisive then anyTrue (lookup place s) ps else allTrue (lookup place s) ps) = b := by
  induction ps with
  | nil => cases decisive <;> simp [resolveAll, evalUntil, reachedUntil, anyTrue, allTrue]
  | cons p ps ih =>
      rw [List.forall_mem_cons] at h
      simp only [resolveAll, evalUntil, except_bind_eq_ok, h.1 _, reachedUntil, anyTrue, allTrue,
        List.forall_mem_append]
      by_cases hp : truth (lookup place s) p = decisive
      · cases decisive <;> simp [hp]
      · cases decisive <;> simp_all [and_assoc]

theorem compare_eq_ok {x y : Term} {f : Value → Value → Bool} {b : Bool} :
    (do
      let v ← (x.resolve place).eval s
      let w ← (y.resolve place).eval s
      .ok (f v w) : Except CheckError Bool) = .ok b ↔
      ∃ v w, x.denote (lookup place s) = some v ∧ y.denote (lookup place s) = some w ∧
        f v w = b := by
  simp only [except_bind_eq_ok, Term.eval_eq_ok, Except.ok.injEq]
  constructor
  · rintro ⟨v, hv, w, hw, hb⟩
    exact ⟨v, w, hv, hw, hb⟩
  · rintro ⟨v, w, hv, hw, hb⟩
    exact ⟨v, hv, w, hw, hb⟩

theorem evaluates (p : Predicate) : Evaluates place s p := by
  induction p using structural with
  | conj ps ih => exact evalUntil_eq_ok ih false
  | disj ps ih => exact evalUntil_eq_ok ih true
  | neg p ih =>
      intro b
      have hflip : ((! ·) <$> (p.resolve place).eval s) = .ok b ↔
          (p.resolve place).eval s = .ok (!b) := by
        cases (p.resolve place).eval s with
        | error e => simp
        | ok c => cases b <;> cases c <;> simp
      rw [resolve, eval, hflip, ih, reached, truth, Bool.not_eq_eq_eq_not]
  | top => simp [Evaluates, resolve, eval, reached, truth]
  | bot => simp [Evaluates, resolve, eval, reached, truth]
  | eq x y | ne x y =>
      intro b
      rw [resolve, eval, compare_eq_ok]
      simp only [reached, truth, List.forall_mem_append, ← Term.isSome_denote]
      cases x.denote (lookup place s) <;> cases y.denote (lookup place s) <;> simp

end Predicate

end Truth

section Choices

variable {α β γ : Type}

def choices : List (List α) → List (List α)
  | [] => [[]]
  | xs :: rest => xs.flatMap fun x => (choices rest).map (x :: ·)

theorem mem_choices {lists : List (List α)} {c : List α} :
    c ∈ choices lists ↔ List.Forall₂ (· ∈ ·) c lists := by
  induction lists generalizing c with
  | nil => simp [choices]
  | cons xs rest ih =>
      simp only [choices, List.mem_flatMap, List.mem_map, List.forall₂_cons_right_iff, ih]
      constructor
      · rintro ⟨x, hx, d, hd, rfl⟩
        exact ⟨x, d, hx, hd, rfl⟩
      · rintro ⟨x, d, hx, hd, rfl⟩
        exact ⟨x, hx, d, hd, rfl⟩

theorem exists_of_mem_choice {lists : List (List α)} {c : List α} {x : α} (hc : c ∈ choices lists)
    (hx : x ∈ c) : ∃ xs ∈ lists, x ∈ xs := by
  rw [mem_choices] at hc
  induction hc with
  | nil => cases hx
  | cons hhead _ ih =>
      rcases List.mem_cons.1 hx with rfl | hx
      · exact ⟨_, List.mem_cons_self, hhead⟩
      · obtain ⟨xs, hxs, hmem⟩ := ih hx
        exact ⟨xs, List.mem_cons_of_mem _ hxs, hmem⟩

/-- Marking the members by where they come from marks the choices. -/
theorem choices_marked (f : γ → α → β) (offer : γ → List α) (sources : List γ) :
    choices (sources.map fun a => (offer a).map (f a)) =
      (choices (sources.map offer)).map fun c => (sources.zip c).map fun p => f p.1 p.2 := by
  induction sources with
  | nil => rfl
  | cons a sources ih => simp [choices, ih, List.flatMap_map, List.map_flatMap, Function.comp_def]

end Choices

def assignAll (s : ModelState) : List (Nat × Value) → ModelState
  | [] => s
  | c :: cs => assignAll (s.set c.1 c.2) cs

section Assignments

variable {s : ModelState} {c d : Nat × Value} {cs ds : List (Nat × Value)} {i : Nat}

theorem length_assignAll : (assignAll s cs).length = s.length := by
  induction cs generalizing s with
  | nil => rfl
  | cons c cs ih => rw [assignAll, ih, List.length_set]

theorem assignAll_append : assignAll s (cs ++ ds) = assignAll (assignAll s cs) ds := by
  induction cs generalizing s with
  | nil => rfl
  | cons c cs ih => exact ih

theorem getElem?_assignAll (h : ∀ c ∈ cs, c.1 ≠ i) : (assignAll s cs)[i]? = s[i]? := by
  induction cs generalizing s with
  | nil => rfl
  | cons c cs ih =>
      rw [List.forall_mem_cons] at h
      rw [assignAll, ih h.2, List.getElem?_set_ne h.1]

/-- The last assignment to a place decides. -/
theorem getElem?_assignAll_last {x : Value} (hi : i < s.length) (h : ∀ c ∈ ds, c.1 ≠ i) :
    (assignAll s (cs ++ (i, x) :: ds))[i]? = some x := by
  rw [assignAll_append, assignAll, getElem?_assignAll h,
    List.getElem?_set_self (by rwa [length_assignAll])]

theorem assignAll_set (h : ∀ c ∈ cs, c.1 ≠ i) (x : Value) :
    assignAll (s.set i x) cs = (assignAll s cs).set i x := by
  induction cs generalizing s with
  | nil => rfl
  | cons c cs ih =>
      rw [List.forall_mem_cons] at h
      rw [assignAll, assignAll, List.set_comm _ _ h.1.symm, ih h.2]

theorem assignAll_comm (h : ∀ c ∈ cs, ∀ d ∈ ds, c.1 ≠ d.1) :
    assignAll (assignAll s cs) ds = assignAll (assignAll s ds) cs := by
  induction cs generalizing s with
  | nil => rfl
  | cons c cs ih =>
      rw [List.forall_mem_cons] at h
      rw [assignAll, ih h.2, assignAll, assignAll_set (fun d hd => (h.1 d hd).symm)]

end Assignments

namespace Transition

variable {t : Transition} {vars : List Variable} {s u : ModelState} {a : Action} {xs : List Value}
  {next found : List ModelState} {as : List Action} {i : Nat}

def offer (t : Transition) (vars : List Variable) (s : ModelState) (a : Action) :
    Except Fault (List (Nat × Value)) := do
  let r ← t.target vars a
  let xs ← t.values s r.2 a
  .ok (xs.map fun x => (r.1, x))

theorem mapM_setValue_eq (hi : i < u.length) : xs.mapM (setValue u i) = .ok (xs.map (u.set i)) := by
  induction xs with
  | nil => rfl
  | cons x xs ih => rw [List.mapM_cons, setValue_eq_ok.2 ⟨hi, rfl⟩, ih]; rfl

theorem combine_eq (hi : ∀ u ∈ next, i < u.length) :
    combine i xs next = .ok (next.flatMap fun u => xs.map (u.set i)) := by
  induction next with
  | nil => rfl
  | cons u next ih =>
      rw [List.forall_mem_cons] at hi
      rw [combine, mapM_setValue_eq hi.1, ih hi.2]
      rfl

/-- Each state is taken through every choice, state by state. -/
theorem fireActions_eq (hnext : ∀ u ∈ next, u.length = vars.length) : t.fireActions s vars as next =
    (fun offers => next.flatMap fun u => (choices offers).map (assignAll u)) <$> as.mapM
      (t.offer vars s) := by
  induction as generalizing next with
  | nil => simp [fireActions, choices, assignAll, pure, Except.pure]
  | cons a as ih =>
      rw [fireActions, List.mapM_cons, offer]
      cases htarget : t.target vars a with
      | error e => rfl
      | ok r =>
          cases hvalues : t.values s r.2 a with
          | error e => simp [bind, Except.bind, hvalues]
          | ok xs =>
              have hi : r.1 < vars.length := (List.getElem?_eq_some_iff.1 (target_eq_ok htarget)).1
              have hmid : ∀ u ∈ next.flatMap fun u => xs.map (u.set r.1),
                  u.length = vars.length := by
                simp only [List.forall_mem_flatMap, List.forall_mem_map, List.length_set]
                exact fun u hu x _ => hnext u hu
              simp only [bind, Except.bind, hvalues, combine_eq fun u hu => hnext u hu ▸ hi]
              rw [ih hmid]
              cases as.mapM (t.offer vars s) with
              | error e => rfl
              | ok offers =>
                  simp [choices, assignAll, List.flatMap_map, List.map_flatMap, List.flatMap_assoc,
                    Function.comp_def, pure, Except.pure]

theorem fire_eq (hs : s.length = vars.length) :
    t.fire s vars = (fun offers => (choices offers).map (assignAll s)) <$> t.actions.mapM
      (t.offer vars s) := by
  rw [fire, fireActions_eq (by simpa using hs)]
  simp only [List.flatMap_singleton]

end Transition

def placeIn (vars : List Variable) : String → Option Nat := placeOf (vars.map (·.name))

/-- The variable with a name, the last one of equal names. -/
def declared? (vars : List Variable) (name : String) : Option Variable :=
  (placeIn vars name).bind fun i => vars[i]?

def valueIn (vars : List Variable) (s : ModelState) : String → Option Value :=
  lookup (placeIn vars) s

section Variables

variable {vars : List Variable} {s : ModelState} {x : String} {i : Nat}

theorem isSome_placeOf {names : List String} : (placeOf names x).isSome ↔ x ∈ names := by
  simp [placeOf, List.idxOf?]

theorem exists_placeIn (h : x ∈ vars.map (·.name)) : ∃ i, placeIn vars x = some i :=
  Option.isSome_iff_exists.1 (isSome_placeOf.2 h)

theorem lt_length_of_placeIn (h : placeIn vars x = some i) : i < vars.length := by
  simpa using (List.getElem?_eq_some_iff.1 (getElem?_of_placeOf h)).1

theorem isSome_valueIn (hs : s.length = vars.length) :
    (valueIn vars s x).isSome ↔ x ∈ vars.map (·.name) := by
  rw [← isSome_placeOf, valueIn, lookup, placeIn]
  cases hi : placeOf (vars.map (·.name)) x with
  | none => simp
  | some i =>
      have hlt := lt_length_of_placeIn hi
      simp [hs, hlt]

end Variables

namespace Compute

def reached (value : String → Option Value) : Compute → List String
  | .value t => t.support
  | .predicate p => p.reached value
  | .any => []

def candidates (value : String → Option Value) (domain : List Value) : Compute → List Value
  | .value t => (t.denote value).toList
  | .predicate p => [.bool (p.truth value)]
  | .any => domain

end Compute

namespace Action

theorem nextValues_eq_ok (place : String → Option Nat) (s : ModelState) (a : Action)
    (domain xs : List Value) : (a.resolve place).nextValues s domain = .ok xs ↔
    (∀ x ∈ a.value.reached (lookup place s), (lookup place s x).isSome) ∧
      a.value.candidates (lookup place s) domain = xs := by
  obtain ⟨var, value, index⟩ := a
  cases value with
  | value t =>
      simp only [resolve, nextValues, Compute.resolve, Compute.reached, Compute.candidates,
        except_map_eq_ok, Term.eval_eq_ok, ← Term.isSome_denote]
      cases t.denote (lookup place s) <;> simp
  | predicate p =>
      simp only [resolve, nextValues, Compute.resolve, Compute.reached, Compute.candidates,
        except_map_eq_ok, p.evaluates _]
      constructor
      · rintro ⟨b, ⟨hknown, rfl⟩, hxs⟩
        exact ⟨hknown, hxs⟩
      · rintro ⟨hknown, hxs⟩
        exact ⟨_, ⟨hknown, rfl⟩, hxs⟩
  | any => simp [resolve, nextValues, Compute.resolve, Compute.reached, Compute.candidates]

def candidates (vars : List Variable) (s : ModelState) (a : Action) : List Value :=
  a.value.candidates (valueIn vars s) ((declared? vars a.var).elim [] (·.domain))

/-- Nothing is in the way of an action: its variable is known, as are the variables that its value
comes to, and the variable may take all the values. -/
structure Admissible (vars : List Variable) (s : ModelState) (a : Action) : Prop where
  known : a.var ∈ vars.map (·.name)
  reads : ∀ x ∈ a.value.reached (valueIn vars s), x ∈ vars.map (·.name)
  allowed : ∀ v, declared? vars a.var = some v → ∀ x ∈ a.candidates vars s, x ∈ v.domain

def assigning (vars : List Variable) (a : Action) (x : Value) : Nat × Value :=
  ((placeIn vars a.var).getD vars.length, x)

section

variable {vars : List Variable} {a : Action} {v : Variable} {i : Nat}

theorem declared?_eq_some (hi : placeIn vars a.var = some i) (hv : vars[i]? = some v) :
    declared? vars a.var = some v := by rw [declared?, hi, Option.bind_some, hv]

theorem candidates_eq (s : ModelState) (hv : declared? vars a.var = some v) :
    a.candidates vars s = a.value.candidates (valueIn vars s) v.domain := by
  rw [candidates, hv, Option.elim_some]

theorem assigning_eq (hi : placeIn vars a.var = some i) : a.assigning vars = fun x => (i, x) := by
  funext x
  rw [assigning, hi, Option.getD_some]

end

end Action

namespace Transition

variable {t : Transition} {vars : List Variable} {s : ModelState} {a : Action} {xs : List Value}
  {v : Variable} {offered : List (Nat × Value)} {i : Nat}

theorem Resolved.target_iff (h : t.Resolved (placeIn vars)) (ha : a ∈ t.actions) :
    t.target vars a = .ok (i, v) ↔ placeIn vars a.var = some i ∧ vars[i]? = some v := by
  constructor
  · intro htarget
    exact ⟨h.target_eq_ok ha htarget, Transition.target_eq_ok htarget⟩
  · rintro ⟨hi, hv⟩
    have hindex : placeIn vars a.var = a.index := congrArg Action.index (h.action ha)
    rw [target, ← hindex, hi]
    simp [hv]

theorem values_eq_ok : t.values s v a = .ok xs ↔ a.nextValues s v.domain = .ok xs ∧
    ∀ x ∈ xs, x ∈ v.domain := by
  simp only [values, except_bind_eq_ok, except_mapError_eq_ok]
  constructor
  · rintro ⟨ys, hys, hfound⟩
    split at hfound
    · rename_i hnone
      cases hfound
      exact ⟨hys, by simpa using hnone⟩
    · cases hfound
  · rintro ⟨hxs, hdomain⟩
    refine ⟨xs, hxs, ?_⟩
    have hnone : xs.find? (· ∉ v.domain) = none := by simpa using hdomain
    rw [hnone]

/-- An action makes an offer where nothing is in its way. -/
theorem Resolved.offer_eq_ok (h : t.Resolved (placeIn vars)) (hs : s.length = vars.length)
    (ha : a ∈ t.actions) : t.offer vars s a = .ok offered ↔
      a.Admissible vars s ∧ (a.candidates vars s).map (a.assigning vars) = offered := by
  have hnext {v : Variable} {xs : List Value} : a.nextValues s v.domain = .ok xs ↔
      (∀ x ∈ a.value.reached (valueIn vars s), (valueIn vars s x).isSome) ∧
        a.value.candidates (valueIn vars s) v.domain = xs := by
    have heq := Action.nextValues_eq_ok (placeIn vars) s a v.domain xs
    rwa [h.action ha] at heq
  simp only [offer, except_bind_eq_ok, Prod.exists, h.target_iff ha, values_eq_ok, hnext,
    isSome_valueIn hs, Except.ok.injEq]
  constructor
  · rintro ⟨i, v, ⟨hi, hv⟩, _, ⟨⟨hreads, rfl⟩, hdomain⟩, rfl⟩
    have hdeclared := Action.declared?_eq_some hi hv
    refine ⟨⟨isSome_placeOf.1 (Option.isSome_of_mem hi), hreads, fun w hw => ?_⟩, ?_⟩
    · obtain rfl : v = w := Option.some.inj (hdeclared.symm.trans hw)
      rwa [Action.candidates_eq s hdeclared]
    · rw [Action.candidates_eq s hdeclared, Action.assigning_eq hi]
  · rintro ⟨hadmissible, rfl⟩
    obtain ⟨i, hi⟩ := exists_placeIn hadmissible.known
    obtain ⟨v, hv⟩ : ∃ v, vars[i]? = some v :=
      ⟨_, List.getElem?_eq_getElem (lt_length_of_placeIn hi)⟩
    have hdeclared := Action.declared?_eq_some hi hv
    have hallowed := hadmissible.allowed v hdeclared
    rw [Action.candidates_eq s hdeclared] at hallowed ⊢
    exact ⟨i, v, ⟨hi, hv⟩, _, ⟨⟨hadmissible.reads, rfl⟩, hallowed⟩, by rw [Action.assigning_eq hi]⟩

def assignments (t : Transition) (vars : List Variable) (choice : List Value) :
    List (Nat × Value) :=
  (t.actions.zip choice).map fun p => p.1.assigning vars p.2

theorem Resolved.fire_eq_ok {next : List ModelState} (h : t.Resolved (placeIn vars))
    (hs : s.length = vars.length) :
    t.fire s vars = .ok next ↔ (∀ a ∈ t.actions, a.Admissible vars s) ∧
      (choices (t.actions.map (·.candidates vars s))).map
        (fun c => assignAll s (t.assignments vars c)) = next := by
  simp only [fire_eq hs, except_map_eq_ok, except_mapM_eq_ok fun a ha _ => h.offer_eq_ok hs ha]
  constructor
  · rintro ⟨_, ⟨hadmissible, rfl⟩, rfl⟩
    exact ⟨hadmissible, by rw [choices_marked, List.map_map]; rfl⟩
  · rintro ⟨hadmissible, rfl⟩
    exact ⟨_, ⟨hadmissible, rfl⟩, by rw [choices_marked, List.map_map]; rfl⟩

/-- The state after a choice of one value for each action: an assigned variable has the value chosen
for the last action that assigns it, and a variable that no action names, or that another one of its
name hides, keeps its value. -/
structure Result (t : Transition) (vars : List Variable) (s : ModelState) (choice : List Value)
    (s' : ModelState) : Prop where
  length : s'.length = s.length
  last : ∀ before a after, t.actions = before ++ a :: after → (∀ b ∈ after, b.var ≠ a.var) →
    valueIn vars s' a.var = choice[before.length]?
  kept : ∀ i v, vars[i]? = some v → v.name ∉ t.modifies ∨ placeIn vars v.name ≠ some i →
    s'[i]? = s[i]?

theorem placeIn_of_assigning {x : Value} (hi : i < vars.length) (h : (a.assigning vars x).1 = i) :
    placeIn vars a.var = some i := by
  rw [Action.assigning] at h
  cases hplace : placeIn vars a.var with
  | none =>
      simp only [hplace, Option.getD_none] at h
      omega
  | some j => simpa [hplace] using h

theorem result_assignAll {choice : List Value} (hs : s.length = vars.length)
    (hknown : ∀ a ∈ t.actions, a.var ∈ vars.map (·.name))
    (hchoice : choice.length = t.actions.length) :
    t.Result vars s choice (assignAll s (t.assignments vars choice)) where
  length := length_assignAll
  last := by
    intro before a after hactions hlast
    obtain ⟨i, hi⟩ := exists_placeIn (hknown a (by simp [hactions]))
    have hlt := lt_length_of_placeIn hi
    obtain ⟨early, x, late, rfl, hearly⟩ :
        ∃ early x late, choice = early ++ x :: late ∧ early.length = before.length := by
      have hk : before.length < choice.length := by simp [hchoice, hactions]
      refine ⟨choice.take before.length, choice[before.length], choice.drop (before.length + 1), ?_,
        ?_⟩
      · rw [List.getElem_cons_drop, List.take_append_drop]
      · rw [List.length_take, Nat.min_eq_left hk.le]
    rw [assignments, hactions, List.zip_append hearly.symm, List.zip_cons_cons, List.map_append,
      List.map_cons, Action.assigning_eq hi, valueIn, lookup, hi, Option.bind_some,
      getElem?_assignAll_last (hs ▸ hlt)]
    · simp [← hearly]
    · rintro _ hc heq
      obtain ⟨⟨b, y⟩, hb, rfl⟩ := List.mem_map.1 hc
      exact hlast b (List.of_mem_zip hb).1 (placeOf_injective (placeIn_of_assigning hlt heq) hi)
  kept := by
    intro i v hv hkept
    refine getElem?_assignAll fun c hc heq => ?_
    obtain ⟨⟨b, y⟩, hb, rfl⟩ := List.mem_map.1 hc
    have hplace := placeIn_of_assigning (List.getElem?_eq_some_iff.1 hv).1 heq
    have hname : v.name = b.var := by
      have hnames := getElem?_of_placeOf hplace
      rw [List.getElem?_map, hv] at hnames
      exact Option.some.inj hnames
    rcases hkept with hkept | hkept
    · exact hkept (hname ▸ var_mem_modifies (List.of_mem_zip hb).1)
    · exact hkept (hname ▸ hplace)

/-- Firing is one simultaneous assignment. A transition can be fired exactly if nothing is in the
way of its actions, and it leads to the results of the choices of one value for each action, one by
one and in lexicographic order; all the values are those of the state before. -/
theorem fire_simultaneous (h : t.Resolved (placeIn vars)) (hs : s.length = vars.length) :
    ((∃ next, t.fire s vars = .ok next) ↔ ∀ a ∈ t.actions, a.Admissible vars s) ∧
    ∀ next, t.fire s vars = .ok next →
      List.Forall₂ (t.Result vars s) (choices (t.actions.map (·.candidates vars s))) next := by
  simp only [h.fire_eq_ok hs]
  refine ⟨by simp, ?_⟩
  rintro _ ⟨hadmissible, rfl⟩
  rw [List.forall₂_map_right_iff, List.forall₂_same]
  intro c hc
  refine result_assignAll hs (fun a ha => (hadmissible a ha).known) ?_
  rw [(mem_choices.1 hc).length_eq, List.length_map]

def cells : List Variable :=
  [⟨"left", [.int 0, .int 1], .int 0⟩, ⟨"right", [.int 0, .int 1], .int 1⟩, .boolean "lamp" false]

def exchange : Transition :=
  ({ name := "exchange", guard := .top,
     actions :=
       [{ var := "left", value := .any }, { var := "right", value := .value (.named "left") },
        { var := "left", value := .value (.named "right") }, { var := "lamp", value := .any }] } :
    Transition).resolve (placeIn cells)

theorem exchange_simultaneous :
    (∀ a ∈ exchange.actions, a.Admissible cells [.int 0, .int 1, .bool false]) ∧
    List.Forall₂ (exchange.Result cells [.int 0, .int 1, .bool false])
      [[.int 0, .int 0, .int 1, .bool false], [.int 0, .int 0, .int 1, .bool true],
        [.int 1, .int 0, .int 1, .bool false], [.int 1, .int 0, .int 1, .bool true]]
      [[.int 1, .int 0, .bool false], [.int 1, .int 0, .bool true], [.int 1, .int 0, .bool false],
        [.int 1, .int 0, .bool true]] := by
  have hfire : exchange.fire [.int 0, .int 1, .bool false] cells =
      .ok [[.int 1, .int 0, .bool false], [.int 1, .int 0, .bool true],
        [.int 1, .int 0, .bool false], [.int 1, .int 0, .bool true]] :=
      except_toOption_eq_some.1 (by decide +kernel)
  have hresolved : exchange.Resolved (placeIn cells) := resolved_resolve _
  obtain ⟨hanswers, hstates⟩ := fire_simultaneous hresolved (s := [.int 0, .int 1, .bool false]) rfl
  exact ⟨hanswers.1 ⟨_, hfire⟩, hstates _ hfire⟩

end Transition

end TemporalCheck
