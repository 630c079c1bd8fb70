import TemporalCheck.Model.Json
import TemporalCheck.Proofs.Visibility

namespace TemporalCheck

theorem NamedPredicate.resolve_resolve {place place' : String → Option Nat} (c : NamedPredicate) :
    (c.resolve place).resolve place' = c.resolve place' := by
  simp only [resolve, Predicate.resolve_resolve]

namespace Json.Fields

variable {α β : Type} {a : α} {b : β} {r : Fields (α → β)} {fields : Fields α}

def Builds (r : Fields α) (a : α) : Prop := ∃ p, r.finish p = .ok a

theorem builds_none {a' : α} (h : (none a).Builds a') : a' = a := by
  obtain ⟨p, hp⟩ := h
  cases hp
  rfl

theorem builds_and (h : (r.and fields).Builds b) : ∃ f a, r.Builds f ∧ b = f a := by
  obtain ⟨p, hp⟩ := h
  obtain ⟨f, hf, hp⟩ := except_bind_eq_ok.1 hp
  obtain ⟨a, -, hp⟩ := except_bind_eq_ok.1 hp
  cases hp
  exact ⟨f, a, ⟨p.1, hf⟩, rfl⟩

theorem builds_of_shape {label : String} {v : Json} (h : fields.shape label v = .ok a) :
    fields.Builds a := by
  unfold shape at h
  split at h
  · obtain ⟨p, -, hp⟩ := except_bind_eq_ok.1 h
    exact ⟨p, hp⟩
  · split at h
    · obtain ⟨p, -, hp⟩ := except_bind_eq_ok.1 h
      cases hp
    · obtain ⟨p, -, hp⟩ := except_bind_eq_ok.1 h
      exact ⟨p, hp⟩
  · obtain ⟨p, -, hp⟩ := except_bind_eq_ok.1 h
    cases hp
  · cases h
  · rw [Shape.mismatch] at h
    split at h <;> cases h

end Json.Fields

namespace Model

variable {m x fresh : Model} {options : ProgramOptions} {visible : OrderedSet String}
  {s : ModelState} {α : Type}

/-- The model as it answers: prepared, if it is not so already. -/
def current (m : Model) : Model := if m.preparation.ready then m else m.prepared

theorem exists_prepare (m : Model) (log : List LogEvent) :
    ∃ log', prepare ⟨m, log⟩ = .ok () ⟨m.current, log'⟩ := by
  rw [current]
  split
  · rename_i hready
    exact ⟨log, (prepare_eq_ok hready).2 rfl⟩
  · rename_i hready
    simp only [prepare, bind, EStateM.bind, Task.read, hready, Bool.not_false, if_true]
    split <;> exact ⟨_, rfl⟩

theorem exists_configure (m : Model) (options : ProgramOptions) (log : List LogEvent) :
    ∃ log', configure options ⟨m, log⟩ = .ok () ⟨m.configured options, log'⟩ :=
  exists_prepare
    { m with preparation := { m.preparation with options, ready := false, disposed := false } } log

theorem leaves_configure (options : ProgramOptions) (l : Logged Model) :
    ((configure options).leaves l).state = l.state.configured options := by
  obtain ⟨log, hconfigure⟩ := l.state.exists_configure options l.log
  rw [Task.leaves, hconfigure]

def initial? (m : Model) : Except Fault ModelState := do
  if ← satisfiesAll m.initialState m.invariants then .ok m.initialState
  else
    .error (.error (.programStep ("the initial state of " ++ m.name ++ " violates an invariant")))

def ample? (m : Model) (s : ModelState) : Except Fault (Option (List ModelState)) :=
  if m.preparation.options.partialOrderReduction then m.ampleStates s else .ok none

def query (f : Model → Except Fault α) : Task Model α := do
  prepare
  Task.ofExcept (f (← Task.read))

theorem initial_eq_query : initial = query initial? := by
  refine congrArg (prepare >>= ·) (funext fun _ => congrArg (Task.read >>= ·) (funext fun m => ?_))
  dsimp only [initial?]
  cases satisfiesAll m.initialState m.invariants with
  | error e => rfl
  | ok b => cases b <;> rfl

theorem successors_eq_query (s : ModelState) : successors s = query (·.successors? s) := rfl

theorem ample_eq_query (s : ModelState) : ample s = query (·.ample? s) := by
  refine congrArg (prepare >>= ·) (funext fun _ => congrArg (Task.read >>= ·) (funext fun m => ?_))
  dsimp only [ample?]
  split <;> rfl

theorem exists_query (f : Model → Except Fault α) (l : Logged Model) :
    ∃ log, query f l = (Task.ofExcept (f l.state.current) : Task Model α)
      ⟨l.state.current, log⟩ := by
  obtain ⟨log, hprepare⟩ := exists_prepare l.state l.log
  exact ⟨log, Task.bind_of_ok hprepare⟩

theorem answer_query (f : Model → Except Fault α) (l : Logged Model) :
    (query f).answer l = f l.state.current := by
  obtain ⟨log, hquery⟩ := exists_query f l
  rw [Task.answer, hquery]
  exact Task.answer_ofExcept _ _

theorem leaves_query (f : Model → Except Fault α) (l : Logged Model) :
    ((query f).leaves l).state = l.state.current := by
  obtain ⟨log, hquery⟩ := exists_query f l
  rw [Task.leaves, hquery]
  exact congrArg Logged.state (Task.leaves_ofExcept _ _)

def erased (m : Model) : Model where
  name := m.name
  vars := m.vars
  predicates := m.predicates.map (·.resolve fun _ => none)
  transitions := m.transitions.map (·.resolve fun _ => none)
  invariants := m.invariants.map (·.resolve fun _ => none)

def undisposed (m : Model) : Model :=
  { m with preparation := { m.preparation with disposed := false } }

theorem visibleVars_erased (m : Model) (visible : OrderedSet String) :
    m.erased.visibleVars visible = m.visibleVars visible := by
  refine congrArg OrderedSet.ofList (congrArg (visible.toList.flatMap ·) (funext fun name => ?_))
  have hfind : m.erased.predicates.find? (·.name = name) =
      (m.predicates.find? (·.name = name)).map (NamedPredicate.resolve fun _ => none) := by
    rw [erased, List.find?_map]
    rfl
  rw [hfind]
  cases m.predicates.find? (·.name = name) with
  | none => rfl
  | some c => exact congrArg OrderedSet.toList c.predicate.support_resolve

theorem conePass_resolve {place : String → Option Nat} (kept : OrderedSet Nat)
    (relevant : OrderedSet String) (ts : List (Transition × Nat)) :
    conePass kept relevant (ts.map (Prod.map (·.resolve place) id)) =
      conePass kept relevant ts := by
  induction ts generalizing kept relevant with
  | nil => rfl
  | cons p ts ih =>
      simp only [List.map_cons, conePass, Prod.map, id, Transition.modifies_resolve,
        Transition.reads_resolve, ih]

theorem coneLoop_resolve {place : String → Option Nat} (n : Nat) (kept : OrderedSet Nat)
    (relevant : OrderedSet String) (ts : List (Transition × Nat)) :
    coneLoop (ts.map (Prod.map (·.resolve place) id)) n kept relevant =
      coneLoop ts n kept relevant := by
  induction n generalizing kept relevant with
  | zero => rfl
  | succ n ih => simp only [coneLoop, conePass_resolve, ih]

theorem coneOfInfluence_erased (m : Model) (visible : OrderedSet String) :
    m.erased.coneOfInfluence visible = m.coneOfInfluence visible := by
  simp only [coneOfInfluence, erased, List.zipIdx_map, coneLoop_resolve, List.flatMap_map,
    List.length_map, NamedPredicate.resolve, Predicate.support_resolve]

theorem configured_eq (m : Model) (options : ProgramOptions) : m.configured options =
    { name := m.name
      vars := m.vars
      predicates := m.predicates.map (·.resolve m.place)
      transitions := m.transitions.map (·.resolve m.place)
      invariants := m.invariants.map (·.resolve m.place)
      preparation :=
        { ready := true
          options := options
          active :=
            if options.slicing then m.coneOfInfluence (m.visibleVars options.visible)
            else List.range m.transitions.length
          visibleVars := m.visibleVars options.visible } } := rfl

/-- What is prepared does not depend on what was looked up or prepared before. -/
theorem configured_erased (m : Model) (options : ProgramOptions) :
    m.erased.configured options = m.configured options := by
  have hplace : m.erased.place = m.place := rfl
  rw [configured_eq, configured_eq, visibleVars_erased, coneOfInfluence_erased, hplace]
  simp only [erased, List.map_map, Function.comp_def, List.length_map,
    NamedPredicate.resolve_resolve, Transition.resolve_resolve]

theorem erased_configured (m : Model) (options : ProgramOptions) :
    (m.configured options).erased = m.erased := by
  simp only [configured_eq, erased, List.map_map, Function.comp_def, NamedPredicate.resolve_resolve,
    Transition.resolve_resolve]

theorem reader_erased (m : Model) : m.erased.reader = m.reader := by
  have hplace : m.erased.place = m.place := rfl
  rw [reader, reader, hplace]
  simp only [erased, List.map_map, Function.comp_def, NamedPredicate.resolve_resolve]

theorem prepared_undisposed (m : Model) :
    m.prepared.undisposed = m.configured m.preparation.options := rfl

theorem initial?_undisposed (m : Model) : m.undisposed.initial? = m.initial? := rfl

theorem successors?_undisposed (m : Model) (s : ModelState) :
    m.undisposed.successors? s = m.successors? s :=
  successors?_congr rfl rfl rfl

theorem ample?_undisposed (m : Model) (s : ModelState) : m.undisposed.ample? s = m.ample? s := by
  have htransitions : m.undisposed.ampleTransitions s = m.ampleTransitions s := rfl
  have hoptions : m.undisposed.preparation.options = m.preparation.options := rfl
  simp only [ample?, ampleStates, htransitions, hoptions, fireAll]
  refine congrArg (if m.preparation.options.partialOrderReduction then · else _)
    (bind_congr fun found => ?_)
  cases found with
  | none => rfl
  | some ts => exact congrArg (· >>= _) (fireInto_congr rfl rfl)

inductive Use where
  | addVariable (v : Variable)
  | addTransition (t : Transition)
  | addPredicate (name : String) (p : Predicate)
  | addInvariant (name : String) (p : Predicate)
  | configure (options : ProgramOptions)
  | initial
  | successors (s : ModelState)
  | ample (s : ModelState)
  | dispose

namespace Use

def after (l : Logged Model) : Use → Logged Model
  | addVariable v => { l with state := l.state.addVariable v }
  | addTransition t => { l with state := l.state.addTransition t }
  | addPredicate name p => { l with state := l.state.addPredicate name p }
  | addInvariant name p => { l with state := l.state.addInvariant name p }
  | configure options => (Model.configure options).leaves l
  | initial => Model.initial.leaves l
  | successors s => (Model.successors s).leaves l
  | ample s => (Model.ample s).leaves l
  | dispose => Model.dispose.leaves l

def declare (m : Model) : Use → Model
  | addVariable v => { m with vars := m.vars ++ [v] }
  | addTransition t => { m with transitions := m.transitions ++ [t] }
  | addPredicate name p => { m with predicates := m.predicates ++ [⟨name, p⟩] }
  | addInvariant name p => { m with invariants := m.invariants ++ [⟨name, p⟩] }
  | _ => m

def choose (current : ProgramOptions) : Use → ProgramOptions
  | configure options => options
  | _ => current

theorem erased_declare_congr (u : Use) (h : x.erased = m.erased) :
    (u.declare x).erased = (u.declare m).erased := by
  simp only [erased, mk.injEq] at h
  cases u <;> simp [declare, erased, h]

end Use

/-- What holds of a model in use: its parts and options, and if it is ready, all that it has
prepared, are those of a new model. -/
structure UpToDate (fresh : Model) (options : ProgramOptions) (x : Model) : Prop where
  parts : x.erased = fresh.erased
  given : x.preparation.options = options
  ready : x.preparation.ready = true → x.undisposed = fresh.configured options

namespace UpToDate

theorem current (h : UpToDate fresh options x) :
    x.current.undisposed = fresh.configured options := by
  rw [Model.current]
  split
  · rename_i hready
    exact h.ready hready
  · rw [prepared_undisposed, h.given, ← configured_erased, h.parts, configured_erased]

theorem of_current (h : UpToDate fresh options x) : UpToDate fresh options x.current where
  parts := by
    rw [Model.current]
    split
    · exact h.parts
    · exact (x.erased_configured x.preparation.options).trans h.parts
  given := by
    rw [Model.current]
    split <;> exact h.given
  ready _ := h.current

theorem of_query {f : Model → Except Fault α} {l : Logged Model}
    (h : UpToDate fresh options l.state) : UpToDate fresh options ((query f).leaves l).state := by
  rw [leaves_query]
  exact h.of_current

theorem of_configure {given : ProgramOptions} {l : Logged Model}
    (h : UpToDate fresh options l.state) :
    UpToDate fresh given ((configure given).leaves l).state := by
  rw [leaves_configure]
  refine ⟨(l.state.erased_configured given).trans h.parts, rfl, fun _ => ?_⟩
  rw [← fresh.configured_erased, ← h.parts, configured_erased]
  rfl

theorem of_dispose {l : Logged Model} (h : UpToDate fresh options l.state) :
    UpToDate fresh options (dispose.leaves l).state := by
  cases hdisposed : l.state.preparation.disposed with
  | true =>
      have hleft : dispose.leaves l = l := by
        simp [dispose, Task.leaves, bind, EStateM.bind, Task.read, hdisposed]
        rfl
      rw [hleft]
      exact h
  | false =>
      have hleft : (dispose.leaves l).state =
          { l.state with preparation := { l.state.preparation with disposed := true } } := by
        simp [dispose, Task.leaves, bind, EStateM.bind, Task.read, hdisposed]
        rfl
      rw [hleft]
      exact ⟨h.parts, h.given, h.ready⟩

theorem step {l : Logged Model} (h : UpToDate fresh options l.state) (u : Use) :
    UpToDate (u.declare fresh) (u.choose options) (u.after l).state := by
  cases u with
  | addVariable v =>
      exact ⟨Use.erased_declare_congr (.addVariable v) h.parts, h.given, Bool.noConfusion⟩
  | addTransition t =>
      exact ⟨Use.erased_declare_congr (.addTransition t) h.parts, h.given, Bool.noConfusion⟩
  | addPredicate name p =>
      exact ⟨Use.erased_declare_congr (.addPredicate name p) h.parts, h.given, Bool.noConfusion⟩
  | addInvariant name p =>
      exact ⟨Use.erased_declare_congr (.addInvariant name p) h.parts, h.given, Bool.noConfusion⟩
  | configure options => exact h.of_configure
  | initial =>
      rw [Use.after, initial_eq_query]
      exact h.of_query
  | successors s => exact h.of_query
  | ample s =>
      rw [Use.after, ample_eq_query]
      exact h.of_query
  | dispose => exact h.of_dispose

theorem run {l : Logged Model} (h : UpToDate fresh options l.state) (uses : List Use) :
    UpToDate (uses.foldl Use.declare fresh) (uses.foldl Use.choose options)
      (uses.foldl Use.after l).state := by
  induction uses generalizing fresh options l with
  | nil => exact h
  | cons u uses ih => exact ih (h.step u)

theorem answer_query {l : Logged Model} {f : Model → Except Fault α}
    (h : UpToDate fresh options l.state) (hf : ∀ m : Model, f m.undisposed = f m)
    (log : List LogEvent) :
    (query f).answer l = (query f).answer ((configure options).leaves ⟨fresh.erased, log⟩) := by
  have hready : (fresh.configured options).current = fresh.configured options := rfl
  rw [Model.answer_query, Model.answer_query, ← hf, h.current, leaves_configure,
    configured_erased, hready]

end UpToDate

theorem preparation_of_read {text : String} (h : shape.read text = .ok m) : m.preparation = {} := by
  rw [Json.Shape.read] at h
  split at h
  · cases h
  · have hmodel := Json.Fields.builds_of_shape (except_mapError_eq_ok.1 h)
    obtain ⟨_, _, hinvariants, rfl⟩ := Json.Fields.builds_and hmodel
    obtain ⟨_, _, htransitions, rfl⟩ := Json.Fields.builds_and hinvariants
    obtain ⟨_, _, hpredicates, rfl⟩ := Json.Fields.builds_and htransitions
    obtain ⟨_, _, hvars, rfl⟩ := Json.Fields.builds_and hpredicates
    obtain ⟨_, _, hname, rfl⟩ := Json.Fields.builds_and hvars
    rw [Json.Fields.builds_none hname]

theorem upToDate_of_new (h : m.preparation = {}) : UpToDate m {} m := by
  refine ⟨rfl, congrArg Preparation.options h, fun hready => ?_⟩
  rw [h] at hready
  cases hready

structure AnswersLike (l l' : Logged Model) : Prop where
  initial : initial.answer l = initial.answer l'
  successors (s : ModelState) : (successors s).answer l = (successors s).answer l'
  ample (s : ModelState) : (ample s).answer l = (ample s).answer l'
  holds (s : ModelState) (p : String) : l.state.reader.holds s p = l'.state.reader.holds s p

/-- Let a model start with nothing prepared, whatever places its variables have been given. After
any uses it answers as a new one of the same parts does that has been given the options given
last. -/
theorem answers_as_new (hnew : m.preparation = {}) (uses : List Use) (log log' : List LogEvent) :
    AnswersLike (uses.foldl Use.after ⟨m, log⟩)
      ((configure (uses.foldl Use.choose {})).leaves
        ⟨(uses.foldl Use.declare m).erased, log'⟩) := by
  have h := UpToDate.run (l := ⟨m, log⟩) (upToDate_of_new hnew) uses
  generalize uses.foldl Use.declare m = fresh, uses.foldl Use.choose {} = options at h ⊢
  constructor
  · rw [initial_eq_query]
    exact h.answer_query initial?_undisposed log'
  · exact fun s => h.answer_query (successors?_undisposed · s) log'
  · intro s
    rw [ample_eq_query]
    exact h.answer_query (ample?_undisposed · s) log'
  · intro s p
    rw [leaves_configure, ← reader_erased, h.parts, reader_erased, ← reader_erased (configured _ _),
      erased_configured, reader_erased, reader_erased]

/-- A lamp whose condition stands with a place that is not that of its variable. -/
def lampText : String :=
  "[\"lamp\",[[\"lit\",[],\x7b\"Bool\":true\x7d]],[[\"on\",\x7b\"EQ\":" ++
    "[\x7b\"Var\":[\"lit\",7]\x7d,\x7b\"Value\":\x7b\"Bool\":true\x7d\x7d]\x7d]],[],[]]"

def lampUses : List Use :=
  [.initial, .dispose, .addVariable ⟨"dim", [.bool true], .bool false⟩, .ample [.bool false],
    .addTransition ⟨"shade", "user", .internal, .eq (.var "lit" (some 1)) (.value (.bool true)),
      [.assign "dim" (.bool true)]⟩,
    .configure { slicing := true, visible := .ofList ["dim"] }, .successors []]

theorem lamp_answers_as_new : ∃ m, shape.read lampText = .ok m ∧
    ((lampUses.foldl Use.after ⟨m, []⟩).state.reader.holds
      [.bool true, .bool false] "on").toOption = some true ∧
    ((successors [.bool true, .bool false]).answer (lampUses.foldl Use.after ⟨m, []⟩)).toOption =
      some [[.bool true, .bool true]] ∧
    AnswersLike (lampUses.foldl Use.after ⟨m, []⟩)
      ((configure (lampUses.foldl Use.choose {})).leaves
        ⟨(lampUses.foldl Use.declare m).erased, []⟩) := by
  have hread : (shape.read lampText).toOption.map (fun m =>
      (((lampUses.foldl Use.after ⟨m, []⟩).state.reader.holds
          [.bool true, .bool false] "on").toOption,
        ((successors [.bool true, .bool false]).answer
          (lampUses.foldl Use.after ⟨m, []⟩)).toOption)) =
      some (some true, some [[.bool true, .bool true]]) := by decide +kernel
  obtain ⟨m, hm, hanswers⟩ := Option.map_eq_some_iff.1 hread
  have hmodel := except_toOption_eq_some.1 hm
  obtain ⟨hholds, hsuccessors⟩ := Prod.mk.inj hanswers
  exact ⟨m, hmodel, hholds, hsuccessors, answers_as_new (preparation_of_read hmodel) lampUses [] []⟩

end Model

end TemporalCheck
