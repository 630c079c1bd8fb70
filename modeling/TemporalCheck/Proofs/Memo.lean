import Mathlib.Data.Set.Card
import TemporalCheck.Proofs.Release

/-!
What the automata remember. A list of successors or an ample set that has been answered once is
answered from then on, whatever the program would say now: each question either is answered from
what is known, or adds to it, or fails and leaves it alone. So the counters of the automata tell
what has been asked, and every number that is stored anywhere refers to something that is stored.
-/

namespace TemporalCheck

namespace Task

variable {σ α β : Type} {t : Task σ α} {l : Logged σ}

theorem leaves_map (f : α → β) : (f <$> t).leaves l = t.leaves l := by
  cases ht : t l with
  | ok a l' => rw [leaves, leaves, map_eq_ok.2 ⟨a, ht, rfl⟩, ht]
  | error e l' =>
      have hmap : (f <$> t) l = .error e l' := by
        change EStateM.map f t l = _
        rw [EStateM.map, ht]
      rw [leaves, leaves, hmap, ht]

theorem Meets.leaves {kept : Logged σ → Prop} (h : t.Meets l (fun _ => kept) fun _ => kept) :
    kept (t.leaves l) := by
  rw [Meets] at h
  rw [Task.leaves]
  cases ht : t l <;> rwa [ht] at h

theorem Within.of_leaves {R : σ → σ → Prop} (h : ∀ l, R l.state (t.leaves l).state) :
    Within R t := by
  constructor
  · intro l a l' hok
    simpa only [Task.leaves, hok] using h l
  · intro l e l' herror
    simpa only [Task.leaves, herror] using h l

theorem Within.leaves {R : σ → σ → Prop} (h : Within R t) (l : Logged σ) :
    R l.state (t.leaves l).state := by
  cases ht : t l with
  | ok a l' => simpa only [Task.leaves, ht] using h.ok ht
  | error e l' => simpa only [Task.leaves, ht] using h.error ht

end Task

open TemporalCheck.Task

namespace StateTable

variable {S I : Type} [Inhabited I] {t t' : StateTable S I} {id j : Nat} {i : I}

def noted (t : StateTable S I) (id : Nat) : I := (t.info? id).getD default

theorem noted_of_info? (h : t.info? id = some i) : t.noted id = i := by
  rw [noted, h, Option.getD_some]

theorem info?_of_lt (h : id < t.size) : t.info? id = some (t.noted id) := by
  obtain ⟨i, hi⟩ := exists_info?_of_lt h
  rw [noted_of_info? hi, hi]

theorem noted_of_not_lt (h : ¬ id < t.size) : t.noted id = default := by
  rw [← info?_isSome_iff, Option.not_isSome_iff_eq_none] at h
  rw [noted, h, Option.getD_none]

theorem lt_size_of_noted {γ : Type} {c : γ} (view : I → Option γ) (hview : view default = none)
    (h : view (t.noted id) = some c) : id < t.size := by
  by_contra hid
  rw [noted_of_not_lt hid, hview] at h
  cases h

theorem Grows.noted (h : Grows t t') (id : Nat) : t'.noted id = t.noted id := by
  by_cases hid : id < t.size
  · exact noted_of_info? (h.info id _ (info?_of_lt hid))
  · rw [noted_of_not_lt hid]
    by_cases hid' : id < t'.size
    · rw [← info?_isSome_iff, Option.not_isSome_iff_eq_none] at hid
      exact h.fresh id _ hid (info?_of_lt hid')
    · exact noted_of_not_lt hid'

theorem noted_modifyInfo {f : I → I} (h : id < t.size) :
    (t.modifyInfo id f).noted j = if j = id then f (t.noted id) else t.noted j := by
  split
  · rename_i heq
    subst heq
    exact noted_of_info? (info?_modifyInfo_self f (info?_of_lt h))
  · rename_i hne
    rw [StateTable.noted, info?_modifyInfo_of_ne f (Ne.symm hne), StateTable.noted]

theorem noted_modifyInfo_congr {γ : Type} {f : I → I} (view : I → γ) (h : id < t.size)
    (hview : view (f (t.noted id)) = view (t.noted id)) (j : Nat) :
    view ((t.modifyInfo id f).noted j) = view (t.noted j) := by
  rw [noted_modifyInfo h]
  split
  · rename_i heq
    rw [hview, heq]
  · rfl

theorem noted_stored [DecidableEq S] [HasDigest S] (h : id < t.size) (states : List S)
    (f : I → I) (j : Nat) :
    ((t.insertAll states).2.modifyInfo id f).noted j = if j =
      id then f (t.noted id) else t.noted j := by
  have hgrows := grows_insertAll t states
  rw [noted_modifyInfo (Nat.lt_of_lt_of_le h hgrows.size_le), hgrows.noted, hgrows.noted]

end StateTable

namespace StateSpace

open StateTable

variable {W S : Type} {p : Program W S} {x x' x'' : StateSpace W S} {id : Nat} {log : List LogEvent}

def known (x : StateSpace W S) : Finset Nat :=
  (Finset.range x.table.size).filter fun id => (x.table.noted id).successors.isSome = true

theorem mem_known : id ∈ x.known ↔ ∃ ids, (x.table.noted id).successors = some ids := by
  rw [known, Finset.mem_filter, Finset.mem_range, Option.isSome_iff_exists]
  constructor
  · exact And.right
  · rintro ⟨ids, hids⟩
    exact ⟨lt_size_of_noted StateFacts.successors rfl hids, ids, hids⟩

theorem isExpanded_iff : isExpanded id ⟨x, log⟩ = .ok true ⟨x, log⟩ ↔ id ∈ x.known := by
  simp only [isExpanded, Task.bind_eq_ok, facts_eq_ok, Task.pure_eq_ok, mem_known]
  constructor
  · rintro ⟨facts, _, ⟨hfacts, rfl⟩, hsome, -⟩
    rw [noted_of_info? hfacts]
    exact Option.isSome_iff_exists.1 hsome
  · rintro ⟨ids, hids⟩
    have hid := lt_size_of_noted StateFacts.successors rfl hids
    exact ⟨_, _, ⟨info?_of_lt hid, rfl⟩, by rw [hids, Option.isSome_some], rfl⟩

/-- What a state space answers without asking the program, and how many states it has expanded. -/
def memo (x : StateSpace W S) :
    Option Nat × Nat × (Nat → Option S) × (Nat → Option (List Nat) × Option (Option (List Nat))) :=
  (x.initial?, x.expanded, x.table.get?,
    fun id => ((x.table.noted id).successors, (x.table.noted id).ample))

structure Extends (x x' : StateSpace W S) : Prop where
  get : ∀ id s, x.table.get? id = some s → x'.table.get? id = some s
  initial : ∀ id, x.initial? = some id → x'.initial? = some id
  successors : ∀ id ids, (x.table.noted id).successors = some ids →
    (x'.table.noted id).successors = some ids
  ample : ∀ id set, (x.table.noted id).ample = some set → (x'.table.noted id).ample = some set

theorem Extends.refl (x : StateSpace W S) : Extends x x :=
  ⟨fun _ _ h => h, fun _ h => h, fun _ _ h => h, fun _ _ h => h⟩

theorem Extends.trans (h : Extends x x') (h' : Extends x' x'') : Extends x x'' where
  get id s hs := h'.get id s (h.get id s hs)
  initial id hid := h'.initial id (h.initial id hid)
  successors id ids hids := h'.successors id ids (h.successors id ids hids)
  ample id set hset := h'.ample id set (h.ample id set hset)

theorem Extends.size_le (h : Extends x x') : x.table.size ≤ x'.table.size := size_le_of_get? h.get

section

variable [DecidableEq S] [HasDigest S]

/-- What one question does to a state space, with the stored states that it passes on to be
evaluated. -/
inductive Effect (x : StateSpace W S) : List Nat → StateSpace W S → Prop
  | quiet (memory : W) : Effect x [] { x with memory }
  | begun (memory : W) (s : S) (hnew : x.initial? = none) :
      Effect x []
        { x with memory, table := (x.table.insert s).2, initial? := some (x.table.insert s).1 }
  | expanded (memory : W) (states : List S) {id : Nat} {ids : List Nat} (hid : id < x.table.size)
      (hnew : (x.table.noted id).successors = none) (hsome : ids ≠ [])
      (hids : ∀ j ∈ ids, j = id ∨ j ∈ (x.table.insertAll states).1) :
      Effect x [] { x with
        memory
        table := (x.table.insertAll states).2.modifyInfo id fun f =>
          { f with successors := some ids }
        expanded := x.expanded + 1 }
  | reduced (memory : W) (states : List S) {id : Nat} {set : Option (List Nat)}
      (hid : id < x.table.size) (hnew : (x.table.noted id).ample = none)
      (hset : ∀ j ∈ set.getD [], j ∈ (x.table.insertAll states).1) :
      Effect x [] { x with
        memory
        table := (x.table.insertAll states).2.modifyInfo id fun f => { f with ample := some set } }
  | evaluated (memory : W) {id : Nat} (hid : id < x.table.size)
      (hnew : (x.table.noted id).evaluated = false) :
      Effect x [id] { x with
        memory
        table := x.table.modifyInfo id fun f => { f with evaluated := true }
        evaluated := x.evaluated + 1 }
  | reevaluated (memory : W) {id : Nat} (hid : id < x.table.size)
      (hold : (x.table.noted id).evaluated = true) : Effect x [id] { x with memory }

def Unchanged (x x' : StateSpace W S) : Prop := ∃ memory, x' = { x with memory }

omit [DecidableEq S] [HasDigest S] in
theorem facts_meets {done : StateFacts → Logged (StateSpace W S) → Prop}
    {failed : Fault → Logged (StateSpace W S) → Prop}
    (hin : id < x.table.size → done (x.table.noted id) ⟨x, log⟩)
    (hout : ¬ id < x.table.size → ∀ e, failed e ⟨x, log⟩) :
    (facts id).Meets ⟨x, log⟩ done failed := by
  by_cases hid : id < x.table.size
  · exact (meets_of_ok (facts_eq_ok.2 ⟨info?_of_lt hid, rfl⟩)).2 (hin hid)
  · have hnone : x.table.info? id = none := by
      rw [← Option.not_isSome_iff_eq_none, info?_isSome_iff]
      exact hid
    rw [StateSpace.facts, meets_bind, meets_read, hnone]
    exact hout hid _

theorem initial_effect : (initial p).Meets ⟨x, log⟩ (fun id l => Effect x [] l.state ∧
    l.state.initial? = some id)
    fun _ l => Unchanged x l.state := by
  rw [initial, meets_bind, meets_read]
  cases hfirst : x.initial? with
  | some id => exact ⟨.quiet x.memory, hfirst⟩
  | none =>
      dsimp only
      rw [meets_bind, meets_call]
      exact .of_forall (fun s m => ⟨.begun m.state s hfirst, rfl⟩) fun _ m => ⟨m.state, rfl⟩

theorem successors_effect : (successors p id).Meets ⟨x, log⟩
    (fun ids l => Effect x [] l.state ∧ (l.state.table.noted id).successors = some ids)
    fun _ l => Unchanged x l.state := by
  rw [successors, meets_bind]
  refine facts_meets (fun hid => ?_) fun _ _ => ⟨x.memory, rfl⟩
  cases hknown : (x.table.noted id).successors with
  | some ids => exact ⟨.quiet x.memory, hknown⟩
  | none =>
      obtain ⟨s, hs⟩ := exists_get?_of_lt hid
      dsimp only
      rw [meets_bind, meets_of_ok (state_eq_ok.2 ⟨hs, rfl⟩), meets_bind, meets_call]
      refine .of_forall (fun next m => ?_) fun _ m => ⟨m.state, rfl⟩
      cases next with
      | nil =>
          refine ⟨.expanded m.state [] hid hknown (List.cons_ne_nil id []) fun j hj =>
            .inl (List.mem_singleton.1 hj), ?_⟩
          exact congrArg StateFacts.successors ((noted_stored hid [] _ id).trans (if_pos rfl))
      | cons s rest =>
          refine ⟨.expanded m.state (s :: rest) hid hknown (List.cons_ne_nil _ _)
            fun j hj => .inr hj, ?_⟩
          exact congrArg StateFacts.successors
            ((noted_stored hid (s :: rest) _ id).trans (if_pos rfl))

theorem ample_effect : (ample p id).Meets ⟨x, log⟩
    (fun set l => Effect x [] l.state ∧ (l.state.table.noted id).ample = some set) fun _ l =>
      Unchanged x l.state := by
  rw [ample, meets_bind]
  refine facts_meets (fun hid => ?_) fun _ _ => ⟨x.memory, rfl⟩
  cases hknown : (x.table.noted id).ample with
  | some set => exact ⟨.quiet x.memory, hknown⟩
  | none =>
      obtain ⟨s, hs⟩ := exists_get?_of_lt hid
      dsimp only
      rw [meets_bind, meets_of_ok (state_eq_ok.2 ⟨hs, rfl⟩), meets_bind, meets_call]
      refine .of_forall (fun reduced m => ?_) fun _ m => ⟨m.state, rfl⟩
      cases reduced.getD [] with
      | nil =>
          refine ⟨.reduced m.state [] hid hknown (fun j hj => hj), ?_⟩
          exact congrArg StateFacts.ample ((noted_stored hid [] _ id).trans (if_pos rfl))
      | cons s rest =>
          refine ⟨.reduced m.state (s :: rest) hid hknown (fun j hj => hj), ?_⟩
          exact congrArg StateFacts.ample ((noted_stored hid (s :: rest) _ id).trans (if_pos rfl))

/-- A state is passed on to be evaluated also where its evaluation fails. -/
theorem entailsAll_effect {literals : List Formula} (hid : id < x.table.size) :
    (entailsAll p id literals).Meets ⟨x, log⟩ (fun _ l => Effect x [id] l.state) fun _ l =>
      Effect x [id] l.state := by
  obtain ⟨s, hs⟩ := exists_get?_of_lt hid
  have hask (y : StateSpace W S) (hy : y.table.get? id = some s)
      (heffect : ∀ memory, Effect x [id] { y with memory }) :
      (state id >>= fun s => call (p.entailsAll s literals)).Meets ⟨y, log⟩
      (fun _ l => Effect x [id] l.state)
        fun _ l => Effect x [id] l.state := by
    rw [meets_bind, meets_of_ok (state_eq_ok.2 ⟨hy, rfl⟩), meets_call]
    exact .of_forall (fun _ m => heffect m.state) fun _ m => heffect m.state
  rw [entailsAll, meets_bind, meets_of_ok (facts_eq_ok.2 ⟨info?_of_lt hid, rfl⟩)]
  cases hmark : (x.table.noted id).evaluated with
  | false =>
      refine hask { x with
        table := x.table.modifyInfo id fun f => { f with evaluated := true }
        evaluated := x.evaluated + 1 } ?_ fun memory => .evaluated memory hid hmark
      rw [get?_modifyInfo]
      exact hs
  | true => exact hask x hs fun memory => .reevaluated memory hid hmark

/-- Noting something about a state, after some states have been stored, forgets no answer if `g`
does not. -/
theorem Extends.of_stored (states : List S) (g : StateFacts → StateFacts) (hid : id < x.table.size)
    (htable : x'.table = (x.table.insertAll states).2.modifyInfo id g)
    (hinitial : x'.initial? = x.initial?)
    (hsuccessors : ∀ ids, (x.table.noted id).successors = some ids →
      (g (x.table.noted id)).successors = some ids)
    (hample : ∀ set, (x.table.noted id).ample = some set →
      (g (x.table.noted id)).ample = some set) : Extends x x' := by
  refine ⟨fun j s hs => ?_, fun j hj => hinitial.trans hj, fun j ids hids => ?_,
    fun j set hset => ?_⟩
  · rw [htable, get?_modifyInfo]
    exact (grows_insertAll _ _).get j s hs
  · rw [htable, noted_stored hid]
    split
    · rename_i heq
      exact hsuccessors ids (heq ▸ hids)
    · exact hids
  · rw [htable, noted_stored hid]
    split
    · rename_i heq
      exact hample set (heq ▸ hset)
    · exact hset

theorem Fits.of_stored (states : List S) (g : StateFacts → StateFacts) (h : x.Fits fun _ => True)
    (hid : id < x.table.size) (htable : x'.table = (x.table.insertAll states).2.modifyInfo id g)
    (hinitial : x'.initial? = x.initial?)
    (hg : ∀ j ∈ (g (x.table.noted id)).numbers, j ∈ (x.table.noted id).numbers ∨ j = id ∨
      j ∈ (x.table.insertAll states).1) : x'.Fits fun _ => True := by
  obtain ⟨-, hgrows, hnames⟩ := h.table.insertAll states
  have hstored := h.insertAll states fun _ _ => trivial
  have hnoted := hstored.note (g := g) (hgrows.info id _ (info?_of_lt hid)) fun j hj => ?_
  · exact ⟨htable ▸ hnoted.table, fun _ _ _ => trivial,
      fun j hj => htable ▸ hnoted.initial j (hinitial ▸ hj),
      fun j facts hj => htable ▸ hnoted.facts j facts (htable ▸ hj)⟩
  · rcases hg j hj with hj | rfl | hj
    · exact Nat.lt_of_lt_of_le (h.facts id _ (info?_of_lt hid) j hj) hgrows.size_le
    · exact Nat.lt_of_lt_of_le hid hgrows.size_le
    · obtain ⟨s, -, hs⟩ := hnames.exists_state hj
      exact lt_size_of_get? hs

omit [DecidableEq S] [HasDigest S] in
theorem known_congr (h : ∀ id, (x'.table.noted id).successors = (x.table.noted id).successors) :
    x'.known = x.known := by
  ext id
  rw [mem_known, mem_known, h]

/-- What the counters of a state space have counted, after the states in `passed` have been
evaluated. -/
structure Account (passed : List Nat) (x : StateSpace W S) : Prop where
  expanded : x.expanded = x.known.card
  evaluated : x.evaluated = passed.toFinset.card
  marked : ∀ id, (x.table.noted id).evaluated = true ↔ id ∈ passed
  leadsOn : ∀ id, (x.table.noted id).successors ≠ some []

namespace Account

variable {passed : List Nat}

omit [DecidableEq S] [HasDigest S]

theorem start (memory : W) : Account [] ({ memory } : StateSpace W S) :=
  ⟨rfl, rfl, fun _ => ⟨nofun, nofun⟩, fun _ => nofun⟩

theorem congr (h : Account passed x) (hexpanded : x'.expanded = x.expanded)
    (hevaluated : x'.evaluated = x.evaluated)
    (hmarks : ∀ id, (x'.table.noted id).evaluated = (x.table.noted id).evaluated)
    (hsuccessors : ∀ id, (x'.table.noted id).successors = (x.table.noted id).successors) :
    Account passed x' := by
  refine ⟨?_, hevaluated.trans h.evaluated, fun id => ?_, fun id => ?_⟩
  · rw [hexpanded, known_congr hsuccessors, h.expanded]
  · rw [hmarks, h.marked]
  · rw [hsuccessors]
    exact h.leadsOn id

theorem expand {ids : List Nat} (h : Account passed x) (hnew : (x.table.noted id).successors = none)
    (hsome : ids ≠ []) (hexpanded : x'.expanded = x.expanded + 1)
    (hevaluated : x'.evaluated = x.evaluated)
    (hnoted : ∀ j, x'.table.noted j = if j =
      id then { x.table.noted id with successors := some ids } else x.table.noted j) :
    Account passed x' := by
  have hknown : x'.known = insert id x.known := by
    ext j
    rw [mem_known, hnoted, Finset.mem_insert, mem_known]
    split
    · rename_i heq
      exact ⟨fun _ => .inl heq, fun _ => ⟨ids, rfl⟩⟩
    · rename_i hne
      exact ⟨.inr, fun hj => hj.resolve_left hne⟩
  have hout : id ∉ x.known := by
    rw [mem_known, hnew]
    rintro ⟨_, ⟨⟩⟩
  refine ⟨?_, hevaluated.trans h.evaluated, fun j => ?_, fun j => ?_⟩
  · rw [hexpanded, hknown, Finset.card_insert_of_notMem hout, h.expanded]
  · rw [hnoted, ← h.marked]
    split
    · rename_i heq
      rw [heq]
    · rfl
  · rw [hnoted]
    split
    · exact fun hnone => hsome (Option.some.inj hnone)
    · exact h.leadsOn j

theorem evaluate (h : Account passed x) (hnew : (x.table.noted id).evaluated = false)
    (hexpanded : x'.expanded = x.expanded) (hevaluated : x'.evaluated = x.evaluated + 1)
    (hmarks : ∀ j, (x'.table.noted j).evaluated = if j =
      id then true else (x.table.noted j).evaluated)
    (hsuccessors : ∀ id, (x'.table.noted id).successors = (x.table.noted id).successors) :
    Account (id :: passed) x' := by
  have hout : id ∉ passed.toFinset := by
    rw [List.mem_toFinset, ← h.marked, hnew]
    exact Bool.false_ne_true
  refine ⟨?_, ?_, fun j => ?_, fun j => ?_⟩
  · rw [hexpanded, known_congr hsuccessors, h.expanded]
  · rw [hevaluated, List.toFinset_cons, Finset.card_insert_of_notMem hout, h.evaluated]
  · rw [hmarks, List.mem_cons, ← h.marked]
    split
    · rename_i heq
      exact ⟨fun _ => .inl heq, fun _ => rfl⟩
    · rename_i hne
      exact ⟨.inr, fun hj => hj.resolve_left hne⟩
  · rw [hsuccessors]
    exact h.leadsOn j

end Account

namespace Effect

variable {passed earlier : List Nat}

theorem later (h : Effect x passed x') : Extends x x' := by
  cases h with
  | quiet memory | reevaluated memory =>
      exact ⟨fun _ _ h => h, fun _ h => h, fun _ _ h => h, fun _ _ h => h⟩
  | begun memory s hnew =>
      have hgrows := grows_insert x.table s
      refine ⟨hgrows.get, fun id hid => ?_, fun id ids hids => ?_, fun id set hset => ?_⟩
      · rw [hnew] at hid
        cases hid
      · rwa [hgrows.noted]
      · rwa [hgrows.noted]
  | @expanded memory states id ids hid hnew =>
      refine .of_stored states (fun f => { f with successors := some ids }) hid rfl rfl
        (fun js hjs => ?_) fun _ h => h
      rw [hnew] at hjs
      cases hjs
  | @reduced memory states id set hid hnew =>
      refine .of_stored states (fun f => { f with ample := some set }) hid rfl rfl (fun _ h => h)
        fun set' hset => ?_
      rw [hnew] at hset
      cases hset
  | evaluated memory hid =>
      exact .of_stored [] (fun f => { f with evaluated := true }) hid rfl rfl (fun _ h => h)
        fun _ h => h

theorem fits (h : Effect x passed x') (hx : x.Fits fun _ => True) : x'.Fits fun _ => True := by
  cases h with
  | quiet memory | reevaluated memory => exact ⟨hx.table, hx.states, hx.initial, hx.facts⟩
  | begun memory s hnew =>
      have hstored := hx.insertAll [s] fun _ _ => trivial
      obtain ⟨-, -, hget⟩ := hx.table.insert s
      refine ⟨hstored.table, hstored.states, fun id hid => ?_, hstored.facts⟩
      cases hid
      exact lt_size_of_get? hget
  | @expanded memory states id ids hid hnew hsome hids =>
      refine .of_stored states (fun f => { f with successors := some ids }) hx hid rfl rfl
        fun j hj => ?_
      rcases List.mem_append.1 hj with hj | hj
      · exact .inr (hids j hj)
      · exact .inl (List.mem_append_right _ hj)
  | @reduced memory states id set hid hnew hset =>
      refine .of_stored states (fun f => { f with ample := some set }) hx hid rfl rfl fun j hj => ?_
      rcases List.mem_append.1 hj with hj | hj
      · exact .inl (List.mem_append_left _ hj)
      · exact .inr (.inr (hset j hj))
  | evaluated memory hid =>
      exact .of_stored [] (fun f => { f with evaluated := true }) hx hid rfl rfl fun j hj => .inl hj

theorem account (h : Effect x passed x') (hx : Account earlier x) :
    Account (passed ++ earlier) x' := by
  cases h with
  | quiet memory => exact hx.congr rfl rfl (fun _ => rfl) fun _ => rfl
  | begun memory s hnew =>
      have hnoted := (grows_insert x.table s).noted
      exact hx.congr rfl rfl (fun id => congrArg _ (hnoted id)) fun id => congrArg _ (hnoted id)
  | @expanded memory states id ids hid hnew hsome hids =>
      exact hx.expand hnew hsome rfl rfl
        (noted_stored hid states fun f => { f with successors := some ids })
  | @reduced memory states id set hid hnew hset =>
      have hnoted := noted_stored hid states fun f => { f with ample := some set }
      refine hx.congr rfl rfl (fun j => ?_) fun j => ?_
      all_goals
        rw [hnoted]
        split
        · rename_i heq
          rw [heq]
        · rfl
  | @evaluated memory id hid hnew =>
      refine hx.evaluate hnew rfl rfl (fun j => ?_) fun j => ?_
      · rw [noted_modifyInfo hid]
        split <;> rfl
      · exact noted_modifyInfo_congr StateFacts.successors hid rfl j
  | @reevaluated memory id hid hold =>
      have hin : id ∈ earlier := (hx.marked id).1 hold
      refine ⟨hx.expanded, ?_, fun j => ?_, hx.leadsOn⟩
      · rw [List.singleton_append, List.toFinset_cons,
          Finset.insert_eq_of_mem (List.mem_toFinset.2 hin)]
        exact hx.evaluated
      · rw [List.singleton_append, List.mem_cons]
        refine (hx.marked j).trans ⟨.inr, ?_⟩
        rintro (rfl | h)
        · exact hin
        · exact h

/-- Whatever comes of evaluating a state, no answer depends on it. -/
theorem memo_eq (h : Effect x (id :: earlier) x') : x'.memo = x.memo := by
  cases h with
  | evaluated memory hid hnew =>
      have hsuccessors := noted_modifyInfo_congr (f := fun f => { f with evaluated := true })
        StateFacts.successors hid rfl
      have hample := noted_modifyInfo_congr (f := fun f => { f with evaluated := true })
        StateFacts.ample hid rfl
      simp only [memo, hsuccessors, hample, Prod.mk.injEq, true_and, and_true]
      exact funext fun j => get?_modifyInfo _ _ _ _
  | reevaluated memory hid hold => rfl

end Effect

inductive Question where
  | initial
  | successors (id : Nat)
  | ample (id : Nat)
  | entailsAll (id : Nat) (literals : List Formula)

namespace Question

def ask (p : Program W S) : Question → Task (StateSpace W S) Unit
  | .initial => (fun _ => ()) <$> StateSpace.initial p
  | .successors id => (fun _ => ()) <$> StateSpace.successors p id
  | .ample id => (fun _ => ()) <$> StateSpace.ample p id
  | .entailsAll id literals => (fun _ => ()) <$> StateSpace.entailsAll p id literals

def passes (x : StateSpace W S) : Question → List Nat
  | .entailsAll id _ => if id < x.table.size then [id] else []
  | _ => []

theorem ask_meets (q : Question) :
    (q.ask p).Meets ⟨x, log⟩ (fun _ l => Effect x (q.passes x) l.state)
    fun _ l => Effect x (q.passes x) l.state ∧ l.state.memo = x.memo := by
  have hfailed (e : Fault) (l : Logged (StateSpace W S)) :
      Unchanged x l.state → Effect x [] l.state ∧ l.state.memo = x.memo := by
    rintro ⟨memory, hl⟩
    rw [hl]
    exact ⟨.quiet memory, rfl⟩
  cases q with
  | initial => exact meets_map.2 (initial_effect.mono (fun _ _ h => h.1) hfailed)
  | successors id => exact meets_map.2 (successors_effect.mono (fun _ _ h => h.1) hfailed)
  | ample id => exact meets_map.2 (ample_effect.mono (fun _ _ h => h.1) hfailed)
  | entailsAll id literals =>
      rw [ask, passes, meets_map]
      split
      · exact (entailsAll_effect ‹_›).mono (fun _ _ h => h) fun _ _ h => ⟨h, h.memo_eq⟩
      · rw [StateSpace.entailsAll, meets_bind]
        exact facts_meets (fun hid => absurd hid ‹_›) fun _ _ => ⟨.quiet x.memory, rfl⟩

end Question

/-- `x'` comes from `x` by questions one after the other, which have passed on the states in
`passed` to be evaluated. Between two questions anything may have been written to the log. -/
inductive Talks (p : Program W S) (x : StateSpace W S) : List Nat → StateSpace W S → Prop
  | nil : Talks p x [] x
  | ask {passed : List Nat} {y : StateSpace W S} (h : Talks p x passed y) (q : Question)
      (log : List LogEvent) : Talks p x (q.passes y ++ passed) ((q.ask p).leaves ⟨y, log⟩).state

namespace Talks

variable {passed passed' : List Nat}

theorem append (h : Talks p x passed x') (h' : Talks p x' passed' x'') :
    Talks p x (passed' ++ passed) x'' := by
  induction h' with
  | nil => exact h
  | ask _ q log ih =>
      rw [List.append_assoc]
      exact .ask ih q log

theorem step {y : StateSpace W S} (q : Question) (log : List LogEvent) :
    Effect y (q.passes y) ((q.ask p).leaves ⟨y, log⟩).state :=
  Meets.leaves ((q.ask_meets).mono (fun _ _ h => h) fun _ _ h => h.1)

theorem later (h : Talks p x passed x') : Extends x x' := by
  induction h with
  | nil => exact .refl x
  | ask _ q log ih => exact ih.trans (step q log).later

theorem fits (h : Talks p x passed x') (hx : x.Fits fun _ => True) : x'.Fits fun _ => True := by
  induction h with
  | nil => exact hx
  | ask _ q log ih => exact (step q log).fits ih

theorem account (h : Talks p x passed x') (hx : Account [] x) : Account passed x' := by
  induction h with
  | nil => exact hx
  | ask _ q log ih => exact (step q log).account ih

end Talks

def Talked (p : Program W S) (x x' : StateSpace W S) : Prop := ∃ passed, Talks p x passed x'

instance isPreorderTalked (p : Program W S) : IsPreorder (StateSpace W S) (Talked p) where
  refl _ := ⟨[], .nil⟩
  trans _ _ _ h h' := by
    obtain ⟨passed, h⟩ := h
    obtain ⟨passed', h'⟩ := h'
    exact ⟨passed' ++ passed, h.append h'⟩

theorem within_ask (q : Question) : Within (Talked p) (q.ask p) :=
  .of_leaves fun l => ⟨_, .ask .nil q l.log⟩

theorem within_initial : Within (Talked p) (initial p) :=
  .of_leaves fun l => leaves_map (t := initial p) (fun _ => ()) ▸ ⟨_, .ask .nil .initial l.log⟩

theorem within_successors (id : Nat) : Within (Talked p) (successors p id) :=
  .of_leaves fun l => leaves_map (t := successors p id) (fun _ => ()) ▸
    ⟨_, .ask .nil (.successors id) l.log⟩

theorem within_ample (id : Nat) : Within (Talked p) (ample p id) :=
  .of_leaves fun l => leaves_map (t := ample p id) (fun _ => ()) ▸ ⟨_, .ask .nil (.ample id) l.log⟩

theorem within_entailsAll (id : Nat) (literals : List Formula) :
    Within (Talked p) (entailsAll p id literals) :=
  .of_leaves fun l => leaves_map (t := entailsAll p id literals) (fun _ => ()) ▸
    ⟨_, .ask .nil (.entailsAll id literals) l.log⟩

theorem within_generate (limit : Nat) : Within (Talked p) (generate p limit) :=
  .bind within_initial fun _ => Sweep.within_exhaust within_successors limit _

section

variable {q : Program W S} {m : Logged (StateSpace W S)}

theorem initial_lasts (hok : initial p ⟨x, log⟩ = .ok id m) (h : Extends m.state x')
    (log' : List LogEvent) : initial q ⟨x', log'⟩ = .ok id ⟨x', log'⟩ := by
  have hknown := h.initial id (initial_effect.ok hok).2
  rw [initial, Task.bind_of_ok (Task.read_eq_ok.2 ⟨rfl, rfl⟩), hknown]
  rfl

theorem successors_lasts {ids : List Nat} (hok : successors p id ⟨x, log⟩ = .ok ids m)
    (h : Extends m.state x') (log' : List LogEvent) :
    successors q id ⟨x', log'⟩ = .ok ids ⟨x', log'⟩ := by
  have hknown := h.successors id ids (successors_effect.ok hok).2
  have hid := lt_size_of_noted StateFacts.successors rfl hknown
  rw [successors, Task.bind_of_ok (facts_eq_ok.2 ⟨info?_of_lt hid, rfl⟩), hknown]
  rfl

theorem ample_lasts {set : Option (List Nat)} (hok : ample p id ⟨x, log⟩ = .ok set m)
    (h : Extends m.state x') (log' : List LogEvent) :
    ample q id ⟨x', log'⟩ = .ok set ⟨x', log'⟩ := by
  have hknown := h.ample id set (ample_effect.ok hok).2
  have hid := lt_size_of_noted StateFacts.ample rfl hknown
  rw [ample, Task.bind_of_ok (facts_eq_ok.2 ⟨info?_of_lt hid, rfl⟩), hknown]
  rfl

end

end

end StateSpace

namespace PropertyAutomaton

variable {a a' : PropertyAutomaton} {id : Nat} {log : List LogEvent}

theorem isExpanded_iff : isExpanded id ⟨a, log⟩ = .ok true ⟨a, log⟩ ↔ id ∈ a.known := by
  simp only [isExpanded, Task.bind_eq_ok, Task.read_eq_ok, Task.require_eq_ok, Task.pure_eq_ok,
    mem_known]
  constructor
  · rintro ⟨_, _, ⟨rfl, rfl⟩, facts, _, ⟨hfacts, rfl⟩, hsome, -⟩
    obtain ⟨ids, rfl⟩ := Option.isSome_iff_exists.1 hsome
    exact ⟨ids, hfacts⟩
  · rintro ⟨ids, hids⟩
    exact ⟨_, _, ⟨rfl, rfl⟩, _, _, ⟨hids, rfl⟩, rfl, rfl⟩

structure Extends (a a' : PropertyAutomaton) : Prop where
  traced : ∀ f, Traced f a → Traced f a'
  size_le : a.table.size ≤ a'.table.size
  successors : ∀ id ids, a.table.info? id = some (some ids) → a'.table.info? id = some (some ids)

instance isPreorderExtends : IsPreorder PropertyAutomaton Extends where
  refl _ := ⟨fun _ h => h, Nat.le_refl _, fun _ _ h => h⟩
  trans _ _ _ h h' := ⟨fun f ha => h'.traced f (h.traced f ha), h.size_le.trans h'.size_le,
    fun id ids hids => h'.successors id ids (h.successors id ids hids)⟩

/-- Nothing is asked that could fail but the number itself. -/
theorem successors_fails (id : Nat) : KeepsOnError (fun a => a) (successors id) := by
  refine .bind .read fun a => .bind (.require _) fun known => ?_
  cases known with
  | some ids => exact .of_neverFails (.pure ids)
  | none => exact .bind (.require _) fun q => .of_neverFails (.bind (.change _) fun _ => .pure _)

theorem within_successors (id : Nat) : Within Extends (successors id) := by
  constructor
  · rintro ⟨a, log⟩ ids ⟨a', log'⟩ hok
    refine ⟨fun f ha => ha.successors hok, ?_, fun j js hjs => (info?_successors hok).2 (.inr hjs)⟩
    obtain ⟨-, ⟨-, rfl⟩ | ⟨-, q, -, -, rfl⟩⟩ := successors_eq_ok.1 hok
    · exact Nat.le_refl _
    · rw [expandedAt, StateTable.size_modifyInfo]
      exact (StateTable.grows_insertAll _ _).size_le
  · intro l e l' herror
    have hsame : l'.state = l.state := successors_fails id l e l' herror
    rw [hsame]
    exact Std.Refl.refl _

theorem successors_lasts {ids : List Nat} {m : Logged PropertyAutomaton}
    (hok : successors id ⟨a, log⟩ = .ok ids m) (h : Extends m.state a') (log' : List LogEvent) :
    successors id ⟨a', log'⟩ = .ok ids ⟨a', log'⟩ := by
  have hknown := h.successors id ids ((info?_successors hok).2 (.inl ⟨rfl, rfl⟩))
  exact successors_eq_ok.2 ⟨rfl, .inl ⟨hknown, rfl⟩⟩

theorem within_generate (limit : Nat) : Within Extends (generate limit) :=
  .bind .read fun _ => Sweep.within_exhaust within_successors limit _

end PropertyAutomaton

end TemporalCheck
