import TemporalCheck.Proofs.RecordedGraph
import TemporalCheck.Proofs.SearchTotality

namespace TemporalCheck

namespace Task

variable {σ α : Type} {t : Task σ α} {l : Logged σ} {done : α → Logged σ → Prop}
  {failed : Fault → Logged σ → Prop}

theorem Meets.of_ends (hok : ∀ a l', t l = .ok a l' → done a l')
    (herror : ∀ e l', t l = .error e l' → failed e l') : t.Meets l done failed := by
  rw [Meets]
  split
  · rename_i h
    exact hok _ _ h
  · rename_i h
    exact herror _ _ h

theorem Keeps.meets (h : Keeps (fun s => s) t) (hdone : ∀ a log, done a ⟨l.state, log⟩)
    (hfailed : ∀ e log, failed e ⟨l.state, log⟩) : t.Meets l done failed := by
  apply Meets.of_ends
  · rintro a ⟨s, log⟩ hok
    obtain rfl : s = l.state := h.ok hok
    exact hdone a log
  · rintro e ⟨s, log⟩ herror
    obtain rfl : s = l.state := h.error herror
    exact hfailed e log

end Task

namespace Search

open TemporalCheck.Task StateTable

section

variable {accepting accepting' : Nat → Prop} {root id n : Nat} {m m' : Marks} {rest ids : List Nat}
  {stage : Stage} {frames below : List Frame} {outcome : Outcome}

/-- A path from the root that meets no node twice and follows recorded successors, as the marks have
it. -/
structure SimplePath (root : Nat) (m : Marks) : Prop where
  bottom : m.path = [] ∨ m.path.getLast? = some root
  nodup : m.path.Nodup
  linked : m.path.IsChain fun j i => m.Edge i j
  onPath : ∀ id, (m.facts id).onPath = true ↔ id ∈ m.path
  visited : ∀ id ∈ m.path, (m.facts id).outer = true

theorem SimplePath.nil (hpath : m.path = []) (hoff : ∀ i, (m.facts i).onPath = false) :
    SimplePath root m := by
  constructor <;> simp [hpath, hoff]

theorem SimplePath.singleton (hpath : m.path = []) (hoff : ∀ i, (m.facts i).onPath = false) :
    SimplePath root (m.enter root) := by
  constructor <;> simp [hpath, hoff]

/-- Red marks do not matter for the path. -/
theorem SimplePath.congr (h : SimplePath root m) (hpath : m'.path = m.path)
    (hfacts : ∀ i, { m'.facts i with inner := false } = { m.facts i with inner := false }) :
    SimplePath root m' := by
  simp only [NodeFacts.mk.injEq, true_and] at hfacts
  have hedge := edge_congr fun i => (hfacts i).2.2.2
  constructor
  · rw [hpath]
    exact h.bottom
  · rw [hpath]
    exact h.nodup
  · rw [hpath, hedge]
    exact h.linked
  · intro i
    rw [(hfacts i).2.1, hpath]
    exact h.onPath i
  · intro i hi
    rw [(hfacts i).1]
    exact h.visited i (hpath ▸ hi)

theorem Walk.simplePath (h : Walk root m frames) : SimplePath root m :=
  ⟨h.bottom, h.nodup, h.chain, h.onPath, h.visited⟩

theorem Walk.simplePath_enter (h : Walk root m (⟨n, id :: rest⟩ :: below))
    (hid : (m.facts id).outer = false) : SimplePath root (m.enter id) := by
  obtain ⟨done, hdone, -⟩ := h.tried _ List.mem_cons_self
  have hpath := h.path
  refine ⟨?_, ?_, ?_, fun j => ?_, fun j hj => ?_⟩
  · have hbottom := h.bottom
    rw [hpath] at hbottom
    simpa [hpath] using hbottom
  · simpa using ⟨h.not_mem_path hid, h.nodup⟩
  · have hchain := h.chain
    simp only [Marks.path_enter, Marks.edge_enter]
    rw [hpath] at hchain ⊢
    exact .cons_cons ⟨_, hdone, by simp⟩ hchain
  · simp [h.onPath j]
  · rcases List.mem_cons.1 hj with rfl | hj
    · simp
    · simp [h.visited j hj]

def Steady (root : Nat) (m : Marks) (stage : Stage) : Prop :=
  ∃ accepting, Invariant accepting root m stage

/-- Only the nodes that the outer search has left matter. -/
theorem Outer.congr (h : Outer accepting root m frames)
    (hacc : ∀ a, m.Finished a → accepting' a → accepting a) : Outer accepting' root m frames :=
  { h with harmless := fun a ha hacc' => h.harmless a ha (hacc a ha hacc') }

theorem Move.not_outer_nil (h : Move accepting m stage m' outcome) :
    outcome ≠ .going (.outer []) := by
  have hresume (below : List Frame) : Outcome.resume below ≠ .going (.outer []) := by
    cases below <;> simp [Outcome.resume]
  cases h with
  | leave | leaveSeed => exact hresume _
  | _ => simp

/-- What a search decides on its way is not needed to go on. -/
theorem Move.exists_shows (h : Move accepting m stage m' outcome) (hs : Steady root m stage) :
    ∃ accepting', outcome.Shows accepting' root m' := by
  obtain ⟨accepting₀, hinv⟩ := hs
  cases h with
  | done => exact ⟨accepting₀, Move.done.shows hinv⟩
  | skip hid => exact ⟨accepting₀, (Move.skip hid).shows hinv⟩
  | enter hid hids => exact ⟨accepting₀, (Move.enter hid hids).shows hinv⟩
  | leave =>
      exact ⟨fun _ => False, (Move.leave not_false).shows (Outer.congr hinv fun _ _ => False.elim)⟩
  | @seed n below ids m' _ hids =>
      refine ⟨Eq n, (Move.seed rfl hids).shows (Outer.congr hinv ?_)⟩
      rintro _ ⟨-, hoff⟩ rfl
      have hon := ((Outer.walk hinv).onPath n).2 (by simp [(Outer.walk hinv).path])
      rw [hoff] at hon
      cases hon
  | close hid => exact ⟨accepting₀, (Move.close hid).shows hinv⟩
  | skipInner hoff hred => exact ⟨accepting₀, (Move.skipInner hoff hred).shows hinv⟩
  | enterInner hoff hred hids => exact ⟨accepting₀, (Move.enterInner hoff hred hids).shows hinv⟩
  | back hne => exact ⟨accepting₀, (Move.back hne).shows hinv⟩
  | leaveSeed hframes => exact ⟨accepting₀, (Move.leaveSeed hframes).shows hinv⟩

theorem Move.simplePath (h : Move accepting m stage m' outcome) (hs : Steady root m stage) :
    SimplePath root m' := by
  obtain ⟨accepting', hshows⟩ := h.exists_shows hs
  cases outcome with
  | going stage' =>
      obtain ⟨frames, hwalk⟩ := Invariant.exists_walk hshows
      exact hwalk.simplePath
  | passed => exact (Outer.walk hshows).simplePath
  | closed path cycle =>
      obtain rfl := h.eq_of_closed rfl
      obtain ⟨accepting₀, hinv⟩ := hs
      obtain ⟨frames, hwalk⟩ := hinv.exists_walk
      exact hwalk.simplePath

theorem Marks.Expand.path_eq (h : m.Expand id ids m') : m'.path = m.path := by
  cases h <;> rfl

theorem Move.path (h : Move accepting m stage m' outcome) :
    m'.path = m.path ∨ (∃ id, m'.path = id :: m.path) ∨ m'.path = m.path.tail := by
  cases h with
  | enter _ hids => exact .inr (.inl ⟨_, hids.path_eq⟩)
  | seed _ hids | enterInner _ _ hids => exact .inl hids.path_eq
  | leave | leaveSeed => exact .inr (.inr rfl)
  | _ => exact .inl rfl

def Retraces (m : Marks) : Stage → Prop
  | .outer _ => True
  | .inner _ _ frames => ∀ t ∈ frames, ∃ done, (m.facts t.node).successors = some (done ++ t.rest)

theorem Marks.Expand.successors (h : m.Expand id ids m') : (m'.facts id).successors = some ids := by
  cases h with
  | known h => exact h
  | new => simp

theorem Marks.Expand.successors_of_some {j : Nat} {known : List Nat} (h : m.Expand id ids m')
    (hj : (m.facts j).successors = some known) : (m'.facts j).successors = some known := by
  cases h with
  | known => exact hj
  | new reduced hnone =>
      have hne : j ≠ id := by
        rintro rfl
        simp [hnone] at hj
      simpa [hne] using hj

theorem Move.retraces {stage' : Stage} (h : Move accepting m stage m' outcome)
    (hm : Retraces m stage) (hgoing : outcome = .going stage') : Retraces m' stage' := by
  cases h with
  | done | close => cases hgoing
  | skip | enter =>
      cases hgoing
      trivial
  | @leave n below | @leaveSeed below =>
      cases below <;> cases hgoing
      trivial
  | seed _ hids =>
      cases hgoing
      simpa [Retraces] using ⟨[], hids.successors⟩
  | @skipInner below seed n id rest frames =>
      cases hgoing
      obtain ⟨⟨done, hdone⟩, hframes⟩ := List.forall_mem_cons.1 hm
      exact List.forall_mem_cons.2 ⟨⟨done ++ [id], by simpa using hdone⟩, hframes⟩
  | @enterInner below seed n id rest frames ids m' _ _ hids =>
      cases hgoing
      have hold (j : Nat) (known : List Nat) (hj : (m.facts j).successors = some known) :
          (m'.facts j).successors = some known := hids.successors_of_some (by simpa using hj)
      obtain ⟨⟨done, hdone⟩, hframes⟩ := List.forall_mem_cons.1 hm
      refine List.forall_mem_cons.2 ⟨⟨[], hids.successors⟩,
        List.forall_mem_cons.2 ⟨⟨done ++ [id], ?_⟩, fun t ht => ?_⟩⟩
      · simpa using hold n _ hdone
      · obtain ⟨done, hdone⟩ := hframes t ht
        exact ⟨done, hold _ _ hdone⟩
  | back =>
      cases hgoing
      exact fun t ht => hm t (List.mem_cons_of_mem _ ht)

theorem Steady.path_ne_nil (h : Steady root m stage) (hstage : stage ≠ .outer []) :
    m.path ≠ [] := by
  obtain ⟨accepting, hinv⟩ := h
  cases stage with
  | outer frames =>
      rw [(Outer.walk hinv).path]
      simpa using hstage
  | inner below seed frames =>
      rw [(Inner.walk hinv).path]
      simp

end

variable {W S : Type} {p : Program W S} {x x' x'' : Search W S} {root id seed : Nat}
  {node : ProductNode} {rest ids : List Nat} {below frames : List Frame} {stage : Stage}
  {log : List LogEvent}

def outline (x : Search W S) : StateTable ProductNode NodeFacts × List Nat × Nat :=
  (x.nodes, x.path, x.maxDepth)

theorem blind_outline : Blind (outline : Search W S → _) := ⟨fun _ _ => rfl, fun _ _ => rfl⟩

structure Treads (root : Nat) (x : Search W S) : Prop where
  simple : SimplePath root x.marks
  rooted : x.path = [] ∨ x.IsRoot root
  depth : x.path.length ≤ x.maxDepth

theorem Treads.congr (h : Treads root x) (houtline : x'.outline = x.outline) : Treads root x' := by
  obtain ⟨space, property, reduction, printTree, nodes, path, visited, transitions, inner,
      reduced, depth⟩ := x
  simp only [outline, Prod.mk.injEq] at houtline
  obtain ⟨rfl, rfl, rfl⟩ := houtline
  exact ⟨h.simple, h.rooted, h.depth⟩

/-- From one look at a search to the next its path has grown or shrunk by a node at most. -/
structure Follows (x x' : Search W S) : Prop where
  path : x'.path = x.path ∨ (∃ id, x'.path = id :: x.path) ∨ x'.path = x.path.tail
  depth : x'.maxDepth = max x.maxDepth x'.path.length

structure Standing (root : Nat) (x : Search W S) (stage : Stage) : Prop extends Treads root x where
  nodes : x.nodes.WellFormed
  steady : Steady root x.marks stage
  retraces : Retraces x.marks stage
  away : x.path ≠ []

structure Carries (x x' : Search W S) : Prop where
  nodes : x'.nodes.WellFormed
  get : ∀ id n, x.nodes.get? id = some n → x'.nodes.get? id = some n

structure Lands (x : Search W S) (stage : Stage) (x' : Search W S) (progress : Progress S) :
    Prop extends
    Carries x x' where
  depth : x.path.length ≤ x.maxDepth → x'.maxDepth = max x.maxDepth x'.path.length
  move : ∃ accepting outcome, Move accepting x.marks stage x'.marks outcome ∧
    Reports x' outcome progress

def Arrives (root : Nat) (x : Search W S) : Progress S → Prop
  | .going stage => Standing root x stage
  | .decided .pass => Treads root x ∧ x.path = []
  | .decided _ => Treads root x

theorem Standing.arrives {progress : Progress S} (h : Standing root x stage)
    (hlands : Lands x stage x' progress) : Follows x x' ∧ Arrives root x' progress := by
  obtain ⟨accepting, outcome, hmove, hreports⟩ := hlands.move
  have hdepth := hlands.depth h.depth
  have htreads : Treads root x' := by
    obtain ⟨n, hn, hroot⟩ := h.rooted.resolve_left h.away
    exact ⟨hmove.simplePath h.steady, .inr ⟨n, hlands.get root n hn, hroot⟩,
      hdepth ▸ Nat.le_max_right _ _⟩
  refine ⟨⟨hmove.path, hdepth⟩, ?_⟩
  obtain ⟨accepting', hshows⟩ := hmove.exists_shows h.steady
  cases hreports with
  | going stage' =>
      have hsteady : Steady root x'.marks stage' := ⟨accepting', hshows⟩
      refine ⟨htreads, hlands.nodes, hsteady, hmove.retraces h.retraces rfl, hsteady.path_ne_nil ?_⟩
      rintro rfl
      exact hmove.not_outer_nil rfl
  | passed => exact ⟨htreads, (Outer.walk hshows).path⟩
  | closed => exact htreads

/-- `x'` is `x` but for red marks and the counters of transitions and inner searches. -/
structure Rewalks (x x' : Search W S) : Prop where
  space : x'.space = x.space
  property : x'.property = x.property
  path : x'.path = x.path
  get : x'.nodes.get? = x.nodes.get?
  facts : ∀ id, { x'.marks.facts id with inner := false } = { x.marks.facts id with inner := false }
  stats : { x'.stats with transitions := 0, innerSearches := 0 } =
    { x.stats with transitions := 0, innerSearches := 0 }

theorem Rewalks.trans (h : Rewalks x x') (h' : Rewalks x' x'') : Rewalks x x'' :=
  ⟨h'.space.trans h.space, h'.property.trans h.property, h'.path.trans h.path, h'.get.trans h.get,
    fun id => (h'.facts id).trans (h.facts id), h'.stats.trans h.stats⟩

theorem rewalks_count (x : Search W S) (k j : Nat) :
    Rewalks x { x with transitions := k, innerSearches := j } :=
  ⟨rfl, rfl, rfl, rfl, fun _ => rfl, rfl⟩

def reddened (x : Search W S) (id : Nat) : Search W S :=
  { x with nodes := x.nodes.modifyInfo id fun facts => { facts with inner := true } }

theorem marks_reddened (hnode : x.nodes.get? id = some node) :
    (x.reddened id).marks = x.marks.redden id :=
  marks_note hnode fun facts => { facts with inner := true }

theorem rewalks_reddened (x : Search W S) (id : Nat) : Rewalks x (x.reddened id) := by
  refine ⟨rfl, rfl, rfl, ?_, fun j => ?_, ?_⟩
  · funext j
    exact get?_modifyInfo _ _ _ _
  · exact marks_note_congr (g := fun facts => { facts with inner := true })
      (fun facts => { facts with inner := false }) (fun _ => rfl) x id j
  · simp [stats, reddened, modifyInfo, size]

theorem Rewalks.successors (h : Rewalks x x') (id : Nat) :
    (x'.marks.facts id).successors = (x.marks.facts id).successors := by
  have hfacts := h.facts id
  simp only [NodeFacts.mk.injEq] at hfacts
  exact hfacts.2.2.2.2

theorem Treads.unmoved (h : Treads root x) (houtline : x'.outline = x.outline) :
    Follows x x' ∧ Treads root x' := by
  refine ⟨?_, h.congr houtline⟩
  simp only [outline, Prod.mk.injEq] at houtline
  obtain ⟨-, hpath, hdepth⟩ := houtline
  refine ⟨.inl hpath, ?_⟩
  rw [hpath, hdepth, max_eq_left h.depth]

theorem Treads.rewalks (h : Treads root x) (hrewalks : Rewalks x x') :
    Follows x x' ∧ Treads root x' := by
  have hdepth : x'.maxDepth = x.maxDepth := congrArg SearchStats.maxDepth hrewalks.stats
  refine ⟨⟨.inl hrewalks.path, ?_⟩, h.simple.congr hrewalks.path hrewalks.facts, ?_, ?_⟩
  · rw [hrewalks.path, hdepth, max_eq_left h.depth]
  · rw [hrewalks.path, IsRoot, hrewalks.get]
    exact h.rooted
  · rw [hrewalks.path, hdepth]
    exact h.depth

theorem Standing.entered {n : Nat} (h : Standing root x (.outer (⟨n, id :: rest⟩ :: below)))
    (hid : (x.marks.facts id).outer = false) (hnode : x.nodes.get? id = some node)
    (houtline : x'.outline = (x.entered id).outline) : Follows x x' ∧ Treads root x' := by
  have hentered : Treads root (x.entered id) := by
    obtain ⟨accepting, hinv⟩ := h.steady
    refine ⟨?_, .inr ?_, Nat.le_max_right _ _⟩
    · rw [marks_entered hnode]
      exact (Outer.walk hinv).simplePath_enter hid
    · obtain ⟨m, hm, hroot⟩ := h.rooted.resolve_left h.away
      refine ⟨m, ?_, hroot⟩
      rw [Search.entered, get?_modifyInfo]
      exact hm
  refine ⟨?_, hentered.congr houtline⟩
  simp only [outline, Prod.mk.injEq] at houtline
  obtain ⟨-, hpath, hdepth⟩ := houtline
  refine ⟨.inr (.inl ⟨id, hpath⟩), ?_⟩
  rw [hpath, hdepth]
  rfl

theorem lands_count (accepting : Nat → Prop) {outcome : Outcome} {progress : Progress S}
    (hx : x.nodes.WellFormed) (k : Nat) (hmove : Move accepting x.marks stage x.marks outcome)
    (hreports : Reports { x with transitions := k } outcome progress) :
    Lands x stage { x with transitions := k } progress :=
  ⟨⟨hx, fun _ _ hm => hm⟩, fun hdepth => (max_eq_left hdepth).symm, accepting, outcome,
    hmove, hreports⟩

theorem lands_left (accepting : Nat → Prop) (hx : x.nodes.WellFormed)
    (hnode : x.nodes.get? id = some node)
    (hmove : Move accepting x.marks stage (x.marks.leave id) (.resume below)) :
    Lands x stage (x.left id) (resume below) := by
  refine ⟨⟨?_, fun j m hm => ?_⟩, fun hdepth => ?_, accepting, _, ?_, reports_resume _ below⟩
  · exact hx.modifyInfo id fun facts => { facts with onPath := false }
  · rw [left, get?_modifyInfo]
    exact hm
  · refine (max_eq_left ?_).symm
    rw [left, List.length_tail]
    exact (Nat.sub_le _ _).trans hdepth
  · rw [marks_left hnode]
    exact hmove

theorem lands_reddened (accepting : Nat → Prop) {stage' : Stage} (hx : x.nodes.WellFormed)
    (hnode : x.nodes.get? id = some node) (k j : Nat)
    (hmove : Move accepting x.marks stage (x.marks.redden id) (.going stage')) :
    Lands x stage (reddened { x with transitions := k, innerSearches := j } id)
      (.going stage') := by
  refine ⟨⟨?_, fun i m hm => ?_⟩, fun hdepth => (max_eq_left hdepth).symm, accepting, _,
    ?_, .going stage'⟩
  · exact hx.modifyInfo id fun facts => { facts with inner := true }
  · rw [reddened, get?_modifyInfo]
    exact hm
  · rw [marks_reddened (x := { x with transitions := k, innerSearches := j }) hnode]
    exact hmove

section

variable {α : Type} {l : Logged (Search W S)} {failed : Fault → Logged (Search W S) → Prop}

theorem meets_facts {done : NodeFacts → Logged (Search W S) → Prop}
    (hdone : ∀ facts, l.state.nodes.info? id = some facts → done facts l)
    (hfailed : ∀ e, failed e l) : (Search.facts id).Meets l done failed := by
  rw [Search.facts, meets_bind, meets_read]
  cases hinfo : l.state.nodes.info? id with
  | none => exact hfailed _
  | some facts => exact hdone facts hinfo

theorem productStates_ends {done : List (ProductState S) → Logged (Search W S) → Prop}
    (hdone : ∀ states log', x.Shown ids states → done states ⟨x, log'⟩)
    (hfailed : ∀ e log', failed e ⟨x, log'⟩) : (productStates ids).Meets ⟨x, log⟩ done failed := by
  apply Meets.of_ends
  · rintro states ⟨x', log'⟩ hok
    obtain ⟨rfl, hshown⟩ := productStates_spec hok
    exact hdone states log' hshown
  · rintro e ⟨x', log'⟩ herror
    obtain rfl : x' = x := ((within_productStates (R := Same fun s => s) ids).keeps).error herror
    exact hfailed e log'

end

section

variable [DecidableEq S] [HasDigest S]

theorem expand_known (h : (x.marks.facts id).successors = some ids) (log : List LogEvent) :
    expand p id ⟨x, log⟩ = .ok ids ⟨x, log⟩ := by
  obtain ⟨facts, hfacts, hids⟩ : ∃ facts, x.nodes.info? id = some facts ∧
      facts.successors = some ids := by
    cases hinfo : x.nodes.info? id with
    | none => simp [marks, hinfo] at h
    | some facts => exact ⟨facts, rfl, by rwa [facts_marks hinfo] at h⟩
  simp only [expand, Task.bind_eq_ok, facts_eq_ok]
  refine ⟨facts, _, ⟨hfacts, rfl⟩, ?_⟩
  rw [hids]
  rfl

theorem expand_ends (hx : x.nodes.WellFormed) : (expand p id).Meets ⟨x, log⟩
    (fun ids l => Carries x l.state ∧ l.state.maxDepth = x.maxDepth ∧
      x.marks.Expand id ids l.state.marks)
    fun _ l => l.state.outline = x.outline := by
  refine .of_ends ?_ (blind_outline.unmoved.expand id _)
  rintro ids ⟨x', log'⟩ hok
  rcases expand_cases hok with ⟨hknown, rfl⟩ |
    ⟨hnone, ⟨n, hn⟩, nodes, reduced, space, property, count, rfl, hreduced, rfl⟩
  · exact ⟨⟨hx, fun _ _ h => h⟩, rfl, .known hknown⟩
  · obtain ⟨hwf, hgrows, -⟩ := hx.insertAll nodes
    refine ⟨⟨?_, fun j m hm => ?_⟩, rfl, ?_⟩
    · exact hwf.modifyInfo id fun facts =>
        { facts with reduced := some reduced, successors := some (x.nodes.insertAll nodes).1 }
    · rw [get?_modifyInfo]
      exact hgrows.get j m hm
    · have hexpand := expand_recorded hx hnone hreduced
      rw [← marks_recorded hn nodes reduced] at hexpand
      exact hexpand

theorem enter_ends (hx : x.nodes.WellFormed) (hnode : x.nodes.get? id = some node) :
    (enter p id).Meets ⟨x, log⟩
    (fun frame l => Carries x l.state ∧ l.state.maxDepth = max x.maxDepth (x.path.length + 1) ∧
      ∃ ids, frame = ⟨id, ids⟩ ∧ (x.marks.enter id).Expand id ids l.state.marks)
    fun _ l => l.state.outline = (x.entered id).outline := by
  have hexpand (elog : List LogEvent) : (expand p id >>= fun ids => pure (⟨id, ids⟩ : Frame)).Meets
      ⟨x.entered id, elog⟩ (fun frame l => Carries x l.state ∧
        l.state.maxDepth = max x.maxDepth (x.path.length + 1) ∧
        ∃ ids, frame = ⟨id, ids⟩ ∧ (x.marks.enter id).Expand id ids l.state.marks)
      fun _ l => l.state.outline = (x.entered id).outline := by
    have hentered : (x.entered id).nodes.WellFormed :=
      hx.modifyInfo id fun facts => { facts with outer := true, onPath := true }
    rw [meets_bind]
    refine (expand_ends hentered).imp fun ids l hl => ?_
    obtain ⟨hcarries, hdepth, hids⟩ := hl
    rw [marks_entered hnode] at hids
    refine ⟨⟨hcarries.nodes, fun j m hm => hcarries.get j m ?_⟩, hdepth, ids, rfl, hids⟩
    rw [Search.entered, get?_modifyInfo]
    exact hm
  rw [enter, meets_bind, meets_note, meets_bind, meets_change, meets_bind, meets_read]
  split
  · rw [meets_bind]
    exact (within_printNode id).keeps.meets (fun _ elog => hexpand elog) fun _ _ => rfl
  · exact hexpand log

theorem expand_reddened (h : (x.marks.facts id).successors = some ids) (log : List LogEvent) :
    expand p id ⟨x.reddened id, log⟩ = .ok ids ⟨x.reddened id, log⟩ :=
  expand_known ((rewalks_reddened x id).successors id ▸ h) log

theorem startInner_known (h : (x.marks.facts seed).successors = some ids) (below : List Frame)
    (log : List LogEvent) : startInner p seed below ⟨x, log⟩ = .ok (.inner below seed [⟨seed, ids⟩])
      ⟨reddened { x with innerSearches := x.innerSearches + 1 } seed, log⟩ := by
  simp only [startInner, Task.bind_eq_ok, Task.change_eq_ok, note_eq_ok, Task.pure_eq_ok]
  exact ⟨(), _, rfl, (), _, rfl, ids, _,
    expand_reddened (x := { x with innerSearches := x.innerSearches + 1 }) h log, rfl, rfl⟩

theorem outerStep_ends {top : Frame} (h : Standing root x (.outer (top :: below))) :
    (outerStep p top below).Meets ⟨x, log⟩
      (fun progress l => Lands x (.outer (top :: below)) l.state progress ∧
        ∀ below seed frames, progress = .going (.inner below seed frames) → Rewalks x l.state)
      fun _ l => Follows x l.state ∧ Treads root l.state := by
  obtain ⟨n, rest⟩ := top
  obtain ⟨accepting, hinv⟩ := h.steady
  have hwalk : Walk root x.marks (⟨n, rest⟩ :: below) := hinv.walk
  cases rest with
  | cons id rest =>
      rw [outerStep, meets_bind, countTransition, meets_change, meets_bind]
      refine meets_facts (fun facts hfacts => ?_) fun e => h.unmoved rfl
      have hknown : x.marks.facts id = facts := facts_marks hfacts
      obtain ⟨node, hnode⟩ := exists_get?_of_lt (lt_size_of_info? hfacts)
      dsimp only
      split
      · rename_i houter
        refine ⟨lands_count accepting h.nodes _ (.skip (by rw [hknown, houter])) (.going _), ?_⟩
        rintro _ _ _ ⟨⟩
      · rename_i houter
        have hnew : (x.marks.facts id).outer = false := by
          rw [hknown]
          simpa using houter
        rw [meets_bind]
        refine (enter_ends (x := { x with transitions := x.transitions + 1 }) h.nodes hnode).mono
          (fun frame l hl => ?_) fun e l hl => h.entered hnew hnode hl
        obtain ⟨hcarries, hdepth, ids, rfl, hids⟩ := hl
        refine ⟨⟨⟨hcarries.nodes, hcarries.get⟩, fun _ => ?_, accepting, _, .enter hnew hids,
          .going _⟩, ?_⟩
        · rw [hdepth, show l.state.path = id :: x.path from hids.path_eq]
          rfl
        · rintro _ _ _ ⟨⟩
  | nil =>
      obtain ⟨done, hdone, -⟩ := hwalk.tried _ List.mem_cons_self
      obtain ⟨node, hnode⟩ := exists_node_of_outer (hwalk.visited n (by simp [hwalk.path]))
      rw [outerStep, meets_bind]
      refine (keeps_isAccepting n).meets (fun v ilog => ?_) fun e _ => h.unmoved rfl
      split
      · rw [meets_bind, meets_of_ok (startInner_known hdone below ilog)]
        refine ⟨lands_reddened (fun _ => True) h.nodes hnode _ _ (.seed trivial (.known ?_)),
          fun _ _ _ _ => ?_⟩
        · simpa using hdone
        · exact (rewalks_count x _ _).trans (rewalks_reddened _ n)
      · rw [meets_bind, meets_leave]
        refine ⟨lands_left (fun _ => False) h.nodes hnode (.leave not_false), ?_⟩
        cases below <;> rintro _ _ _ ⟨⟩

theorem innerStep_ends {top : Frame} (h : Standing root x (.inner below seed (top :: frames))) :
    (innerStep p below seed top frames).Meets ⟨x, log⟩
      (fun progress l => Lands x (.inner below seed (top :: frames)) l.state progress ∧
        (Rewalks x l.state ∨ l.state = x.left seed ∧ progress = resume below))
      fun _ l => Rewalks x l.state := by
  obtain ⟨n, rest⟩ := top
  obtain ⟨accepting, hinv⟩ := h.steady
  have hinner : Inner accepting root x.marks below seed (⟨n, rest⟩ :: frames) := hinv
  have hcount := rewalks_count x (x.transitions + 1) x.innerSearches
  cases rest with
  | cons id rest =>
      rw [innerStep, meets_bind, countTransition, meets_change, meets_bind]
      refine meets_facts (fun facts hfacts => ?_) fun e => hcount
      have hknown : x.marks.facts id = facts := facts_marks hfacts
      obtain ⟨node, hnode⟩ := exists_get?_of_lt (lt_size_of_info? hfacts)
      dsimp only
      split
      · rename_i hon
        rw [meets_bind, pathStates, meets_bind, meets_read]
        refine productStates_ends (fun path _ hpath => ?_) fun e _ => hcount
        rw [meets_bind]
        refine productStates_ends (fun cycle _ hcycle => ?_) fun e _ => hcount
        refine ⟨lands_count accepting h.nodes _ (.close ?_) (.closed hpath hcycle), .inl hcount⟩
        rw [hknown, hon]
      · rename_i hoff
        have hoff : (x.marks.facts id).onPath = false := by
          rw [hknown]
          simpa using hoff
        split
        · rename_i hred
          refine ⟨lands_count accepting h.nodes _ (.skipInner hoff ?_) (.going _), .inl hcount⟩
          rw [hknown, hred]
        · rename_i hred
          obtain ⟨ids, hids⟩ := hinner.walk.exists_successors hinner.outer_of_mem
          rw [meets_bind, meets_note, meets_bind]
          refine (meets_of_ok (expand_reddened (x := { x with transitions := x.transitions + 1 })
            hids log)).2 ?_
          refine ⟨lands_reddened accepting h.nodes hnode _ _ (.enterInner hoff ?_ (.known ?_)),
            .inl (hcount.trans (rewalks_reddened _ id))⟩
          · rw [hknown]
            simpa using hred
          · simpa using hids
  | nil =>
      simp only [innerStep]
      split
      · rename_i hempty
        obtain rfl := List.isEmpty_iff.1 hempty
        obtain ⟨node, hnode⟩ := exists_node_of_outer
          (hinner.walk.visited seed (by simp [hinner.walk.path]))
        rw [meets_bind, meets_leave]
        exact ⟨lands_left accepting h.nodes hnode (.leaveSeed (.inr ⟨n, rfl⟩)), .inr ⟨rfl, rfl⟩⟩
      · rename_i hne
        refine ⟨lands_count accepting h.nodes x.transitions (.back ?_) (.going _),
          .inl (rewalks_count x _ _)⟩
        simpa using hne

theorem step_ends (h : Standing root x stage) : (Search.step p stage).Meets ⟨x, log⟩
    (fun progress l => Follows x l.state ∧ Arrives root l.state progress)
    fun _ l => Follows x l.state ∧ Treads root l.state := by
  rcases stage with (_ | ⟨top, below⟩) | ⟨below, seed, _ | ⟨top, frames⟩⟩
  · obtain ⟨accepting, hinv⟩ := h.steady
    exact absurd (Outer.walk hinv).path h.away
  · exact (outerStep_ends h).imp fun progress l hl => h.arrives hl.1
  · obtain ⟨accepting, hinv⟩ := h.steady
    simpa using Inner.bottom hinv
  · exact (innerStep_ends h).mono (fun progress l hl => h.arrives hl.1) fun e l hl => h.rewalks hl

theorem start_ends : (start p).Meets ⟨x, log⟩
    (fun stage l => ∃ root frames, stage = .outer frames ∧ Standing root l.state stage ∧
      l.state.maxDepth = l.state.path.length)
    fun _ l => ∃ root, Treads root l.state ∧ l.state.maxDepth = l.state.path.length := by
  rw [start, meets_bind, clear, meets_change, meets_bind, meets_inSpace]
  refine .of_ends (fun program m _ => ?_) fun e m _ => ?_
  · let table : StateTable ProductNode NodeFacts := .empty
    let node : ProductNode := ⟨program, x.property.initial, 0, true⟩
    let root := (table.insert node).1
    let first : Search W S := { x.cleared with space := m.state, nodes := (table.insert node).2 }
    obtain ⟨hwf, hgrows, hget⟩ := (wellFormed_empty : table.WellFormed).insert node
    have hfacts (i : Nat) : first.marks.facts i = default :=
      congrFun (congrArg Marks.facts
        (marks_eq_of_grows (x := { first with nodes := table }) hgrows)) i
    rw [meets_bind, meets_read, meets_bind, meets_of_ok (store_eq_ok.2 ⟨rfl, rfl⟩)]
    simp only [StateTable.insertAll]
    rw [meets_bind]
    refine (enter_ends (x := first) hwf hget).mono (fun frame l hl => ?_) fun e l hl => ?_
    · obtain ⟨hcarries, hdepth, ids, rfl, hids⟩ := hl
      have hpath : l.state.path = [root] := hids.path_eq
      obtain ⟨reduced, hmarks, -⟩ := hids.eq_of_new (by rw [Marks.successors_enter, hfacts]; rfl)
      have houter : Outer (fun _ => False) root l.state.marks [⟨root, ids⟩] := by
        rw [hmarks]
        exact Outer.start rfl hfacts reduced ids
      have htreads : Treads root l.state := by
        refine ⟨houter.walk.simplePath, .inr ⟨node, hcarries.get _ _ hget, rfl⟩, ?_⟩
        rw [hpath, hdepth]
        exact Nat.le_max_right _ _
      refine ⟨root, _, rfl, ⟨htreads, hcarries.nodes, ⟨_, houter⟩, trivial, by simp [hpath]⟩, ?_⟩
      rw [hpath, hdepth]
      rfl
    · have hentered : Treads root (first.entered root) := by
        refine ⟨?_, .inr ⟨node, ?_, rfl⟩, Nat.le_max_right _ _⟩
        · rw [marks_entered hget]
          exact .singleton rfl fun i => by rw [hfacts]; rfl
        · rw [Search.entered, get?_modifyInfo]
          exact hget
      refine ⟨root, hentered.congr hl, ?_⟩
      simp only [outline, Prod.mk.injEq] at hl
      rw [hl.2.1, hl.2.2]
      rfl
  · exact ⟨0, ⟨.nil rfl fun _ => rfl, .inl rfl, Nat.le_refl _⟩, rfl⟩

end

end Search

end TemporalCheck
