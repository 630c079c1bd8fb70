import TemporalCheck.Proofs.SearchRun
import TemporalCheck.Proofs.SuccessorOrder

namespace TemporalCheck

namespace Task

variable {σ α β : Type} {R : σ → σ → Prop}

/-- From related states a task gives the same answer and ends in related states, if it succeeds
from both of them. -/
def Respects (R : σ → σ → Prop) (t : Task σ α) : Prop :=
  ∀ ⦃s log s' log' a m a' m'⦄, R s s' → t ⟨s, log⟩ = .ok a m → t ⟨s', log'⟩ = .ok a' m' → a = a' ∧
    R m.state m'.state

namespace Respects

theorem pure (a : α) : Respects R (pure a : Task σ α) := by
  intro s log s' log' b m b' m' h hok hok'
  obtain ⟨rfl, rfl⟩ := pure_eq_ok.1 hok
  obtain ⟨rfl, rfl⟩ := pure_eq_ok.1 hok'
  exact ⟨rfl, h⟩

theorem bind {t : Task σ α} {g : α → Task σ β} (ht : Respects R t) (hg : ∀ a, Respects R (g a)) :
    Respects R (t >>= g) := by
  intro s log s' log' b m b' m' h hok hok'
  obtain ⟨a, k, hk, hok⟩ := bind_eq_ok.1 hok
  obtain ⟨a', k', hk', hok'⟩ := bind_eq_ok.1 hok'
  obtain ⟨rfl, hR⟩ := ht h hk hk'
  exact hg a hR hok hok'

theorem change {g : σ → σ} (hg : ∀ s s', R s s' → R (g s) (g s')) : Respects R (Task.change g) := by
  intro s log s' log' b m b' m' h hok hok'
  obtain rfl := change_eq_ok.1 hok
  obtain rfl := change_eq_ok.1 hok'
  exact ⟨rfl, hg s s' h⟩

/-- Of the state only that is used in which related states agree. -/
theorem read_bind (view : σ → β) {g : β → Task σ α} (hview : ∀ s s', R s s' → view s = view s')
    (hg : ∀ v, Respects R (g v)) : Respects R (Task.read >>= fun s => g (view s)) := by
  intro s log s' log' b m b' m' h hok hok'
  simp only [bind_eq_ok, read_eq_ok] at hok hok'
  obtain ⟨_, _, ⟨rfl, rfl⟩, hok⟩ := hok
  obtain ⟨_, _, ⟨rfl, rfl⟩, hok'⟩ := hok'
  rw [← hview s s' h] at hok'
  exact hg (view s) h hok hok'

end Respects

end Task

def SearchStats.counters (stats : SearchStats) : List Nat :=
  [stats.visitedNodes, stats.productNodes, stats.transitions, stats.innerSearches,
    stats.reducedNodes, stats.maxDepth]

namespace Search

open StateTable TemporalCheck.Task

variable {W S : Type} {p : Program W S} {valid : W → Prop} {b : Behaviour S} {f : Formula}
  {x x' y y' : Search W S} {id : Nat} {n n' : ProductNode} {u v : Place S} {places : List (Place S)}
  {nodes nodes' : List ProductNode} {xlog xlog' ylog ylog' : List LogEvent}

def tally (x : Search W S) : List Nat × List Nat :=
  (x.path, [x.visitedNodes, x.transitions, x.innerSearches, x.reducedNodes, x.maxDepth])

/-- The same places are stored under the same numbers and with the same marks. -/
structure Alike (x y : Search W S) : Prop where
  stores : ∀ id u, x.Stores id u ↔ y.Stores id u
  facts : ∀ id, x.nodes.info? id = y.nodes.info? id
  tally : x.tally = y.tally
  reduction : x.reduction = y.reduction

namespace Alike

theorem marks_eq (h : Alike x y) : x.marks = y.marks := by
  have hpath : x.path = y.path := congrArg Prod.fst h.tally
  simp only [marks, hpath, h.facts]

theorem size_eq (h : Alike x y) : x.nodes.size = y.nodes.size := by
  apply eq_of_forall_lt_iff
  intro id
  rw [← info?_isSome_iff, h.facts, info?_isSome_iff]

theorem counters_eq (h : Alike x y) : x.stats.counters = y.stats.counters := by
  have htally := h.tally
  simp only [Search.tally, Prod.mk.injEq, List.cons.injEq] at htally
  simp only [SearchStats.counters, stats, htally, h.size_eq]

theorem onPath_iff (h : Alike x y) : x.OnPath u ↔ y.OnPath u := by
  simp only [OnPath, h.stores, h.marks_eq]

theorem usable_iff (h : Alike x y) : x.Usable places ↔ y.Usable places := by
  simp only [Usable, h.onPath_iff]

end Alike

structure Counts (g : Search W S → Search W S) : Prop where
  space : ∀ x, (g x).space = x.space := by exact fun _ => rfl
  property : ∀ x, (g x).property = x.property := by exact fun _ => rfl
  nodes : ∀ x, (g x).nodes = x.nodes := by exact fun _ => rfl
  reduction : ∀ x, (g x).reduction = x.reduction := by exact fun _ => rfl
  tally : ∀ x y, x.tally = y.tally → (g x).tally = (g y).tally

theorem counts_transition : Counts fun x :
    Search W S => { x with transitions := x.transitions + 1 } where
  tally x y h := by simp_all [Search.tally]

theorem counts_innerSearch : Counts fun x :
    Search W S => { x with innerSearches := x.innerSearches + 1 } where
  tally x y h := by simp_all [Search.tally]

theorem counts_reducedNode : Counts fun x :
    Search W S => { x with reducedNodes := x.reducedNodes + 1 } where
  tally x y h := by simp_all [Search.tally]

theorem counts_enter (id : Nat) : Counts fun x : Search W S =>
    { x with
      path := id :: x.path
      visitedNodes := x.visitedNodes + 1
      maxDepth := max x.maxDepth (x.path.length + 1) } where
  tally x y h := by simp_all [Search.tally]

theorem counts_leave : Counts fun x : Search W S => { x with path := x.path.tail } where
  tally x y h := by simp_all [Search.tally]

theorem stores_congr (hspace : x'.space = x.space) (hproperty : x'.property = x.property)
    (hget : ∀ id, x'.nodes.get? id = x.nodes.get? id) : x'.Stores id u ↔ x.Stores id u := by
  have hstands : ∀ n, x'.Stands n u ↔ x.Stands n u := by
    intro n
    constructor
    · rintro ⟨hprogram, hproperty', hphase, hroot⟩
      exact ⟨hspace ▸ hprogram, hproperty ▸ hproperty', hphase, hroot⟩
    · rintro ⟨hprogram, hproperty', hphase, hroot⟩
      exact ⟨hspace ▸ hprogram, hproperty ▸ hproperty', hphase, hroot⟩
  simp only [Stores, hget, hstands]

theorem Alike.note (h : Alike x y) (id : Nat) (g : NodeFacts → NodeFacts) :
    Alike { x with nodes := x.nodes.modifyInfo id g }
      { y with nodes := y.nodes.modifyInfo id g } := by
  have hstores : ∀ (z : Search W S) j u,
      ({ z with nodes := z.nodes.modifyInfo id g } : Search W S).Stores j u ↔
      z.Stores j u := fun z j u => stores_congr rfl rfl (get?_modifyInfo z.nodes id g)
  refine ⟨fun j u => ?_, fun j => ?_, h.tally, h.reduction⟩
  · rw [hstores, hstores, h.stores]
  · rw [info?_modifyInfo, info?_modifyInfo, h.facts]

theorem Alike.count {g : Search W S → Search W S} (h : Alike x y) (hg : Counts g) :
    Alike (g x) (g y) := by
  have hstores : ∀ z id u, (g z).Stores id u ↔ z.Stores id u := by
    intro z id u
    apply stores_congr (hg.space z) (hg.property z)
    rw [hg.nodes]
    exact fun _ => rfl
  refine ⟨fun id u => ?_, fun id => ?_, hg.tally x y h.tally, ?_⟩
  · rw [hstores, hstores, h.stores]
  · rw [hg.nodes, hg.nodes, h.facts]
  · rw [hg.reduction, hg.reduction, h.reduction]

section

variable [HasDigest S]

/-- Two searches for the violations of the same property by the same program that are alike. -/
structure Twins (valid : W → Prop) (b : Behaviour S) (f : Formula) (x y : Search W S) : Prop where
  left : x.Sound valid b f
  right : y.Sound valid b f
  alike : Alike x y

namespace Twins

theorem grow (h : Twins valid b f x y) (hx : x'.Sound valid b f) (hxgrows : Grows x x')
    (hx' : x' = { x with space := x'.space, property := x'.property }) (hy : y'.Sound valid b f)
    (hygrows : Grows y y') (hy' : y' = { y with space := y'.space, property := y'.property }) :
    Twins valid b f x' y' := by
  have hnodes : x'.nodes = x.nodes := by rw [hx']
  have hynodes : y'.nodes = y.nodes := by rw [hy']
  refine ⟨hx, hy, fun id u => ?_, fun id => ?_, ?_, ?_⟩
  · rw [stores_of_grows h.left hxgrows hnodes, stores_of_grows h.right hygrows hynodes]
    exact h.alike.stores id u
  · rw [hnodes, hynodes, h.alike.facts]
  · rw [hx', hy']
    exact h.alike.tally
  · rw [hx', hy']
    exact h.alike.reduction

theorem lookup_eq (h : Twins valid b f x y) (hn : x.Stands n u) (hn' : y.Stands n' u) :
    x.nodes.lookup n = y.nodes.lookup n' := by
  apply Option.ext
  intro id
  rw [h.left.nodes.lookup_eq_some_iff, h.right.nodes.lookup_eq_some_iff, ← h.left.stores_iff hn,
    ← h.right.stores_iff hn', h.alike.stores]

end Twins

omit [HasDigest S] in
theorem stores_appendRow (hn : x.Stands n u) (b : UInt64) (j : Nat) :
    ({ x with nodes := (x.nodes.appendRow n).indexRow b j } : Search W S).Stores id v ↔
      if id = x.nodes.size then v = u else x.Stores id v := by
  have hsame : ∀ m w,
      ({ x with nodes := (x.nodes.appendRow n).indexRow b j } : Search W S).Stands m w ↔
        x.Stands m w :=
    fun m w => ⟨fun h => ⟨h.1, h.2, h.3, h.4⟩, fun h => ⟨h.1, h.2, h.3, h.4⟩⟩
  simp only [Stores, hsame, get?_indexRow, get?_appendRow]
  by_cases hid : id = x.nodes.size
  · simp only [hid, if_true, Option.some.injEq]
    constructor
    · rintro ⟨_, rfl, hv⟩
      exact hv.unique hn
    · rintro rfl
      exact ⟨n, rfl, hn⟩
  · simp only [hid, if_false]

def Matched (x y : Search W S) (nodes nodes' : List ProductNode) : Prop :=
  ∃ places, x.Means nodes places ∧ y.Means nodes' places

theorem Twins.insert (h : Twins valid b f x y) (hn : x.Stands n u) (hn' : y.Stands n' u) :
    (x.nodes.insert n).1 = (y.nodes.insert n').1 ∧
      Twins valid b f { x with nodes := (x.nodes.insert n).2 }
        { y with nodes := (y.nodes.insert n').2 } := by
  have hstored : ∀ (z : Search W S) m, z.Sound valid b f → z.Stands m u →
      Sound valid b f { z with nodes := (z.nodes.insert m).2 } := by
    intro z m hz hm
    have hnew : ∀ n ∈ [m], ∃ v, z.Stands n v := by simpa using ⟨u, hm⟩
    exact (hz.store hnew).1
  suffices hsame : (x.nodes.insert n).1 = (y.nodes.insert n').1 ∧
      Alike { x with nodes := (x.nodes.insert n).2 } { y with nodes := (y.nodes.insert n').2 } from
    ⟨hsame.1, hstored x n h.left hn, hstored y n' h.right hn', hsame.2⟩
  cases hlook : x.nodes.lookup n with
  | some id =>
      rw [insert_of_lookup hlook, insert_of_lookup ((h.lookup_eq hn hn').symm.trans hlook)]
      exact ⟨rfl, h.alike⟩
  | none =>
      rw [insert_of_new hlook, insert_of_new ((h.lookup_eq hn hn').symm.trans hlook)]
      -- a new place gets the next number, which is the same since the tables have the same size
      refine ⟨h.alike.size_eq, fun id v => ?_, fun id => ?_, h.alike.tally, h.alike.reduction⟩
      · simp only [stores_appendRow hn, stores_appendRow hn', h.alike.size_eq, h.alike.stores]
      · simp only [info?_indexRow, info?_appendRow, h.alike.size_eq, h.alike.facts]

theorem Twins.insertAll (h : Twins valid b f x y) (hnodes : Matched x y nodes nodes') :
    (x.nodes.insertAll nodes).1 = (y.nodes.insertAll nodes').1 ∧
      Alike { x with nodes := (x.nodes.insertAll nodes).2 }
        { y with nodes := (y.nodes.insertAll nodes').2 } := by
  obtain ⟨places, hnodes, hnodes'⟩ := hnodes
  induction places generalizing x y nodes nodes' with
  | nil =>
      cases hnodes
      cases hnodes'
      exact ⟨rfl, h.alike⟩
  | cons u places ih =>
      cases hnodes with
      | @cons n _ nodes _ hn hnodes =>
      cases hnodes' with
      | @cons n' _ nodes' _ hn' hnodes' =>
          obtain ⟨hid, hnext⟩ := h.insert hn hn'
          have hlater : ∀ (z : Search W S) m, Grows z { z with nodes := (z.nodes.insert m).2 } :=
            fun z m => ⟨fun _ _ h => h, .refl _, (grows_insert z.nodes m).get, rfl⟩
          obtain ⟨hids, hrest⟩ := ih hnext (Means.mono hnodes (hlater x n))
            (Means.mono hnodes' (hlater y n'))
          exact ⟨List.cons_eq_cons.2 ⟨hid, hids⟩, hrest⟩

theorem Twins.record {reduced : Bool} (h : Twins valid b f x y)
    (hnodes : Matched x y nodes nodes') :
    (x.nodes.insertAll nodes).1 = (y.nodes.insertAll nodes').1 ∧
      Alike
        { x with nodes := (x.nodes.insertAll nodes).2.modifyInfo id fun facts =>
          { facts with reduced := some reduced, successors := some (x.nodes.insertAll nodes).1 } }
        { y with nodes := (y.nodes.insertAll nodes').2.modifyInfo id fun facts =>
          { facts with
            reduced := some reduced, successors := some (y.nodes.insertAll nodes').1 } } := by
  obtain ⟨hids, halike⟩ := h.insertAll hnodes
  rw [← hids]
  exact ⟨rfl, halike.note id _⟩

theorem Counts.sound {g : Search W S → Search W S} (hg : Counts g) (h : x.Sound valid b f) :
    (g x).Sound valid b f ∧ Grows x (g x) :=
  h.congr (g x) (hg.space x) (hg.property x) (hg.nodes x) (hg.reduction x)

namespace Twins

theorem count {g : Search W S → Search W S} (h : Twins valid b f x y) (hg : Counts g) :
    Twins valid b f (g x) (g y) :=
  ⟨(hg.sound h.left).1, (hg.sound h.right).1, h.alike.count hg⟩

theorem matched_count {g : Search W S → Search W S} (h : Twins valid b f x y) (hg : Counts g)
    (hnodes : Matched x y nodes nodes') : Matched (g x) (g y) nodes nodes' := by
  obtain ⟨places, hmeans, hmeans'⟩ := hnodes
  exact ⟨places, hmeans.mono (hg.sound h.left).2, hmeans'.mono (hg.sound h.right).2⟩

theorem mark {g : NodeFacts → NodeFacts} (h : Twins valid b f x y) (id : Nat)
    (hg : ∀ facts, (g facts).successors = facts.successors ∧ (g facts).reduced = facts.reduced) :
    Twins valid b f { x with nodes := x.nodes.modifyInfo id g }
      { y with nodes := y.nodes.modifyInfo id g } := by
  have hsound : ∀ z : Search W S, z.Sound valid b f →
      ({ z with nodes := z.nodes.modifyInfo id g } : Search W S).Sound valid b f := by
    intro z hz
    cases hn : z.nodes.get? id with
    | some n => exact (hz.mark hn g hg).1
    | none => rwa [modifyInfo_of_none hn]
  exact ⟨hsound x h.left, hsound y h.right, h.alike.note id g⟩

end Twins

theorem respects_facts : Respects (Twins valid b f)
    (Search.facts id : Task (Search W S) NodeFacts) := by
  intro x log y log' facts m facts' m' h hok hok'
  obtain ⟨hfacts, rfl⟩ := facts_eq_ok.1 hok
  obtain ⟨hfacts', rfl⟩ := facts_eq_ok.1 hok'
  rw [h.alike.facts, hfacts', Option.some.injEq] at hfacts
  exact ⟨hfacts.symm, h⟩

theorem respects_note {g : NodeFacts → NodeFacts}
    (hg : ∀ facts, (g facts).successors = facts.successors ∧ (g facts).reduced = facts.reduced) :
    Respects (Twins valid b f) (note id g : Task (Search W S) Unit) :=
  .change fun _ _ h => h.mark id hg

theorem respects_count {g : Search W S → Search W S} (hg : Counts g) :
    Respects (Twins valid b f) (Task.change g) :=
  .change fun _ _ h => h.count hg

theorem respects_leave : Respects (Twins valid b f) (leave id : Task (Search W S) Unit) :=
  .bind (respects_note fun _ => ⟨rfl, rfl⟩) fun _ => respects_count counts_leave

theorem respects_countTransition :
    Respects (Twins valid b f) (countTransition : Task (Search W S) Unit) :=
  respects_count counts_transition

theorem respects_isAccepting :
    Respects (Twins valid b f) (isAccepting id : Task (Search W S) Bool) := by
  rintro x log y log' v ⟨x', m⟩ v' ⟨y', m'⟩ h hok hok'
  obtain ⟨rfl, u, hu, hv⟩ := isAccepting_spec h.left.property h.left.stands hok
  obtain ⟨rfl, u', hu', hv'⟩ := isAccepting_spec h.right.property h.right.stands hok'
  obtain rfl := hu'.unique ((h.alike.stores id u).1 hu)
  exact ⟨Bool.eq_iff_iff.2 (hv.trans hv'.symm), h⟩

theorem respects_productState :
    Respects (Twins valid b f) (productState id : Task (Search W S) (ProductState S)) := by
  rintro x log y log' s ⟨x', m⟩ s' ⟨y', m'⟩ h hok hok'
  obtain ⟨rfl, u, hu, rfl⟩ := productState_spec hok
  obtain ⟨rfl, u', hu', rfl⟩ := productState_spec hok'
  obtain rfl := hu'.unique ((h.alike.stores id u).1 hu)
  exact ⟨rfl, h⟩

theorem respects_productStates (ids : List Nat) :
    Respects (Twins valid b f) (productStates ids : Task (Search W S) (List (ProductState S))) := by
  induction ids with
  | nil => exact .pure []
  | cons id ids ih =>
      exact .bind respects_productState fun s => .bind ih fun rest => .pure (s :: rest)

theorem respects_pathStates :
    Respects (Twins valid b f) (pathStates : Task (Search W S) (List (ProductState S))) :=
  .read_bind (fun x : Search W S => x.path.reverse)
    (fun _ _ h => congrArg (fun tally => tally.1.reverse) h.alike.tally) respects_productStates

variable [DecidableEq S]

theorem Twins.fullSuccessors (hp : p.Behaves valid b) (h : Twins valid b f x y) (hn : x.Stands n u)
    (hn' : y.Stands n' u) (hok : fullSuccessors p n ⟨x, xlog⟩ = .ok nodes ⟨x', xlog'⟩)
    (hok' : fullSuccessors p n' ⟨y, ylog⟩ = .ok nodes' ⟨y', ylog'⟩) :
    Twins valid b f x' y' ∧ Matched x' y' nodes nodes' := by
  obtain ⟨hx, hxgrows, hx', -⟩ := fullSuccessors_spec hp h.left hn hok
  obtain ⟨hy, hygrows, hy', -⟩ := fullSuccessors_spec hp h.right hn' hok'
  obtain ⟨places, hplaces, hmeans⟩ := fullSuccessors_means hp h.left hn hok
  obtain ⟨places', hplaces', hmeans'⟩ := fullSuccessors_means hp h.right hn' hok'
  obtain rfl := Option.some.inj (hplaces.symm.trans hplaces')
  exact ⟨h.grow hx hxgrows hx' hy hygrows hy', places, hmeans, hmeans'⟩

/-- The two searches take an ample set at the same nodes. -/
theorem Twins.reducedSuccessors {reduced reduced' : Option (List ProductNode)}
    (hp : p.Behaves valid b) (h : Twins valid b f x y) (hn : x.Stands n u) (hn' : y.Stands n' u)
    (hok : reducedSuccessors p n ⟨x, xlog⟩ = .ok reduced ⟨x', xlog'⟩)
    (hok' : reducedSuccessors p n' ⟨y, ylog⟩ = .ok reduced' ⟨y', ylog'⟩) :
    Twins valid b f x' y' ∧ Option.Rel (Matched x' y') reduced reduced' := by
  obtain ⟨hx, hxgrows, hx', -⟩ := reducedSuccessors_spec hp h.left hn hok
  obtain ⟨hy, hygrows, hy', -⟩ := reducedSuccessors_spec hp h.right hn' hok'
  refine ⟨h.grow hx hxgrows hx' hy hygrows hy', ?_⟩
  have hchoice := reducedSuccessors_means hp h.left hn hok
  have hchoice' := reducedSuccessors_means hp h.right hn' hok'
  -- both searches are offered the same places and have the same places on their paths
  rw [← h.alike.reduction] at hchoice'
  rcases hchoice with ⟨rfl, hrefused⟩ | ⟨nodes, places, rfl, hplaces, husable, hmeans⟩
  · rcases hchoice' with ⟨rfl, -⟩ | ⟨_, places', -, hplaces', husable', -⟩
    · exact .none
    · exact absurd (h.alike.usable_iff.2 husable') (hrefused places' hplaces')
  · rcases hchoice' with ⟨-, hrefused'⟩ | ⟨nodes', places', rfl, hplaces', -, hmeans'⟩
    · exact absurd (h.alike.usable_iff.1 husable) (hrefused' places hplaces)
    · obtain rfl := Option.some.inj (hplaces.symm.trans hplaces')
      exact .some ⟨places, hmeans, hmeans'⟩

theorem respects_expand (hp : p.Behaves valid b) : Respects (Twins valid b f) (expand p id) := by
  rintro x log y log' ids ⟨x', m⟩ ids' ⟨y', m'⟩ h hok hok'
  obtain ⟨hx', -⟩ := expand_spec hp h.left hok
  obtain ⟨hy', -⟩ := expand_spec hp h.right hok'
  suffices hsame : ids = ids' ∧ Alike x' y' from ⟨hsame.1, hx', hy', hsame.2⟩
  simp only [expand, bind_eq_ok, facts_eq_ok] at hok hok'
  obtain ⟨facts, _, ⟨hfacts, rfl⟩, hok⟩ := hok
  obtain ⟨facts', _, ⟨hfacts', rfl⟩, hok'⟩ := hok'
  rw [← h.alike.facts, hfacts, Option.some.injEq] at hfacts'
  subst hfacts'
  -- the marks agree, so the node has been expanded in both searches or in neither
  cases hknown : facts.successors with
  | some known =>
      simp only [hknown, pure_eq_ok] at hok hok'
      obtain ⟨rfl, hx⟩ := hok
      obtain ⟨rfl, hy⟩ := hok'
      cases hx
      cases hy
      exact ⟨rfl, h.alike⟩
  | none =>
      simp only [hknown, bind_eq_ok, node_eq_ok] at hok hok'
      obtain ⟨n, _, ⟨hn, rfl⟩, reduced, ⟨z, zlog⟩, hreduced, hok⟩ := hok
      obtain ⟨n', _, ⟨hn', rfl⟩, reduced', ⟨z', zlog'⟩, hreduced', hok'⟩ := hok'
      obtain ⟨u, hu⟩ := h.left.stands id n hn
      obtain ⟨m, hm, hu'⟩ := (h.alike.stores id u).1 ⟨n, hn, hu⟩
      rw [hn', Option.some.injEq] at hm
      subst hm
      obtain ⟨-, hzgrows, -⟩ := reducedSuccessors_spec hp h.left hu hreduced
      obtain ⟨-, hzgrows', -⟩ := reducedSuccessors_spec hp h.right hu' hreduced'
      obtain ⟨hz, hmatched⟩ := h.reducedSuccessors hp hu hu' hreduced hreduced'
      cases hmatched with
      | none =>
          simp only [bind_eq_ok, store_eq_ok, note_eq_ok, pure_eq_ok] at hok hok'
          obtain ⟨nodes, ⟨w, wlog⟩, hnodes, _, _, ⟨rfl, rfl⟩, _, _, rfl, rfl, hx⟩ := hok
          obtain ⟨nodes', ⟨w', wlog'⟩, hnodes', _, _, ⟨rfl, rfl⟩, _, _, rfl, rfl, hy⟩ := hok'
          obtain ⟨hw, hmatched⟩ := hz.fullSuccessors hp (hzgrows.stands hu)
            (hzgrows'.stands hu') hnodes hnodes'
          cases hx
          cases hy
          exact hw.record hmatched
      | some hmatched =>
          simp only [bind_eq_ok, change_eq_ok, pure_eq_ok, store_eq_ok, note_eq_ok] at hok hok'
          obtain ⟨_, _, rfl, _, _, ⟨rfl, rfl⟩, _, _, ⟨rfl, rfl⟩, _, _, rfl, rfl, hx⟩ := hok
          obtain ⟨_, _, rfl, _, _, ⟨rfl, rfl⟩, _, _, ⟨rfl, rfl⟩, _, _, rfl, rfl, hy⟩ := hok'
          cases hx
          cases hy
          exact (hz.count counts_reducedNode).record (hz.matched_count counts_reducedNode hmatched)

theorem respects_enter (hp : p.Behaves valid b) : Respects (Twins valid b f) (enter p id) := by
  rintro x log y log' frame ⟨x', m⟩ frame' ⟨y', m'⟩ h hok hok'
  obtain ⟨ids, elog, hids, rfl⟩ := expand_of_enter hok
  obtain ⟨ids', elog', hids', rfl⟩ := expand_of_enter hok'
  have hmarked := h.mark (g := fun facts => { facts with outer := true, onPath := true }) id
    fun _ => ⟨rfl, rfl⟩
  have hentered : Twins valid b f (x.entered id) (y.entered id) := hmarked.count (counts_enter id)
  obtain ⟨rfl, hsame⟩ := respects_expand hp hentered hids hids'
  exact ⟨rfl, hsame⟩

theorem respects_startInner {seed : Nat} {below : List Frame} (hp : p.Behaves valid b) :
    Respects (Twins valid b f) (startInner p seed below) :=
  .bind (respects_count counts_innerSearch) fun _ => .bind (respects_note fun _ => ⟨rfl, rfl⟩)
    fun _ => .bind (respects_expand hp) fun _ => .pure _

theorem respects_outerStep {top : Frame} {below : List Frame} (hp : p.Behaves valid b) :
    Respects (Twins valid b f) (outerStep p top below) := by
  rw [outerStep]
  split
  · refine .bind respects_countTransition fun _ => .bind respects_facts fun facts => ?_
    split
    · exact .pure _
    · exact .bind (respects_enter hp) fun frame => .pure _
  · refine .bind respects_isAccepting fun accepting => ?_
    split
    · exact .bind (respects_startInner hp) fun stage => .pure _
    · exact .bind respects_leave fun _ => .pure _

theorem respects_innerStep {below frames : List Frame} {seed : Nat} {top : Frame}
    (hp : p.Behaves valid b) : Respects (Twins valid b f) (innerStep p below seed top frames) := by
  rw [innerStep]
  split
  · refine .bind respects_countTransition fun _ => .bind respects_facts fun facts => ?_
    split
    · exact .bind respects_pathStates fun path => .bind (respects_productStates _) fun cycle =>
        .pure _
    · split
      · exact .pure _
      · exact .bind (respects_note fun _ => ⟨rfl, rfl⟩) fun _ => .bind (respects_expand hp)
          fun ids => .pure _
  · split
    · exact .bind respects_leave fun _ => .pure _
    · exact .pure _

theorem respects_step (hp : p.Behaves valid b) (stage : Stage) :
    Respects (Twins valid b f) (Search.step p stage) := by
  rcases stage with (_ | ⟨top, below⟩) | ⟨below, seed, _ | ⟨top, frames⟩⟩
  · exact .pure _
  · exact respects_outerStep hp
  · exact .bind respects_leave fun _ => .pure _
  · exact respects_innerStep hp

omit [DecidableEq S] in
theorem twins_of_empty (hx : x.Sound valid b f) (hy : y.Sound valid b f) (hnodes : x.nodes = .empty)
    (hnodes' : y.nodes = .empty) (htally : x.tally = y.tally)
    (hreduction : x.reduction = y.reduction) : Twins valid b f x y := by
  refine ⟨hx, hy, fun id u => ?_, fun id => ?_, htally, hreduction⟩
  · simp [Stores, hnodes, hnodes']
  · rw [hnodes, hnodes']

/-- Searches that start over are twins, whatever they did before. -/
theorem start_twins {stage stage' : Stage} (hp : p.Behaves valid b) (hx : x.Sound valid b f)
    (hy : y.Sound valid b f) (hreduction : x.reduction = y.reduction)
    (hok : start p ⟨x, xlog⟩ = .ok stage ⟨x', xlog'⟩)
    (hok' : start p ⟨y, ylog⟩ = .ok stage' ⟨y', ylog'⟩) :
    stage = stage' ∧ Twins valid b f x' y' := by
  obtain ⟨i, space, slog, frame, hspace, hframe, rfl⟩ := enter_of_start hok
  obtain ⟨i', space', slog', frame', hspace', hframe', rfl⟩ := enter_of_start hok'
  obtain ⟨hspace, -, s, hs, hi⟩ := StateSpace.initial_spec hp hx.space hspace
  obtain ⟨hspace', -, s', hs', hi'⟩ := StateSpace.initial_spec hp hy.space hspace'
  obtain rfl := Option.some.inj (hs.symm.trans hs')
  have hfirst : Sound valid b f { x.cleared with space := space } :=
    sound_of_nodes_empty hspace hx.property rfl
  have hfirst' : Sound valid b f { y.cleared with space := space' } :=
    sound_of_nodes_empty hspace' hy.property rfl
  have hroot : Stands { x.cleared with space := space } ⟨i, x.property.initial, 0, true⟩
      ⟨s, .ofList [.next f], 0, true⟩ := ⟨hi, hx.property.initial, rfl, rfl⟩
  have hroot' : Stands { y.cleared with space := space' } ⟨i', y.property.initial, 0, true⟩
      ⟨s, .ofList [.next f], 0, true⟩ := ⟨hi', hy.property.initial, rfl, rfl⟩
  have htwins := twins_of_empty hfirst hfirst' rfl rfl rfl hreduction
  obtain ⟨hid, hentered⟩ := htwins.insert hroot hroot'
  rw [← hid] at hframe'
  obtain ⟨rfl, hsame⟩ := respects_enter hp hentered hframe hframe'
  exact ⟨rfl, hsame⟩

end

end Search

end TemporalCheck
