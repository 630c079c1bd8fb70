import Mathlib.Tactic.Common
import TemporalCheck.StateTable

namespace TemporalCheck

namespace StateTable

variable {S I : Type} {t t' t'' : StateTable S I} {s : S} {id : Nat}

theorem get?_isSome_iff : (t.get? id).isSome ↔ id < t.size := by
  simp [get?, size]

theorem info?_isSome_iff : (t.info? id).isSome ↔ id < t.size := by
  simp [info?, size, t.size_info]

theorem lt_size_of_get? (h : t.get? id = some s) : id < t.size := get?_isSome_iff.1 (by simp [h])

theorem lt_size_of_info? {i : I} (h : t.info? id = some i) : id < t.size :=
  info?_isSome_iff.1 (by simp [h])

theorem exists_info?_of_lt (h : id < t.size) : ∃ i, t.info? id = some i :=
  Option.isSome_iff_exists.1 (info?_isSome_iff.2 h)

theorem exists_get?_of_lt (h : id < t.size) : ∃ s, t.get? id = some s :=
  Option.isSome_iff_exists.1 (get?_isSome_iff.2 h)

theorem size_le_of_get? (h : ∀ id s, t.get? id = some s → t'.get? id = some s) :
    t.size ≤ t'.size := by
  apply Nat.le_of_not_lt
  intro hlt
  obtain ⟨s, hs⟩ := exists_get?_of_lt hlt
  exact Nat.lt_irrefl _ (lt_size_of_get? (h _ s hs))

@[simp]
theorem get?_modifyInfo (t : StateTable S I) (id : Nat) (f : I → I) (j : Nat) :
    (t.modifyInfo id f).get? j = t.get? j := rfl

@[simp]
theorem size_modifyInfo (t : StateTable S I) (id : Nat) (f : I → I) :
    (t.modifyInfo id f).size = t.size := rfl

theorem modifyInfo_of_none {f : I → I} (h : t.get? id = none) : t.modifyInfo id f = t := by
  have hsize : t.info.size ≤ id := by
    rw [t.size_info]
    simpa [get?] using h
  have hinfo : t.info.modify id f = t.info := by
    apply Array.ext_getElem?
    intro j
    rw [Array.getElem?_modify]
    split
    · subst id
      simp [hsize]
    · rfl
  simp [modifyInfo, hinfo]

theorem info?_modifyInfo (t : StateTable S I) (id : Nat) (f : I → I) (j : Nat) :
    (t.modifyInfo id f).info? j = if id = j then (t.info? j).map f else t.info? j := by
  simp [info?, modifyInfo, Array.getElem?_modify]

theorem info?_modifyInfo_self {i : I} (f : I → I) (h : t.info? id = some i) :
    (t.modifyInfo id f).info? id = some (f i) := by
  simp [info?_modifyInfo, h]

theorem info?_modifyInfo_of_ne {j : Nat} (f : I → I) (h : id ≠ j) :
    (t.modifyInfo id f).info? j = t.info? j := by
  simp [info?_modifyInfo, h]

def bare (t : StateTable S I) : StateTable S Unit :=
  { t with info := t.info.map fun _ => (), size_info := by rw [Array.size_map, t.size_info] }

theorem bare_modifyInfo (t : StateTable S I) (id : Nat) (f : I → I) :
    (t.modifyInfo id f).bare = t.bare := by
  have hinfo : (t.info.modify id f).map (fun _ => ()) = t.info.map fun _ => () := by
    apply Array.ext
    · simp
    · intros
      rfl
  simp [bare, modifyInfo, hinfo]

@[simp]
theorem get?_empty (id : Nat) : (empty : StateTable S I).get? id = none := rfl

@[simp]
theorem info?_empty (id : Nat) : (empty : StateTable S I).info? id = none := rfl

@[simp]
theorem size_empty : (empty : StateTable S I).size = 0 := rfl

section

variable [Inhabited I]

@[simp]
theorem get?_appendRow (t : StateTable S I) (s : S) (j : Nat) :
    (t.appendRow s).get? j = if j = t.size then some s else t.get? j := Array.getElem?_push

@[simp]
theorem info?_appendRow (t : StateTable S I) (s : S) (j : Nat) :
    (t.appendRow s).info? j = if j = t.size then some default else t.info? j := by
  rw [size, ← t.size_info]
  exact Array.getElem?_push

@[simp]
theorem size_appendRow (t : StateTable S I) (s : S) : (t.appendRow s).size = t.size + 1 := by
  simp [size, appendRow]

end

@[simp]
theorem states_indexRow (t : StateTable S I) (b : UInt64) (id : Nat) :
    (t.indexRow b id).states = t.states := by
  rw [indexRow]
  split <;> rfl

@[simp]
theorem info_indexRow (t : StateTable S I) (b : UInt64) (id : Nat) :
    (t.indexRow b id).info = t.info := by
  rw [indexRow]
  split <;> rfl

@[simp]
theorem get?_indexRow (t : StateTable S I) (b : UInt64) (id j : Nat) :
    (t.indexRow b id).get? j = t.get? j := by
  simp [get?]

@[simp]
theorem info?_indexRow (t : StateTable S I) (b : UInt64) (id j : Nat) :
    (t.indexRow b id).info? j = t.info? j := by
  simp [info?]

@[simp]
theorem size_indexRow (t : StateTable S I) (b : UInt64) (id : Nat) :
    (t.indexRow b id).size = t.size := by
  simp [size]

/-- The index has the first number of each bucket and the overflow has the others. -/
structure Indexes (t : StateTable S I) (numbers : UInt64 → List Nat) : Prop where
  first : ∀ b, t.index[b]? = (numbers b).head?
  others : ∀ b, (t.overflow[b]?.getD #[]).toList = (numbers b).tail

/-- A number that is entered into a bucket comes last there, be it the first one or not. -/
theorem Indexes.indexRow {numbers : UInt64 → List Nat} (h : t.Indexes numbers)
    (b : UInt64) (id : Nat) :
    (t.indexRow b id).Indexes fun b' => numbers b' ++ if b = b' then [id] else [] := by
  cases hfirst : t.index[b]? with
  | none =>
      have hempty : numbers b = [] := List.head?_eq_none_iff.1 ((h.first b).symm.trans hfirst)
      have hothers := h.others b
      simp only [StateTable.indexRow, hfirst]
      refine ⟨fun b' => ?_, fun b' => ?_⟩
      · by_cases hb : b = b'
        · subst b'
          simp [hempty]
        · simp [Std.TreeMap.getElem?_insert, hb, h.first b']
      · by_cases hb : b = b'
        · subst b'
          simpa [hempty] using hothers
        · simp [hb, h.others b']
  | some first =>
      obtain ⟨rest, hrest⟩ : ∃ rest, numbers b = first :: rest :=
        List.head?_eq_some_iff.1 ((h.first b).symm.trans hfirst)
      have hothers := h.others b
      simp only [StateTable.indexRow, hfirst]
      refine ⟨fun b' => ?_, fun b' => ?_⟩
      · by_cases hb : b = b'
        · subst b'
          simp [hfirst, hrest]
        · simp [hb, h.first b']
      · by_cases hb : b = b'
        · subst b'
          simpa [hrest] using hothers
        · simp [Std.TreeMap.getElem?_insert, hb, h.others b']

/-- Each number makes either the index or the counter of collisions grow. -/
theorem collisions_indexRow (t : StateTable S I) (b : UInt64) (id : Nat) :
    (t.indexRow b id).collisions + (t.indexRow b id).index.size =
      t.collisions + t.index.size + 1 := by
  cases hfirst : t.index[b]? with
  | none =>
      have hnew : ¬t.index.contains b = true := by
        rw [Std.TreeMap.contains_eq_isSome_getElem?, hfirst]
        exact Bool.false_ne_true
      simp only [indexRow, hfirst, Std.TreeMap.size_insert, if_neg hnew]
      omega
  | some first =>
      simp only [indexRow, hfirst]
      omega

/-- `t'` has all states of `t` under their numbers and with their notes, and the others with
nothing noted yet. -/
structure Grows [Inhabited I] (t t' : StateTable S I) : Prop where
  get : ∀ id s, t.get? id = some s → t'.get? id = some s
  info : ∀ id i, t.info? id = some i → t'.info? id = some i
  fresh : ∀ id i, t.info? id = none → t'.info? id = some i → i = default

namespace Grows

variable [Inhabited I]

theorem refl (t : StateTable S I) : Grows t t := by
  refine ⟨fun _ _ h => h, fun _ _ h => h, fun id i h h' => ?_⟩
  simp [h] at h'

theorem trans (h : Grows t t') (h' : Grows t' t'') : Grows t t'' := by
  refine ⟨fun id s hs => h'.get id s (h.get id s hs),
    fun id i hi => h'.info id i (h.info id i hi), ?_⟩
  intro id i hnone hi
  cases hmid : t'.info? id with
  | none => exact h'.fresh id i hmid hi
  | some j =>
      rw [h'.info id j hmid, Option.some.injEq] at hi
      exact hi ▸ h.fresh id j hnone hmid

theorem size_le (h : Grows t t') : t.size ≤ t'.size := size_le_of_get? h.get

end Grows

def Names (t : StateTable S I) (ids : List Nat) (states : List S) : Prop :=
  ids.map t.get? = states.map some

namespace Names

variable {ids : List Nat} {states : List S}

theorem nil : Names t [] [] := rfl

theorem cons (h : t.get? id = some s) (hrest : Names t ids states) :
    Names t (id :: ids) (s :: states) := by
  simpa [Names, h] using hrest

theorem eq_nil (h : Names t [] states) : states = [] := by
  cases states with
  | nil => rfl
  | cons s rest => simp [Names] at h

theorem eq_cons (h : Names t (id :: ids) states) :
    ∃ s rest, states = s :: rest ∧ t.get? id = some s ∧ Names t ids rest := by
  cases states with
  | nil => simp [Names] at h
  | cons s rest =>
      simp only [Names, List.map_cons, List.cons.injEq] at h
      exact ⟨s, rest, rfl, h⟩

theorem mono (h : Names t ids states) (hget : ∀ id s, t.get? id = some s → t'.get? id = some s) :
    Names t' ids states := by
  induction ids generalizing states with
  | nil => exact h
  | cons id ids ih =>
      obtain ⟨s, rest, rfl, hs, hrest⟩ := h.eq_cons
      exact cons (hget id s hs) (ih hrest)

theorem exists_state (h : Names t ids states) (hid : id ∈ ids) :
    ∃ s ∈ states, t.get? id = some s := by
  have hmem : t.get? id ∈ states.map some := h ▸ List.mem_map_of_mem hid
  obtain ⟨s, hs, heq⟩ := List.mem_map.1 hmem
  exact ⟨s, hs, heq.symm⟩

theorem exists_id (h : Names t ids states) (hs : s ∈ states) : ∃ id ∈ ids, t.get? id = some s := by
  have hmem : some s ∈ ids.map t.get? := h ▸ List.mem_map_of_mem hs
  exact List.mem_map.1 hmem

theorem mem_of_get? (h : Names t ids states) (hid : id ∈ ids) (hs : t.get? id = some s) :
    s ∈ states := by
  obtain ⟨s', hs', heq⟩ := h.exists_state hid
  rw [hs, Option.some.injEq] at heq
  exact heq ▸ hs'

end Names

section

variable [HasDigest S]

/-- The numbers of the states in a bucket, in order. -/
def inBucket (t : StateTable S I) (b : UInt64) : List Nat :=
  (List.range t.size).filter fun id => (t.get? id).map bucket = some b

theorem mem_inBucket {b : UInt64} : id ∈ t.inBucket b ↔ ∃ s, t.get? id = some s ∧ bucket s = b := by
  rw [inBucket, List.mem_filter, List.mem_range, decide_eq_true_iff, Option.map_eq_some_iff]
  constructor
  · exact fun h => h.2
  · rintro ⟨s, hs, hb⟩
    exact ⟨lt_size_of_get? hs, s, hs, hb⟩

/-- The numbers are those of the states. The counter knows how many of them are in the overflow, and
no state is stored twice. -/
structure WellFormed (t : StateTable S I) : Prop where
  indexes : t.Indexes t.inBucket
  counted : t.collisions + t.index.size = t.size
  distinct : ∀ i j s, t.get? i = some s → t.get? j = some s → i = j

theorem wellFormed_empty : (empty : StateTable S I).WellFormed := by
  refine ⟨⟨fun b => ?_, fun b => ?_⟩, rfl, fun _ _ _ h => by simp at h⟩
  · simp [empty, inBucket, size]
  · simp [empty, inBucket, size]

theorem WellFormed.modifyInfo (h : t.WellFormed) (id : Nat) (f : I → I) :
    (t.modifyInfo id f).WellFormed := ⟨⟨h.indexes.first, h.indexes.others⟩, h.counted, h.distinct⟩

theorem wellFormed_bare : t.bare.WellFormed ↔ t.WellFormed :=
  ⟨fun h => ⟨⟨h.indexes.first, h.indexes.others⟩, h.counted, h.distinct⟩,
    fun h => ⟨⟨h.indexes.first, h.indexes.others⟩, h.counted, h.distinct⟩⟩

theorem inBucket_appendRow [Inhabited I] (t : StateTable S I) (s : S) (b : UInt64) :
    (t.appendRow s).inBucket b = t.inBucket b ++ if bucket s = b then [t.size] else [] := by
  have hold : (List.range t.size).filter (fun id => ((t.appendRow s).get? id).map bucket = some b) =
      t.inBucket b := by
    apply List.filter_congr
    intro id hid
    rw [get?_appendRow, if_neg (Nat.ne_of_lt (List.mem_range.1 hid))]
  rw [inBucket, size_appendRow, List.range_succ, List.filter_append, hold]
  by_cases hb : bucket s = b
  · simp [hb]
  · simp [hb]

@[simp]
theorem inBucket_indexRow (t : StateTable S I) (b b' : UInt64) (id : Nat) :
    (t.indexRow b id).inBucket b' = t.inBucket b' := by
  simp [inBucket]

theorem WellFormed.appendRow_indexRow [Inhabited I] (h : t.WellFormed)
    (hs : ∀ id, t.get? id ≠ some s) :
    ((t.appendRow s).indexRow (bucket s) t.size).WellFormed := by
  refine ⟨?_, ?_, fun i j x hi hj => ?_⟩
  · have hrow : (t.appendRow s).Indexes t.inBucket := ⟨h.indexes.first, h.indexes.others⟩
    have hnumbers : ((t.appendRow s).indexRow (bucket s) t.size).inBucket =
        fun b => t.inBucket b ++ if bucket s = b then [t.size] else [] := by
      funext b
      rw [inBucket_indexRow, inBucket_appendRow]
    rw [hnumbers]
    exact hrow.indexRow (bucket s) t.size
  · rw [collisions_indexRow, size_indexRow, size_appendRow]
    exact congrArg (· + 1) h.counted
  · rw [get?_indexRow, get?_appendRow] at hi hj
    split at hi <;> split at hj
    · omega
    · cases hi
      exact absurd hj (hs j)
    · cases hj
      exact absurd hi (hs i)
    · exact h.distinct i j x hi hj

variable [DecidableEq S]

theorem get?_of_lookup (h : t.lookup s = some id) : t.get? id = some s := by
  rw [lookup, findIn, Option.bind_eq_some_iff] at h
  obtain ⟨first, -, h⟩ := h
  split at h
  · cases h
    assumption
  · obtain ⟨others, -, hfound⟩ := Option.bind_eq_some_iff.1 h
    simpa using Array.find?_some hfound

/-- The index and the overflow together are searched like the list of the states in the bucket. -/
theorem WellFormed.lookup_eq_find? (h : t.WellFormed) :
    t.lookup s = (t.inBucket (bucket s)).find? fun id => t.get? id = some s := by
  have hothers :
      (t.overflow[bucket s]?.bind fun others => others.find? fun id => t.get? id = some s) =
        (t.inBucket (bucket s)).tail.find? fun id => t.get? id = some s := by
    rw [← h.indexes.others]
    cases t.overflow[bucket s]? with
    | none => rfl
    | some others => simp
  rw [lookup, findIn, h.indexes.first, hothers]
  cases t.inBucket (bucket s) with
  | nil => rfl
  | cons first rest =>
      by_cases hfirst : t.get? first = some s
      · simp [hfirst]
      · simp [hfirst]

theorem WellFormed.lookup_eq_some_iff (h : t.WellFormed) :
    t.lookup s = some id ↔ t.get? id = some s := by
  refine ⟨get?_of_lookup, fun hs => ?_⟩
  have hfound : (t.lookup s).isSome := by
    rw [h.lookup_eq_find?, List.find?_isSome]
    exact ⟨id, mem_inBucket.2 ⟨s, hs, rfl⟩, by simpa using hs⟩
  obtain ⟨j, hj⟩ := Option.isSome_iff_exists.1 hfound
  rw [hj, h.distinct j id s (get?_of_lookup hj) hs]

theorem WellFormed.get?_ne_of_lookup (h : t.WellFormed) (hs : t.lookup s = none) :
    t.get? id ≠ some s := by
  intro hid
  rw [h.lookup_eq_some_iff.2 hid] at hs
  cases hs

variable [Inhabited I]

theorem insert_of_lookup (h : t.lookup s = some id) : t.insert s = (id, t) := by
  simp [StateTable.insert, add, h]

theorem insert_of_new (h : t.lookup s = none) :
    t.insert s = (t.size, (t.appendRow s).indexRow (bucket s) t.size) := by
  simp [StateTable.insert, add, h]

theorem grows_insert (t : StateTable S I) (s : S) : Grows t (t.insert s).2 := by
  cases hs : t.lookup s with
  | some id =>
      rw [insert_of_lookup hs]
      exact .refl t
  | none =>
      rw [insert_of_new hs]
      refine ⟨fun j x hj => ?_, fun j x hj => ?_, fun j x hn hj => ?_⟩
      · simp [Nat.ne_of_lt (lt_size_of_get? hj), hj]
      · simp [Nat.ne_of_lt (lt_size_of_info? hj), hj]
      · simp only [info?_indexRow, info?_appendRow] at hj
        split at hj
        · cases hj
          rfl
        · simp [hn] at hj

/-- Storing a state gives its number in a well-formed table that has grown by at most it. -/
theorem WellFormed.insert (h : t.WellFormed) (s : S) :
    (t.insert s).2.WellFormed ∧ Grows t (t.insert s).2 ∧
    (t.insert s).2.get? (t.insert s).1 = some s := by
  suffices hnew : (t.insert s).2.WellFormed ∧ (t.insert s).2.get? (t.insert s).1 = some s from
    ⟨hnew.1, grows_insert t s, hnew.2⟩
  cases hs : t.lookup s with
  | some id =>
      rw [insert_of_lookup hs]
      exact ⟨h, get?_of_lookup hs⟩
  | none =>
      rw [insert_of_new hs]
      exact ⟨h.appendRow_indexRow fun id => h.get?_ne_of_lookup hs, by simp⟩

theorem lt_size_insert (h : id < (t.insert s).2.size) : id < t.size ∨ id = (t.insert s).1 := by
  cases hs : t.lookup s with
  | some j =>
      rw [insert_of_lookup hs] at h
      exact .inl h
  | none =>
      rw [insert_of_new hs] at h ⊢
      simp only [size_indexRow, size_appendRow] at h
      omega

theorem get?_insert {s' : S} (h : (t.insert s).2.get? id = some s') :
    t.get? id = some s' ∨ s' = s := by
  cases hs : t.lookup s with
  | some j =>
      rw [insert_of_lookup hs] at h
      exact .inl h
  | none =>
      rw [insert_of_new hs, get?_indexRow, get?_appendRow] at h
      split at h
      · exact .inr (Option.some.inj h).symm
      · exact .inl h

theorem grows_insertAll (t : StateTable S I) (states : List S) :
    Grows t (t.insertAll states).2 := by
  induction states generalizing t with
  | nil => exact .refl t
  | cons s states ih => exact (grows_insert t s).trans (ih _)

/-- What is new among the stored states is among those just stored. -/
theorem lt_size_insertAll {states : List S} (h : id < (t.insertAll states).2.size) :
    id < t.size ∨ id ∈ (t.insertAll states).1 := by
  induction states generalizing t with
  | nil => exact .inl h
  | cons s states ih =>
      rcases ih h with hlt | hmem
      · rcases lt_size_insert hlt with hlt | rfl
        · exact .inl hlt
        · exact .inr List.mem_cons_self
      · exact .inr (List.mem_cons_of_mem _ hmem)

theorem get?_insertAll {states : List S} (h : (t.insertAll states).2.get? id = some s) :
    t.get? id = some s ∨ s ∈ states := by
  induction states generalizing t with
  | nil => exact .inl h
  | cons first states ih =>
      rcases ih h with hget | hmem
      · rcases get?_insert hget with hget | rfl
        · exact .inl hget
        · exact .inr List.mem_cons_self
      · exact .inr (List.mem_cons_of_mem first hmem)

theorem WellFormed.insertAll (h : t.WellFormed) (states : List S) :
    (t.insertAll states).2.WellFormed ∧ Grows t (t.insertAll states).2 ∧
      Names (t.insertAll states).2 (t.insertAll states).1 states := by
  induction states generalizing t with
  | nil => exact ⟨h, .refl t, .nil⟩
  | cons s states ih =>
      obtain ⟨hwf, hgrows, hget⟩ := h.insert s
      obtain ⟨hwf', hgrows', hnames⟩ := ih hwf
      exact ⟨hwf', hgrows.trans hgrows', .cons (hgrows'.get _ _ hget) hnames⟩

end

end StateTable

end TemporalCheck
