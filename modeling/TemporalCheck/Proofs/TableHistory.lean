import Mathlib.Data.Finset.Card
import TemporalCheck.Proofs.StateTable

namespace TemporalCheck

namespace StateTable

variable {S I : Type}

inductive Op (S I : Type) where
  | insert (s : S)
  | update (id : Nat) (f : I → I)
  | clear

section

variable [HasDigest S]

def buckets (t : StateTable S I) : Finset UInt64 := (t.states.toList.map bucket).toFinset

theorem mem_buckets {t : StateTable S I} {b : UInt64} :
    b ∈ t.buckets ↔ ∃ id s, t.get? id = some s ∧ bucket s = b := by
  rw [buckets, List.mem_toFinset, List.mem_map]
  constructor
  · rintro ⟨s, hs, hb⟩
    obtain ⟨id, hid⟩ := List.mem_iff_getElem?.1 hs
    exact ⟨id, s, by simpa [get?] using hid, hb⟩
  · rintro ⟨id, s, hs, hb⟩
    exact ⟨s, List.mem_iff_getElem?.2 ⟨id, by simpa [get?] using hs⟩, hb⟩

theorem WellFormed.mem_index {t : StateTable S I} (h : t.WellFormed) (b : UInt64) :
    b ∈ t.index ↔ b ∈ t.buckets := by
  rw [Std.TreeMap.mem_iff_isSome_getElem?, h.indexes.first, List.isSome_head?, mem_buckets]
  constructor
  · intro hne
    obtain ⟨id, hid⟩ := List.exists_mem_of_ne_nil _ hne
    exact ⟨id, mem_inBucket.1 hid⟩
  · rintro ⟨id, hid⟩
    exact List.ne_nil_of_mem (mem_inBucket.2 hid)

theorem WellFormed.size_index {t : StateTable S I} (h : t.WellFormed) :
    t.index.size = t.buckets.card := by
  have hkeys : t.index.keys.toFinset = t.buckets := by
    ext b
    rw [List.mem_toFinset, Std.TreeMap.mem_keys, h.mem_index]
  have hnodup : t.index.keys.Nodup := by
    refine (Std.TreeMap.distinct_keys (t := t.index)).imp fun hne heq => hne ?_
    rw [heq]
    exact Std.ReflCmp.compare_self
  rw [← Std.TreeMap.length_keys, ← hkeys, List.toFinset_card_of_nodup hnodup]

theorem WellFormed.collisions_add {t : StateTable S I} (h : t.WellFormed) :
    t.collisions + t.buckets.card = t.size := by
  rw [← h.size_index, h.counted]

variable [DecidableEq S] [Inhabited I]

/-- What one insertion does: it finds the state, or stores it under the next number. -/
theorem WellFormed.add_cases {t : StateTable S I} (h : t.WellFormed) (s : S) :
    (∃ id, t.get? id = some s ∧ t.add s = ((id, false), t)) ∨
      (∀ id, t.get? id ≠ some s) ∧ (t.add s).1 = (t.size, true) ∧ (t.add s).2.size = t.size + 1 ∧
        (t.add s).2.get? t.size = some s ∧ (t.add s).2.info? t.size = some default := by
  cases hs : t.lookup s with
  | some id =>
      refine .inl ⟨id, get?_of_lookup hs, ?_⟩
      simp [add, hs]
  | none =>
      refine .inr ⟨fun id => h.get?_ne_of_lookup hs, ?_⟩
      simp [add, hs]

def apply (t : StateTable S I) : Op S I → StateTable S I
  | .insert s => (t.add s).2
  | .update id f => t.modifyInfo id f
  | .clear => t.clear

def after (ops : List (Op S I)) : StateTable S I := ops.foldl apply empty

/-- The numbers given to new states since the last clearing, with one more operation. -/
def issue (t : StateTable S I) (numbers : List Nat) : Op S I → List Nat
  | .insert s => if (t.add s).1.2 then numbers ++ [(t.add s).1.1] else numbers
  | .update _ _ => numbers
  | .clear => []

/-- The numbers given to new states since the last clearing, in order. -/
def issued (ops : List (Op S I)) : List Nat :=
  (ops.foldl (fun (x : StateTable S I × List Nat) op => (x.1.apply op, x.1.issue x.2 op))
    (empty, [])).2

theorem WellFormed.apply {t : StateTable S I} (h : t.WellFormed) (op : Op S I) :
    (t.apply op).WellFormed := by
  cases op with
  | insert s => exact (h.insert s).1
  | update id f => exact h.modifyInfo id f
  | clear => exact wellFormed_empty

theorem foldl_apply_induction {P : StateTable S I → Prop} {ops : List (Op S I)} {t : StateTable S I}
    (hops : ∀ op ∈ ops, ∀ t, P t → P (t.apply op)) (ht : P t) : P (ops.foldl apply t) := by
  induction ops generalizing t with
  | nil => exact ht
  | cons op ops ih =>
      apply ih
      · exact fun other hother => hops other (List.mem_cons_of_mem op hother)
      · exact hops op List.mem_cons_self t ht

theorem wellFormed_after (ops : List (Op S I)) : (after ops : StateTable S I).WellFormed :=
  foldl_apply_induction (fun op _ _ h => h.apply op) wellFormed_empty

theorem WellFormed.issue_eq {t : StateTable S I} (h : t.WellFormed) (op : Op S I) :
    t.issue (List.range t.size) op = List.range (t.apply op).size := by
  cases op with
  | insert s =>
      rcases h.add_cases s with ⟨id, -, hadd⟩ | ⟨-, hid, hsize, -⟩
      · simp [issue, StateTable.apply, hadd]
      · simp [issue, StateTable.apply, hid, hsize, List.range_succ]
  | update id f => simp [issue, StateTable.apply]
  | clear => rfl

theorem issued_eq (ops : List (Op S I)) : issued ops = List.range (after ops).size := by
  suffices hboth : ops.foldl (fun (x : StateTable S I × List Nat) op =>
      (x.1.apply op, x.1.issue x.2 op)) (empty, []) = (after ops, List.range (after ops).size) by
    rw [issued, hboth]
  induction ops using List.reverseRecOn with
  | nil => rfl
  | append_singleton ops op ih =>
      rw [List.foldl_append, ih]
      simp only [List.foldl_cons, List.foldl_nil, (wellFormed_after ops).issue_eq op]
      simp [after, List.foldl_append]

theorem get?_apply {t : StateTable S I} {op : Op S I} {id : Nat} {s : S} (hop : op ≠ .clear)
    (hs : t.get? id = some s) : (t.apply op).get? id = some s := by
  cases op with
  | insert new => exact (grows_insert t new).get id s hs
  | update j f => rwa [StateTable.apply, get?_modifyInfo]
  | clear => exact absurd rfl hop

theorem info?_apply {t : StateTable S I} {op : Op S I} {id : Nat} {i : I} (hop : op ≠ .clear)
    (hupdate : ∀ f, op ≠ .update id f) (hi : t.info? id = some i) :
    (t.apply op).info? id = some i := by
  cases op with
  | insert new => exact (grows_insert t new).info id i hi
  | update j f =>
      have hj : j ≠ id := by
        rintro rfl
        exact hupdate f rfl
      rwa [StateTable.apply, info?_modifyInfo_of_ne f hj]
  | clear => exact absurd rfl hop

/-- A table is a faithful set with stable numbers, whatever its history and whatever the digests. An
insertion tells whether the state was there; a state that was keeps its number, a new one gets the
next number and `default` noted. Looking up inverts reading, no state is stored twice, numbers and
states stay until the table is cleared, notes change only where they are written. Index and overflow
list the states of each bucket, and all states but one of each bucket count as collisions. Up to
`2 ^ 32` rows the numbers are 32 bit words. -/
theorem after_faithful (ops : List (Op S I)) :
    let t : StateTable S I := after ops
    (∀ s, ((t.add s).1.2 = false ↔ ∃ id, t.get? id = some s) ∧
      ((t.add s).1.2 = false →
        (t.add s).1.1 ∈ issued ops ∧ t.get? (t.add s).1.1 = some s ∧ (t.add s).2 = t) ∧
      ((t.add s).1.2 = true → (t.add s).1.1 = t.size ∧ (t.add s).2.size = t.size + 1 ∧
        (t.add s).2.get? t.size = some s ∧ (t.add s).2.info? t.size = some default)) ∧
    issued ops = List.range t.size ∧
    (t.size ≤ UInt32.size → ∀ id ∈ issued ops, id.toUInt32.toNat = id) ∧
    (∀ s id, t.lookup s = some id ↔ t.get? id = some s) ∧
    (∀ i j s, t.get? i = some s → t.get? j = some s → i = j) ∧
    (∀ more, .clear ∉ more → ∀ id s, t.get? id = some s →
      (after (ops ++ more)).get? id = some s ∧ (after (ops ++ more)).lookup s = some id) ∧
    (∀ id i, t.info? id = some i →
      (∀ f, (t.apply (.update id f)).info? id = some (f i)) ∧
      ∀ more, .clear ∉ more → (∀ f, .update id f ∉ more) →
        (after (ops ++ more)).info? id = some i) ∧
    t.Indexes t.inBucket ∧ t.collisions + t.buckets.card = t.size := by
  intro t
  have ht : t.WellFormed := wellFormed_after ops
  refine ⟨fun s => ?_, issued_eq ops, fun hsize id hid => ?_, fun s id => ht.lookup_eq_some_iff,
    ht.distinct, fun more hmore id s hs => ?_,
    fun id i hi => ⟨fun f => info?_modifyInfo_self f hi, fun more hclear hupdate => ?_⟩,
    ht.indexes, ht.collisions_add⟩
  · rcases ht.add_cases s with ⟨id, hid, hadd⟩ | ⟨hnone, hnew, hsize, hget, hinfo⟩
    · rw [hadd, issued_eq]
      refine ⟨⟨fun _ => ⟨id, hid⟩, fun _ => rfl⟩, fun _ => ⟨?_, hid, rfl⟩, nofun⟩
      exact List.mem_range.2 (lt_size_of_get? hid)
    · rw [hnew]
      refine ⟨⟨nofun, fun hstored => ?_⟩, nofun, fun _ => ⟨rfl, hsize, hget, hinfo⟩⟩
      obtain ⟨id, hid⟩ := hstored
      exact absurd hid (hnone id)
  · rw [issued_eq, List.mem_range] at hid
    exact Nat.mod_eq_of_lt (Nat.lt_of_lt_of_le hid hsize)
  · have hget : (after (ops ++ more) : StateTable S I).get? id = some s := by
      rw [after, List.foldl_append]
      apply foldl_apply_induction (P := fun t => t.get? id = some s) _ hs
      intro op hop t hs
      apply get?_apply _ hs
      rintro rfl
      exact hmore hop
    exact ⟨hget, (wellFormed_after _).lookup_eq_some_iff.2 hget⟩
  · rw [after, List.foldl_append]
    apply foldl_apply_induction (P := fun t => t.info? id = some i) _ hi
    intro op hop t hi
    apply info?_apply _ _ hi
    · rintro rfl
      exact hclear hop
    · rintro f rfl
      exact hupdate f hop

end

structure Crowd where
  name : String
deriving DecidableEq

instance instHasDigestCrowd : HasDigest Crowd := ⟨fun _ => { seedB := 42, seedC := 1 }⟩

def crowd : List (Op Crowd Nat) :=
  [.insert ⟨"old"⟩, .clear, .insert ⟨"x"⟩, .insert ⟨"y"⟩, .update 1 (· + 5), .insert ⟨"x"⟩,
    .insert ⟨"z"⟩]

theorem crowd_faithful :
    let t : StateTable Crowd Nat := after crowd
    let later : StateTable Crowd Nat := after (crowd ++ [.insert ⟨"u"⟩, .update 2 (· + 1)])
    issued crowd = [0, 1, 2] ∧ (∀ id ∈ issued crowd, id.toUInt32.toNat = id) ∧
      t.index[bucket (⟨"x"⟩ : Crowd)]? = some 0 ∧
      (t.overflow[bucket (⟨"x"⟩ : Crowd)]?.getD #[]).toList = [1, 2] ∧
      t.collisions = 2 ∧ t.buckets.card = 1 ∧
      t.get? (t.add ⟨"y"⟩).1.1 = some ⟨"y"⟩ ∧ (t.add ⟨"old"⟩).1.1 = 3 ∧
      later.lookup ⟨"y"⟩ = some 1 ∧ later.info? 1 = some 5 := by
  obtain ⟨hadd, hissued, hwords, -, -, hstays, hnotes, hindexes, hcollisions⟩ :=
    after_faithful crowd
  have hy : (after crowd : StateTable Crowd Nat).get? 1 = some ⟨"y"⟩ := by decide +kernel
  have hnote : (after crowd : StateTable Crowd Nat).info? 1 = some 5 := by decide +kernel
  have hsize : (after crowd : StateTable Crowd Nat).size = 3 := by decide +kernel
  have hcard : (after crowd : StateTable Crowd Nat).buckets.card = 1 := by decide +kernel
  have hnumbers : (after crowd : StateTable Crowd Nat).inBucket (bucket (⟨"x"⟩ : Crowd)) =
      [0, 1, 2] := by
    decide +kernel
  have hclear : Op.clear ∉ ([.insert ⟨"u"⟩, .update 2 (· + 1)] : List (Op Crowd Nat)) := by simp
  refine ⟨by rw [hissued, hsize]; rfl, hwords (by rw [hsize]; decide), ?_, ?_,
    by omega, hcard, ?_, ?_, (hstays _ hclear 1 _ hy).2, ?_⟩
  · rw [hindexes.first, hnumbers]
    rfl
  · rw [hindexes.others, hnumbers]
    rfl
  · exact ((hadd ⟨"y"⟩).2.1 ((hadd ⟨"y"⟩).1.2 ⟨1, hy⟩)).2.1
  · rw [((hadd ⟨"old"⟩).2.2 (by decide +kernel)).1, hsize]
  · exact (hnotes 1 5 hnote).2 _ hclear (by simp)

end StateTable

end TemporalCheck
