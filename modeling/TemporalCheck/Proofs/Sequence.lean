import Mathlib.Data.List.Chain
import Mathlib.Data.Set.Finite.Basic
import Mathlib.Logic.Relation
import Mathlib.Order.Interval.Finset.Nat
import Mathlib.Tactic.Common

namespace TemporalCheck

def InfinitelyOften (P : Nat → Prop) : Prop := ∀ n, ∃ m, n ≤ m ∧ P m

namespace InfinitelyOften

variable {P Q : Nat → Prop}

theorem mono (h : InfinitelyOften P) (hPQ : ∀ n, P n → Q n) : InfinitelyOften Q := by
  intro n
  obtain ⟨m, hm, hp⟩ := h n
  exact ⟨m, hm, hPQ m hp⟩

theorem infinite (h : InfinitelyOften P) : {n | P n}.Infinite := by
  refine Set.infinite_of_forall_exists_gt fun n => ?_
  obtain ⟨m, hm, hp⟩ := h (n + 1)
  exact ⟨m, hp, hm⟩

/-- A bounded sequence takes one of its values twice among the places of an infinite set. -/
theorem exists_repetition {f : Nat → Nat} {bound : Nat} (h : InfinitelyOften P)
    (hf : ∀ n, f n < bound) : ∃ i j, i < j ∧ P i ∧ f i = f j := by
  obtain ⟨i, hi, j, -, hij, heq⟩ := h.infinite.exists_lt_map_eq_of_mapsTo
    (fun n _ => Set.mem_Iio.2 (hf n)) (Set.finite_Iio bound)
  exact ⟨i, j, hij, hi, heq⟩

end InfinitelyOften

/-- A sequence whose members can always be continued exists. -/
theorem exists_sequence {α : Type} {P : Nat → α → Prop} {R : Nat → α → α → Prop}
    (hstart : ∃ a, P 0 a) (hstep : ∀ n a, P n a → ∃ b, P (n + 1) b ∧ R n a b) :
    ∃ f : Nat → α, (∀ n, P n (f n)) ∧ ∀ n, R n (f n) (f (n + 1)) := by
  obtain ⟨a, ha⟩ := hstart
  choose next hnext hrel using hstep
  let chain : (n : Nat) → { a // P n a } := fun n =>
    Nat.rec ⟨a, ha⟩ (fun n x => ⟨next n x.1 x.2, hnext n x.1 x.2⟩) n
  exact ⟨fun n => (chain n).1, fun n => (chain n).2, fun n => hrel n (chain n).1 (chain n).2⟩

theorem pairwise_transGen {α : Type} {R : α → α → Prop} {l : List α} (h : l.IsChain R) :
    l.Pairwise (Relation.TransGen R) :=
  List.isChain_iff_pairwise.1 (h.imp fun _ _ => Relation.TransGen.single)

/-- A chain and one that goes on from its end, seen as one that is closed by `a`. -/
theorem isChain_join {α : Type} {R : α → α → Prop} {path cycle : List α} {a : α}
    (hpath : path.IsChain R) (hcycle : cycle.IsChain R) (hjoined : cycle.head? = path.getLast?)
    (hlong : 2 ≤ cycle.length) (ha : cycle.getLast? = some a) :
    (path ++ cycle.tail.dropLast ++ [a]).IsChain R := by
  match cycle, hlong with
  | first :: second :: rest, _ =>
      have hlast : (second :: rest).getLast? = some a := by simpa using ha
      have hclosed : (second :: rest).dropLast ++ [a] = second :: rest :=
        List.dropLast_append_getLast? a hlast
      rw [List.isChain_cons_cons] at hcycle
      rw [List.append_assoc, List.tail_cons, hclosed]
      refine hpath.append hcycle.2 ?_
      rw [← hjoined]
      rintro x hx y hy
      obtain rfl : first = x := by simpa using hx
      obtain rfl : second = y := by simpa using hy
      exact hcycle.1

theorem tail_take_append_drop {α : Type} {l : List α} {i : Nat} (hpos : 1 ≤ i)
    (hlt : i < l.length) : (l.take i).tail ++ l.drop i = l.tail := by
  have hne : l.take i ≠ [] := List.ne_nil_of_length_pos (by rw [List.length_take]; omega)
  rw [← List.tail_append_of_ne_nil hne, List.take_append_drop]

/-- A sequence that goes through `stem` once and through `loop` for ever after. -/
structure Repeats {α : Type} (stem loop : List α) (run : Nat → α) : Prop where
  first : ∀ n, n < stem.length → stem[n]? = some (run n)
  again : ∀ n, loop[n % loop.length]? = some (run (stem.length + n))

theorem exists_repeats {α : Type} (stem : List α) {loop : List α} (h : loop ≠ []) :
    ∃ run, Repeats stem loop run := by
  have hpos : 0 < loop.length := List.length_pos_of_ne_nil h
  refine ⟨fun n => if hn : n < stem.length then stem[n] else
    loop.get ⟨(n - stem.length) % loop.length, Nat.mod_lt _ hpos⟩, fun n hn => ?_, fun n => ?_⟩
  · simp [hn]
  · simp [Nat.mod_lt n hpos]

namespace Repeats

variable {α β : Type} {stem loop : List α} {run : Nat → α} {a : α}

theorem map (h : Repeats stem loop run) (f : α → β) :
    Repeats (stem.map f) (loop.map f) fun n => f (run n) := by
  refine ⟨fun n hn => ?_, fun n => ?_⟩
  · rw [List.length_map] at hn
    simp [h.first n hn]
  · simp [h.again n]

theorem loop_ne_nil (h : Repeats stem loop run) : loop ≠ [] := by
  rintro rfl
  simpa using h.again 0

theorem head? (h : Repeats stem loop run) : (stem ++ loop).head? = some (run 0) := by
  cases stem with
  | nil => simpa [← List.head?_eq_getElem?] using h.again 0
  | cons a stem => simpa using h.first 0 (by simp)

theorem mem_loop (h : Repeats stem loop run) {n : Nat} (hn : stem.length ≤ n) : run n ∈ loop := by
  have hagain := h.again (n - stem.length)
  rw [Nat.add_sub_cancel' hn] at hagain
  exact List.mem_of_getElem? hagain

theorem infinitelyOften (h : Repeats stem loop run) (ha : a ∈ loop) :
    InfinitelyOften fun n => run n = a := by
  obtain ⟨k, hk, rfl⟩ := List.mem_iff_getElem.1 ha
  intro n
  refine ⟨stem.length + (k + loop.length * n), ?_, ?_⟩
  · have : n ≤ loop.length * n := Nat.le_mul_of_pos_left n (by omega)
    omega
  · have hagain := h.again (k + loop.length * n)
    rw [Nat.add_mul_mod_self_left, Nat.mod_eq_of_lt hk, List.getElem?_eq_getElem hk,
      Option.some.injEq] at hagain
    exact hagain.symm

theorem exists_index (h : Repeats stem loop run) (ha : loop.head? = some a) (n : Nat) :
    ∃ k, (stem ++ loop ++ [a])[k]? = some (run n) ∧
      (stem ++ loop ++ [a])[k + 1]? = some (run (n + 1)) := by
  have hpos : 0 < loop.length := List.length_pos_of_ne_nil h.loop_ne_nil
  have hloop : ∀ j, (stem ++ loop ++ [a])[stem.length + j]? = (loop ++ [a])[j]? := by
    intro j
    rw [List.append_assoc, List.getElem?_append_right (by omega), Nat.add_sub_cancel_left]
  rcases Nat.lt_or_ge n stem.length with hn | hn
  · refine ⟨n, ?_, ?_⟩
    · rw [List.append_assoc, List.getElem?_append_left hn, h.first n hn]
    · rcases Nat.lt_or_ge (n + 1) stem.length with hn' | hn'
      · rw [List.append_assoc, List.getElem?_append_left hn', h.first _ hn']
      · have hfirst := h.again 0
        have heq : n + 1 = stem.length + 0 := by omega
        rw [Nat.zero_mod] at hfirst
        rw [heq, hloop, List.getElem?_append_left hpos, hfirst]
  · obtain ⟨m, rfl⟩ := Nat.exists_eq_add_of_le hn
    have hlt := Nat.mod_lt m hpos
    have hnext := h.again (m + 1)
    rw [← Nat.mod_add_mod] at hnext
    refine ⟨stem.length + m % loop.length, ?_, ?_⟩
    · rw [hloop, List.getElem?_append_left hlt, h.again m]
    · rw [Nat.add_assoc, hloop]
      rcases Nat.lt_or_ge (m % loop.length + 1) loop.length with hin | hend
      · rw [Nat.mod_eq_of_lt hin] at hnext
        rw [List.getElem?_append_left hin, hnext]
        rfl
      · have hlast : m % loop.length + 1 = loop.length := by omega
        rw [hlast, Nat.mod_self, ← List.head?_eq_getElem?, ha] at hnext
        rw [hlast, List.getElem?_concat_length, hnext]
        rfl

theorem step {R : α → α → Prop} (h : Repeats stem loop run)
    (hchain : (stem ++ loop ++ [a]).IsChain R) (ha : loop.head? = some a) (n : Nat) :
    R (run n) (run (n + 1)) := by
  obtain ⟨k, hk, hk'⟩ := h.exists_index ha n
  obtain ⟨hlt, hget⟩ := List.getElem?_eq_some_iff.1 hk
  obtain ⟨hlt', hget'⟩ := List.getElem?_eq_some_iff.1 hk'
  rw [← hget, ← hget']
  exact List.isChain_iff_getElem.1 hchain k hlt'

end Repeats

end TemporalCheck
