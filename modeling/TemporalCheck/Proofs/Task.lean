import Mathlib.Tactic.Common
import TemporalCheck.Task

namespace TemporalCheck

namespace Task

variable {σ α β : Type} {l l' : Logged σ} {a : α} {b : β}

@[simp]
theorem bind_eq_ok {x : Task σ α} {f : α → Task σ β} :
    (x >>= f) l = .ok b l' ↔ ∃ a m, x l = .ok a m ∧ f a m = .ok b l' := by
  change EStateM.bind x f l = _ ↔ _
  rw [EStateM.bind]
  split
  · rename_i a m h
    simp only [h, EStateM.Result.ok.injEq]
    constructor
    · intro hf
      exact ⟨a, m, ⟨rfl, rfl⟩, hf⟩
    · rintro ⟨a, m, ⟨rfl, rfl⟩, hf⟩
      exact hf
  · rename_i h
    simp [h]

@[simp]
theorem pure_eq_ok {a' : α} : (pure a : Task σ α) l = .ok a' l' ↔ a = a' ∧ l = l' := by
  change EStateM.Result.ok a l = _ ↔ _
  simp

@[simp]
theorem map_eq_ok {x : Task σ α} {f : α → β} :
    (f <$> x) l = .ok b l' ↔ ∃ a, x l = .ok a l' ∧ f a = b := by
  change EStateM.map f x l = _ ↔ _
  rw [EStateM.map]
  split
  · rename_i a m h
    simp only [h, EStateM.Result.ok.injEq]
    constructor
    · rintro ⟨rfl, rfl⟩
      exact ⟨a, ⟨rfl, rfl⟩, rfl⟩
    · rintro ⟨a, ⟨rfl, rfl⟩, rfl⟩
      exact ⟨rfl, rfl⟩
  · rename_i h
    simp [h]

@[simp]
theorem read_eq_ok {s : σ} : read l = .ok s l' ↔ l.state = s ∧ l = l' := by
  simp [read]

@[simp]
theorem change_eq_ok {f : σ → σ} {u : Unit} : change f l = .ok u l' ↔ l' = ⟨f l.state, l.log⟩ := by
  change EStateM.Result.ok () (⟨f l.state, l.log⟩ : Logged σ) = .ok u l' ↔ _
  simp [eq_comm]

@[simp]
theorem emit_eq_ok {level : LogLevel} {message : String} {u : Unit} :
    emit level message l = .ok u l' ↔ l' = ⟨l.state, ⟨level, message⟩ :: l.log⟩ := by
  change EStateM.Result.ok () (⟨l.state, ⟨level, message⟩ :: l.log⟩ : Logged σ) = .ok u l' ↔ _
  simp [eq_comm]

@[simp]
theorem require_eq_ok {o : Option α} : require o l = .ok a l' ↔ o = some a ∧ l = l' := by
  cases o with
  | none =>
      change EStateM.Result.error _ l = _ ↔ _
      simp
  | some a' =>
      change EStateM.Result.ok a' l = _ ↔ _
      simp

@[simp]
theorem ofExcept_eq_ok {r : Except Fault α} : ofExcept r l = .ok a l' ↔ r = .ok a ∧ l = l' := by
  cases r with
  | error e =>
      change EStateM.Result.error _ l = _ ↔ _
      simp
  | ok a' =>
      change EStateM.Result.ok a' l = _ ↔ _
      simp

@[simp]
theorem fail_eq_ok {e : CheckError} : (fail e : Task σ α) l = .ok a l' ↔ False := by
  change EStateM.Result.error _ l = _ ↔ _
  simp

def answer (t : Task σ α) (l : Logged σ) : Except Fault α :=
  match t l with
  | .ok a _ => .ok a
  | .error e _ => .error e

/-- What a task leaves, also if it fails. -/
def leaves (t : Task σ α) (l : Logged σ) : Logged σ :=
  match t l with
  | .ok _ l' => l'
  | .error _ l' => l'

theorem eq_ok_of_answer {t : Task σ α} (h : t.answer l = .ok a) : ∃ l', t l = .ok a l' := by
  rw [answer] at h
  cases ht : t l with
  | ok b l' =>
      rw [ht] at h
      cases h
      exact ⟨l', rfl⟩
  | error e l' =>
      rw [ht] at h
      cases h

theorem bind_of_ok {t : Task σ α} {f : α → Task σ β} (h : t l = .ok a l') :
    (t >>= f) l = f a l' := by
  change EStateM.bind t f l = _
  rw [EStateM.bind, h]

theorem answer_ofExcept (r : Except Fault α) (l : Logged σ) : (ofExcept r).answer l = r := by
  cases r <;> rfl

theorem leaves_ofExcept (r : Except Fault α) (l : Logged σ) : (ofExcept r).leaves l = l := by
  cases r <;> rfl

end Task

section Except

variable {ε δ α β : Type} {x : Except ε α} {a : α} {b : β}

theorem except_bind_eq_ok {f : α → Except ε β} :
    (x >>= f) = .ok b ↔ ∃ a, x = .ok a ∧ f a = .ok b := by
  cases x with
  | error e =>
      change Except.error e = _ ↔ _
      simp
  | ok a =>
      change f a = _ ↔ _
      simp

theorem except_mapError_eq_ok {f : ε → δ} : x.mapError f = .ok a ↔ x = .ok a := by
  cases x <;> simp [Except.mapError]

theorem except_map_eq_ok {f : α → β} : f <$> x = .ok b ↔ ∃ a, x = .ok a ∧ f a = b := by
  cases x <;> simp

/-- Where each member has an answer under a condition, all have one under all the conditions. -/
theorem except_mapM_eq_ok {f : α → Except ε β} {P : α → Prop} {g : α → β} {l : List α} {bs : List β}
    (h : ∀ a ∈ l, ∀ b, f a = .ok b ↔ P a ∧ g a = b) :
    l.mapM f = .ok bs ↔ (∀ a ∈ l, P a) ∧ l.map g = bs := by
  induction l generalizing bs with
  | nil => simp [pure, Except.pure]
  | cons a l ih =>
      rw [List.forall_mem_cons] at h
      simp only [List.mapM_cons, except_bind_eq_ok, h.1, ih h.2, List.forall_mem_cons,
        List.map_cons]
      constructor
      · rintro ⟨_, ⟨ha, rfl⟩, _, ⟨hl, rfl⟩, hbs⟩
        exact ⟨⟨ha, hl⟩, Except.ok.inj hbs⟩
      · rintro ⟨⟨ha, hl⟩, rfl⟩
        exact ⟨_, ⟨ha, rfl⟩, _, ⟨hl, rfl⟩, rfl⟩

theorem except_mapM_congr {f g : α → Except ε β} {l : List α} (h : ∀ a ∈ l, f a = g a) :
    l.mapM f = l.mapM g := by
  induction l with
  | nil => rfl
  | cons a l ih =>
      rw [List.forall_mem_cons] at h
      rw [List.mapM_cons, List.mapM_cons, h.1, ih h.2]

theorem except_toOption_eq_some : x.toOption = some a ↔ x = .ok a := by
  cases x <;> simp [Except.toOption]

end Except

end TemporalCheck
