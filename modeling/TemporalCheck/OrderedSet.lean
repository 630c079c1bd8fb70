import Std.Data.TreeMap

namespace TemporalCheck

/-- A finite set, held as the strictly increasing list of its members. -/
structure OrderedSet (α : Type) [Ord α] where
  toList : List α
  increasing : toList.Pairwise fun a b => compare a b = .lt

namespace OrderedSet

variable {α : Type} [Ord α]

@[ext]
theorem ext {s t : OrderedSet α} (h : s.toList = t.toList) : s = t := by
  cases s; cases t; simp_all

instance [DecidableEq α] : DecidableEq (OrderedSet α) := fun s t =>
  if h : s.toList = t.toList then isTrue (ext h) else isFalse fun e => h (e ▸ rfl)

instance : Membership α (OrderedSet α) := ⟨fun s a => a ∈ s.toList⟩

instance [DecidableEq α] (a : α) (s : OrderedSet α) : Decidable (a ∈ s) :=
  inferInstanceAs (Decidable (a ∈ s.toList))

instance : Ord (OrderedSet α) := ⟨fun s t => compare s.toList t.toList⟩

def empty : OrderedSet α := ⟨[], .nil⟩

instance : Inhabited (OrderedSet α) := ⟨empty⟩

instance : EmptyCollection (OrderedSet α) := ⟨empty⟩

def isEmpty (s : OrderedSet α) : Bool := s.toList.isEmpty

def size (s : OrderedSet α) : Nat := s.toList.length

def place (a : α) : List α → List α
  | [] => [a]
  | b :: bs =>
    match compare a b with
    | .lt => a :: b :: bs
    | .eq => b :: bs
    | .gt => b :: place a bs

theorem mem_of_mem_place {a x : α} {bs : List α} (h : x ∈ place a bs) : x = a ∨ x ∈ bs := by
  induction bs with
  | nil => simpa [place] using h
  | cons b bs ih =>
    unfold place at h
    split at h <;> grind

theorem increasing_place [Std.TransOrd α] (a : α) {bs : List α}
    (h : bs.Pairwise fun a b => compare a b = .lt) :
    (place a bs).Pairwise fun a b => compare a b = .lt := by
  induction bs with
  | nil => simp [place]
  | cons b bs ih =>
    rw [List.pairwise_cons] at h
    unfold place
    split
    · rename_i hab
      refine List.pairwise_cons.2 ⟨fun x hx => ?_, List.pairwise_cons.2 h⟩
      rcases List.mem_cons.1 hx with rfl | hx
      · exact hab
      · exact Std.TransCmp.lt_trans hab (h.1 x hx)
    · exact List.pairwise_cons.2 h
    · rename_i hab
      refine List.pairwise_cons.2 ⟨fun x hx => ?_, ih h.2⟩
      rcases mem_of_mem_place hx with rfl | hx
      · exact Std.OrientedCmp.gt_iff_lt.1 hab
      · exact h.1 x hx

def insert [Std.TransOrd α] (s : OrderedSet α) (a : α) : OrderedSet α :=
  ⟨place a s.toList, increasing_place a s.increasing⟩

def insertAll [Std.TransOrd α] (s : OrderedSet α) (as : List α) : OrderedSet α :=
  as.foldl insert s

def ofList [Std.TransOrd α] (as : List α) : OrderedSet α := empty.insertAll as

def union [Std.TransOrd α] (s t : OrderedSet α) : OrderedSet α := s.insertAll t.toList

def filter (p : α → Bool) (s : OrderedSet α) : OrderedSet α :=
  ⟨s.toList.filter p, s.increasing.filter p⟩

def takeLeast : OrderedSet α → Option (α × OrderedSet α)
  | ⟨[], _⟩ => none
  | ⟨a :: as, h⟩ => some (a, ⟨as, (List.pairwise_cons.1 h).2⟩)

theorem mem_place [Std.LawfulEqOrd α] {a x : α} {bs : List α} :
    x ∈ place a bs ↔ x = a ∨ x ∈ bs := by
  refine ⟨mem_of_mem_place, ?_⟩
  induction bs with
  | nil => simp [place]
  | cons b bs ih =>
    unfold place
    split
    · simp
    · rename_i hab
      have := Std.LawfulEqCmp.eq_of_compare hab
      grind
    · grind

@[simp]
theorem not_mem_empty (a : α) : ¬ a ∈ (empty : OrderedSet α) := List.not_mem_nil

@[simp]
theorem mem_insert [Std.TransOrd α] [Std.LawfulEqOrd α] {a x : α} {s : OrderedSet α} :
    x ∈ s.insert a ↔ x = a ∨ x ∈ s := mem_place

@[simp]
theorem mem_insertAll [Std.TransOrd α] [Std.LawfulEqOrd α] {x : α} {s : OrderedSet α}
    {as : List α} :
    x ∈ s.insertAll as ↔ x ∈ as ∨ x ∈ s := by
  induction as generalizing s with
  | nil => simp [insertAll]
  | cons a as ih =>
    have h : x ∈ s.insertAll (a :: as) ↔ x ∈ (s.insert a).insertAll as := Iff.rfl
    rw [h, ih, mem_insert]
    grind

@[simp]
theorem mem_ofList [Std.TransOrd α] [Std.LawfulEqOrd α] {x : α} {as : List α} :
    x ∈ ofList as ↔ x ∈ as := by simp [ofList]

@[simp]
theorem mem_union [Std.TransOrd α] [Std.LawfulEqOrd α] {x : α} {s t : OrderedSet α} :
    x ∈ s.union t ↔ x ∈ t ∨ x ∈ s := mem_insertAll

@[simp]
theorem mem_filter {x : α} {p : α → Bool} {s : OrderedSet α} :
    x ∈ s.filter p ↔ x ∈ s ∧ p x = true := List.mem_filter

theorem nodup [Std.LawfulEqOrd α] (s : OrderedSet α) : s.toList.Nodup := by
  refine s.increasing.imp ?_
  rintro a _ h rfl
  simp at h

theorem eq_of_mem_iff [Std.TransOrd α] [Std.LawfulEqOrd α] {s t : OrderedSet α}
    (h : ∀ a, a ∈ s ↔ a ∈ t) : s = t := by
  apply ext
  refine List.Perm.eq_of_pairwise (fun a b _ _ hab hba => ?_) s.increasing t.increasing
    ((List.perm_ext_iff_of_nodup s.nodup t.nodup).2 h)
  rw [Std.OrientedCmp.gt_of_lt hab] at hba
  cases hba

theorem perm_ofList [Std.TransOrd α] [Std.LawfulEqOrd α] {as : List α} (h : as.Nodup) :
    (ofList as).toList.Perm as :=
  (List.perm_ext_iff_of_nodup (nodup _) h).2 fun _ => mem_ofList

instance [Std.TransOrd α] : Std.TransOrd (OrderedSet α) where
  eq_swap {s t} := @Std.OrientedCmp.eq_swap (List α) compare _ s.toList t.toList
  isLE_trans {s t u} := @Std.TransCmp.isLE_trans (List α) compare _ s.toList t.toList u.toList

instance [Std.LawfulEqOrd α] : Std.LawfulEqOrd (OrderedSet α) where
  compare_self {s} := @Std.ReflCmp.compare_self (List α) compare _ s.toList
  eq_of_compare {s t} h :=
    ext (@Std.LawfulEqCmp.eq_of_compare (List α) compare _ s.toList t.toList h)

end OrderedSet

end TemporalCheck
