import TemporalCheck.OrderedSet

namespace TemporalCheck

inductive Formula where
  | prop (name : String)
  | neg (f : Formula)
  | next (f : Formula)
  | conj (members : List Formula)
  | disj (members : List Formula)
  | until (l r : Formula)
  | release (l r : Formula)
  | top
  | bot

namespace Formula

instance : Inhabited Formula := ⟨top⟩

def rank : Formula → Nat
  | prop _ => 0
  | neg _ => 1
  | next _ => 2
  | conj _ => 3
  | disj _ => 4
  | .until _ _ => 5
  | release _ _ => 6
  | top => 7
  | bot => 8

mutual

/-- By outermost operator, then part by part; a proper prefix of a member list comes first. -/
protected def compare : Formula → Formula → Ordering
  | prop p, prop q => Ord.compare p q
  | neg f, neg g => f.compare g
  | next f, next g => f.compare g
  | conj fs, conj gs => compareMembers fs gs
  | disj fs, disj gs => compareMembers fs gs
  | .until l r, .until l' r' => (l.compare l').then (r.compare r')
  | release l r, release l' r' => (l.compare l').then (r.compare r')
  | f, g => Ord.compare f.rank g.rank

def compareMembers : List Formula → List Formula → Ordering
  | [], [] => .eq
  | [], _ :: _ => .lt
  | _ :: _, [] => .gt
  | f :: fs, g :: gs => (f.compare g).then (compareMembers fs gs)

end

instance : Ord Formula := ⟨Formula.compare⟩

theorem compare_of_rank_ne {f g : Formula} (h : f.rank ≠ g.rank) :
    f.compare g = Ord.compare f.rank g.rank := by
  cases f <;> cases g <;> first | rfl | exact absurd rfl h

theorem compare_of_rank_lt {f g : Formula} (h : f.rank < g.rank) : f.compare g = .lt := by
  rw [compare_of_rank_ne (by omega)]
  exact Nat.compare_eq_lt.2 h

theorem rank_le_of_isLE {f g : Formula} (h : (f.compare g).isLE) : f.rank ≤ g.rank := by
  by_cases hr : f.rank = g.rank
  · omega
  · rw [compare_of_rank_ne hr] at h
    exact Nat.isLE_compare.1 h

mutual

theorem compare_swap (f g : Formula) : f.compare g = (g.compare f).swap := by
  by_cases hr : f.rank = g.rank
  · cases f <;> cases g <;> simp [rank] at hr
    case prop.prop p q => exact @Std.OrientedCmp.eq_swap String Ord.compare _ p q
    case neg.neg f g => exact compare_swap f g
    case next.next f g => exact compare_swap f g
    case conj.conj fs gs => exact compareMembers_swap fs gs
    case disj.disj fs gs => exact compareMembers_swap fs gs
    case until.until l r l' r' =>
      simp only [Formula.compare]
      rw [compare_swap l l', compare_swap r r', Ordering.swap_then]
    case release.release l r l' r' =>
      simp only [Formula.compare]
      rw [compare_swap l l', compare_swap r r', Ordering.swap_then]
    case top.top => rfl
    case bot.bot => rfl
  · rw [compare_of_rank_ne hr, compare_of_rank_ne (Ne.symm hr)]
    exact Std.OrientedCmp.eq_swap

theorem compareMembers_swap (fs gs : List Formula) :
    compareMembers fs gs = (compareMembers gs fs).swap := by
  cases fs <;> cases gs
  case nil.nil => rfl
  case nil.cons => rfl
  case cons.nil => rfl
  case cons.cons f fs g gs =>
    simp only [compareMembers]
    rw [compare_swap f g, compareMembers_swap fs gs, Ordering.swap_then]

end

mutual

theorem eq_of_compare_eq {f g : Formula} (h : f.compare g = .eq) : f = g := by
  by_cases hr : f.rank = g.rank
  · cases f <;> cases g <;> simp [rank] at hr
    case prop.prop p q => exact congrArg prop (Std.LawfulEqCmp.eq_of_compare h)
    case neg.neg f g => exact congrArg neg (eq_of_compare_eq h)
    case next.next f g => exact congrArg next (eq_of_compare_eq h)
    case conj.conj fs gs => exact congrArg conj (eq_of_compareMembers_eq h)
    case disj.disj fs gs => exact congrArg disj (eq_of_compareMembers_eq h)
    case until.until l r l' r' =>
      obtain ⟨hl, hr⟩ := Ordering.then_eq_eq.1 h
      rw [eq_of_compare_eq hl, eq_of_compare_eq hr]
    case release.release l r l' r' =>
      obtain ⟨hl, hr⟩ := Ordering.then_eq_eq.1 h
      rw [eq_of_compare_eq hl, eq_of_compare_eq hr]
    case top.top => rfl
    case bot.bot => rfl
  · rw [compare_of_rank_ne hr] at h
    exact absurd (Nat.compare_eq_eq.1 h) hr

theorem eq_of_compareMembers_eq {fs gs : List Formula} (h : compareMembers fs gs = .eq) :
    fs = gs := by
  cases fs <;> cases gs
  case nil.nil => rfl
  case nil.cons => exact nomatch (show Ordering.lt = .eq from h)
  case cons.nil => exact nomatch (show Ordering.gt = .eq from h)
  case cons.cons f fs g gs =>
    obtain ⟨hf, hfs⟩ := Ordering.then_eq_eq.1 h
    rw [eq_of_compare_eq hf, eq_of_compareMembers_eq hfs]

end

theorem compare_refl (f : Formula) : f.compare f = .eq := by
  have h := compare_swap f f
  revert h
  cases f.compare f <;> decide

/-- In a lexicographic comparison the later parts count only where the first parts agree. -/
theorem isLE_then_trans {f g h : Formula} {a b c : Ordering}
    (first : (f.compare g).isLE → (g.compare h).isLE → (f.compare h).isLE)
    (rest : a.isLE → b.isLE → c.isLE)
    (hfg : ((f.compare g).then a).isLE) (hgh : ((g.compare h).then b).isLE) :
    ((f.compare h).then c).isLE := by
  cases efg : f.compare g with
  | gt => simp [efg] at hfg
  | eq =>
    obtain rfl := eq_of_compare_eq efg
    cases egh : f.compare h with
    | lt => rfl
    | eq => exact rest (by simpa [efg] using hfg) (by simpa [egh] using hgh)
    | gt => simp [egh] at hgh
  | lt =>
    cases efh : f.compare h with
    | lt => rfl
    | eq =>
      obtain rfl := eq_of_compare_eq efh
      rw [compare_swap g f, efg] at hgh
      simp at hgh
    | gt =>
      cases egh : g.compare h with
      | gt => simp [egh] at hgh
      | lt => simp [efg, egh, efh] at first
      | eq => simp [efg, egh, efh] at first

mutual

theorem compare_trans (f g h : Formula) (hfg : (f.compare g).isLE) (hgh : (g.compare h).isLE) :
    (f.compare h).isLE := by
  have hf := rank_le_of_isLE hfg
  have hg := rank_le_of_isLE hgh
  by_cases hr : f.rank = g.rank
  · by_cases hr' : g.rank = h.rank
    · cases f <;> cases g <;> simp [rank] at hr <;> cases h <;> simp [rank] at hr'
      case prop.prop.prop p q r => exact @Std.TransCmp.isLE_trans String Ord.compare _ p q r hfg hgh
      case neg.neg.neg f g h => exact compare_trans f g h hfg hgh
      case next.next.next f g h => exact compare_trans f g h hfg hgh
      case conj.conj.conj fs gs hs => exact compareMembers_trans fs gs hs hfg hgh
      case disj.disj.disj fs gs hs => exact compareMembers_trans fs gs hs hfg hgh
      case until.until.until l r l' r' l'' r'' =>
        exact isLE_then_trans (compare_trans l l' l'') (compare_trans r r' r'') hfg hgh
      case release.release.release l r l' r' l'' r'' =>
        exact isLE_then_trans (compare_trans l l' l'') (compare_trans r r' r'') hfg hgh
      case top.top.top => rfl
      case bot.bot.bot => rfl
    · rw [compare_of_rank_lt (by omega)]
      rfl
  · rw [compare_of_rank_lt (by omega)]
    rfl

theorem compareMembers_trans (fs gs hs : List Formula) (hfg : (compareMembers fs gs).isLE)
    (hgh : (compareMembers gs hs).isLE) : (compareMembers fs hs).isLE := by
  cases fs <;> cases hs
  case nil.nil => rfl
  case nil.cons => rfl
  case cons.nil f fs => cases gs <;> contradiction
  case cons.cons f fs h hs =>
    cases gs
    case nil => contradiction
    case cons g gs =>
      exact isLE_then_trans (compare_trans f g h) (compareMembers_trans fs gs hs) hfg hgh

end

instance : Std.TransOrd Formula where
  eq_swap := compare_swap _ _
  isLE_trans := compare_trans _ _ _

instance : Std.LawfulEqOrd Formula where
  compare_self := compare_refl _
  eq_of_compare := eq_of_compare_eq

instance : DecidableEq Formula := fun f g =>
  if h : f.compare g = .eq then isTrue (eq_of_compare_eq h)
  else isFalse fun e => h (e ▸ compare_refl f)

end Formula

end TemporalCheck
