import Mathlib.Data.List.TakeWhile
import Mathlib.Tactic.Common
import TemporalCheck.Grammar.Precedence

namespace TemporalCheck.Grammar

namespace Parser

variable {α β : Type} {p q : Parser α} {f : α → Parser β} {cs mid rest : List Char} {a : α}
  {b : β} {s : String}

/-- The parser takes `a` from the beginning of `cs` and leaves `rest`, wherever in a text that
is. -/
def Reads (p : Parser α) (cs : List Char) (a : α) (rest : List Char) : Prop :=
  ∀ offset, ∃ offset', (p ⟨offset, cs⟩).result = some (a, ⟨offset', rest⟩)

def Refuses (p : Parser α) (cs : List Char) : Prop := ∀ offset, (p ⟨offset, cs⟩).result = none

theorem reads_pure (a : α) (cs : List Char) : Reads (pure a) cs a cs := fun offset => ⟨offset, rfl⟩

theorem result_bind (c : Cursor) : ((p >>= f) c).result = (p c).result.bind fun r =>
    (f r.1 r.2).result := by
  change (Parser.bind p f c).result = _
  rw [Parser.bind]
  split
  · rename_i h
    simp [h]
  · rename_i h
    simp [h]

theorem result_orElse (c : Cursor) : ((p <|> q) c).result = (p c).result.or (q c).result := by
  change (Parser.orElse p q c).result = _
  rw [Parser.orElse]
  split
  · rename_i h
    simp [h]
  · rename_i h
    simp [h]

theorem Reads.bind (hp : Reads p cs a mid) (hf : Reads (f a) mid b rest) :
    Reads (p >>= f) cs b rest := by
  intro offset
  obtain ⟨offset', ha⟩ := hp offset
  obtain ⟨offset'', hb⟩ := hf offset'
  exact ⟨offset'', by rw [result_bind, ha]; exact hb⟩

theorem Reads.bind_refuses (hp : Reads p cs a mid) (hf : Refuses (f a) mid) :
    Refuses (p >>= f) cs := by
  intro offset
  obtain ⟨offset', ha⟩ := hp offset
  rw [result_bind, ha]
  exact hf offset'

theorem Refuses.bind (hp : Refuses p cs) : Refuses (p >>= f) cs := by
  intro offset
  rw [result_bind, hp offset]
  rfl

theorem Reads.orElse (hp : Reads p cs a rest) : Reads (p <|> q) cs a rest := by
  intro offset
  obtain ⟨offset', ha⟩ := hp offset
  exact ⟨offset', by rw [result_orElse, ha]; rfl⟩

theorem Refuses.orElse_reads (hp : Refuses p cs) (hq : Reads q cs a rest) :
    Reads (p <|> q) cs a rest := by
  intro offset
  obtain ⟨offset', ha⟩ := hq offset
  exact ⟨offset', by rw [result_orElse, hp offset, ha]; rfl⟩

theorem Refuses.orElse (hp : Refuses p cs) (hq : Refuses q cs) : Refuses (p <|> q) cs := by
  intro offset
  rw [result_orElse, hp offset, hq offset]
  rfl

theorem Refuses.orElse_bind (hp : Refuses (p >>= f) cs) (hq : Refuses (q >>= f) cs) :
    Refuses ((p <|> q) >>= f) cs := by
  intro offset
  have hpf := hp offset
  have hqf := hq offset
  rw [result_bind] at hpf hqf ⊢
  rw [result_orElse]
  cases hread : (p ⟨offset, cs⟩).result with
  | none => exact hqf
  | some r =>
      rw [hread] at hpf
      exact hpf

theorem Reads.parse_eq_ok {t : String} (h : Reads p t.toList a []) : p.parse t = .ok a := by
  obtain ⟨offset, hread⟩ := h 0
  simp only [Parser.parse, hread]

theorem afterWord?_eq_some {ws : List Char} : afterWord? ws cs = some rest ↔ cs = ws ++ rest := by
  induction ws generalizing cs with
  | nil => simp [afterWord?]
  | cons w ws ih =>
      cases cs with
      | nil => simp [afterWord?]
      | cons c cs =>
          rw [afterWord?]
          split
          · rename_i h
            simp [ih, h]
          · rename_i h
            simp [Ne.symm h]

theorem reads_symbol (s : String) (rest : List Char) :
    Reads (symbol s) (s.toList ++ rest) () rest := by
  intro offset
  have h := afterWord?_eq_some.2 (rfl : s.toList ++ rest = s.toList ++ rest)
  exact ⟨offset + s.toList.length, by simp [symbol, h]⟩

theorem refuses_symbol (h : ∀ rest, cs ≠ s.toList ++ rest) : Refuses (symbol s) cs := by
  intro offset
  cases hafter : afterWord? s.toList cs with
  | none => simp [symbol, hafter]
  | some rest => exact absurd (afterWord?_eq_some.1 hafter) (h rest)

theorem reads_blanks (cs : List Char) : Reads blanks cs () (cs.dropWhile isBlank) :=
  fun _ => ⟨_, rfl⟩

theorem dropWhile_spaced {c : Char} (hc : isBlank c = false) (cs : List Char) :
    (' ' :: c :: cs).dropWhile isBlank = c :: cs :=
  (List.dropWhile_cons_of_pos rfl).trans (List.dropWhile_cons_of_neg (by simp [hc]))

theorem reads_notBefore (h : Refuses p cs) : Reads (notBefore p) cs () cs := by
  intro offset
  exact ⟨offset, by simp only [notBefore, h offset]⟩

theorem refuses_notBefore (h : Reads p cs a rest) : Refuses (notBefore p) cs := by
  intro offset
  obtain ⟨offset', ha⟩ := h offset
  simp only [notBefore, ha]

theorem result_notBefore {u : Unit} {c c' : Cursor} (h : (notBefore p c).result = some (u, c')) :
    (p c).result = none ∧ c' = c := by
  rw [notBefore] at h
  split at h
  · cases h
  · rename_i hnone
    cases h
    exact ⟨hnone, rfl⟩

theorem result_optional (c : Cursor) :
    (optional p c).result = some ((p c).result.elim (none, c) fun r => (some r.1, r.2)) := by
  rw [optional]
  split
  · rename_i h
    simp [h]
  · rename_i h
    simp [h]

theorem reads_optional_some (h : Reads p cs a rest) : Reads (optional p) cs (some a) rest := by
  intro offset
  obtain ⟨offset', ha⟩ := h offset
  exact ⟨offset', by rw [result_optional, ha]; rfl⟩

theorem reads_optional_none (h : Refuses p cs) : Reads (optional p) cs none cs := by
  intro offset
  exact ⟨offset, by rw [result_optional, h offset]; rfl⟩

theorem reads_convert {g : α → Option β} (h : g a = some b) (cs : List Char) :
    Reads (convert s g a) cs b cs := by
  rw [convert, h]
  exact reads_pure b cs

section

variable {k : Char → Bool} {word : List Char}

theorem takeWhile_append_of_head (hword : ∀ c ∈ word, k c = true)
    (hrest : ∀ c ∈ rest.head?, k c = false) :
    (word ++ rest).takeWhile k = word ∧ (word ++ rest).dropWhile k = rest := by
  rw [List.takeWhile_append_of_pos hword, List.dropWhile_append_of_pos hword]
  cases rest with
  | nil => simp
  | cons c rest => simp [hrest c rfl]

theorem reads_oneOf {c : Char} (h : k c = true) : Reads (oneOf s k) (c :: rest) c rest := by
  intro offset
  exact ⟨offset + 1, by simp [oneOf, h]⟩

theorem refuses_oneOf (h : ∀ c ∈ cs.head?, k c = false) : Refuses (oneOf s k) cs := by
  intro offset
  cases cs with
  | nil => rfl
  | cons c cs => simp [oneOf, h c rfl]

theorem result_oneOf {x : Char} {c c' : Cursor} (h : (oneOf s k c).result = some (x, c')) :
    c.rest = x :: c'.rest ∧ k x = true := by
  rw [oneOf] at h
  split at h
  · rename_i hrest
    split at h
    · rename_i hk
      cases h
      exact ⟨hrest, hk⟩
    · cases h
  · cases h

theorem result_manyOf {c c' : Cursor} (h : (manyOf s k c).result = some (word, c')) :
    c.rest.takeWhile k = word := by
  cases h
  rfl

theorem reads_manyOf (hword : ∀ c ∈ word, k c = true) (hrest : ∀ c ∈ rest.head?, k c = false) :
    Reads (manyOf s k) (word ++ rest) word rest := by
  intro offset
  obtain ⟨htake, hdrop⟩ := takeWhile_append_of_head hword hrest
  exact ⟨offset + word.length, by simp [manyOf, htake, hdrop]⟩

/-- A word is not found where another one stands, be it longer. -/
theorem refuses_symbol_of_takeWhile {w : String} (hw : ∀ c ∈ w.toList, k c = true)
    (h : cs.takeWhile k ≠ w.toList) : Refuses (symbol w >>= fun _ => notBefore (oneOf s k)) cs := by
  by_cases hafter : ∃ rest, cs = w.toList ++ rest
  · obtain ⟨rest, rfl⟩ := hafter
    apply (reads_symbol w rest).bind_refuses
    cases rest with
    | nil => exact absurd (takeWhile_append_of_head hw (by simp)).1 h
    | cons c rest =>
        by_cases hc : k c = true
        · exact refuses_notBefore (reads_oneOf hc)
        · refine absurd (takeWhile_append_of_head hw fun d hd => ?_).1 h
          cases hd
          simpa using hc
  · push Not at hafter
    exact (refuses_symbol hafter).bind

end

def Opens (heads : List Char) (p : Parser α) : Prop :=
  ∀ cs, (∀ c ∈ cs.head?, c ∉ heads) → Refuses p cs

theorem opens_symbol (head : Char) {tail : List Char} (h : s.toList = head :: tail) :
    Opens [head] (symbol s) := by
  intro cs hcs
  refine refuses_symbol fun rest heq => ?_
  rw [heq, h] at hcs
  simp at hcs

theorem Opens.mono {heads heads' : List Char} (h : Opens heads p) (hsub : heads ⊆ heads') :
    Opens heads' p :=
  fun cs hcs => h cs fun c hc hmem => hcs c hc (hsub hmem)

/-- A class that holds of what the parser starts with, and not of what the text starts with, tells
them apart. -/
theorem Opens.refuses {heads : List Char} (h : Opens heads p) {k : Char → Bool}
    (hheads : heads.all k = true) (hcs : ∀ c ∈ cs.head?, k c = false) : Refuses p cs := by
  apply h cs
  intro c hc hmem
  have hk := hcs c hc
  rw [List.all_eq_true.1 hheads c hmem] at hk
  cases hk

theorem Opens.bind {heads : List Char} (h : Opens heads p) : Opens heads (p >>= f) :=
  fun cs hcs => (h cs hcs).bind

theorem Opens.orElse {heads heads' : List Char} (hp : Opens heads p) (hq : Opens heads' q) :
    Opens (heads ++ heads') (p <|> q) := by
  intro cs hcs
  refine (hp cs fun c hc hmem => hcs c hc ?_).orElse (hq cs fun c hc hmem => hcs c hc ?_)
  · exact List.mem_append_left _ hmem
  · exact List.mem_append_right _ hmem

def Yields (P : α → Prop) (p : Parser α) : Prop := ∀ c a c', (p c).result = some (a, c') → P a

section

variable {P : α → Prop} {Q : β → Prop}

theorem yields_pure (h : P a) : Yields P (pure a) := by
  intro c a' c' hread
  cases hread
  exact h

theorem yields_true (p : Parser α) : Yields (fun _ => True) p := fun _ _ _ _ => trivial

theorem Yields.bind (hp : Yields P p) (hf : ∀ a, P a → Yields Q (f a)) : Yields Q (p >>= f) := by
  intro c b c' hread
  rw [result_bind, Option.bind_eq_some_iff] at hread
  obtain ⟨⟨a, mid⟩, ha, hb⟩ := hread
  exact hf a (hp c a mid ha) mid b c' hb

theorem yields_after (hf : ∀ a, Yields Q (f a)) : Yields Q (p >>= f) :=
  (yields_true p).bind fun a _ => hf a

theorem Yields.orElse (hp : Yields P p) (hq : Yields P q) : Yields P (p <|> q) := by
  intro c a c' hread
  rw [result_orElse, Option.or_eq_some_iff] at hread
  rcases hread with ha | ⟨-, ha⟩
  · exact hp c a c' ha
  · exact hq c a c' ha

theorem Yields.of_parse {t : String} (hp : Yields P p) (h : p.parse t = .ok a) : P a := by
  simp only [Parser.parse] at h
  split at h
  · rename_i hread
    cases h
    exact hp _ _ _ hread
  · cases h
  · cases h

theorem yields_fail : Yields P fail := by
  intro c a c' hread
  cases hread

end

end Parser

namespace Precedence

open TemporalCheck.Grammar.Parser

variable {α : Type} {g : Precedence α} {expr : Nat → Parser α} {bs before after : List (Binary α)}
  {b : Binary α} {left right value : α} {least depth n : Nat} {cs mid rest : List Char}

theorem refuses_continuation (h : ∀ b ∈ bs, least ≤ b.level → Refuses b.token cs) :
    Refuses (continuation expr least left bs) cs := by
  induction bs with
  | nil => exact fun _ => rfl
  | cons b bs ih =>
      rw [List.forall_mem_cons] at h
      rw [continuation]
      split
      · rename_i hlevel
        exact (h.1 hlevel).bind.orElse (ih h.2)
      · exact ih h.2

/-- The first operator whose tokens are found continues the expression. -/
theorem reads_continuation (hbefore : ∀ b ∈ before, Refuses b.token cs) (hlevel : least ≤ b.level)
    (htoken : Reads b.token cs () mid) (hright : Reads (expr b.rightLevel) mid right rest) :
    Reads (continuation expr least left (before ++ b :: after)) cs (b.build left right) rest := by
  induction before with
  | nil =>
      rw [List.nil_append, continuation, if_pos hlevel]
      refine (htoken.bind (hright.bind ?_)).orElse
      exact reads_pure (b.build left right) rest
  | cons b' before ih =>
      rw [List.forall_mem_cons] at hbefore
      rw [List.cons_append, continuation]
      split
      · exact hbefore.1.bind.orElse_reads (ih hbefore.2)
      · exact ih hbefore.2

theorem reads_extend_of_refuses (h : Refuses (continuation expr least left bs) cs) :
    Reads (extend expr bs least n left) cs left cs := by
  cases n with
  | zero => exact reads_pure left cs
  | succ n => exact h.bind.orElse_reads (reads_pure left cs)

theorem reads_extend_succ (h : Reads (continuation expr least left bs) cs right mid)
    (hmore : Reads (extend expr bs least n right) mid value rest) :
    Reads (extend expr bs least (n + 1) left) cs value rest := (h.bind hmore).orElse

theorem reads_extend_once (hn : 0 < n) (h : Reads (continuation expr least left bs) cs value rest)
    (hstop : ∀ b ∈ bs, least ≤ b.level → Refuses b.token rest) :
    Reads (extend expr bs least n left) cs value rest := by
  obtain ⟨n, rfl⟩ := Nat.exists_eq_succ_of_ne_zero hn.ne'
  exact reads_extend_succ h (reads_extend_of_refuses (refuses_continuation hstop))

theorem reads_expression (hoperand : Reads (g.operand (g.expression depth)) cs left mid)
    (hmore : Reads (extend (g.expression depth) g.binaries least cs.length left) mid value rest) :
    Reads (g.expression (depth + 1) least) cs value rest := hoperand.bind hmore

/-- An operand is a whole expression where no operator of the level follows. -/
theorem reads_expression_of_operand (h : Reads (g.operand (g.expression depth)) cs value rest)
    (hstop : ∀ b ∈ g.binaries, least ≤ b.level → Refuses b.token rest) :
    Reads (g.expression (depth + 1) least) cs value rest :=
  reads_expression h (reads_extend_of_refuses (refuses_continuation hstop))

theorem parser_reads (h : Reads (g.expression (cs.length + 1) 0) cs value rest) :
    Reads g.parser cs value rest :=
  fun offset => h offset

variable {P : α → Prop}

theorem yields_continuation (hexpr : ∀ level, Yields P (expr level))
    (hbuild : ∀ b ∈ bs, ∀ x y, P x → P y → P (b.build x y)) (hleft : P left) :
    Yields P (continuation expr least left bs) := by
  induction bs with
  | nil => exact yields_fail
  | cons b bs ih =>
      rw [List.forall_mem_cons] at hbuild
      rw [continuation]
      split
      · refine Yields.orElse (yields_after fun _ => (hexpr _).bind fun right hright => ?_)
          (ih hbuild.2)
        exact yields_pure (hbuild.1 left right hleft hright)
      · exact ih hbuild.2

theorem yields_extend (hexpr : ∀ level, Yields P (expr level))
    (hbuild : ∀ b ∈ bs, ∀ x y, P x → P y → P (b.build x y)) (hleft : P left) :
    Yields P (extend expr bs least n left) := by
  induction n generalizing left with
  | zero => exact yields_pure hleft
  | succ n ih =>
      refine Yields.orElse ?_ (yields_pure hleft)
      exact (yields_continuation hexpr hbuild hleft).bind fun value hvalue => ih hvalue

/-- What holds of operands and is kept by the operators holds of all that is read. -/
theorem yields_expression
    (hoperand : ∀ expr, (∀ level, Yields P (expr level)) → Yields P (g.operand expr))
    (hbuild : ∀ b ∈ g.binaries, ∀ x y, P x → P y → P (b.build x y)) (depth least : Nat) :
    Yields P (g.expression depth least) := by
  induction depth generalizing least with
  | zero => exact yields_fail
  | succ depth ih =>
      intro c
      exact ((hoperand _ ih).bind fun left hleft => yields_extend ih hbuild hleft) c

end Precedence

end TemporalCheck.Grammar
