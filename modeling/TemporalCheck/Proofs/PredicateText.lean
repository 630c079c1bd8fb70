import TemporalCheck.Model.Parser
import TemporalCheck.Proofs.Grammar

namespace TemporalCheck

namespace Predicate

open Grammar Grammar.Parser Grammar.Precedence

variable {p q : Predicate} {x y : Term} {cs mid rest word : List Char} {w : String}

def Stops (rest : List Char) : Prop := ∀ c ∈ rest.head?, isNameChar c = false

def constantWord (lower upper : String) : Parser Unit := do
  symbol lower <|> symbol upper
  endOfWord

def trueWords : List String := ["true", "TRUE"]

def falseWords : List String := ["false", "FALSE"]

theorem reads_constantWord {lower upper : String}
    (hupper : ∀ rest, Refuses (symbol lower) (upper.toList ++ rest)) (hw : w ∈ [lower, upper])
    (h : Stops rest) : Reads (constantWord lower upper) (w.toList ++ rest) () rest := by
  refine Reads.bind (a := ()) ?_ (reads_notBefore (refuses_oneOf h))
  simp only [List.mem_cons, List.not_mem_nil, or_false] at hw
  rcases hw with rfl | rfl
  · exact (reads_symbol w rest).orElse
  · exact (hupper rest).orElse_reads (reads_symbol w rest)

theorem refuses_constantWord {lower upper : String} (hlower : lower.toList.all isNameChar = true)
    (hupper : upper.toList.all isNameChar = true)
    (h : String.ofList (cs.takeWhile isNameChar) ∉ [lower, upper]) :
    Refuses (constantWord lower upper) cs := by
  have hword : ∀ w ∈ [lower, upper], cs.takeWhile isNameChar ≠ w.toList := by
    intro w hw heq
    rw [heq, String.ofList_toList] at h
    exact h hw
  apply Refuses.orElse_bind
  · exact refuses_symbol_of_takeWhile (List.all_eq_true.1 hlower) (hword lower (by simp))
  · exact refuses_symbol_of_takeWhile (List.all_eq_true.1 hupper) (hword upper (by simp))

theorem reads_trueWord (hw : w ∈ trueWords) (h : Stops rest) :
    Reads trueWord (w.toList ++ rest) () rest :=
  reads_constantWord (fun _ => opens_symbol 't' rfl _ (by simp)) hw h

theorem reads_falseWord (hw : w ∈ falseWords) (h : Stops rest) :
    Reads falseWord (w.toList ++ rest) () rest :=
  reads_constantWord (fun _ => opens_symbol 'f' rfl _ (by simp)) hw h

theorem refuses_trueWord (h : String.ofList (cs.takeWhile isNameChar) ∉ trueWords) :
    Refuses trueWord cs :=
  refuses_constantWord rfl rfl h

theorem refuses_falseWord (h : String.ofList (cs.takeWhile isNameChar) ∉ falseWords) :
    Refuses falseWord cs :=
  refuses_constantWord rfl rfl h

theorem opens_trueWord : Opens ['t', 'T'] trueWord :=
  ((opens_symbol 't' rfl).orElse (opens_symbol 'T' rfl)).bind

theorem opens_falseWord : Opens ['f', 'F'] falseWord :=
  ((opens_symbol 'f' rfl).orElse (opens_symbol 'F' rfl)).bind

structure Named (word : List Char) : Prop where
  letter : word.head?.any isLetter = true
  chars : ∀ c ∈ word, isNameChar c = true
  ne_true : String.ofList word ∉ trueWords
  ne_false : String.ofList word ∉ falseWords

theorem Named.head (h : Named word) : ∃ c tail, word = c :: tail ∧ isLetter c = true := by
  cases word with
  | nil => cases h.letter
  | cons c tail => exact ⟨c, tail, rfl, h.letter⟩

theorem Named.refuses_constants (h : Named word) (hrest : Stops rest) :
    Refuses trueWord (word ++ rest) ∧ Refuses falseWord (word ++ rest) := by
  have htake := (takeWhile_append_of_head h.chars hrest).1
  exact ⟨refuses_trueWord (by rw [htake]; exact h.ne_true),
    refuses_falseWord (by rw [htake]; exact h.ne_false)⟩

theorem reads_name (h : Named word) (hrest : Stops rest) :
    Reads name (word ++ rest) (String.ofList word) rest := by
  obtain ⟨htrue, hfalse⟩ := h.refuses_constants hrest
  obtain ⟨c, tail, rfl, hletter⟩ := h.head
  have htail : ∀ d ∈ tail, isNameChar d = true := fun d hd => h.chars d (List.mem_cons_of_mem c hd)
  apply Reads.orElse
  apply (reads_notBefore (htrue.orElse hfalse)).bind
  apply (reads_oneOf hletter).bind
  exact (reads_manyOf htail hrest).bind (reads_pure _ rest)

theorem stops_dropWhile (cs : List Char) : Stops (cs.dropWhile isNameChar) := by
  intro c hc
  have hhead := List.head?_dropWhile_not isNameChar cs
  rw [hc] at hhead
  simpa using hhead

theorem named_takeWhile {offset : Nat}
    (hletter : (cs.takeWhile isNameChar).head?.any isLetter = true)
    (hconstant : ((trueWord <|> falseWord) ⟨offset, cs⟩).result = none) :
    Named (cs.takeWhile isNameChar) := by
  have hsplit := List.takeWhile_append_dropWhile (p := isNameChar) (l := cs)
  rw [result_orElse, Option.or_eq_none_iff] at hconstant
  refine ⟨hletter, fun c => List.mem_takeWhile_imp, ?_, ?_⟩
  · intro hmem
    obtain ⟨offset', hread⟩ := reads_trueWord hmem (stops_dropWhile cs) offset
    rw [String.toList_ofList, hsplit, hconstant.1] at hread
    cases hread
  · intro hmem
    obtain ⟨offset', hread⟩ := reads_falseWord hmem (stops_dropWhile cs) offset
    rw [String.toList_ofList, hsplit, hconstant.2] at hread
    cases hread

/-- A word that is no constant and starts with a letter is taken as far as it goes. -/
theorem yields_name : Yields (fun n => Named n.toList) name := by
  refine Yields.orElse ?_ fun c n c' hread => by cases hread
  rintro ⟨offset, cs⟩ n c' hread
  rw [result_bind, Option.bind_eq_some_iff] at hread
  obtain ⟨⟨u, mid⟩, hnot, hread⟩ := hread
  obtain ⟨hconstant, rfl⟩ := result_notBefore hnot
  rw [result_bind, Option.bind_eq_some_iff] at hread
  obtain ⟨⟨c, mid⟩, hone, hread⟩ := hread
  obtain ⟨rfl, hletter⟩ := result_oneOf hone
  rw [result_bind, Option.bind_eq_some_iff] at hread
  obtain ⟨⟨tail, mid'⟩, htail, hread⟩ := hread
  obtain rfl := result_manyOf htail
  cases hread
  have hchar : isNameChar c = true := by simp [isNameChar, hletter]
  have htake : (c :: mid.rest).takeWhile isNameChar = c :: mid.rest.takeWhile isNameChar :=
    List.takeWhile_cons_of_pos hchar
  rw [String.toList_ofList, ← htake]
  exact named_takeWhile (by simp [htake, hletter]) hconstant

theorem foldl_toDigits (n : Nat) :
    (Nat.toDigits 10 n).foldl (fun n c => n * 10 + (c.toNat - '0'.toNat)) 0 = n := by
  have h := Nat.ofDigitChars_toDigits (b := 10) (n := n) (by decide) (by decide)
  rw [Nat.ofDigitChars_eq_foldl] at h
  simpa only [Nat.mul_comm] using h

theorem exists_toDigits (n : Nat) :
    ∃ d ds, Nat.toDigits 10 n = d :: ds ∧ isDigit d = true ∧ ∀ c ∈ ds, isDigit c = true := by
  have hdigits : ∀ c ∈ Nat.toDigits 10 n, isDigit c = true := by
    intro c hc
    have h := Nat.isDigit_of_mem_toDigits (by decide) (by decide) hc
    simpa [Char.isDigit, isDigit, Char.le_def] using h
  cases hn : Nat.toDigits 10 n with
  | nil => exact absurd hn Nat.toDigits_ne_nil
  | cons d ds =>
      rw [hn, List.forall_mem_cons] at hdigits
      exact ⟨d, ds, rfl, hdigits⟩

/-- A number is read from its digits, with the sign that stands in front of them. -/
theorem reads_toDigits {sign : Option Unit} {n : Nat} {z : Int32} (hrest : Stops rest)
    (hz : toInt32? sign.isSome (Nat.toDigits 10 n) = some z) :
    Reads (digit >>= fun d => digits >>= fun ds =>
        convert "32 bit integer" (toInt32? sign.isSome) (d :: ds))
      (Nat.toDigits 10 n ++ rest) z rest := by
  have hstop : ∀ c ∈ rest.head?, isDigit c = false := by
    intro c hc
    have hname := hrest c hc
    simp only [isNameChar, Bool.or_eq_false_iff] at hname
    exact hname.1.2
  obtain ⟨d, ds, hn, hd, hds⟩ := exists_toDigits n
  rw [hn] at hz ⊢
  apply (reads_oneOf hd).bind
  apply (reads_manyOf hds hstop).bind
  exact reads_convert hz rest

theorem toInt32?_of_nonneg {n : Int32} (h : 0 ≤ n.toInt) :
    toInt32? false (Nat.toDigits 10 n.toInt.toNat) = some n := by
  have hhigh := n.toInt_lt
  simp only [toInt32?, foldl_toDigits, Bool.false_eq_true, if_false]
  rw [if_pos (by omega), ← Int32.ofInt_eq_ofNat, Int.toNat_of_nonneg h, Int32.ofInt_toInt]

theorem toInt32?_of_neg {n : Int32} (h : n.toInt < 0) :
    toInt32? true (Nat.toDigits 10 (-n.toInt).toNat) = some n := by
  have hlow := n.le_toInt
  simp only [toInt32?, foldl_toDigits, if_true]
  rw [if_pos (by omega), Int.toNat_of_nonneg (by omega), Int.neg_neg, Int32.ofInt_toInt]

def startsNumber (c : Char) : Bool := isDigit c || c == '-'

theorem exists_head_int (n : Int32) : ∃ c tail, (toString n.toInt).toList = c :: tail ∧
    startsNumber c = true := by
  rw [Int.toString_eq_repr, Int.repr_eq_if]
  split
  · obtain ⟨d, ds, hn, hd, -⟩ := exists_toDigits n.toInt.toNat
    exact ⟨d, ds, Nat.toList_repr.trans hn, by simp [startsNumber, hd]⟩
  · exact ⟨'-', _, String.toList_append, rfl⟩

theorem reads_int (n : Int32) (hrest : Stops rest) :
    Reads int ((toString n.toInt).toList ++ rest) n rest := by
  rw [Int.toString_eq_repr, Int.repr_eq_if]
  split
  · rename_i hsign
    have hminus : Refuses (symbol "-") (Nat.toDigits 10 n.toInt.toNat ++ rest) := by
      obtain ⟨d, ds, hn, hd, -⟩ := exists_toDigits n.toInt.toNat
      apply (opens_symbol '-' rfl).refuses (k := fun c => !isDigit c) rfl
      rw [hn]
      simp [hd]
    rw [Nat.toList_repr]
    exact (reads_optional_none hminus).bind (reads_toDigits hrest (toInt32?_of_nonneg hsign))
  · rename_i hsign
    rw [String.toList_append, Nat.toList_repr, List.append_assoc]
    apply (reads_optional_some (reads_symbol "-" _)).bind
    exact reads_toDigits hrest (toInt32?_of_neg (by omega))

theorem refuses_int (h : ∀ c ∈ cs.head?, startsNumber c = false) : Refuses int cs := by
  have hdigit : ∀ c ∈ cs.head?, isDigit c = false := by
    intro c hc
    have hnumber := h c hc
    simp only [startsNumber, Bool.or_eq_false_iff] at hnumber
    exact hnumber.1
  apply (reads_optional_none ((opens_symbol '-' rfl).refuses rfl h)).bind_refuses
  exact (refuses_oneOf hdigit).bind

def startsTerm (c : Char) : Bool := isLetter c || startsNumber c

end Predicate

inductive Term.Legible : Term → Prop
  | value (v : Value) : Legible (.value v)
  | named {n : String} (hn : Predicate.Named n.toList) : Legible (.named n)

namespace Predicate

open Grammar Grammar.Parser Grammar.Precedence

variable {p q : Predicate} {x y : Term} {cs mid rest : List Char}

theorem exists_head_term (hx : x.Legible) : ∃ c tail, x.text.toList = c :: tail ∧
    startsTerm c = true := by
  cases hx with
  | value v =>
      cases v with
      | bool b => cases b <;> exact ⟨_, _, rfl, rfl⟩
      | int n =>
          obtain ⟨c, tail, hn, hc⟩ := exists_head_int n
          exact ⟨c, tail, hn, by simp [startsTerm, hc]⟩
  | named hn =>
      obtain ⟨c, tail, hname, hletter⟩ := hn.head
      exact ⟨c, tail, hname, by simp [startsTerm, hletter]⟩

theorem startsNumber_of_isLetter {c : Char} (h : isLetter c = true) : startsNumber c = false := by
  by_contra hnumber
  simp only [startsNumber, isDigit, Bool.not_eq_false, Bool.or_eq_true, Bool.and_eq_true,
    decide_eq_true_eq, beq_iff_eq] at hnumber
  simp only [isLetter, Bool.or_eq_true, Bool.and_eq_true, decide_eq_true_eq, beq_iff_eq] at h
  rcases hnumber with hdigit | rfl
  · rcases h with (h | h) | rfl
    · exact absurd (Char.le_trans h.1 hdigit.2) (by decide)
    · exact absurd (Char.le_trans h.1 hdigit.2) (by decide)
    · exact absurd hdigit.2 (by decide)
  · exact absurd h (by decide)

theorem reads_constant (v : Value) (hrest : Stops rest) :
    Reads constant (v.text.toList ++ rest) v rest := by
  cases v with
  | bool b =>
      cases b with
      | true =>
          apply Reads.orElse
          exact (reads_trueWord (w := "true") (by decide) hrest).bind (reads_pure _ rest)
      | false =>
          apply (opens_trueWord _ (by simp [Value.text])).bind.orElse_reads
          apply Reads.orElse
          exact (reads_falseWord (w := "false") (by decide) hrest).bind (reads_pure _ rest)
  | int n =>
      obtain ⟨c, tail, hn, hc⟩ := exists_head_int n
      have hhead : ∀ d ∈ ((toString n.toInt).toList ++ rest).head?, (!startsNumber d) = false := by
        rw [hn]
        simp [hc]
      apply (opens_trueWord.refuses rfl hhead).bind.orElse_reads
      apply (opens_falseWord.refuses rfl hhead).bind.orElse_reads
      exact (reads_int n hrest).bind (reads_pure _ rest)

theorem reads_term (hx : x.Legible) (hrest : Stops rest) :
    Reads term (x.text.toList ++ rest) x rest := by
  cases hx with
  | value v =>
      apply Reads.orElse
      exact (reads_constant v hrest).bind (reads_pure _ rest)
  | @named n hn =>
      obtain ⟨htrue, hfalse⟩ := hn.refuses_constants hrest
      obtain ⟨c, tail, hname, hletter⟩ := hn.head
      have hint : Refuses int (n.toList ++ rest) :=
        refuses_int (by simp [hname, startsNumber_of_isLetter hletter])
      have hread := reads_name hn hrest
      rw [String.ofList_toList] at hread
      apply (htrue.bind.orElse (hfalse.bind.orElse hint.bind)).bind.orElse_reads
      exact hread.bind (reads_pure _ rest)

theorem refuses_name (h : ∀ c ∈ cs.head?, startsTerm c = false) : Refuses name cs := by
  have hletter : ∀ c ∈ cs.head?, isLetter c = false := by
    intro c hc
    have hterm := h c hc
    simp only [startsTerm, Bool.or_eq_false_iff] at hterm
    exact hterm.1
  have hconstant := (opens_trueWord.refuses rfl h).orElse (opens_falseWord.refuses rfl h)
  apply Refuses.orElse _ fun _ => rfl
  exact (reads_notBefore hconstant).bind_refuses (refuses_oneOf hletter).bind

theorem refuses_term (h : ∀ c ∈ cs.head?, startsTerm c = false) : Refuses term cs := by
  have hint : Refuses int cs := by
    apply refuses_int
    intro c hc
    have hterm := h c hc
    simp only [startsTerm, Bool.or_eq_false_iff] at hterm
    exact hterm.2
  have htrue := opens_trueWord.refuses rfl h
  have hfalse := opens_falseWord.refuses rfl h
  exact (htrue.bind.orElse (hfalse.bind.orElse hint.bind)).bind.orElse (refuses_name h).bind

def startsOperand (c : Char) : Bool := startsTerm c || c == '(' || c == '!'

theorem isBlank_of_startsOperand {c : Char} (h : startsOperand c = true) : isBlank c = false := by
  by_contra hblank
  simp only [isBlank, Bool.not_eq_false, Bool.or_eq_true, beq_iff_eq] at hblank
  rcases hblank with ((rfl | rfl) | rfl) | rfl <;> exact absurd h (by decide)

theorem startsOperand_of_startsTerm {c : Char} (h : startsTerm c = true) :
    startsOperand c = true := by
  simp [startsOperand, h]

theorem stops_blank : Stops (' ' :: rest) := by
  intro c hc
  cases hc
  decide

theorem dropWhile_term (hx : x.Legible) (rest : List Char) :
    (' ' :: (x.text.toList ++ rest)).dropWhile isBlank = x.text.toList ++ rest := by
  obtain ⟨c, tail, hhead, hc⟩ := exists_head_term hx
  rw [hhead]
  exact dropWhile_spaced (isBlank_of_startsOperand (startsOperand_of_startsTerm hc)) _

section

variable {sign : String} {build : Term → Term → Predicate}

theorem reads_comparison (hx : x.Legible) (hy : y.Legible) (hrest : Stops rest)
    (hsign : ∀ cs, (' ' :: (sign.toList ++ cs)).dropWhile isBlank = sign.toList ++ cs) :
    Reads (comparison sign build)
      (x.text.toList ++ ' ' :: (sign.toList ++ ' ' :: (y.text.toList ++ rest))) (build x y)
      rest := by
  apply (reads_term hx stops_blank).bind
  apply (reads_blanks _).bind
  rw [hsign]
  apply (reads_symbol sign _).bind
  apply (reads_blanks _).bind
  rw [dropWhile_term hy]
  exact (reads_term hy hrest).bind (reads_pure _ rest)

theorem refuses_comparison (hx : x.Legible) (hmid : Stops mid)
    (h : Refuses (symbol sign) (mid.dropWhile isBlank)) :
    Refuses (comparison sign build) (x.text.toList ++ mid) := by
  apply (reads_term hx hmid).bind_refuses
  exact (reads_blanks mid).bind_refuses h.bind

end

structure Follows (rest : List Char) : Prop where
  stops : Stops rest
  signs : ∀ c ∈ (rest.dropWhile isBlank).head?, c ∉ ['=', '!']

section

variable {expr : Nat → Parser Predicate}

theorem reads_operand_of_atom (hx : x.Legible)
    (h : Reads (atom (expr 0)) (x.text.toList ++ rest) p mid) :
    Reads (operand expr) (x.text.toList ++ rest) p mid := by
  obtain ⟨c, tail, hhead, hc⟩ := exists_head_term hx
  have hnot : Refuses (symbol "!") (x.text.toList ++ rest) := by
    apply (opens_symbol '!' rfl).refuses (k := fun c => !startsTerm c) rfl
    rw [hhead]
    simp [hc]
  exact hnot.bind.orElse_reads h

theorem reads_operand_eq (hx : x.Legible) (hy : y.Legible) (hrest : Stops rest) :
    Reads (operand expr) ((eq x y).text.toList ++ rest) (eq x y) rest := by
  have htext : (eq x y).text.toList ++ rest =
      x.text.toList ++ ' ' :: ("==".toList ++ ' ' :: (y.text.toList ++ rest)) := by
    simp [text]
  rw [htext]
  apply reads_operand_of_atom hx
  exact (reads_comparison hx hy hrest fun _ => by simp [isBlank]).orElse

theorem reads_operand_ne (hx : x.Legible) (hy : y.Legible) (hrest : Stops rest) :
    Reads (operand expr) ((ne x y).text.toList ++ rest) (ne x y) rest := by
  have htext : (ne x y).text.toList ++ rest =
      x.text.toList ++ ' ' :: ("!=".toList ++ ' ' :: (y.text.toList ++ rest)) := by
    simp [text]
  rw [htext]
  apply reads_operand_of_atom hx
  apply Refuses.orElse_reads
  · apply refuses_comparison hx stops_blank
    apply opens_symbol '=' rfl
    simp [isBlank]
  · exact (reads_comparison hx hy hrest fun _ => by simp [isBlank]).orElse

/-- Where no comparison is opened after a term, it is not read as the beginning of one. -/
theorem Follows.refuses_comparisons (h : Follows rest) (hx : x.Legible) :
    Refuses (comparison "==" eq) (x.text.toList ++ rest) ∧
    Refuses (comparison "!=" ne) (x.text.toList ++ rest) := by
  constructor
  · exact refuses_comparison hx h.stops ((opens_symbol '=' rfl).mono (by decide) _ h.signs)
  · exact refuses_comparison hx h.stops ((opens_symbol '!' rfl).mono (by decide) _ h.signs)

theorem reads_operand_top (h : Follows rest) :
    Reads (operand expr) (top.text.toList ++ rest) top rest := by
  have hx : (Term.value (.bool true)).Legible := .value _
  obtain ⟨heq, hne⟩ := h.refuses_comparisons hx
  apply reads_operand_of_atom hx
  apply heq.orElse_reads
  apply hne.orElse_reads
  apply Reads.orElse
  exact (reads_trueWord (w := "true") (by decide) h.stops).bind (reads_pure _ rest)

theorem reads_operand_bot (h : Follows rest) :
    Reads (operand expr) (bot.text.toList ++ rest) bot rest := by
  have hx : (Term.value (.bool false)).Legible := .value _
  obtain ⟨heq, hne⟩ := h.refuses_comparisons hx
  apply reads_operand_of_atom hx
  apply heq.orElse_reads
  apply hne.orElse_reads
  apply (opens_trueWord _ (by simp [Term.text, Value.text])).bind.orElse_reads
  apply Reads.orElse
  exact (reads_falseWord (w := "false") (by decide) h.stops).bind (reads_pure _ rest)

theorem reads_operand_enclosed (hstart : cs.dropWhile isBlank = cs)
    (h : Reads (expr 0) cs p (')' :: rest)) : Reads (operand expr) ('(' :: cs) p rest := by
  have hhead : ∀ c ∈ ('(' :: cs).head?, startsTerm c = false := by
    intro c hc
    cases hc
    decide
  have hclose : Reads (blanks >>= fun _ => symbol ")" >>= fun _ => pure p)
      (')' :: rest) p rest := by
    apply (reads_blanks _).bind
    rw [List.dropWhile_cons_of_neg (by decide)]
    exact (reads_symbol ")" rest).bind (reads_pure p rest)
  apply (opens_symbol '!' rfl _ (by simp)).bind.orElse_reads
  apply (refuses_term hhead).bind.orElse_reads
  apply (refuses_term hhead).bind.orElse_reads
  apply (opens_trueWord.refuses rfl hhead).bind.orElse_reads
  apply (opens_falseWord.refuses rfl hhead).bind.orElse_reads
  apply (refuses_name hhead).bind.orElse_reads
  apply (reads_symbol "(" cs).bind
  apply (reads_blanks cs).bind
  rw [hstart]
  exact h.bind hclose

theorem reads_operand_neg (hstart : cs.dropWhile isBlank = cs) (h : Reads (expr tight) cs p rest) :
    Reads (operand expr) ('!' :: cs) (neg p) rest := by
  apply Reads.orElse
  apply (reads_symbol "!" cs).bind
  apply (reads_blanks cs).bind
  rw [hstart]
  exact h.bind (reads_pure _ rest)

end

inductive Legible : Predicate → Prop
  | conj {p q : Predicate} (hp : Legible p) (hq : Legible q) : Legible (conj [p, q])
  | disj {p q : Predicate} (hp : Legible p) (hq : Legible q) : Legible (disj [p, q])
  | neg {p : Predicate} (hp : Legible p) : Legible (neg p)
  | top : Legible top
  | bot : Legible bot
  | eq {x y : Term} (hx : x.Legible) (hy : y.Legible) : Legible (eq x y)
  | ne {x y : Term} (hx : x.Legible) (hy : y.Legible) : Legible (ne x y)

theorem yields_term : Yields Term.Legible term :=
  (yields_after fun v => yields_pure (.value v)).orElse
    (yields_name.bind fun _ hn => yields_pure (.named hn))

theorem yields_comparison {sign : String} {build : Term → Term → Predicate}
    (hbuild : ∀ x y : Term, x.Legible → y.Legible → (build x y).Legible) :
    Yields Legible (comparison sign build) := by
  refine yields_term.bind fun x hx => ?_
  refine yields_after fun _ => yields_after fun _ => yields_after fun _ => ?_
  exact yields_term.bind fun y hy => yields_pure (hbuild x y hx hy)

theorem yields_operand {expr : Nat → Parser Predicate} (h : ∀ level, Yields Legible (expr level)) :
    Yields Legible (operand expr) := by
  have hneg : Yields Legible (do symbol "!"; blanks; let p ← expr tight; pure (neg p)) :=
    yields_after fun _ => yields_after fun _ => (h tight).bind fun p hp => yields_pure (.neg hp)
  refine hneg.orElse ((yields_comparison fun x y => .eq).orElse
    ((yields_comparison fun x y => .ne).orElse ?_))
  refine (yields_after fun _ => yields_pure .top).orElse
    ((yields_after fun _ => yields_pure .bot).orElse ?_)
  refine (yields_name.bind fun _ hn => yields_pure (.eq (.named hn) (.value _))).orElse ?_
  refine yields_after fun _ => yields_after fun _ => (h 0).bind fun p hp => ?_
  exact yields_after fun _ => yields_after fun _ => yields_pure hp

theorem yields_grammar : Yields Legible grammar.parser := by
  have hbuild : ∀ b ∈ grammar.binaries, ∀ p q, Legible p → Legible q → Legible (b.build p q) := by
    intro b hb p q hp hq
    simp only [grammar, List.mem_cons, List.not_mem_nil, or_false] at hb
    rcases hb with rfl | rfl | rfl
    · exact .disj (.neg hp) hq
    · exact .disj hp hq
    · exact .conj hp hq
  exact fun c => yields_expression (fun expr => yields_operand) hbuild _ 0 c

def firstChar : Nat → Char
  | 0 => '-'
  | 1 => '|'
  | _ => '&'

theorem refuses_token {b : Binary Predicate} (hb : b ∈ grammar.binaries)
    (h : ∀ c ∈ (cs.dropWhile isBlank).head?, c ≠ firstChar b.level) : Refuses b.token cs := by
  have hsign {sign : String} {tail : List Char} (hs : sign.toList = firstChar b.level :: tail) :
      Refuses (between sign) cs := by
    apply (reads_blanks cs).bind_refuses
    exact (opens_symbol _ hs _ (by simpa using h)).bind
  simp only [grammar, List.mem_cons, List.not_mem_nil, or_false] at hb
  rcases hb with rfl | rfl | rfl
  · exact hsign rfl
  · exact hsign rfl
  · exact hsign rfl

theorem Legible.exists_head (h : p.Legible) : ∃ c tail, p.text.toList = c :: tail ∧
    startsOperand c = true := by
  cases h with
  | conj hp hq | disj hp hq | neg hp =>
      simp only [text, String.toList_append]
      exact ⟨_, _, rfl, rfl⟩
  | top | bot => exact ⟨_, _, rfl, rfl⟩
  | eq hx hy | ne hx hy =>
      obtain ⟨c, tail, hhead, hc⟩ := exists_head_term hx
      simp only [text, String.toList_append, hhead]
      exact ⟨c, _, rfl, startsOperand_of_startsTerm hc⟩

theorem Legible.dropWhile_text (h : p.Legible) (rest : List Char) :
    (p.text.toList ++ rest).dropWhile isBlank = p.text.toList ++ rest := by
  obtain ⟨c, tail, hhead, hc⟩ := h.exists_head
  simp [hhead, isBlank_of_startsOperand hc]

def ReadsBack (p : Predicate) : Prop := ∀ depth rest, p.text.toList.length ≤ depth → Follows rest →
  Reads (operand (grammar.expression depth)) (p.text.toList ++ rest) p rest

theorem follows_closing : Follows (')' :: rest) := by
  constructor
  · intro c hc
    cases hc
    decide
  · simp [isBlank]

theorem refuses_token_closing {b : Binary Predicate} (hb : b ∈ grammar.binaries) :
    Refuses b.token (')' :: rest) := by
  have hclosing : ∀ b ∈ grammar.binaries, ')' ≠ firstChar b.level := by decide
  apply refuses_token hb
  simpa [isBlank] using hclosing b hb

/-- Nothing stands above negation. -/
theorem reads_expression_tight {depth : Nat}
    (h : Reads (operand (grammar.expression depth)) cs p rest) :
    Reads (grammar.expression (depth + 1) tight) cs p rest := by
  have hlevel : ∀ b ∈ grammar.binaries, ¬ tight ≤ b.level := by decide
  exact reads_expression_of_operand h fun b hb hle => absurd hle (hlevel b hb)

structure Written (b : Binary Predicate) (sign : String) : Prop where
  token : b.token = between sign
  text : ∀ p q, (b.build p q).text.toList =
    '(' :: (p.text.toList ++ ' ' :: (sign.toList ++ ' ' :: (q.text.toList ++ [')'])))
  sign_blank : ∀ cs, (' ' :: (sign.toList ++ cs)).dropWhile isBlank = sign.toList ++ cs
  follows : ∀ cs, Follows (' ' :: (sign.toList ++ cs))
  first : ∃ before after, grammar.binaries = before ++ b :: after ∧
    ∀ b' ∈ before, ∀ cs, Refuses b'.token (' ' :: (sign.toList ++ cs))

section

variable {b : Binary Predicate} {sign : String}

theorem Written.reads_token (hb : Written b sign) (hq : q.Legible) :
    Reads b.token (' ' :: (sign.toList ++ ' ' :: (q.text.toList ++ rest))) ()
      (q.text.toList ++ rest) := by
  rw [hb.token]
  apply (reads_blanks _).bind
  rw [hb.sign_blank]
  apply (reads_symbol sign _).bind
  have hblanks := reads_blanks (' ' :: (q.text.toList ++ rest))
  rwa [List.dropWhile_cons_of_pos (by decide), hq.dropWhile_text] at hblanks

/-- Two conditions with an operator between them stand in parentheses. -/
theorem Written.readsBack (hb : Written b sign) (hp : p.Legible) (hq : q.Legible)
    (hreadp : p.ReadsBack) (hreadq : q.ReadsBack) : (b.build p q).ReadsBack := by
  intro depth rest hdepth _
  simp only [hb.text, List.length_cons, List.length_append] at hdepth
  simp only [hb.text, List.cons_append, List.append_assoc, List.nil_append]
  obtain ⟨depth, rfl⟩ : ∃ d, depth = d + 2 := ⟨depth - 2, by omega⟩
  obtain ⟨before, after, hgrammar, hbefore⟩ := hb.first
  have hright : Reads (grammar.expression (depth + 1) b.rightLevel) (q.text.toList ++ ')' :: rest) q
      (')' :: rest) := by
    apply reads_expression_of_operand (g := grammar) (hreadq depth _ (by omega) follows_closing)
    exact fun b' hb' _ => refuses_token_closing hb'
  apply reads_operand_enclosed (hp.dropWhile_text _)
  apply reads_expression (g := grammar) (hreadp _ _ (by omega) (hb.follows _))
  apply reads_extend_once (List.length_pos_iff.2 (by simp))
  · rw [hgrammar]
    exact reads_continuation (fun b' hb' => hbefore b' hb' _) (Nat.zero_le _)
      (hb.reads_token hq) hright
  · exact fun b' hb' _ => refuses_token_closing hb'

end

theorem written_and : Written (.leftToRight 2 (between "&&") fun p q => conj [p, q]) "&&" where
  token := rfl
  text p q := by simp [Binary.leftToRight, text, texts, joinWith]
  sign_blank cs := by simp [isBlank]
  follows cs := ⟨stops_blank, by simp [isBlank]⟩
  first := by
    refine ⟨grammar.binaries.take 2, [], rfl,
      fun b' hb' cs => refuses_token (List.mem_of_mem_take hb') ?_⟩
    have hfirst : ∀ b ∈ grammar.binaries.take 2, '&' ≠ firstChar b.level := by decide
    simpa [isBlank] using hfirst b' hb'

theorem written_or : Written (.leftToRight 1 (between "||") fun p q => disj [p, q]) "||" where
  token := rfl
  text p q := by simp [Binary.leftToRight, text, texts, joinWith]
  sign_blank cs := by simp [isBlank]
  follows cs := ⟨stops_blank, by simp [isBlank]⟩
  first := by
    refine ⟨grammar.binaries.take 1, grammar.binaries.drop 2, rfl,
      fun b' hb' cs => refuses_token (List.mem_of_mem_take hb') ?_⟩
    have hfirst : ∀ b ∈ grammar.binaries.take 1, '|' ≠ firstChar b.level := by decide
    simpa [isBlank] using hfirst b' hb'

/-- The induction is on the condition. Parentheses and signs make its text longer than those of its
parts, which leaves the levels of nesting to read them. -/
theorem Legible.readsBack (h : p.Legible) : p.ReadsBack := by
  induction h with
  | conj hp hq ihp ihq => exact written_and.readsBack hp hq ihp ihq
  | disj hp hq ihp ihq => exact written_or.readsBack hp hq ihp ihq
  | @neg p hp ih =>
      intro depth rest hdepth _
      have htext : p.neg.text.toList ++ rest = '!' :: '(' :: (p.text.toList ++ ')' :: rest) := by
        simp [text]
      simp only [text, String.toList_append, List.length_append] at hdepth
      obtain ⟨depth, rfl⟩ : ∃ d, depth = d + 2 := ⟨depth - 2, by simp at hdepth; omega⟩
      have hinner : Reads (grammar.expression (depth + 1) 0) (p.text.toList ++ ')' :: rest) p
          (')' :: rest) := by
        apply reads_expression_of_operand (g := grammar)
          (ih depth _ (by simp at hdepth; omega) follows_closing)
        exact fun b hb _ => refuses_token_closing hb
      have hoperand : Reads (operand (grammar.expression (depth + 1)))
          ('(' :: (p.text.toList ++ ')' :: rest)) p rest :=
        reads_operand_enclosed (hp.dropWhile_text _) hinner
      rw [htext]
      exact reads_operand_neg (List.dropWhile_cons_of_neg (by decide))
        (reads_expression_tight hoperand)
  | top => exact fun depth rest _ hrest => reads_operand_top hrest
  | bot => exact fun depth rest _ hrest => reads_operand_bot hrest
  | eq hx hy => exact fun depth rest _ hrest => reads_operand_eq hx hy hrest.stops
  | ne hx hy => exact fun depth rest _ hrest => reads_operand_ne hx hy hrest.stops

theorem legible_of_parse {t : String} (h : parse t = .ok p) : p.Legible := by
  have hwhole : Yields Legible whole :=
    yields_after fun _ => yields_grammar.bind fun p hp => yields_after fun _ => yields_pure hp
  exact hwhole.of_parse h

theorem Legible.reads_text (h : p.Legible) : Reads grammar.parser p.text.toList p [] := by
  have hfollows : Follows [] := ⟨by simp [Stops], by simp⟩
  have hread := h.readsBack _ [] le_rfl hfollows
  rw [List.append_nil] at hread
  apply parser_reads
  exact reads_expression_of_operand hread fun b hb _ => refuses_token hb (by simp)

theorem Legible.parse_text (h : p.Legible) : parse p.text = .ok p := by
  have hblanks := h.dropWhile_text []
  rw [List.append_nil] at hblanks
  have hwhole : Reads whole p.text.toList p [] := by
    apply (reads_blanks _).bind
    rw [hblanks]
    exact h.reads_text.bind ((reads_blanks []).bind (reads_pure p []))
  exact hwhole.parse_eq_ok

end Predicate

namespace Compute

inductive Legible : Compute → Prop
  | value {t : Term} (ht : t.Legible) : Legible (value t)
  | predicate {p : Predicate} (hp : p.Legible) : Legible (predicate p)
  | any : Legible any

/-- What is read from the text: a constant condition stands there as a constant. -/
def reread : Compute → Compute
  | predicate .top => value (.value (.bool true))
  | predicate .bot => value (.value (.bool false))
  | c => c

theorem support_reread (c : Compute) : c.reread.support = c.support := by
  fun_cases reread c with
  | case1 => rfl
  | case2 => rfl
  | case3 => rfl

end Compute

namespace Action

open Grammar Grammar.Parser Predicate

variable {n : String} {c : Compute} {rest : List Char}

theorem nextValues_reread (place : String → Option Nat) (s : ModelState) (domain : List Value) :
    (resolve place { var := n, value := c.reread }).nextValues s domain =
      (resolve place { var := n, value := c }).nextValues s domain := by
  fun_cases Compute.reread c with
  | case1 => rfl
  | case2 => rfl
  | case3 => rfl

theorem reads_target (hn : Named n.toList) (hrest : ∀ c ∈ rest.head?, isBlank c = false) :
    Reads target (n.toList ++ (" := ".toList ++ rest)) n rest := by
  obtain ⟨c, tail, hhead, hletter⟩ := hn.head
  have hblank : isBlank c = false :=
    isBlank_of_startsOperand (by simp [startsOperand, startsTerm, hletter])
  have hstart : (n.toList ++ (" := ".toList ++ rest)).dropWhile isBlank =
      n.toList ++ (" := ".toList ++ rest) := by
    simp [hhead, hblank]
  have hafter : (' ' :: rest).dropWhile isBlank = rest := by
    have hspace : ∀ c ∈ [' '], isBlank c = true := by simp [isBlank]
    exact (takeWhile_append_of_head hspace hrest).2
  have hname := reads_name hn (stops_blank : Stops (" := ".toList ++ rest))
  rw [String.ofList_toList] at hname
  apply (reads_blanks _).bind
  rw [hstart]
  apply hname.bind
  apply (reads_blanks _).bind
  apply (reads_symbol ":=" (' ' :: rest)).bind
  apply (reads_blanks _).bind
  rw [hafter]
  exact reads_pure n rest

def termOnly (n : String) : Parser Action := do
  let t ← term
  blanks
  notBefore (oneOf "a sign" continues)
  pure { var := n, value := .value t }

theorem reads_termOnly {t : Term} (ht : t.Legible) :
    Reads (termOnly n) t.text.toList { var := n, value := .value t } [] := by
  have hterm : Reads term (t.text.toList ++ []) t [] := reads_term ht (by simp [Stops])
  rw [List.append_nil] at hterm
  apply hterm.bind
  apply (reads_blanks []).bind
  exact (reads_notBefore (refuses_oneOf (by simp))).bind (reads_pure _ [])

theorem refuses_termOnly_of_sign {x : Term} {d : Char} (hx : x.Legible) (hblank : isBlank d = false)
    (hd : continues d = true) : Refuses (termOnly n) (x.text.toList ++ ' ' :: d :: rest) := by
  apply (reads_term hx stops_blank).bind_refuses
  apply (reads_blanks _).bind_refuses
  rw [dropWhile_spaced hblank]
  exact (refuses_notBefore (reads_oneOf hd)).bind

theorem refuses_termOnly_of_head {d : Char} (hd : startsTerm d = false) :
    Refuses (termOnly n) (d :: rest) := by
  apply Refuses.bind
  exact refuses_term (by simpa using hd)

/-- A comparison goes on after its first term, and the other conditions do not start with a term. -/
theorem refuses_termOnly {p : Predicate} (hp : p.Legible) (htop : p ≠ .top) (hbot : p ≠ .bot) :
    Refuses (termOnly n) p.text.toList := by
  cases hp with
  | conj hp hq | disj hp hq | neg hp =>
      simp only [Predicate.text, String.toList_append]
      exact refuses_termOnly_of_head rfl
  | top => exact absurd rfl htop
  | bot => exact absurd rfl hbot
  | eq hx hy | ne hx hy =>
      simp only [Predicate.text, String.toList_append, List.append_assoc]
      exact refuses_termOnly_of_sign hx rfl rfl

/-- After the sign of an assignment a text that is not free is read as a term, and else as a
condition. -/
theorem reads_whole_of_head {a : Action} (hn : Named n.toList)
    (hhead : ∃ d tail, rest = d :: tail ∧ startsOperand d = true)
    (h : Reads (termOnly n) rest a [] ∨ Refuses (termOnly n) rest ∧
      ∃ p, Reads grammar.parser rest p [] ∧
      a = { var := n, value := .predicate p }) :
    Reads whole (n.toList ++ (" := ".toList ++ rest)) a [] := by
  obtain ⟨d, tail, rfl, hd⟩ := hhead
  have hfree : Refuses (symbol "?") (d :: tail) := by
    apply (opens_symbol '?' rfl).refuses (k := fun c => !startsOperand c) rfl
    simp [hd]
  have htarget : Reads target (n.toList ++ (" := ".toList ++ d :: tail)) n (d :: tail) :=
    reads_target hn (by simp [isBlank_of_startsOperand hd])
  apply (htarget.bind_refuses hfree.bind).orElse_reads
  rcases h with hterm | ⟨hterm, p, hp, rfl⟩
  · exact (htarget.bind hterm).orElse
  · apply (htarget.bind_refuses hterm).orElse_reads
    apply htarget.bind
    exact hp.bind ((reads_blanks []).bind (reads_pure _ []))

theorem reads_whole (hn : Named n.toList) (hc : c.Legible) :
    Reads whole (n.toList ++ (" := ".toList ++ c.text.toList))
      { var := n, value := c.reread } [] := by
  have hvalue {t : Term} (ht : t.Legible) :
      Reads whole (n.toList ++ (" := ".toList ++ t.text.toList))
        { var := n, value := .value t } [] := by
    obtain ⟨d, tail, hhead, hd⟩ := exists_head_term ht
    exact reads_whole_of_head hn ⟨d, tail, hhead, startsOperand_of_startsTerm hd⟩
      (.inl (reads_termOnly ht))
  cases hc with
  | any =>
      have htarget : Reads target (n.toList ++ (" := ".toList ++ ['?'])) n ['?'] :=
        reads_target hn (by simp [isBlank])
      apply Reads.orElse
      apply htarget.bind
      apply (reads_symbol "?" []).bind
      exact (reads_blanks []).bind (reads_pure _ [])
  | value ht => exact hvalue ht
  | @predicate p hp =>
      by_cases htop : p = .top
      · subst htop
        exact hvalue (t := .value (.bool true)) (.value _)
      by_cases hbot : p = .bot
      · subst hbot
        exact hvalue (t := .value (.bool false)) (.value _)
      have hreread : (Compute.predicate p).reread = .predicate p := by
        cases p with
        | top => exact absurd rfl htop
        | bot => exact absurd rfl hbot
        | _ => rfl
      rw [hreread]
      exact reads_whole_of_head hn hp.exists_head
        (.inr ⟨refuses_termOnly hp htop hbot, p, hp.reads_text, rfl⟩)

theorem yields_target : Yields (fun n => Named n.toList) target :=
  yields_after fun _ => yields_name.bind fun _ hn =>
    yields_after fun _ => yields_after fun _ => yields_after fun _ => yields_pure hn

/-- What is read as an assignment has a name and a legible value. -/
theorem yields_whole : Yields (fun a => Named a.var.toList ∧ a.value.Legible) whole := by
  refine Yields.orElse ?_ (Yields.orElse ?_ ?_)
  · refine yields_target.bind fun n hn => yields_after fun _ => yields_after fun _ => ?_
    exact yields_pure ⟨hn, .any⟩
  · refine yields_target.bind fun n hn => yields_term.bind fun t ht => yields_after fun _ =>
      yields_after fun _ => ?_
    exact yields_pure ⟨hn, .value ht⟩
  · refine yields_target.bind fun n hn => yields_grammar.bind fun p hp => yields_after fun _ => ?_
    exact yields_pure ⟨hn, .predicate hp⟩

end Action

/-- Conditions are parsed from their own texts, and assignments up to constant conditions, which
become constants. -/
theorem texts_parse_back :
    (∀ t p, Predicate.parse t = .ok p → Predicate.parse p.text = .ok p) ∧
    ∀ t a, Action.parse t = .ok a →
      ∃ b, Action.parse a.text = .ok b ∧ b.var = a.var ∧ b.support = a.support ∧
      ∀ place s domain,
        (b.resolve place).nextValues s domain = (a.resolve place).nextValues s domain := by
  constructor
  · intro t p h
    exact (Predicate.legible_of_parse h).parse_text
  · intro t a h
    obtain ⟨hn, hc⟩ := Action.yields_whole.of_parse h
    have hread := Action.reads_whole hn hc
    refine ⟨{ var := a.var, value := a.value.reread }, ?_, rfl, a.value.support_reread, ?_⟩
    · apply Grammar.Parser.Reads.parse_eq_ok
      simpa only [Action.text, String.toList_append, List.append_assoc] using hread
    · exact Action.nextValues_reread

def limits : Predicate :=
  .disj [.neg (.conj [.isTrue "trueish", .top]), .ne (.value (.int (-2147483648))) (.named "x.1")]

theorem limits_parse_back :
    (Predicate.parse "trueish && TRUE -> -2147483648!=x.1" = .ok limits ∧
      Predicate.parse limits.text = .ok limits) ∧
    Action.parse "on:=( FALSE )" = .ok { var := "on", value := .predicate .bot } ∧
    ∃ b, Action.parse (Action.text { var := "on", value := .predicate .bot }) = .ok b ∧
      b.var = "on" ∧
      b.support = Action.support { var := "on", value := .predicate .bot } ∧
      ∀ place s domain, (b.resolve place).nextValues s domain =
        (Action.resolve place { var := "on", value := .predicate .bot }).nextValues s domain := by
  have hlimits : Predicate.parse "trueish && TRUE -> -2147483648!=x.1" = .ok limits := by cbv
  have hconstant : Action.parse "on:=( FALSE )" =
      .ok { var := "on", value := .predicate .bot } := by cbv
  exact ⟨⟨hlimits, texts_parse_back.1 _ _ hlimits⟩, hconstant, texts_parse_back.2 _ _ hconstant⟩

end TemporalCheck
