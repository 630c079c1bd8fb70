import TemporalCheck.Proofs.FormulaText

namespace TemporalCheck

namespace Formula

open Grammar Grammar.Parser Grammar.Precedence

inductive UnaryOp where
  | not
  | next
  | eventually
  | always

inductive BinaryOp where
  | iff
  | implies
  | or
  | and
  | until
  | release
  | weakUntil
deriving DecidableEq

namespace UnaryOp

def spellings : UnaryOp → List String
  | not => ["!", "~", "not"]
  | next => ["X"]
  | eventually => ["F", "<>"]
  | always => ["G", "[]"]

def build : UnaryOp → Formula → Formula
  | not => .neg
  | next => .next
  | eventually => Formula.eventually
  | always => Formula.always

end UnaryOp

namespace BinaryOp

def level : BinaryOp → Nat
  | iff => 0
  | implies => 1
  | or => 2
  | and => 3
  | .until => 4
  | release => 4
  | weakUntil => 4

def groupsRight : BinaryOp → Bool
  | iff => false
  | implies => true
  | or => false
  | and => false
  | .until => true
  | release => true
  | weakUntil => true

def spellings : BinaryOp → List String
  | iff => ["<->"]
  | implies => ["->"]
  | or => ["||", "|", "or"]
  | and => ["&&", "&", "and"]
  | .until => ["U"]
  | release => ["R", "V"]
  | weakUntil => ["W"]

def build : BinaryOp → Formula → Formula → Formula
  | iff => Formula.iff
  | implies => Formula.implies
  | or => fun f g => .or [f, g]
  | and => fun f g => .and [f, g]
  | .until => .until
  | release => .release
  | weakUntil => Formula.weakUntil

def leftLevel (op : BinaryOp) : Nat := if op.groupsRight then op.level + 1 else op.level

def rightLevel (op : BinaryOp) : Nat := if op.groupsRight then op.level else op.level + 1

end BinaryOp

inductive Surface where
  | atom (name : String) (h : IsAtom name)
  | top
  | bot
  | unary (op : UnaryOp) (t : Surface)
  | binary (op : BinaryOp) (l r : Surface)

namespace Surface

def formula : Surface → Formula
  | atom name _ => .prop name
  | top => .top
  | bot => .bot
  | unary op t => op.build t.formula
  | binary op l r => op.build l.formula r.formula

end Surface

structure Gap (gap : List Char) : Prop where
  ne_nil : gap ≠ []
  blank : ∀ c ∈ gap, isBlank c = true

/-- The texts of a tree where operators below a level have to be put in parentheses. -/
inductive Writes : Nat → Surface → List Char → Prop
  | atom {n : Nat} {name : String} (h : IsAtom name) : Writes n (.atom name h) name.toList
  | top {n : Nat} : Writes n .top "true".toList
  | bot {n : Nat} : Writes n .bot "false".toList
  | unary {n : Nat} {op : UnaryOp} {t : Surface} {w : String} {gap cs : List Char}
      (hw : w ∈ op.spellings) (hgap : Gap gap) (ht : Writes tight t cs) :
      Writes n (.unary op t) (w.toList ++ (gap ++ cs))
  | binary {n : Nat} {op : BinaryOp} {l r : Surface} {w : String} {gap gap' ls rs : List Char}
      (hn : n ≤ op.level) (hw : w ∈ op.spellings) (hgap : Gap gap) (hgap' : Gap gap')
      (hl : Writes op.leftLevel l ls)
      (hr : Writes op.rightLevel r rs) :
      Writes n (.binary op l r) (ls ++ (gap ++ (w.toList ++ (gap' ++ rs))))
  | enclosed {n : Nat} {op : BinaryOp} {l r : Surface} {gap gap' cs : List Char} (hn : op.level < n)
      (hgap : Gap gap) (hgap' : Gap gap') (h : Writes 0 (.binary op l r) cs) :
      Writes n (.binary op l r) ('(' :: (gap ++ (cs ++ (gap' ++ [')']))))

variable {cs gap gap' mid rest rest' : List Char} {w : String} {n depth : Nat} {t : Surface}

theorem Gap.stops (h : Gap gap) : Stops (gap ++ rest) := by
  obtain ⟨c, tail, rfl⟩ := List.exists_cons_of_ne_nil h.ne_nil
  intro d hd
  cases hd
  exact .inl (h.blank c (by simp))

theorem Gap.length_pos (h : Gap gap) : 0 < gap.length := List.length_pos_iff.2 h.ne_nil

theorem Gap.dropWhile (h : Gap gap) (hrest : ∀ c ∈ rest.head?, isBlank c = false) :
    (gap ++ rest).dropWhile isBlank = rest := (takeWhile_append_of_head h.blank hrest).2

/-- A sign of two characters is not found where a blank follows the first one. -/
theorem refuses_symbol_gap {c d : Char} {s : String} (hs : s.toList = [c, d])
    (hd : isBlank d = false) (hgap : Gap gap) : Refuses (symbol s) (c :: (gap ++ rest)) := by
  apply refuses_symbol
  intro rest' heq
  obtain ⟨e, tail, rfl⟩ := List.exists_cons_of_ne_nil hgap.ne_nil
  have hblank := hgap.blank e (by simp)
  simp only [hs, List.cons_append, List.nil_append, List.cons.injEq, true_and] at heq
  rw [heq.1, hd] at hblank
  cases hblank

namespace UnaryOp

def sign : UnaryOp → Parser Unit
  | not => notSign
  | next => word "X"
  | eventually => eventuallySign
  | always => alwaysSign

def heads : UnaryOp → List Char
  | not => ['!', '~', 'n']
  | next => ['X']
  | eventually => ['F', '<']
  | always => ['G', '[']

theorem exists_head (op : UnaryOp) (hw : w ∈ op.spellings) :
    ∃ c ∈ op.heads, isBlank c = false ∧ ∃ tail, w.toList = c :: tail := by
  cases op <;> simp only [spellings, List.mem_cons, List.not_mem_nil, or_false] at hw
  · rcases hw with rfl | rfl | rfl <;> simp [heads, isBlank]
  · subst hw
    simp [heads, isBlank]
  · rcases hw with rfl | rfl <;> simp [heads, isBlank]
  · rcases hw with rfl | rfl <;> simp [heads, isBlank]

theorem reads_sign (op : UnaryOp) (hw : w ∈ op.spellings)
    (hmid : ∀ c ∈ mid.head?, isNameChar c = false) : Reads op.sign (w.toList ++ mid) () mid := by
  cases op <;> simp only [spellings, List.mem_cons, List.not_mem_nil, or_false] at hw
  · rcases hw with rfl | rfl | rfl
    · exact (reads_symbol "!" mid).orElse
    · exact (opens_symbol '!' rfl _ (by simp)).orElse_reads (reads_symbol "~" mid).orElse
    · apply (opens_symbol '!' rfl _ (by simp)).orElse_reads
      exact (opens_symbol '~' rfl _ (by simp)).orElse_reads (reads_word "not" hmid)
  · subst hw
    exact reads_word "X" hmid
  · rcases hw with rfl | rfl
    · exact (reads_word "F" hmid).orElse
    · exact (opens_word 'F' rfl _ (by simp)).orElse_reads (reads_symbol "<>" mid)
  · rcases hw with rfl | rfl
    · exact (reads_word "G" hmid).orElse
    · exact (opens_word 'G' rfl _ (by simp)).orElse_reads (reads_symbol "[]" mid)

end UnaryOp

namespace BinaryOp

def sign : BinaryOp → Parser Unit
  | iff => symbol "<->"
  | implies => symbol "->"
  | or => orSign
  | and => andSign
  | .until => word "U"
  | release => releaseSign
  | weakUntil => word "W"

def heads : BinaryOp → List Char
  | iff => ['<']
  | implies => ['-']
  | or => ['|', 'o']
  | and => ['&', 'a']
  | .until => ['U']
  | release => ['R', 'V']
  | weakUntil => ['W']

theorem opens_sign (op : BinaryOp) : Opens op.heads op.sign := by
  cases op
  · exact opens_symbol '<' rfl
  · exact opens_symbol '-' rfl
  · exact opens_orSign
  · exact opens_andSign
  · exact opens_word 'U' rfl
  · exact opens_releaseSign
  · exact opens_word 'W' rfl

theorem exists_head (op : BinaryOp) (hw : w ∈ op.spellings) :
    ∃ c ∈ op.heads, isBlank c = false ∧ ∃ tail, w.toList = c :: tail := by
  cases op <;> simp only [spellings, List.mem_cons, List.not_mem_nil, or_false] at hw
  case or | and => rcases hw with rfl | rfl | rfl <;> simp [heads, isBlank]
  case release => rcases hw with rfl | rfl <;> simp [heads, isBlank]
  all_goals
    subst hw
    simp [heads, isBlank]

theorem reads_sign (op : BinaryOp) (hw : w ∈ op.spellings) (hgap : Gap gap) :
    Reads op.sign (w.toList ++ (gap ++ rest)) () (gap ++ rest) := by
  have hname := (hgap.stops : Stops (gap ++ rest)).isNameChar
  cases op <;> simp only [spellings, List.mem_cons, List.not_mem_nil, or_false] at hw
  case or =>
    rcases hw with rfl | rfl | rfl
    · exact (reads_symbol "||" _).orElse
    · exact (refuses_symbol_gap rfl rfl hgap).orElse_reads (reads_symbol "|" _).orElse
    · apply (opens_symbol '|' rfl _ (by simp)).orElse_reads
      exact (opens_symbol '|' rfl _ (by simp)).orElse_reads (reads_word "or" hname)
  case and =>
    rcases hw with rfl | rfl | rfl
    · exact (reads_symbol "&&" _).orElse
    · exact (refuses_symbol_gap rfl rfl hgap).orElse_reads (reads_symbol "&" _).orElse
    · apply (opens_symbol '&' rfl _ (by simp)).orElse_reads
      exact (opens_symbol '&' rfl _ (by simp)).orElse_reads (reads_word "and" hname)
  case release =>
    rcases hw with rfl | rfl
    · exact (reads_symbol "R" _).orElse.bind (reads_endOfWord hname)
    · exact ((opens_symbol 'R' rfl _ (by simp)).orElse_reads (reads_symbol "V" _)).bind
        (reads_endOfWord hname)
  all_goals subst hw
  · exact reads_symbol "<->" _
  · exact reads_symbol "->" _
  · exact reads_word "U" hname
  · exact reads_word "W" hname

theorem not_mem_heads {op op' : BinaryOp} (h : op ≠ op') {c : Char} (hc : c ∈ op.heads) :
    c ∉ op'.heads := by
  have hall : (op.heads.all fun c => !op'.heads.contains c) = true := by
    revert h
    cases op <;> cases op' <;> decide
  simpa using List.all_eq_true.1 hall c hc

/-- Where an operator stands no other one is found. -/
theorem refuses_other {op op' : BinaryOp} (h : op ≠ op') (hw : w ∈ op.spellings) (hgap : Gap gap) :
    Refuses (between op'.sign) (gap ++ (w.toList ++ rest)) := by
  obtain ⟨c, hc, hblank, tail, htail⟩ := op.exists_head hw
  apply refuses_between op'.opens_sign
  rw [htail, List.cons_append, hgap.dropWhile (by simpa using hblank)]
  intro d hd
  cases hd
  exact not_mem_heads h hc

def all : List BinaryOp := [iff, implies, or, and, .until, release, weakUntil]

theorem mem_all (op : BinaryOp) : op ∈ all := by cases op <;> decide

def entry (op : BinaryOp) : Binary Formula := ⟨op.level, op.rightLevel, between op.sign, op.build⟩

theorem binaries_eq : grammar.binaries = all.map entry := rfl

theorem level_lt_rightLevel {op op' : BinaryOp} (h : op.leftLevel ≤ op'.level) :
    op.level < op'.rightLevel := by
  revert h
  cases op <;> cases op' <;> decide

end BinaryOp

theorem reads_operand_unary {expr : Nat → Parser Formula} {f : Formula} (op : UnaryOp)
    (hw : w ∈ op.spellings) (hgap : Gap gap) (hmid : ∀ c ∈ mid.head?, isBlank c = false)
    (h : Reads (expr tight) mid f rest) :
    Reads (operand expr) (w.toList ++ (gap ++ mid)) (op.build f) rest := by
  have happlied : Reads (applied op.sign (expr tight) op.build) (w.toList ++ (gap ++ mid))
      (op.build f) rest := by
    apply reads_applied (op.reads_sign hw hgap.stops.isNameChar)
    rwa [hgap.dropWhile hmid]
  obtain ⟨c, hc, -, tail, htail⟩ := op.exists_head hw
  have hrefuses {heads : List Char} {sign : Parser Unit} {p : Parser Formula}
      {build : Formula → Formula} (hopens : Opens heads sign)
      (hheads : (op.heads.all fun c => !heads.contains c) = true) :
      Refuses (applied sign p build) (w.toList ++ (gap ++ mid)) := by
    apply refuses_applied (hopens _ _)
    rw [htail]
    intro d hd
    cases hd
    simpa using List.all_eq_true.1 hheads c hc
  cases op
  · exact happlied.orElse
  · exact (hrefuses opens_notSign rfl).orElse_reads happlied.orElse
  · apply (hrefuses opens_notSign rfl).orElse_reads
    exact (hrefuses (opens_word 'X' rfl) rfl).orElse_reads happlied.orElse
  · apply (hrefuses opens_notSign rfl).orElse_reads
    apply (hrefuses (opens_word 'X' rfl) rfl).orElse_reads
    exact (hrefuses opens_eventuallySign rfl).orElse_reads happlied.orElse

theorem Writes.head (h : Writes n t cs) : ∀ c ∈ (cs ++ rest).head?, isBlank c = false := by
  induction h generalizing rest with
  | atom h =>
      obtain ⟨word, args, hname, hnamed, -⟩ := propositionText_eq_some h
      obtain ⟨c, tail, rfl, hletter⟩ := hnamed.head
      simp [hname, isBlank_of_isLetter hletter]
  | top => simp [isBlank]
  | bot => simp [isBlank]
  | @unary n op t w gap cs hw hgap ht ih =>
      obtain ⟨c, -, hblank, tail, htail⟩ := op.exists_head hw
      simp [htail, hblank]
  | binary hn hw hgap hgap' hl hr ihl ihr =>
      rw [List.append_assoc]
      exact ihl
  | enclosed hn hgap hgap' h ih => simp [isBlank]

def Ends (n : Nat) (rest : List Char) : Prop :=
  ∀ op : BinaryOp, n ≤ op.level → Refuses (between op.sign) rest

/-- Nothing goes on here that belongs to the right operand of an operator on the level or above. -/
def Closes (n : Nat) (rest : List Char) : Prop :=
  ∀ op : BinaryOp, n ≤ op.level → Ends op.rightLevel rest

theorem Ends.refuses_continuation {expr : Nat → Parser Formula} {f : Formula} (h : Ends n rest) :
    Refuses (continuation expr n f grammar.binaries) rest := by
  apply Precedence.refuses_continuation
  rw [BinaryOp.binaries_eq, List.forall_mem_map]
  exact fun op _ => h op

theorem Ends.closes (h : Ends n rest) : Closes n rest := by
  intro op hop op' hop'
  have : op.level ≤ op.rightLevel := by cases op <;> decide
  exact h op' (by omega)

theorem closes_operator {op : BinaryOp} (hw : w ∈ op.spellings) (hgap : Gap gap) :
    Closes op.leftLevel (gap ++ (w.toList ++ rest)) := by
  intro op' hop' op'' hop''
  apply BinaryOp.refuses_other _ hw hgap
  rintro rfl
  exact absurd hop'' (Nat.not_le.2 (BinaryOp.level_lt_rightLevel hop'))

/-- Read at a level, the text of a tree counts as its formula, from which the expression is
continued. -/
def ReadsOnward (n : Nat) (t : Surface) (cs : List Char) : Prop :=
  ∀ depth least rest value rest', cs.length ≤ depth → least ≤ n → Closes n rest → Stops rest →
    (∀ k, rest.length ≤ k →
      Reads (extend (grammar.expression depth) grammar.binaries least k t.formula)
        rest value rest') →
    ∀ k, (cs ++ rest).length ≤ k → Reads (operand (grammar.expression depth) >>=
      extend (grammar.expression depth) grammar.binaries least k) (cs ++ rest) value rest'

theorem ReadsOnward.expression (h : ReadsOnward n t cs) (hdepth : cs.length ≤ depth)
    (hends : Ends n rest) (hstops : Stops rest) :
    Reads (grammar.expression (depth + 1) n) (cs ++ rest) t.formula rest := by
  have hmore : ∀ k, rest.length ≤ k →
      Reads (extend (grammar.expression depth) grammar.binaries n k t.formula)
        rest t.formula rest :=
    fun k _ => reads_extend_of_refuses hends.refuses_continuation
  exact h depth n rest t.formula rest hdepth le_rfl hends.closes hstops hmore _ le_rfl

theorem readsOnward_of_operand (h : ∀ depth rest, cs.length ≤ depth → Stops rest →
    Reads (operand (grammar.expression depth)) (cs ++ rest) t.formula rest) :
    ReadsOnward n t cs := by
  intro depth least rest value rest' hdepth _ _ hstops hmore k hk
  apply (h depth rest hdepth hstops).bind
  rw [List.length_append] at hk
  exact hmore k (by omega)

/-- The operator after a left operand continues the expression. -/
theorem reads_continuation_operator {op : BinaryOp} {expr : Nat → Parser Formula} {least : Nat}
    {f g : Formula} (hleast : least ≤ op.level) (hw : w ∈ op.spellings) (hgap : Gap gap)
    (hgap' : Gap gap') (hmid : ∀ c ∈ mid.head?, isBlank c = false)
    (hright : Reads (expr op.rightLevel) mid g rest) :
    Reads (continuation expr least f grammar.binaries) (gap ++ (w.toList ++ (gap' ++ mid)))
      (op.build f g) rest := by
  obtain ⟨before, after, hall, hbefore⟩ := List.eq_append_cons_of_mem op.mem_all
  rw [BinaryOp.binaries_eq, hall, List.map_append, List.map_cons]
  refine reads_continuation (b := op.entry) ?_ hleast ?_ hright
  · rw [List.forall_mem_map]
    intro op' hop'
    apply BinaryOp.refuses_other _ hw hgap
    rintro rfl
    exact hbefore hop'
  · have hsign : Reads op.sign ((gap ++ (w.toList ++ (gap' ++ mid))).dropWhile isBlank)
        () (gap' ++ mid) := by
      obtain ⟨c, -, hblank, tail, htail⟩ := op.exists_head hw
      rw [hgap.dropWhile (by simpa [htail] using hblank)]
      exact op.reads_sign hw hgap'
    have hread := reads_between hsign
    rwa [hgap'.dropWhile hmid] at hread

theorem ends_tight : Ends tight rest := by
  intro op hop
  exact absurd hop (by cases op <;> decide)

/-- No operator begins with a closing parenthesis, or where the text is over. -/
theorem ends_of_head (h : ∀ c ∈ (rest.dropWhile isBlank).head?, c = ')') : Ends n rest := by
  intro op _
  apply refuses_between op.opens_sign
  intro c hc
  rw [h c hc]
  cases op <;> decide

/-- The induction is on the way the tree is written. At an operator between operands the left one is
read first, and the operator then continues the expression with the right one, which nothing after
it belongs to. -/
theorem Writes.readsOnward (h : Writes n t cs) : ReadsOnward n t cs := by
  induction h with
  | atom h => exact readsOnward_of_operand fun depth rest _ hstops => reads_operand_atom h hstops
  | top => exact readsOnward_of_operand fun depth rest _ hstops => reads_operand_true hstops
  | bot => exact readsOnward_of_operand fun depth rest _ hstops => reads_operand_false hstops
  | @unary n op t w gap cs hw hgap ht ih =>
      apply readsOnward_of_operand
      intro depth rest hdepth hstops
      have hpos := hgap.length_pos
      simp only [List.length_append] at hdepth
      obtain ⟨depth, rfl⟩ : ∃ d, depth = d + 1 := Nat.exists_eq_succ_of_ne_zero (by omega)
      have hread := ih.expression (by omega : cs.length ≤ depth) ends_tight hstops
      simp only [List.append_assoc]
      exact reads_operand_unary op hw hgap ht.head hread
  | @binary n op l r w gap gap' ls rs hn hw hgap hgap' hl hr ihl ihr =>
      intro depth least rest value rest' hdepth hleast hcloses hstops hmore k hk
      have hpos := hgap.length_pos
      have hlevel : op.level ≤ op.leftLevel := by cases op <;> decide
      simp only [List.append_assoc] at hk ⊢
      simp only [List.length_append] at hdepth
      apply ihl depth least _ value rest' (by omega) (by omega) (closes_operator hw hgap)
        hgap.stops _ k hk
      intro k hk
      simp only [List.length_append] at hk
      obtain ⟨k, rfl⟩ : ∃ m, k = m + 1 := Nat.exists_eq_succ_of_ne_zero (by omega)
      obtain ⟨depth, rfl⟩ : ∃ d, depth = d + 1 := Nat.exists_eq_succ_of_ne_zero (by omega)
      have hright := ihr.expression (by omega : rs.length ≤ depth) (hcloses op hn) hstops
      apply reads_extend_succ (reads_continuation_operator (hleast.trans hn) hw hgap hgap'
        hr.head hright)
      exact hmore k (by omega)
  | @enclosed n op l r gap gap' cs hn hgap hgap' h ih =>
      apply readsOnward_of_operand
      intro depth rest hdepth hstops
      simp only [List.length_cons, List.length_append] at hdepth
      obtain ⟨depth, rfl⟩ : ∃ d, depth = d + 1 := Nat.exists_eq_succ_of_ne_zero (by omega)
      have hclose : (gap' ++ ')' :: rest).dropWhile isBlank = ')' :: rest :=
        hgap'.dropWhile (by simp [isBlank])
      have hends : Ends 0 (gap' ++ ')' :: rest) := ends_of_head (by simp [hclose])
      have hread := ih.expression (by omega : cs.length ≤ depth) hends hgap'.stops
      simp only [List.cons_append, List.append_assoc, List.nil_append]
      exact reads_operand_enclosed (hgap.dropWhile h.head) hread hclose

/-- Every tree can be written. -/
theorem exists_writes (t : Surface) (n : Nat) : ∃ cs, Writes n t cs := by
  have hgap : Gap [' '] := ⟨by simp, by simp [isBlank]⟩
  induction t generalizing n with
  | atom name h => exact ⟨_, .atom h⟩
  | top => exact ⟨_, .top⟩
  | bot => exact ⟨_, .bot⟩
  | unary op t ih =>
      obtain ⟨cs, hcs⟩ := ih tight
      obtain ⟨w, hw⟩ : ∃ w, w ∈ op.spellings := by cases op <;> exact ⟨_, List.mem_cons_self⟩
      exact ⟨_, .unary hw hgap hcs⟩
  | binary op l r ihl ihr =>
      obtain ⟨ls, hls⟩ := ihl op.leftLevel
      obtain ⟨rs, hrs⟩ := ihr op.rightLevel
      obtain ⟨w, hw⟩ : ∃ w, w ∈ op.spellings := by cases op <;> exact ⟨_, List.mem_cons_self⟩
      by_cases hn : n ≤ op.level
      · exact ⟨_, .binary hn hw hgap hgap hls hrs⟩
      · exact ⟨_, .enclosed (Nat.lt_of_not_le hn) hgap hgap
          (.binary (Nat.zero_le _) hw hgap hgap hls hrs)⟩

theorem Writes.reads_whole (h : Writes 0 t cs) {before after : List Char}
    (hbefore : ∀ c ∈ before, isBlank c = true) (hafter : ∀ c ∈ after, isBlank c = true) :
    Reads whole (before ++ (cs ++ after)) t.formula [] := by
  have hblanks : after.dropWhile isBlank = [] := List.dropWhile_eq_nil_iff.2 hafter
  have hends : Ends 0 after := ends_of_head (by simp [hblanks])
  have hstops : Stops after := fun c hc => .inl (hafter c (List.mem_of_mem_head? hc))
  have hread : Reads (grammar.expression ((cs ++ after).length + 1) 0)
      (cs ++ after) t.formula after :=
    h.readsOnward.expression (by simp) hends hstops
  have hrest : Reads (blanks >>= fun _ => pure t.formula) after t.formula [] := by
    apply (reads_blanks after).bind
    rw [hblanks]
    exact reads_pure t.formula []
  apply (reads_blanks _).bind
  rw [(takeWhile_append_of_head hbefore h.head).2]
  exact (parser_reads hread).bind hrest

/-- Every tree has texts, and each of them, with any blanks around it, is parsed as the formula of
the tree. -/
theorem parse_writes (t : Surface) : (∃ cs, Writes 0 t cs) ∧
    ∀ before cs after, (∀ c ∈ before, isBlank c = true) → Writes 0 t cs →
      (∀ c ∈ after, isBlank c = true) →
      parse (String.ofList (before ++ (cs ++ after))) = .ok t.formula := by
  refine ⟨exists_writes t 0, ?_⟩
  intro before cs after hbefore h hafter
  apply Reads.parse_eq_ok
  rw [String.toList_ofList]
  exact h.reads_whole hbefore hafter

def layered : Surface :=
  .binary .iff
    (.binary .implies (.binary .until (.atom "a" (by decide))
      (.binary .release (.atom "Us" (by decide)) .top))
      (.binary .or (.atom "orb" (by decide))
        (.unary .not (.binary .implies (.atom "x'" (by decide)) .bot))))
    (.unary .always (.unary .eventually (.atom "on(p, (q))" (by decide))))

def layeredText : String := "a\tU  Us V true -> orb | not ( x' -> false\n) <-> [] F on(p, (q))"

theorem writes_layered : Writes 0 layered layeredText.toList := by
  have space : Gap [' '] := ⟨by simp, by simp [isBlank]⟩
  have spaces : Gap [' ', ' '] := ⟨by simp, by simp [isBlank]⟩
  have tab : Gap ['\t'] := ⟨by simp, by simp [isBlank]⟩
  have newline : Gap ['\n'] := ⟨by simp, by simp [isBlank]⟩
  have huntil : "U" ∈ BinaryOp.until.spellings := by decide
  have hrelease : "V" ∈ BinaryOp.release.spellings := by decide
  have himplies : "->" ∈ BinaryOp.implies.spellings := by decide
  have hor : "|" ∈ BinaryOp.or.spellings := by decide
  have hiff : "<->" ∈ BinaryOp.iff.spellings := by decide
  have hnot : "not" ∈ UnaryOp.not.spellings := by decide
  have halways : "[]" ∈ UnaryOp.always.spellings := by decide
  have heventually : "F" ∈ UnaryOp.eventually.spellings := by decide
  obtain ⟨cs, hcs, htext⟩ : ∃ cs, Writes 0 layered cs ∧ cs = layeredText.toList :=
    ⟨_, .binary (by decide) hiff space space
      (.binary (by decide) himplies space space
        (.binary (by decide) huntil tab spaces (.atom _)
          (.binary (by decide) hrelease space space (.atom _) .top))
        (.binary (by decide) hor space space (.atom _) (.unary hnot space
          (.enclosed (by decide) space newline
            (.binary (by decide) himplies space space (.atom _) .bot)))))
      (.unary halways space (.unary heventually space (.atom _))), by simp [layeredText]⟩
  exact htext ▸ hcs

theorem parse_layered : Writes 0 layered layeredText.toList ∧
    parse (String.ofList ([' '] ++ (layeredText.toList ++ ['\n']))) = .ok layered.formula :=
  ⟨writes_layered, (parse_writes layered).2 _ _ _ (by simp [isBlank]) writes_layered
    (by simp [isBlank])⟩

end Formula

end TemporalCheck
