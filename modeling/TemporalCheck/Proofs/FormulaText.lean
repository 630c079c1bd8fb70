import TemporalCheck.Formula.Parser
import TemporalCheck.Formula.Printer
import TemporalCheck.Proofs.Canonical
import TemporalCheck.Proofs.Grammar

namespace TemporalCheck

namespace Formula

open Grammar Grammar.Parser Grammar.Precedence

variable {f g : Formula} {fs : List Formula} {cs mid rest name args : List Char} {w : String}

def Stops (rest : List Char) : Prop := ∀ c ∈ rest.head?, isBlank c = true ∨ c = ')'

theorem isNameChar_of_isBlank {c : Char} (h : isBlank c = true) : isNameChar c = false := by
  simp only [isBlank, Bool.or_eq_true, beq_iff_eq] at h
  rcases h with ((rfl | rfl) | rfl) | rfl <;> decide

theorem Stops.isNameChar (h : Stops rest) : ∀ c ∈ rest.head?, isNameChar c = false := by
  intro c hc
  rcases h c hc with hblank | rfl
  · exact isNameChar_of_isBlank hblank
  · decide

theorem closing_eq_some {depth : Nat} {a : List Char} (h : closing depth cs = some (a, rest)) :
    cs = a ++ rest ∧ ∀ rest', closing depth (a ++ rest') = some (a, rest') := by
  fun_induction closing depth cs generalizing a rest with
  | case1 => cases h
  | case2 depth cs ih | case4 depth cs ih =>
      obtain ⟨⟨b, r⟩, hb, heq⟩ := Option.map_eq_some_iff.1 h
      cases heq
      obtain ⟨rfl, hall⟩ := ih hb
      exact ⟨rfl, fun rest' => by simp [closing, hall]⟩
  | case3 cs =>
      cases h
      exact ⟨rfl, fun rest' => rfl⟩
  | case5 depth c cs hopen hzero hsucc ih =>
      obtain ⟨⟨b, r⟩, hb, heq⟩ := Option.map_eq_some_iff.1 h
      cases heq
      obtain ⟨rfl, hall⟩ := ih hb
      exact ⟨rfl, fun rest' => by simp [closing, hall]⟩

def Enclosed (args : List Char) : Prop :=
  args = [] ∨ ∃ a, args = '(' :: a ∧ ∀ rest, closing 0 (a ++ rest) = some (a, rest)

theorem enclosed_arguments (cs : List Char) : Enclosed (arguments cs).1 := by
  fun_cases arguments cs with
  | case1 cs a rest h => exact .inr ⟨a, rfl, (closing_eq_some h).2⟩
  | case2 cs h => exact .inl rfl
  | case3 cs h => exact .inl rfl

theorem Enclosed.arguments_append (h : Enclosed args) (hrest : Stops rest) :
    arguments (args ++ rest) = (args, rest) := by
  rcases h with rfl | ⟨a, rfl, hall⟩
  · rw [List.nil_append, arguments]
    rintro cs rfl
    rcases hrest '(' rfl with h | h <;> cases h
  · simp [arguments, hall rest]

structure Named (name : List Char) : Prop where
  letter : name.head?.any isLetter = true
  chars : ∀ c ∈ name, isNameChar c = true
  free : String.ofList name ∉ reserved

theorem Named.head (h : Named name) : ∃ c tail, name = c :: tail ∧ isLetter c = true := by
  cases name with
  | nil => cases h.letter
  | cons c tail => exact ⟨c, tail, rfl, h.letter⟩

theorem propositionText_eq_some {text : List Char} (h : propositionText cs = some (text, rest)) :
    ∃ name args, text = name ++ args ∧ Named name ∧ Enclosed args := by
  simp only [propositionText] at h
  split at h
  · rename_i hname
    simp only [Bool.and_eq_true, Bool.not_eq_true', List.contains_eq_mem,
      decide_eq_false_iff_not] at hname
    cases h
    exact ⟨_, _, rfl, ⟨hname.1, fun c => List.mem_takeWhile_imp, hname.2⟩, enclosed_arguments _⟩
  · cases h

theorem Named.takeWhile_append (h : Named name) (hargs : Enclosed args) (hrest : Stops rest) :
    (name ++ (args ++ rest)).takeWhile isNameChar = name ∧
      (name ++ (args ++ rest)).dropWhile isNameChar = args ++ rest := by
  apply takeWhile_append_of_head h.chars
  rcases hargs with rfl | ⟨a, rfl, -⟩
  · exact hrest.isNameChar
  · intro c hc
    cases hc
    decide

theorem propositionText_append (hname : Named name) (hargs : Enclosed args) (hrest : Stops rest) :
    propositionText (name ++ (args ++ rest)) = some (name ++ args, rest) := by
  obtain ⟨htake, hdrop⟩ := hname.takeWhile_append hargs hrest
  simp only [propositionText, htake, hdrop, hargs.arguments_append hrest]
  rw [if_pos]
  simp [hname.letter, hname.free]

/-- A text that is read as a proposition to its end. -/
def IsAtom (name : String) : Prop := propositionText name.toList = some (name.toList, [])

instance decidableIsAtom (name : String) : Decidable (IsAtom name) :=
  inferInstanceAs (Decidable (_ = _))

theorem isAtom_of_propositionText {text : List Char} (h : propositionText cs = some (text, rest)) :
    IsAtom (String.ofList text) := by
  obtain ⟨name, args, rfl, hname, hargs⟩ := propositionText_eq_some h
  have hstops : Stops [] := by simp [Stops]
  simpa [IsAtom] using propositionText_append hname hargs hstops

theorem reads_endOfWord (h : ∀ c ∈ rest.head?, isNameChar c = false) :
    Reads endOfWord rest () rest :=
  reads_notBefore (refuses_oneOf h)

theorem reads_word (w : String) (h : ∀ c ∈ rest.head?, isNameChar c = false) :
    Reads (word w) (w.toList ++ rest) () rest := (reads_symbol w rest).bind (reads_endOfWord h)

theorem refuses_word (hw : ∀ c ∈ w.toList, isNameChar c = true)
    (h : cs.takeWhile isNameChar ≠ w.toList) :
    Refuses (word w) cs := refuses_symbol_of_takeWhile hw h

theorem opens_word (head : Char) {tail : List Char} (h : w.toList = head :: tail) :
    Opens [head] (word w) :=
  (opens_symbol head h).bind

theorem opens_notSign : Opens ['!', '~', 'n'] notSign :=
  (opens_symbol '!' rfl).orElse ((opens_symbol '~' rfl).orElse (opens_word 'n' rfl))

theorem opens_orSign : Opens ['|', 'o'] orSign :=
  ((opens_symbol '|' rfl).orElse ((opens_symbol '|' rfl).orElse (opens_word 'o' rfl))).mono
    (by simp)

theorem opens_andSign : Opens ['&', 'a'] andSign :=
  ((opens_symbol '&' rfl).orElse ((opens_symbol '&' rfl).orElse (opens_word 'a' rfl))).mono
    (by simp)

theorem opens_eventuallySign : Opens ['F', '<'] eventuallySign :=
  (opens_word 'F' rfl).orElse (opens_symbol '<' rfl)

theorem opens_alwaysSign : Opens ['G', '['] alwaysSign :=
  (opens_word 'G' rfl).orElse (opens_symbol '[' rfl)

theorem opens_releaseSign : Opens ['R', 'V'] releaseSign :=
  ((opens_symbol 'R' rfl).orElse (opens_symbol 'V' rfl)).bind

theorem reads_applied {sign : Parser Unit} {operand : Parser Formula} {build : Formula → Formula}
    (hsign : Reads sign cs () mid) (hoperand : Reads operand (mid.dropWhile isBlank) f rest) :
    Reads (applied sign operand build) cs (build f) rest :=
  hsign.bind ((reads_blanks mid).bind
    (hoperand.bind (f := fun f => pure (build f)) (reads_pure _ _)))

theorem refuses_applied {sign : Parser Unit} {operand : Parser Formula} {build : Formula → Formula}
    (h : Refuses sign cs) : Refuses (applied sign operand build) cs := h.bind

def heads : Nat → List Char
  | 0 => ['<']
  | 1 => ['-']
  | 2 => ['|', 'o']
  | 3 => ['&', 'a']
  | _ => ['U', 'R', 'V', 'W']

theorem reads_between {sign : Parser Unit} (h : Reads sign (cs.dropWhile isBlank) () mid) :
    Reads (between sign) cs () (mid.dropWhile isBlank) :=
  (reads_blanks cs).bind (h.bind (reads_blanks mid))

theorem refuses_between {sign : Parser Unit} {heads : List Char} (hsign : Opens heads sign)
    (h : ∀ c ∈ (cs.dropWhile isBlank).head?, c ∉ heads) : Refuses (between sign) cs :=
  (reads_blanks cs).bind_refuses (hsign _ h).bind

theorem refuses_token {b : Binary Formula} (hb : b ∈ grammar.binaries)
    (h : ∀ c ∈ (cs.dropWhile isBlank).head?, c ∉ heads b.level) : Refuses b.token cs := by
  simp only [grammar, List.mem_cons, List.not_mem_nil, or_false] at hb
  rcases hb with rfl | rfl | rfl | rfl | rfl | rfl | rfl
  · exact refuses_between (opens_symbol '<' rfl) h
  · exact refuses_between (opens_symbol '-' rfl) h
  · exact refuses_between opens_orSign h
  · exact refuses_between opens_andSign h
  · exact refuses_between ((opens_word 'U' rfl).mono (by decide)) h
  · exact refuses_between (opens_releaseSign.mono (by decide)) h
  · exact refuses_between ((opens_word 'W' rfl).mono (by decide)) h

section

variable {expr : Nat → Parser Formula}

theorem reads_operand_of_primary
    (hhead : ∀ c ∈ cs.head?, c ∉ ['!', '~', 'n', 'X', 'F', '<', 'G', '['])
    (h : Reads (primary (expr 0)) cs g rest) : Reads (operand expr) cs g rest := by
  have hsign {heads : List Char} {sign : Parser Unit} (hopens : Opens heads sign)
      (hsub : heads ⊆ ['!', '~', 'n', 'X', 'F', '<', 'G', '[']) : Refuses sign cs :=
    hopens.mono hsub cs hhead
  refine (refuses_applied (hsign opens_notSign (by decide))).orElse_reads ?_
  refine (refuses_applied (hsign (opens_word 'X' rfl) (by decide))).orElse_reads ?_
  refine (refuses_applied (hsign opens_eventuallySign (by decide))).orElse_reads ?_
  exact (refuses_applied (hsign opens_alwaysSign (by decide))).orElse_reads h

theorem reads_operand_prop (hname : Named name) (hargs : Enclosed args) (hrest : Stops rest) :
    Reads (operand expr) (name ++ (args ++ rest)) (.prop (String.ofList (name ++ args))) rest := by
  have hword : ∀ w ∈ reserved, Refuses (word w) (name ++ (args ++ rest)) := by
    intro w hw
    have hnames : (reserved.all fun w => w.toList.all isNameChar) = true := rfl
    refine refuses_word (List.all_eq_true.1 (List.all_eq_true.1 hnames w hw)) fun heq =>
      hname.free ?_
    rw [(hname.takeWhile_append hargs hrest).1] at heq
    rwa [heq, String.ofList_toList]
  obtain ⟨c, tail, rfl, hletter⟩ := hname.head
  have hsymbol (s : String) (head : Char) {more : List Char} (hs : s.toList = head :: more)
      (hhead : isLetter head = false) : Refuses (symbol s) (c :: tail ++ (args ++ rest)) := by
    refine opens_symbol head hs _ fun d hd hmem => ?_
    cases hd
    rw [List.mem_singleton.1 hmem, hhead] at hletter
    cases hletter
  have hnot : Refuses notSign (c :: tail ++ (args ++ rest)) :=
    (hsymbol "!" '!' rfl rfl).orElse ((hsymbol "~" '~' rfl rfl).orElse (hword "not" (by decide)))
  have heventually : Refuses eventuallySign (c :: tail ++ (args ++ rest)) :=
    (hword "F" (by decide)).orElse (hsymbol "<>" '<' rfl rfl)
  have halways : Refuses alwaysSign (c :: tail ++ (args ++ rest)) :=
    (hword "G" (by decide)).orElse (hsymbol "[]" '[' rfl rfl)
  refine (refuses_applied hnot).orElse_reads
    ((refuses_applied (hword "X" (by decide))).orElse_reads ?_)
  refine (refuses_applied heventually).orElse_reads ((refuses_applied halways).orElse_reads ?_)
  refine (hword "true" (by decide)).bind.orElse_reads
    ((hword "false" (by decide)).bind.orElse_reads ?_)
  refine Reads.orElse fun offset => ⟨offset + (c :: tail ++ args).length, ?_⟩
  simp only [proposition, propositionText_append hname hargs hrest]

theorem reads_operand_atom {p : String} (hp : IsAtom p) (hrest : Stops rest) :
    Reads (operand expr) (p.toList ++ rest) (.prop p) rest := by
  obtain ⟨name, args, hname, hnamed, hargs⟩ := propositionText_eq_some hp
  have hread : Reads (operand expr) _ _ rest := reads_operand_prop hnamed hargs hrest
  rwa [← List.append_assoc, ← hname, String.ofList_toList] at hread

theorem reads_operand_true (hrest : Stops rest) :
    Reads (operand expr) ("true".toList ++ rest) .top rest := by
  refine reads_operand_of_primary (by simp) ?_
  exact ((reads_word "true" hrest.isNameChar).bind (f := fun _ => pure top) (reads_pure _ _)).orElse

theorem reads_operand_false (hrest : Stops rest) :
    Reads (operand expr) ("false".toList ++ rest) .bot rest := by
  refine reads_operand_of_primary (by simp) ?_
  refine (opens_word 't' rfl _ (by simp)).bind.orElse_reads ?_
  exact ((reads_word "false" hrest.isNameChar).bind (f := fun _ => pure bot)
    (reads_pure _ _)).orElse

theorem isNameChar_blank : ∀ c ∈ (' ' :: rest).head?, isNameChar c = false := by
  intro c hc
  cases hc
  decide

theorem reads_operand_neg (h : Reads (expr tight) (mid.dropWhile isBlank) g rest) :
    Reads (operand expr) ('!' :: mid) (.neg g) rest :=
  (reads_applied (reads_symbol "!" mid).orElse h).orElse

theorem reads_operand_next (h : Reads (expr tight) (mid.dropWhile isBlank) g rest) :
    Reads (operand expr) ('X' :: ' ' :: mid) (.next g) rest := by
  refine (refuses_applied (opens_notSign _ (by simp))).orElse_reads ?_
  exact (reads_applied (reads_word "X" isNameChar_blank) h).orElse

/-- An expression in parentheses is an operand. -/
theorem reads_operand_enclosed {start : List Char} (hstart : cs.dropWhile isBlank = start)
    (h : Reads (expr 0) start g mid) (hmid : mid.dropWhile isBlank = ')' :: rest) :
    Reads (operand expr) ('(' :: cs) g rest := by
  have hproposition : Refuses proposition ('(' :: cs) := fun offset => rfl
  refine reads_operand_of_primary (by simp) ?_
  refine (opens_word 't' rfl _ (by simp)).bind.orElse_reads ?_
  refine (opens_word 'f' rfl _ (by simp)).bind.orElse_reads (hproposition.orElse_reads ?_)
  have hclose : Reads (blanks >>= fun _ => symbol ")" >>= fun _ => pure g) mid g rest := by
    apply (reads_blanks mid).bind
    rw [hmid]
    exact (reads_symbol ")" rest).bind (reads_pure g rest)
  subst hstart
  exact (reads_symbol "(" cs).bind ((reads_blanks cs).bind (h.bind hclose))

end

/-- The formulas that a text can give. -/
abbrev Legible : Formula → Prop := Gathered IsAtom fun _ => True

theorem Legible.signed (h : f.Legible) (positive : Bool) : (f.signed positive).Legible := by
  refine Gathered.signed (fun _ _ => Gathered.part) (fun p hp => ?_) (fun _ => trivial) h positive
  cases hp with
  | prop hp => exact hp

theorem legible_build {b : Binary Formula} (hb : b ∈ grammar.binaries) (hf : f.Legible)
    (hg : g.Legible) : (b.build f g).Legible := by
  have hor {f g : Formula} (hf : f.Legible) (hg : g.Legible) : (Formula.or [f, g]).Legible :=
    .or (by simp [hf, hg])
  have hand {f g : Formula} (hf : f.Legible) (hg : g.Legible) : (Formula.and [f, g]).Legible :=
    .and (by simp [hf, hg])
  simp only [grammar, List.mem_cons, List.not_mem_nil, or_false] at hb
  rcases hb with rfl | rfl | rfl | rfl | rfl | rfl | rfl
  · exact hand (hor (.neg hf trivial) hg) (hor (.neg hg trivial) hf)
  · exact hor (.neg hf trivial) hg
  · exact hor hf hg
  · exact hand hf hg
  · exact .till hf hg
  · exact .release hf hg
  · exact .release hg (hor hf hg)

theorem yields_applied {sign : Parser Unit} {p : Parser Formula} {build : Formula → Formula}
    (hp : Yields Legible p) (hbuild : ∀ f, Legible f → Legible (build f)) :
    Yields Legible (applied sign p build) :=
  yields_after fun _ => yields_after fun _ => hp.bind fun f hf => yields_pure (hbuild f hf)

theorem yields_proposition : Yields Legible proposition := by
  intro c f c' hread
  rw [proposition] at hread
  split at hread
  · rename_i h
    cases hread
    exact .prop (isAtom_of_propositionText h)
  · cases hread

theorem yields_operand {expr : Nat → Parser Formula} (h : ∀ level, Yields Legible (expr level)) :
    Yields Legible (operand expr) := by
  refine (yields_applied (h tight) fun f hf => .neg hf trivial).orElse ?_
  refine (yields_applied (h tight) fun f => .next).orElse ?_
  refine (yields_applied (h tight) fun f => .till .top).orElse ?_
  refine (yields_applied (h tight) fun f => .release .bot).orElse ?_
  refine (yields_after fun _ => yields_pure .top).orElse ?_
  refine (yields_after fun _ => yields_pure .bot).orElse (yields_proposition.orElse ?_)
  refine yields_after fun _ => yields_after fun _ => (h 0).bind fun f hf => ?_
  exact yields_after fun _ => yields_after fun _ => yields_pure hf

theorem legible_of_parse {t : String} (h : parse t = .ok f) : f.Legible := by
  have hgrammar : Yields Legible grammar.parser := fun c =>
    yields_expression (fun expr => yields_operand) (fun b hb x y => legible_build hb) _ 0 c
  have hwhole : Yields Legible whole :=
    yields_after fun _ => hgrammar.bind fun f hf => yields_after fun _ => yields_pure hf
  exact hwhole.of_parse h

theorem isBlank_of_isLetter {c : Char} (h : isLetter c = true) : isBlank c = false := by
  by_contra hblank
  have hname := isNameChar_of_isBlank (Bool.eq_true_of_not_eq_false hblank)
  simp [isNameChar, h] at hname

theorem Legible.dropWhile_text (h : f.Legible) (rest : List Char) :
    (f.text.toList ++ rest).dropWhile isBlank = f.text.toList ++ rest := by
  cases h with
  | @prop p hp =>
      obtain ⟨name, args, hname, hnamed, hargs⟩ := propositionText_eq_some hp
      obtain ⟨c, tail, rfl, hletter⟩ := hnamed.head
      simp [text, hname, isBlank_of_isLetter hletter]
  | @conj s hmembers hflat htwo | @disj s hmembers hflat htwo =>
      cases hs : s.toList with
      | nil => simp [hs] at htwo
      | cons f fs => simp [text, isBlank]
  | _ => simp [text, isBlank]

theorem toList_joinWith (separator : String) (f : Formula) (fs : List Formula) :
    (joinWith separator (f.text :: texts fs)).toList =
      f.text.toList ++ fs.flatMap fun g => separator.toList ++ g.text.toList := by
  induction fs generalizing f with
  | nil => simp [texts, joinWith]
  | cons g fs ih => simp [texts, joinWith, ih]

/-- Nothing stands above the operators with one operand. -/
theorem reads_expression_tight {depth : Nat}
    (h : Reads (operand (grammar.expression depth)) cs g rest) :
    Reads (grammar.expression (depth + 1) tight) cs g rest := by
  have hlevel : ∀ b ∈ grammar.binaries, ¬ tight ≤ b.level := by decide
  exact reads_expression_of_operand h fun b hb hle => absurd hle (hlevel b hb)

theorem refuses_token_closing {b : Binary Formula} (hb : b ∈ grammar.binaries) :
    Refuses b.token (')' :: rest) := by
  refine refuses_token hb fun c hc => ?_
  cases hc
  rw [heads.eq_def]
  split <;> decide

structure Written (b : Binary Formula) (sign : String) : Prop where
  blank : sign.toList.head? = some ' '
  token : ∀ g : Formula, g.Legible → ∀ cs, Reads b.token (sign.toList ++ (g.text.toList ++ cs)) ()
    (g.text.toList ++ cs)
  first : ∃ before after, grammar.binaries = before ++ b :: after ∧
    ∀ b' ∈ before, ∀ cs, Refuses b'.token (sign.toList ++ cs)

/-- The operators of a chain do not end up in the right operand of the one before. -/
def Chained (b : Binary Formula) (sign : String) : Prop :=
  ∀ b' ∈ grammar.binaries, b.rightLevel ≤ b'.level → ∀ cs, Refuses b'.token (sign.toList ++ cs)

section

variable {b : Binary Formula} {sign : String} {depth : Nat} {left : Formula}

theorem reads_step (hb : Written b sign) (hg : g.Legible)
    (hright : Reads (operand (grammar.expression depth)) (g.text.toList ++ rest) g rest)
    (hstop : ∀ b' ∈ grammar.binaries, b.rightLevel ≤ b'.level → Refuses b'.token rest) :
    Reads (continuation (grammar.expression (depth + 1)) 0 left grammar.binaries)
      (sign.toList ++ (g.text.toList ++ rest)) (b.build left g) rest := by
  obtain ⟨before, after, heq, hbefore⟩ := hb.first
  rw [heq]
  refine reads_continuation (fun b' hb' => hbefore b' hb' _) (Nat.zero_le _) (hb.token g hg rest) ?_
  exact reads_expression_of_operand hright hstop

theorem stops_closing : Stops (')' :: rest) := by
  intro c hc
  cases hc
  exact .inr rfl

theorem Written.stops (hb : Written b sign) : Stops (sign.toList ++ rest) := by
  intro c hc
  rw [List.head?_append, hb.blank] at hc
  cases hc
  exact .inl rfl

theorem Written.stops_chain (hb : Written b sign) (fs : List Formula) :
    Stops ((fs.flatMap fun g => sign.toList ++ g.text.toList) ++ ')' :: rest) := by
  cases fs with
  | nil => exact stops_closing
  | cons g fs => simpa only [List.flatMap_cons, List.append_assoc] using hb.stops

theorem Written.length_le (hb : Written b sign) (fs : List Formula) :
    fs.length ≤ (fs.flatMap fun g => sign.toList ++ g.text.toList).length := by
  have hsign : sign.toList ≠ [] := by
    intro hnil
    cases hnil ▸ hb.blank
  have hpos := List.length_pos_iff.2 hsign
  induction fs with
  | nil => simp
  | cons g fs ih =>
      rw [List.flatMap_cons, List.length_append, List.length_append, List.length_cons]
      omega

/-- Operands with one sign between neighbours are gathered from the left. -/
theorem reads_chain (hb : Written b sign) (hchain : fs.length ≤ 1 ∨ Chained b sign)
    (hlegible : ∀ g ∈ fs, g.Legible)
    (hfs : ∀ g ∈ fs, ∀ rest, Stops rest →
      Reads (operand (grammar.expression depth)) (g.text.toList ++ rest) g rest)
    {n : Nat} (hn : fs.length ≤ n) :
    Reads (extend (grammar.expression (depth + 1)) grammar.binaries 0 n left)
      ((fs.flatMap fun g => sign.toList ++ g.text.toList) ++ ')' :: rest) (fs.foldl b.build left)
        (')' :: rest) := by
  induction fs generalizing left n with
  | nil =>
      exact reads_extend_of_refuses (refuses_continuation fun b' hb' _ => refuses_token_closing hb')
  | cons g fs ih =>
      rw [List.forall_mem_cons] at hfs hlegible
      obtain ⟨n, rfl⟩ : ∃ m, n = m + 1 := Nat.exists_eq_succ_of_ne_zero (by simp at hn; omega)
      simp only [List.flatMap_cons, List.append_assoc]
      refine reads_extend_succ (reads_step hb hlegible.1 (hfs.1 _ (hb.stops_chain fs)) ?_)
        (ih (hchain.imp_left Nat.le_of_succ_le) hlegible.2 hfs.2 (Nat.le_of_succ_le_succ hn))
      intro b' hb' hlevel
      cases fs with
      | nil => exact refuses_token_closing hb'
      | cons g' fs =>
          have hchain := hchain.resolve_left (by simp)
          simpa only [List.flatMap_cons, List.append_assoc] using hchain b' hb' hlevel _

def ReadsBack (f : Formula) : Prop := ∀ depth rest, f.text.toList.length ≤ depth → Stops rest →
  Reads (operand (grammar.expression depth)) (f.text.toList ++ rest) f rest

/-- Operands with one sign between neighbours in parentheses. -/
theorem reads_operand_chain (fs : List Formula) (hb : Written b sign)
    (hchain : fs.length ≤ 1 ∨ Chained b sign) (hlegible : ∀ g ∈ f :: fs, g.Legible)
    (hdepth : ("(" ++ joinWith sign (f.text :: texts fs) ++ ")").toList.length ≤ depth)
    (hread : ∀ g ∈ f :: fs, g.ReadsBack) {value : Formula} (hvalue : fs.foldl b.build f = value) :
    Reads (operand (grammar.expression depth))
      (("(" ++ joinWith sign (f.text :: texts fs) ++ ")").toList ++ rest)
      value rest := by
  subst hvalue
  simp only [String.toList_append, toList_joinWith, List.append_assoc] at hdepth ⊢
  have hshort : ∀ g ∈ f :: fs, g.text.toList.length + 2 ≤ depth := by
    intro g hg
    rcases List.mem_cons.1 hg with rfl | hg
    · simp at hdepth
      omega
    · obtain ⟨before, after, rfl⟩ := List.append_of_mem hg
      simp at hdepth
      omega
  have hmany := hb.length_le fs
  rw [List.forall_mem_cons] at hlegible
  obtain ⟨depth, rfl⟩ : ∃ d, depth = d + 2 := ⟨depth - 2, by have := hshort f (by simp); omega⟩
  refine reads_operand_enclosed (hlegible.1.dropWhile_text _) ?_
    (List.dropWhile_cons_of_neg (by decide))
  refine reads_expression (hread f (by simp) _ _ ?_ (hb.stops_chain fs))
    (reads_chain hb hchain hlegible.2 ?_ ?_)
  · have := hshort f (by simp)
    omega
  · intro g hg rest hrest
    have := hshort g (by simp [hg])
    exact hread g (by simp [hg]) _ _ (by omega) hrest
  · simp only [List.length_append]
    omega

end

theorem refuses_token_spaced {b : Binary Formula} {c : Char} (hb : b ∈ grammar.binaries)
    (hc : isBlank c = false) (h : c ∉ heads b.level) : Refuses b.token (' ' :: c :: cs) := by
  refine refuses_token hb fun d hd => ?_
  rw [dropWhile_spaced hc] at hd
  cases hd
  exact h

theorem reads_between_spaced {sign : Parser Unit} {c : Char} {s : List Char}
    (hc : isBlank c = false) (hg : g.Legible)
    (hsign : ∀ rest, Reads sign (c :: s ++ ' ' :: rest) () (' ' :: rest)) :
    Reads (between sign) (' ' :: c :: s ++ ' ' :: (g.text.toList ++ rest)) ()
      (g.text.toList ++ rest) := by
  have hafter : (' ' :: (g.text.toList ++ rest)).dropWhile isBlank = g.text.toList ++ rest :=
    (List.dropWhile_cons_of_pos rfl).trans (hg.dropWhile_text rest)
  suffices hread : Reads (between sign) (' ' :: c :: s ++ ' ' :: (g.text.toList ++ rest)) ()
      ((' ' :: (g.text.toList ++ rest)).dropWhile isBlank) by rwa [hafter] at hread
  apply reads_between
  rw [List.cons_append, List.cons_append, dropWhile_spaced hc]
  exact hsign (g.text.toList ++ rest)

theorem written_and : Written (.leftToRight 3 (between andSign) fun f g => .and [f, g]) " && " where
  blank := rfl
  token g hg cs := reads_between_spaced (s := ['&']) rfl hg fun _ => (reads_symbol "&&" _).orElse
  first := by
    refine ⟨grammar.binaries.take 3, grammar.binaries.drop 4, rfl, fun b' hb' cs => ?_⟩
    have hhead : ∀ b' ∈ grammar.binaries.take 3, '&' ∉ heads b'.level := by decide
    exact refuses_token_spaced (List.mem_of_mem_take hb') rfl (hhead b' hb')

theorem chained_and : Chained (.leftToRight 3 (between andSign) fun f g => .and [f, g]) " && " := by
  have hhead : ∀ b' ∈ grammar.binaries, 4 ≤ b'.level → '&' ∉ heads b'.level := by decide
  exact fun b' hb' hlevel cs => refuses_token_spaced hb' rfl (hhead b' hb' hlevel)

theorem written_or : Written (.leftToRight 2 (between orSign) fun f g => .or [f, g]) " || " where
  blank := rfl
  token g hg cs := reads_between_spaced (s := ['|']) rfl hg fun _ => (reads_symbol "||" _).orElse
  first := by
    refine ⟨grammar.binaries.take 2, grammar.binaries.drop 3, rfl, fun b' hb' cs => ?_⟩
    have hhead : ∀ b' ∈ grammar.binaries.take 2, '|' ∉ heads b'.level := by decide
    exact refuses_token_spaced (List.mem_of_mem_take hb') rfl (hhead b' hb')

theorem chained_or : Chained (.leftToRight 2 (between orSign) fun f g => .or [f, g]) " || " := by
  have hhead : ∀ b' ∈ grammar.binaries, 3 ≤ b'.level → '|' ∉ heads b'.level := by decide
  exact fun b' hb' hlevel cs => refuses_token_spaced hb' rfl (hhead b' hb' hlevel)

theorem written_until : Written (.rightToLeft 4 (between (word "U")) .until) " U " where
  blank := rfl
  token g hg cs := reads_between_spaced (s := []) rfl hg fun _ => reads_word "U" isNameChar_blank
  first := by
    refine ⟨grammar.binaries.take 4, grammar.binaries.drop 5, rfl, fun b' hb' cs => ?_⟩
    have hhead : ∀ b' ∈ grammar.binaries.take 4, 'U' ∉ heads b'.level := by decide
    exact refuses_token_spaced (List.mem_of_mem_take hb') rfl (hhead b' hb')

theorem written_release : Written (.rightToLeft 4 (between releaseSign) .release) " R " where
  blank := rfl
  token g hg cs := by
    refine reads_between_spaced (s := []) rfl hg fun _ => ?_
    exact (reads_symbol "R" _).orElse.bind (reads_endOfWord isNameChar_blank)
  first := by
    refine ⟨grammar.binaries.take 4 ++ [.rightToLeft 4 (between (word "U")) .until],
      grammar.binaries.drop 6, rfl,
      fun b' hb' cs => ?_⟩
    have hhead : ∀ b' ∈ grammar.binaries.take 4, 'R' ∉ heads b'.level := by decide
    rcases List.mem_append.1 hb' with hb' | hb'
    · exact refuses_token_spaced (List.mem_of_mem_take hb') rfl (hhead b' hb')
    · -- `U` stands on the level of `R`, so that the characters of the level do not tell them apart.
      obtain rfl := List.mem_singleton.1 hb'
      refine refuses_between (opens_word 'U' rfl) ?_
      simp [isBlank]

/-- The induction is on the formula. Each operand of an operator is shorter than the formula, which
leaves one more level of nesting to read it. -/
theorem Legible.readsBack (h : f.Legible) : f.ReadsBack := by
  induction h with
  | prop hp => exact fun depth rest hdepth hrest => reads_operand_atom hp hrest
  | @neg f hf _ ih =>
      intro depth rest hdepth hrest
      obtain ⟨depth, rfl⟩ : ∃ d, depth = d + 1 :=
        Nat.exists_eq_succ_of_ne_zero (by simp [text] at hdepth; omega)
      have hoperand := reads_expression_tight (ih depth rest (by simpa [text] using hdepth) hrest)
      rw [← Legible.dropWhile_text hf] at hoperand
      simpa [text] using reads_operand_neg hoperand
  | @next f hf ih =>
      intro depth rest hdepth hrest
      obtain ⟨depth, rfl⟩ : ∃ d, depth = d + 1 :=
        Nat.exists_eq_succ_of_ne_zero (by simp [text] at hdepth; omega)
      have hoperand := reads_expression_tight
        (ih depth rest (by simp [text] at hdepth; omega) hrest)
      rw [← Legible.dropWhile_text hf] at hoperand
      simpa [text] using reads_operand_next hoperand
  | @conj s hmembers hflat htwo ih =>
      intro depth rest hdepth hrest
      cases hs : s.toList with
      | nil => simp [hs] at htwo
      | cons f fs =>
          rw [hs] at hmembers hflat htwo hdepth ih
          exact reads_operand_chain fs written_and (.inr chained_and) hmembers hdepth ih
            (foldl_gather_eq_wrap (fun _ => rfl) hs hflat htwo)
  | @disj s hmembers hflat htwo ih =>
      intro depth rest hdepth hrest
      cases hs : s.toList with
      | nil => simp [hs] at htwo
      | cons f fs =>
          rw [hs] at hmembers hflat htwo hdepth ih
          exact reads_operand_chain fs written_or (.inr chained_or) hmembers hdepth ih
            (foldl_gather_eq_wrap (fun _ => rfl) hs hflat htwo)
  | @till l r hl hr ihl ihr =>
      intro depth rest hdepth hrest
      exact reads_operand_chain [r] written_until (.inl le_rfl) (by simp [hl, hr]) hdepth
        (by simp [ihl, ihr]) rfl
  | @release l r hl hr ihl ihr =>
      intro depth rest hdepth hrest
      exact reads_operand_chain [r] written_release (.inl le_rfl) (by simp [hl, hr]) hdepth
        (by simp [ihl, ihr]) rfl
  | top => exact fun depth rest hdepth hrest => reads_operand_true hrest
  | bot => exact fun depth rest hdepth hrest => reads_operand_false hrest

theorem Legible.parse_text (h : f.Legible) : parse f.text = .ok f := by
  have hstops : Stops [] := by simp [Stops]
  have htoken : ∀ b ∈ grammar.binaries, Refuses b.token [] := fun b hb => refuses_token hb (by simp)
  have hoperand := h.readsBack _ [] le_rfl hstops
  have hblanks := h.dropWhile_text []
  rw [List.append_nil] at hoperand hblanks
  have hgrammar := parser_reads (reads_expression_of_operand hoperand fun b hb _ => htoken b hb)
  have hwhole : Reads whole f.text.toList f [] := by
    refine (reads_blanks _).bind ?_
    rw [hblanks]
    exact hgrammar.bind ((reads_blanks []).bind (reads_pure f []))
  exact hwhole.parse_eq_ok

/-- What a text is parsed as, its normal form and the normal form of its negation are parsed from
their own texts, and so is every legible formula. -/
theorem parse_text_eq_ok :
    (∀ t f, parse t = .ok f →
      parse f.text = .ok f ∧ parse f.nnf.text = .ok f.nnf ∧ parse f.negate.text = .ok f.negate) ∧
    ∀ g : Formula, g.Legible → parse g.text = .ok g := by
  refine ⟨fun t f h => ?_, fun g h => h.parse_text⟩
  have hlegible := legible_of_parse h
  exact ⟨hlegible.parse_text, (hlegible.signed true).parse_text, (hlegible.signed false).parse_text⟩

def entangled : Formula :=
  iff (.neg (.until (.prop "Xray") (.prop "on(a, (b U c))")))
    (.and [.next (.prop "true.x"), .prop "Fin", .prop "G'"])

theorem parse_entangled : parse "~(Xray U on(a, (b U c))) <-> X true.x&G' and Fin" = .ok entangled ∧
    parse entangled.text = .ok entangled ∧ parse entangled.nnf.text = .ok entangled.nnf ∧
    parse entangled.negate.text = .ok entangled.negate ∧
    parse (Formula.release entangled entangled.nnf).text =
      .ok (.release entangled entangled.nnf) := by
  have h : parse "~(Xray U on(a, (b U c))) <-> X true.x&G' and Fin" = .ok entangled := by
    decide +kernel
  have hlegible := legible_of_parse h
  obtain ⟨hplain, hnnf, hnegate⟩ := parse_text_eq_ok.1 _ _ h
  exact ⟨h, hplain, hnnf, hnegate, parse_text_eq_ok.2 _ (.release hlegible (hlegible.signed true))⟩

end Formula

end TemporalCheck
