import Lineshape.Proofs.Expr.Reading
import Lineshape.Proofs.Formula.Leaves

/-! # Calculations

A calculation is a row of decimal literals, each perhaps behind a sign, with arithmetic operators
between them. However the signs of exponents, the signs of operands and the operators meet in its
text, the tree has in it exactly the literals, signs and operators that were written, in their order
(`Calculation.exists_parse_tokens`). Five levels are enough, however long the row is.

The tree is built up operator by operator: `Phrase.join` puts a new term where its operator belongs,
below those operators at the end that bind less. -/

namespace Lineshape
set_option autoImplicit false

/-! ## Literals -/

namespace Literal

/-- An exponent: nothing, or a mark, perhaps a sign, and digits. -/
def IsExponent (s : Text) : Prop :=
  s = [] ∨ ∃ mark sign digits, s = mark :: (sign ++ digits) ∧ (mark = 'e' ∨ mark = 'E') ∧
    (sign = [] ∨ sign = ['-'] ∨ sign = ['+']) ∧ digits ≠ [] ∧ digits.all Char.isDigit = true

/-- A decimal literal: digits with perhaps a point before, among or behind them, and an exponent. -/
def IsDecimal (s : Text) : Prop :=
  ∃ whole fraction exponent, whole.all Char.isDigit = true ∧ fraction.all Char.isDigit = true ∧
    IsExponent exponent ∧ ((s = whole ++ exponent ∧ whole ≠ []) ∨
      (s = whole ++ '.' :: (fraction ++ exponent) ∧ (whole ≠ [] ∨ fraction ≠ [])))

theorem isSome_natural {s : Text} (hne : s ≠ []) (hs : s.all Char.isDigit = true) :
    (Whole.natural? s).isSome = true := by rw [Whole.natural?, if_pos ⟨hne, hs⟩]; rfl

theorem isSome_exponent {s : Text} (h : IsExponent s) : (exponent? s).isSome = true := by
  rcases h with rfl | ⟨mark, sign, digits, rfl, hmark, hsign, hne, hdigits⟩
  · rfl
  · have hnatural := isSome_natural hne hdigits
    rcases hsign with rfl | rfl | rfl
    · -- a digit is no sign
      obtain ⟨c, digits, rfl⟩ := List.exists_cons_of_ne_nil hne
      rw [List.all_cons, Bool.and_eq_true] at hdigits
      have hminus : c ≠ '-' := by
        rintro rfl
        exact absurd hdigits.1 (by decide)
      have hplus : c ≠ '+' := by
        rintro rfl
        exact absurd hdigits.1 (by decide)
      simp [exponent?, hmark, hminus, hplus, hnatural]
    · obtain ⟨n, hn⟩ := Option.isSome_iff_exists.1 hnatural
      simp [exponent?, hmark, hn]
    · simp [exponent?, hmark, hnatural]

/-- An exponent does not begin with a digit or a point. -/
theorem head_of_exponent {s : Text} (h : IsExponent s) :
    s.takeWhile Char.isDigit = [] ∧ s.dropWhile Char.isDigit = s ∧ ∀ rest, s ≠ '.' :: rest := by
  rcases h with rfl | ⟨mark, sign, digits, rfl, hmark, -⟩
  · exact ⟨rfl, rfl, nofun⟩
  · rcases hmark with rfl | rfl <;> exact ⟨rfl, rfl, fun _ => by simp⟩

theorem isDecimal_iff {s : Text} : IsDecimal s ↔ (decimal? s).isSome = true := by
  constructor
  · rintro ⟨whole, fraction, exponent, hwhole, hfraction, hexponent, hs⟩
    have hsome := isSome_exponent hexponent
    obtain ⟨htake, hdrop, hpoint⟩ := head_of_exponent hexponent
    have hdigits : ∀ {t : Text}, t.all Char.isDigit = true → ∀ u : Text,
        (t ++ u).takeWhile Char.isDigit = t ++ u.takeWhile Char.isDigit ∧
          (t ++ u).dropWhile Char.isDigit = u.dropWhile Char.isDigit := fun ht u =>
      ⟨List.takeWhile_append_of_pos (List.all_eq_true.1 ht),
        List.dropWhile_append_of_pos (List.all_eq_true.1 ht)⟩
    rcases hs with ⟨rfl, hne⟩ | ⟨rfl, hne⟩
    · rw [decimal?, (hdigits hwhole _).1, (hdigits hwhole _).2, htake, hdrop]
      split
      rename_i hafter
      split at hafter
      · exact absurd rfl (hpoint _)
      · cases hafter
        simp [hne, hsome]
    · have htake' : ('.' :: (fraction ++ exponent)).takeWhile Char.isDigit = [] := rfl
      have hdrop' : ('.' :: (fraction ++ exponent)).dropWhile Char.isDigit =
          '.' :: (fraction ++ exponent) := rfl
      rw [decimal?, (hdigits hwhole _).1, (hdigits hwhole _).2, htake', hdrop']
      have hnot : ¬ (whole = [] ∧ fraction = []) := by tauto
      simp [(hdigits hfraction _).1, (hdigits hfraction _).2, htake, hdrop, hnot, hsome]
  · intro h
    obtain ⟨d, hd⟩ := Option.isSome_iff_exists.1 h
    obtain ⟨whole, fraction, rest, e, hwhole, hfraction, he, hs⟩ := decimal_shape hd
    exact ⟨whole, fraction, rest, hwhole, hfraction, exponent_shape he, hs⟩

instance (s : Text) : Decidable (IsDecimal s) := decidable_of_iff _ isDecimal_iff.symm

end Literal

/-! ## Tokens -/

/-- A literal, a sign in front of an operand, or an operator that joins two terms. -/
inductive Token where
  | literal (s : Text)
  | sign (s : Text)
  | joining (op : Text)
deriving DecidableEq

/-- The text of a token if it is a literal. -/
def Token.literal? : Token → Option Text
  | literal s => some s
  | _ => none

namespace Expr

/-- The operator before a node. -/
def joiningTokens (op : Text) : List Token := if op = [] then [] else [.joining op]

mutual
/-- The tokens of a tree from left to right: the name of every leaf, the sign of every node with one
term, and the operator before every node that has one. The name of a chain is no token. -/
def tokens : Expr → List Token
  | ⟨name, op, []⟩ => joiningTokens op ++ [.literal name]
  | ⟨name, op, first :: more⟩ => joiningTokens op ++
      ((if more.isEmpty then [.sign name] else []) ++ (first.tokens ++ tokensOf more))
/-- The tokens of several trees. -/
def tokensOf : List Expr → List Token
  | [] => []
  | e :: more => e.tokens ++ tokensOf more
end

theorem tokensOf_append (front back : List Expr) :
    tokensOf (front ++ back) = tokensOf front ++ tokensOf back := by
  induction front with
  | nil => rfl
  | cons e front ih => rw [List.cons_append, tokensOf, tokensOf, ih, List.append_assoc]

theorem tokens_prefixed (sign op : Text) (operand : Expr) :
    tokens ⟨sign, op, [operand]⟩ = joiningTokens op ++ .sign sign :: operand.tokens := by
  rw [tokens, tokensOf, List.append_nil]
  rfl

theorem tokens_chain (label op : Text) {terms : List Expr} (h : 2 ≤ terms.length) :
    tokens ⟨label, op, terms⟩ = joiningTokens op ++ tokensOf terms := by
  match terms, h with
  | first :: second :: more, _ => rw [tokens, tokensOf]; rfl

theorem filterMap_joiningTokens (op : Text) : (joiningTokens op).filterMap Token.literal? = [] := by
  rw [joiningTokens]
  split <;> rfl

/-- The literals among the tokens are the leaves. -/
theorem leafNames_eq_filterMap (e : Expr) : e.leafNames = e.tokens.filterMap Token.literal? := by
  induction e with
  | node name op terms ih =>
    have hall : ∀ l : List Expr, (∀ e ∈ l, e.leafNames = e.tokens.filterMap Token.literal?) →
        leafNamesOf l = (tokensOf l).filterMap Token.literal? := by
      intro l hl
      induction l with
      | nil => rfl
      | cons e l ih =>
        rw [leafNamesOf, tokensOf, List.filterMap_append, hl e List.mem_cons_self,
          ih fun e' he' => hl e' (List.mem_cons_of_mem e he')]
    cases terms with
    | nil =>
      rw [leafNames, tokens, List.filterMap_append, filterMap_joiningTokens]
      rfl
    | cons first more =>
      have hsign :
          (if more.isEmpty then [Token.sign name] else []).filterMap Token.literal? = [] := by
        split <;> rfl
      rw [leafNames, tokens, List.filterMap_append, List.filterMap_append, List.filterMap_append,
        filterMap_joiningTokens, hsign, List.nil_append, List.nil_append,
        ih first List.mem_cons_self, hall more fun e he => ih e (List.mem_cons_of_mem first he)]

end Expr

/-! ## Phrases of calculations -/

/-- The arithmetic operators. -/
def arithmetic : List Text := [['+'], ['-'], ['*'], ['/'], ['^']]

theorem rank_of_arithmetic {op : Text} (h : op ∈ arithmetic) :
    OperatorTable.standard.isBinary op = true ∧ 6 ≤ OperatorTable.standard.precedence op ∧
      OperatorTable.standard.precedence op ≤ 8 ∧ op ≠ [] := by
  have hall : ∀ op ∈ arithmetic, OperatorTable.standard.isBinary op = true ∧
      6 ≤ OperatorTable.standard.precedence op ∧ OperatorTable.standard.precedence op ≤ 8 ∧
        op ≠ [] := by decide +kernel
  exact hall op h

namespace Phrase

/-- Literals, perhaps behind signs, with arithmetic operators between them. -/
def IsCalculation : Phrase → Prop
  | word _ isOpen => isOpen = false
  | signed _ (word _ isOpen) => isOpen = false
  | joined front op _ term => op ∈ arithmetic ∧ front.IsCalculation ∧ term.IsCalculation
  | _ => False

/-- The tokens of a calculation. -/
def tokens : Phrase → List Token
  | word s _ => [.literal s]
  | signed sign operand => .sign sign :: operand.tokens
  | joined front op _ term => front.tokens ++ .joining op :: term.tokens
  | _ => []

/-- One more term behind an operator. It is joined to the last term wherever this stands behind an
operator that binds less. -/
def join : Phrase → Text → Phrase → Phrase
  | joined front op' spaced last, op, term =>
    if OperatorTable.standard.precedence op' < OperatorTable.standard.precedence op then
      joined front op' spaced (last.join op term)
    else joined (joined front op' spaced last) op false term
  | p, op, term => joined p op false term

variable {p term : Phrase} {op : Text}

theorem text_join (p : Phrase) (op : Text) (term : Phrase) :
    (p.join op term).text = p.text ++ (op ++ term.text) := by
  induction p with
  | joined front op' spaced last _ ih =>
    rw [join]
    split
    · rw [text, ih, text]
      simp only [List.append_assoc]
    · rfl
  | _ => rfl

theorem tokens_join (p : Phrase) (op : Text) (term : Phrase) :
    (p.join op term).tokens = p.tokens ++ .joining op :: term.tokens := by
  induction p with
  | joined front op' spaced last _ ih =>
    rw [join]
    split
    · rw [tokens, ih, tokens, List.append_assoc, List.cons_append]
    · rfl
  | _ => rfl

theorem isCalculation_join (hp : p.IsCalculation) (hop : op ∈ arithmetic)
    (ht : term.IsCalculation) : (p.join op term).IsCalculation := by
  induction p with
  | joined front op' spaced last _ ih =>
    rw [join]
    split
    · exact ⟨hp.1, hp.2.1, ih hp.2.2⟩
    · exact ⟨hop, hp, ht⟩
  | _ => exact ⟨hop, hp, ht⟩

theorem IsCalculation.isOpen_eq (h : p.IsCalculation) : p.isOpen = false := by
  induction p with
  | word s isOpen => exact h
  | signed sign operand ih =>
    cases operand with
    | word s isOpen => exact h
    | _ => exact h.elim
  | joined front op' spaced last _ ih => exact ih h.2.2
  | _ => exact h.elim

/-- Only operators that bind more than one before them are joined below it. -/
theorem lt_rank_join {k : Nat} (hp : p.rank = 0 ∨ k < p.rank)
    (hop : k < OperatorTable.standard.precedence op) :
    (p.join op term).rank = 0 ∨ k < (p.join op term).rank := by
  cases p with
  | joined front op' spaced last =>
    rw [join]
    split
    · exact hp
    · exact .inr hop
  | _ => exact .inr hop

theorem valid_join (hp : p.Valid) (hcalculation : p.IsCalculation) (hop : op ∈ arithmetic)
    (ht : term.Valid) (hrank : term.rank = 0) : (p.join op term).Valid := by
  have hjoined : ∀ q : Phrase, q.Valid → q.IsCalculation →
      (q.rank = 0 ∨ OperatorTable.standard.precedence op ≤ q.rank) →
        (joined q op false term).Valid := by
    intro q hq hcalculation hle
    refine ⟨(rank_of_arithmetic hop).1, hq, ht, hle, .inl hrank, fun ho => ?_⟩
    rw [hcalculation.isOpen_eq] at ho
    cases ho
  induction p with
  | joined front op' spaced last _ ih =>
    rw [join]
    split
    · rename_i hlt
      obtain ⟨hop', hfront, hlast, hfr, hlr, ho⟩ := hp
      exact ⟨hop', hfront, ih hlast hcalculation.2.2, hfr, lt_rank_join hlr hlt, ho⟩
    · rename_i hle
      exact hjoined _ hp hcalculation (.inr (Nat.not_lt.1 hle))
  | _ => exact hjoined _ hp hcalculation (.inl rfl)

/-! ## Levels of a calculation -/

/-- The levels below the operators of a rank: an operand takes two, and each of the three groups of
operators one. -/
def room (rank : Nat) : Nat := if rank = 0 then 2 else 11 - rank

theorem levels_le_room (h : p.IsCalculation) (hp : p.Valid) :
    p.rank ≤ 8 ∧ p.levels ≤ room p.rank := by
  induction p with
  | word s isOpen => exact ⟨Nat.zero_le 8, Nat.le_succ 1⟩
  | signed sign operand ih =>
    cases operand with
    | word s isOpen => exact ⟨Nat.zero_le 8, Nat.le_refl 2⟩
    | _ => exact h.elim
  | joined front op spaced last ihf ihl =>
    obtain ⟨-, hfront, hlast, hfr, hlr, -⟩ := hp
    obtain ⟨-, hle, hge, -⟩ := rank_of_arithmetic h.1
    obtain ⟨hf8, hf⟩ := ihf h.2.1 hfront
    obtain ⟨hl8, hl⟩ := ihl h.2.2 hlast
    rw [rank, levels]
    refine ⟨hge, Nat.max_le.2 ⟨?_, ?_⟩⟩
    · unfold room at hf ⊢
      split_ifs at hf ⊢ <;> omega
    · unfold room at hl ⊢
      split_ifs at hl ⊢ <;> omega
  | _ => exact h.elim

/-! ## The tree of a calculation -/

/-- The tree of a calculation has the tokens of its text, and so have its terms where it is taken
apart at operators of some rank. -/
theorem tokens_spec (h : p.IsCalculation) (hp : p.Valid) :
    (∀ o, (p.tree o).tokens = Expr.joiningTokens o ++ p.tokens) ∧
      ∀ r, r ≠ 0 → termsAt r p ≠ [] ∧ Expr.tokensOf (termsAt r p) = p.tokens := by
  -- a phrase that is not taken apart is a term by itself
  have hwhole : ∀ {q : Phrase} {r : Nat}, q.rank ≠ r →
      (∀ o, (q.tree o).tokens = Expr.joiningTokens o ++ q.tokens) →
      termsAt r q ≠ [] ∧ Expr.tokensOf (termsAt r q) = q.tokens := by
    intro q r hr htree
    rw [termsAt, if_neg hr]
    exact ⟨List.cons_ne_nil _ _, by rw [Expr.tokensOf, htree]; exact List.append_nil _⟩
  induction p with
  | word s isOpen =>
    have htree : ∀ o, ((word s isOpen).tree o).tokens = _ := fun o => by rw [tree, Expr.tokens]
    exact ⟨htree, fun r hr => hwhole hr.symm htree⟩
  | signed sign operand ih =>
    cases operand with
    | word s isOpen =>
      have htree : ∀ o, ((signed sign (word s isOpen)).tree o).tokens = _ := fun o => by
        rw [tree, Expr.tokens_prefixed, (ih h hp.2.1).1]
      exact ⟨htree, fun r hr => hwhole hr.symm htree⟩
    | _ => exact h.elim
  | joined front op spaced last ihf ihl =>
    obtain ⟨hbinary, hfront, hlast, -⟩ := hp
    obtain ⟨-, hge, -, hne⟩ := rank_of_arithmetic h.1
    have hrank : OperatorTable.standard.precedence op ≠ 0 := by omega
    obtain ⟨hterms, htokens⟩ := (ihf h.2.1 hfront).2 _ hrank
    have hall : Expr.tokensOf (termsAt (OperatorTable.standard.precedence op) front ++
        [last.tree op]) = (joined front op spaced last).tokens := by
      rw [Expr.tokensOf_append, htokens, Expr.tokensOf, Expr.tokensOf, (ihl h.2.2 hlast).1,
        Expr.joiningTokens, if_neg hne, List.append_nil]
      rfl
    have htree : ∀ o, ((joined front op spaced last).tree o).tokens =
        Expr.joiningTokens o ++ (joined front op spaced last).tokens := by
      intro o
      rw [tree, ← termsAt, Expr.tokens_chain, hall]
      rw [List.length_append, List.length_singleton]
      exact Nat.succ_le_succ (List.length_pos_iff.2 hterms)
    refine ⟨htree, fun r hr => ?_⟩
    by_cases hsame : OperatorTable.standard.precedence op = r
    · rw [termsAt_joined hsame, ← hsame, hall]
      exact ⟨List.append_ne_nil_of_right_ne_nil _ (List.cons_ne_nil _ _), rfl⟩
    · exact hwhole hsame htree
  | _ => exact h.elim

end Phrase

/-! ## Calculations -/

/-- A decimal literal, perhaps behind a sign. -/
structure Operand where
  /-- The sign, empty if there is none. -/
  sign : Text
  /-- The literal. -/
  literal : Text
  sign_mem : sign ∈ [[], ['+'], ['-']]
  isDecimal : Literal.IsDecimal literal

namespace Operand

variable (x : Operand)

/-- The characters of an operand. -/
def text : Text := x.sign ++ x.literal

/-- The tokens of an operand. -/
def tokens : List Token := (if x.sign = [] then [] else [.sign x.sign]) ++ [.literal x.literal]

/-- An operand as it is put together. -/
def phrase : Phrase :=
  if x.sign = [] then .word x.literal false else .signed x.sign (.word x.literal false)

theorem phrase_spec : x.phrase.Valid ∧ x.phrase.IsCalculation ∧ x.phrase.rank = 0 ∧
    x.phrase.text = x.text ∧ x.phrase.tokens = x.tokens := by
  have hword : Word false x.literal := Word.of_decimal (Literal.isDecimal_iff.1 x.isDecimal)
  rw [phrase, text, tokens]
  split
  · rename_i hnil
    exact ⟨hword, rfl, rfl, by rw [hnil]; rfl, rfl⟩
  · rename_i hne
    have hsign : OperatorTable.standard.isUnary x.sign = true := by
      have hmem := x.sign_mem
      rw [List.mem_cons, List.mem_pair] at hmem
      exact OperatorTable.isUnary_iff.2 (hmem.resolve_left hne)
    exact ⟨⟨hsign, hword, rfl⟩, rfl, rfl, rfl, rfl⟩

end Operand

/-- Operands with arithmetic operators between them. -/
structure Calculation where
  /-- The first operand. -/
  first : Operand
  /-- The operators, and the operand behind each. -/
  more : List ({op : Text // op ∈ arithmetic} × Operand)

namespace Calculation

variable (c : Calculation)

/-- The characters of a calculation, without blanks. -/
def text : Text := c.first.text ++ c.more.flatMap fun p => p.1.1 ++ p.2.text

/-- The tokens of a calculation in their order. -/
def tokens : List Token := c.first.tokens ++ c.more.flatMap fun p => .joining p.1.1 :: p.2.tokens

/-- The literals of a calculation in their order. -/
def literals : List Text := c.first.literal :: c.more.map fun p => p.2.literal

theorem literals_eq_filterMap : c.literals = c.tokens.filterMap Token.literal? := by
  have hoperand : ∀ x : Operand, x.tokens.filterMap Token.literal? = [x.literal] := by
    intro x
    rw [Operand.tokens]
    split <;> rfl
  rw [literals, tokens, List.filterMap_append, hoperand]
  induction c.more with
  | nil => rfl
  | cons p more ih =>
    rw [List.singleton_append, List.cons.injEq] at ih
    rw [List.map_cons, List.flatMap_cons, List.filterMap_append, ← ih.2,
      List.filterMap_cons_none rfl, hoperand]
    rfl

/-- Joining operators one by one leads to a phrase with the text and the tokens of the row. -/
theorem exists_phrase_append {p : Phrase} (hp : p.Valid) (hcalculation : p.IsCalculation)
    (more : List ({op : Text // op ∈ arithmetic} × Operand)) :
    ∃ p' : Phrase, p'.Valid ∧ p'.IsCalculation ∧
      p'.text = p.text ++ more.flatMap (fun p => p.1.1 ++ p.2.text) ∧
      p'.tokens = p.tokens ++ more.flatMap fun p => .joining p.1.1 :: p.2.tokens := by
  induction more generalizing p with
  | nil => exact ⟨p, hp, hcalculation, (List.append_nil _).symm, (List.append_nil _).symm⟩
  | cons next more ih =>
    obtain ⟨⟨op, hop⟩, x⟩ := next
    obtain ⟨hx, hxc, hrank, htext, htokens⟩ := x.phrase_spec
    obtain ⟨p', hp', hpc, htext', htokens'⟩ :=
      ih (Phrase.valid_join hp hcalculation hop hx hrank)
        (Phrase.isCalculation_join hcalculation hop hxc)
    refine ⟨p', hp', hpc, ?_, ?_⟩
    · rw [htext', Phrase.text_join, htext, List.flatMap_cons, List.append_assoc]
    · rw [htokens', Phrase.tokens_join, htokens, List.flatMap_cons, List.append_assoc]

/-- Calculations are read whole: the text is accepted, and the tokens of its tree are the literals,
signs and operators that were written, each once and in their order. In particular the leaves are
the literals. -/
theorem exists_parse_tokens {depth : Nat} (h : 4 ≤ depth) :
    ∃ e, Expr.parse .standard depth c.text = .ok e ∧ e.tokens = c.tokens ∧
      e.leafNames = c.literals := by
  obtain ⟨hx, hxc, -, htext, htokens⟩ := c.first.phrase_spec
  obtain ⟨p, hp, hpc, htext', htokens'⟩ := exists_phrase_append hx hxc c.more
  have hlevels : p.levels ≤ depth + 1 := by
    obtain ⟨-, hle⟩ := Phrase.levels_le_room hpc hp
    have hrank : p.rank = 0 ∨ 6 ≤ p.rank := by
      cases p with
      | joined front op spaced last => exact .inr (rank_of_arithmetic hpc.1).2.1
      | _ => exact .inl rfl
    have hroom : Phrase.room p.rank ≤ 5 := by
      unfold Phrase.room
      split <;> omega
    omega
  have hptext : p.text = c.text := by rw [htext', htext, text]
  have hptokens : p.tokens = c.tokens := by rw [htokens', htokens, tokens]
  have htree : (p.tree []).tokens = c.tokens := by
    rw [(Phrase.tokens_spec hpc hp).1, hptokens]
    rfl
  refine ⟨p.tree [], Phrase.parseLevel_eq hp hlevels ?_, htree, ?_⟩
  · rw [← hptext, (Phrase.trimmed hp).trim_eq]
  · rw [Expr.leafNames_eq_filterMap, htree, literals_eq_filterMap]

/-- Signs of exponents, of operands and between them. -/
theorem exists_parse_tokens_signs : 4 ≤ 4 ∧ ∃ e,
    Expr.parse .standard 4 "-.5e-3--1.^+2E+3*7".toList = .ok e ∧
      e.tokens = [.sign ['-'], .literal ".5e-3".toList, .joining ['-'], .sign ['-'],
        .literal "1.".toList, .joining ['^'], .sign ['+'], .literal "2E+3".toList, .joining ['*'],
        .literal ['7']] ∧
      e.leafNames = [".5e-3".toList, "1.".toList, "2E+3".toList, ['7']] :=
  ⟨by decide, exists_parse_tokens
    ⟨⟨['-'], ".5e-3".toList, by decide, by decide⟩,
      [(⟨['-'], by decide⟩, ⟨['-'], "1.".toList, by decide, by decide⟩),
        (⟨['^'], by decide⟩, ⟨['+'], "2E+3".toList, by decide, by decide⟩),
        (⟨['*'], by decide⟩, ⟨[], ['7'], by decide, by decide⟩)]⟩ (by decide)⟩

/-- Three groups of operators, a sign and the literal behind it need all five levels. -/
example : (Expr.parse .standard 3 "1+2*3^-4".toList).toOption = none := by decide +kernel

end Calculation
end Lineshape
