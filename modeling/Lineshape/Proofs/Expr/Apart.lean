import Lineshape.Proofs.Expr.Formed
import Lineshape.Proofs.Formula.Leaves

/-! # Operators that stay apart

The canonical text of a chain is read with the operators of the chain, unless one of its operators is
another operator of the table together with what is written right behind it. A blank is written only
in front of a term that is an operand behind a sign; a term that merely begins with one gets none.

* `OperatorTable.SignsApart`: in such a table no operator can merge with a sign.
* `Expr.isApart`: no operator outside brackets merges with what is written behind it.
* `Expr.split_of_isApart`: chains whose operators stay apart are split at their own operators. -/

namespace Lineshape
set_option autoImplicit false

/-! ## Operators that stay apart -/

/-- No sign begins with a character that is another operator together with an operator of one
character. -/
def OperatorTable.SignsApart (t : OperatorTable) : Prop :=
  ∀ sign ∈ t.unary, ∀ d ∈ sign.head?,
    (∀ op ∈ t.levels.flatten, op.length = 1 → t.isBinary (op ++ [d]) = false) ∧
      ∀ op ∈ t.unary, op.length = 1 → t.isUnary (op ++ [d]) = false

instance (t : OperatorTable) : Decidable t.SignsApart :=
  inferInstanceAs (Decidable (∀ sign ∈ t.unary, ∀ d ∈ sign.head?, _ ∧ _))

namespace Expr

/-- A term as it is written behind an operator of rank `rank`: with a blank in front if it is an
operand behind a sign, and in brackets if it needs them. -/
def writtenBehind (t : OperatorTable) (rank : Nat) (term : Expr) : Text :=
  (if term.bracketsRemoved.isPrefixed t then [' '] else []) ++
    enclose (needsBrackets t rank term) (term.render t)

mutual
/-- Whether every sign and every operator that stands outside brackets in the canonical text is parted
from what is written behind it. -/
def isApart (t : OperatorTable) : Expr → Bool
  | ⟨_, _, []⟩ => true
  | ⟨name, _, first :: more⟩ =>
    if name = [] ∧ more = [] then first.isApart t
    else if more = [] ∧ t.isUnary name then
      !OperatorTable.merges t.isUnary name (enclose (0 < first.binding t) (first.render t)) &&
        (0 < first.binding t || first.isApart t)
    else if t.precedence name = 0 then true
    else (needsBrackets t (t.precedence name) first || first.isApart t) &&
      areApart t (t.precedence name) more
/-- Whether the operators of the terms behind the first one of a chain are parted from the terms. -/
def areApart (t : OperatorTable) (rank : Nat) : List Expr → Bool
  | [] => true
  | term :: more =>
    !OperatorTable.merges t.isBinary term.op (term.writtenBehind t rank) &&
      (needsBrackets t rank term || term.isApart t) && areApart t rank more
end

variable {t : OperatorTable}

/-! ## Brackets of canonical texts -/

theorem balanced_renderArguments (separator : Nat) {terms : List Expr}
    (h : ∀ e ∈ terms, Balanced e.op ∧ Balanced (e.render t)) :
    Balanced (renderArguments t separator terms) := by
  induction terms with
  | nil => exact .nil
  | cons term more ih =>
    obtain ⟨hop, hterm⟩ := h term List.mem_cons_self
    rw [renderArguments]
    exact (hop.append (balanced_enclose hterm _)).append
      (ih fun e he => h e (List.mem_cons_of_mem term he))

theorem balanced_renderChain (rank : Nat) {terms : List Expr}
    (h : ∀ e ∈ terms, Balanced e.op ∧ Balanced (e.render t)) :
    Balanced (renderChain t rank terms) := by
  induction terms with
  | nil => exact .nil
  | cons term more ih =>
    obtain ⟨hop, hterm⟩ := h term List.mem_cons_self
    have hblank : Balanced (if term.bracketsRemoved.isPrefixed t then [' '] else []) := by
      split <;> decide
    rw [renderChain]
    exact ((hop.append hblank).append (balanced_enclose hterm _)).append
      (ih fun e he => h e (List.mem_cons_of_mem term he))

theorem leafNames_of_mem {e term : Expr} (hterm : term ∈ e.terms) {name : Text}
    (hname : name ∈ term.leafNames) : name ∈ e.leafNames := by
  obtain ⟨_, _, terms⟩ := e
  cases terms with
  | nil => cases hterm
  | cons first more =>
    rw [leafNames, List.mem_append]
    rcases List.mem_cons.1 hterm with rfl | hterm
    · exact .inl hname
    · exact .inr (mem_leafNamesOf.2 ⟨term, hterm, hname⟩)

/-- A leaf that is written as an identifier. -/
def IsWord (name : Text) : Prop := isDotted name = true ∧ name ≠ emptyName

theorem render_word {name op : Text} (h : IsWord name) : render t ⟨name, op, []⟩ = name := by
  rw [render, if_neg h.2]

theorem balanced_op (ht : t.Regular) {op : Text} (h : op = [] ∨ t.isBinary op = true) :
    Balanced op := by
  rcases h with rfl | h
  · exact .nil
  · exact ht.unbracketed.balanced (.inl h)

/-- In the canonical text of a tree all brackets have their partners. -/
theorem Formed.balanced (ht : t.Regular) {e : Expr} (h : Formed t e)
    (hleaves : ∀ name ∈ e.leafNames, IsWord name) : Balanced (e.render t) := by
  induction h with
  | leaf name op =>
    have hname : IsWord name := hleaves name (by simp [leafNames])
    rw [render_word hname]
    exact (Word.of_dotted hname.1).balanced
  | @group op inner _ _ ih =>
    rw [render, if_pos ⟨rfl, rfl⟩]
    exact ih fun name hname => hleaves name (leafNames_of_mem List.mem_cons_self hname)
  | @prefixed sign op operand hsign _ _ ih =>
    rw [render_prefixed ht hsign]
    exact (ht.unbracketed.balanced (.inr hsign)).append (balanced_enclose
      (ih fun name hname => hleaves name (leafNames_of_mem List.mem_cons_self hname)) _)
  | call hhead hne _ hops ih =>
    rw [render_call hhead hne, List.append_assoc]
    exact hhead.balanced.append (Balanced.bracketed (balanced_renderArguments _ fun e he =>
      ⟨balanced_op ht (hops e he), ih e he fun name hname => hleaves name (leafNames_of_mem he hname)⟩))
  | chain hlabel _ ho _ hops hne ihfirst ih =>
    rw [render_chain hlabel hne ho]
    refine (balanced_enclose (ihfirst fun name hname =>
      hleaves name (leafNames_of_mem List.mem_cons_self hname)) _).append
      (balanced_renderChain _ fun e he => ⟨balanced_op ht (.inr (hops e he).1), ih e he fun name hname =>
        hleaves name (leafNames_of_mem (List.mem_cons_of_mem _ he) hname)⟩)

/-! ## Canonical texts are read with their own operators -/

/-- A row of lexemes whose loosest operators, if there are any, have the given rank and are the given
ones. -/
structure Joins (rank : Nat) (ops : List Text) (lexemes : List Lexeme) : Prop where
  least : ∀ op k, Lexeme.operator op k ∈ lexemes → rank ≤ k
  operators : (Lexeme.split rank lexemes).2.map Prod.fst = ops

theorem joins_of_lt {rank : Nat} {lexemes : List Lexeme}
    (h : ∀ op k, Lexeme.operator op k ∈ lexemes → rank < k) : Joins rank [] lexemes where
  least op k hm := Nat.le_of_lt (h op k hm)
  operators := by
    rw [Lexeme.split_of_ne fun op k hm => Nat.ne_of_gt (h op k hm)]
    rfl

theorem Joins.operator {rank : Nat} {ops : List Text} {front back : List Lexeme} {op : Text}
    (h : Joins rank ops front) (hback : ∀ op k, Lexeme.operator op k ∈ back → rank < k) :
    Joins rank (ops ++ [op]) (front ++ Lexeme.operator op rank :: back) where
  least op' k hm := by
    rcases List.mem_append.1 hm with hm | hm
    · exact h.least op' k hm
    · rcases List.mem_cons.1 hm with he | hm
      · cases he
        exact Nat.le_refl rank
      · exact Nat.le_of_lt (hback op' k hm)
  operators := by
    rw [Lexeme.split_append, List.map_append, h.operators, List.map_cons,
      (joins_of_lt hback).operators]

theorem Joins.loosest? {rank : Nat} {ops : List Text} {lexemes : List Lexeme}
    (h : Joins rank ops lexemes) (hne : ops ≠ []) : Lexeme.loosest? lexemes = some rank := by
  have hsplit : (Lexeme.split rank lexemes).2 ≠ [] := by
    intro hnil
    have := h.operators
    rw [hnil] at this
    exact hne this.symm
  obtain ⟨p, others, hp⟩ := List.exists_cons_of_ne_nil hsplit
  exact Lexeme.loosest?_eq_some
    (Lexeme.operator_of_mem_split (p := p) (hp ▸ List.mem_cons_self)) h.least

/-- A term is read in brackets as well as without them, and what its brackets leave open binds more
strongly than the operators around it. -/
theorem exists_readsAs_enclose (ht : t.Regular) {s : Text} {brackets : Bool} {rank : Nat}
    (hs : Balanced s) (h : brackets = false → ∃ lexemes, Lexeme.ReadsAs t s lexemes ∧
      ∀ op k, Lexeme.operator op k ∈ lexemes → rank < k) :
    ∃ lexemes, Lexeme.ReadsAs t (enclose brackets s) lexemes ∧
      ∀ op k, Lexeme.operator op k ∈ lexemes → rank < k := by
  cases brackets with
  | false => exact h rfl
  | true => exact ⟨_, .group ht hs, fun op k hm => by simp at hm⟩

theorem exists_readsAs_writtenBehind (ht : t.Regular) {term : Expr} {rank : Nat}
    (hs : Balanced (term.render t)) (h : needsBrackets t rank term = false →
      ∃ lexemes, Lexeme.ReadsAs t (term.render t) lexemes ∧
        ∀ op k, Lexeme.operator op k ∈ lexemes → rank < k) :
    ∃ lexemes, Lexeme.ReadsAs t (term.writtenBehind t rank) lexemes ∧
      ∀ op k, Lexeme.operator op k ∈ lexemes → rank < k := by
  obtain ⟨lexemes, hread, hrank⟩ := exists_readsAs_enclose ht hs h
  rw [writtenBehind]
  split
  · refine ⟨_, hread.blank ht, fun op k hm => ?_⟩
    rcases List.mem_cons.1 hm with he | hm
    · cases he
    · exact hrank op k hm
  · exact ⟨lexemes, hread, hrank⟩

theorem Head.readsAs (ht : t.Regular) {head s : Text} (h : Head t head) (hs : Balanced s) :
    Lexeme.ReadsAs t (head ++ ('(' :: s ++ [')'])) ((head ++ ('(' :: s ++ [')'])).map .letter) := by
  refine ⟨List.append_ne_nil_of_left_ne_nil h.ne_nil _, fun a ha => ?_⟩
  obtain ⟨b, hread, ho, hq⟩ := h.reads a ha
  obtain ⟨b', hread', hb'⟩ := Lexeme.reads_group ht.unbracketed.2.2 ho hq hs
  refine ⟨b', ?_, hb'⟩
  rw [List.map_append]
  exact hread.trans hread'

/-- Behind a front, terms are read one by one with the operators before them. -/
theorem readsAs_renderChain (ht : t.Regular) {rank : Nat} {more : List Expr}
    (hops : ∀ e ∈ more, t.isBinary e.op = true ∧ t.precedence e.op = rank)
    (happart : areApart t rank more = true)
    (hterms : ∀ e ∈ more, (needsBrackets t rank e || e.isApart t) = true →
      ∃ lexemes, Lexeme.ReadsAs t (e.writtenBehind t rank) lexemes ∧
        ∀ op k, Lexeme.operator op k ∈ lexemes → rank < k)
    {s : Text} {front : List Lexeme} {ops : List Text} (hs : Lexeme.ReadsAs t s front)
    (hfront : Joins rank ops front) :
    ∃ lexemes, Lexeme.ReadsAs t (s ++ renderChain t rank more) lexemes ∧
      Joins rank (ops ++ more.map Expr.op) lexemes := by
  induction more generalizing s front ops with
  | nil => exact ⟨front, by rwa [renderChain, List.append_nil], by rwa [List.map_nil, List.append_nil]⟩
  | cons term more ih =>
    rw [areApart, Bool.and_eq_true, Bool.and_eq_true, Bool.not_eq_true'] at happart
    obtain ⟨⟨hmerges, hterm⟩, hrest⟩ := happart
    obtain ⟨hbinary, hrank⟩ := hops term List.mem_cons_self
    obtain ⟨back, hread, hback⟩ := hterms term List.mem_cons_self hterm
    have hstep := hs.operator ht hbinary hmerges hread
    rw [hrank] at hstep
    obtain ⟨lexemes, hread', hjoins⟩ := ih (fun e he => hops e (List.mem_cons_of_mem term he)) hrest
      (fun e he => hterms e (List.mem_cons_of_mem term he)) hstep (hfront.operator hback)
    refine ⟨lexemes, ?_, ?_⟩
    · rw [renderChain]
      simpa [writtenBehind] using hread'
    · simpa using hjoins

/-- The canonical text of a tree is read as a term. Its operators bind as strongly as the tree at
least, and those of a chain are the ones that join its terms. -/
theorem Formed.readsAs (ht : t.Regular) {e : Expr} (h : Formed t e)
    (hleaves : ∀ name ∈ e.leafNames, IsWord name) (happart : e.isApart t = true) :
    ∃ lexemes, Lexeme.ReadsAs t (e.render t) lexemes ∧
      (∀ op k, Lexeme.operator op k ∈ lexemes → 0 < e.binding t ∧ e.binding t ≤ k) ∧
      (e.isChain t = true → Joins (t.precedence e.name) (e.terms.tail.map Expr.op) lexemes) := by
  -- a term that is written without brackets, seen from the operators around it
  have houter : ∀ {term : Expr} {rank : Nat} {lexemes : List Lexeme},
      needsBrackets t rank term = false →
      (∀ op k, Lexeme.operator op k ∈ lexemes → 0 < term.binding t ∧ term.binding t ≤ k) →
      ∀ op k, Lexeme.operator op k ∈ lexemes → rank < k := by
    intro term rank lexemes hbrackets hlexemes op k hm
    obtain ⟨hpos, hle⟩ := hlexemes op k hm
    rw [needsBrackets, Bool.and_eq_false_iff, decide_eq_false_iff_not, decide_eq_false_iff_not]
      at hbrackets
    omega
  induction h with
  | leaf name op =>
    have hname : IsWord name := hleaves name (by simp [leafNames])
    rw [render_word hname]
    exact ⟨_, .dotted ht hname.1, fun op k hm => by simp at hm, fun hchain => by
      simp [isChain] at hchain⟩
  | @group op inner _ _ ih =>
    rw [isApart, if_pos ⟨rfl, rfl⟩] at happart
    obtain ⟨lexemes, hread, hrank, -⟩ :=
      ih (fun name hname => hleaves name (leafNames_of_mem List.mem_cons_self hname)) happart
    rw [render, if_pos ⟨rfl, rfl⟩, binding_group]
    exact ⟨lexemes, hread, hrank, fun hchain => by simp [isChain] at hchain⟩
  | @prefixed sign op operand hsign hoperand _ ih =>
    have hne := ht.ne_nil (.inr hsign)
    have hwords : ∀ name ∈ operand.leafNames, IsWord name := fun name hname =>
      hleaves name (leafNames_of_mem List.mem_cons_self hname)
    rw [isApart, if_neg fun hn => hne hn.1, if_pos ⟨rfl, hsign⟩, Bool.and_eq_true,
      Bool.not_eq_true'] at happart
    rw [render_prefixed ht hsign]
    obtain ⟨lexemes, hread, hnone⟩ : ∃ lexemes,
        Lexeme.ReadsAs t (enclose (0 < operand.binding t) (operand.render t)) lexemes ∧
          ∀ op k, Lexeme.operator op k ∉ lexemes := by
      cases hbinding : decide (0 < operand.binding t) with
      | true => exact ⟨_, .group ht (hoperand.balanced ht hwords), fun op k hm => by simp at hm⟩
      | false =>
        rw [hbinding, Bool.false_or] at happart
        obtain ⟨lexemes, hread, hrank, -⟩ := ih hwords happart.2
        exact ⟨lexemes, hread, fun op k hm => of_decide_eq_false hbinding (hrank op k hm).1⟩
    refine ⟨_, .sign ht hsign happart.1 hread, fun op k hm => ?_, fun hchain => ?_⟩
    · rcases List.mem_append.1 hm with hm | hm
      · simp at hm
      · exact (hnone op k hm).elim
    · simp [isChain] at hchain
  | @call head op terms hhead hne hterms hops ih =>
    have hbalanced := balanced_renderArguments (t := t) (t.precedence ",".toList) fun e he =>
      ⟨balanced_op ht (hops e he),
        (hterms e he).balanced ht fun name hname => hleaves name (leafNames_of_mem he hname)⟩
    rw [render_call hhead hne, List.append_assoc]
    refine ⟨_, hhead.readsAs ht hbalanced, fun op k hm => by simp at hm, fun hchain => ?_⟩
    rw [isChain, Bool.and_eq_true, hhead.not_operator.2] at hchain
    cases hchain.2
  | @chain label op first more hlabel hfirst ho hmore hops hne ihfirst ih =>
    have hpos : 0 < t.precedence label := OperatorTable.precedence_pos_iff.2 hlabel
    have hlabel' : label ≠ [] := ht.ne_nil (.inl hlabel)
    have hwords : ∀ term ∈ first :: more, ∀ name ∈ term.leafNames, IsWord name :=
      fun term hterm name hname => hleaves name (leafNames_of_mem hterm hname)
    rw [isApart, if_neg fun hn => hne hn.2, if_neg fun hn => hne hn.1, if_neg (Nat.ne_of_gt hpos),
      Bool.and_eq_true] at happart
    obtain ⟨lexemes, hread, hrank⟩ : ∃ lexemes, Lexeme.ReadsAs t
        (enclose (needsBrackets t (t.precedence label) first) (first.render t)) lexemes ∧
        ∀ op k, Lexeme.operator op k ∈ lexemes → t.precedence label < k := by
      have hwords' := hwords first List.mem_cons_self
      refine exists_readsAs_enclose ht (hfirst.balanced ht hwords') fun hbrackets => ?_
      obtain ⟨lexemes, hread, hrank, -⟩ := ihfirst hwords' (by simpa [hbrackets] using happart.1)
      exact ⟨lexemes, hread, houter hbrackets hrank⟩
    obtain ⟨all, hread, hjoins⟩ := readsAs_renderChain ht hops happart.2 (fun e he hterm => by
      have hwords' := hwords e (List.mem_cons_of_mem first he)
      refine exists_readsAs_writtenBehind ht ((hmore e he).balanced ht hwords') fun hbrackets => ?_
      obtain ⟨lexemes, hread, hrank, -⟩ := ih e he hwords' (by simpa [hbrackets] using hterm)
      exact ⟨lexemes, hread, houter hbrackets hrank⟩) hread (joins_of_lt hrank)
    rw [render_chain hlabel hne ho, binding_chain hlabel' hne]
    exact ⟨all, hread, fun op k hm => ⟨hpos, hjoins.least op k hm⟩, fun _ => hjoins⟩

/-! ## Tables whose signs merge with nothing -/

theorem areApart_eq_all (rank : Nat) (terms : List Expr) :
    areApart t rank terms = terms.all fun term =>
      !OperatorTable.merges t.isBinary term.op (term.writtenBehind t rank) &&
        (needsBrackets t rank term || term.isApart t) := by
  induction terms with
  | nil => rfl
  | cons term more ih => rw [areApart, ih, List.all_cons]

/-- A text that begins with no symbol, or with one that a sign begins with. -/
def BeginsAsTerm (t : OperatorTable) (s : Text) : Prop :=
  ∀ d ∈ s.head?, t.isSymbol d = true → ∃ sign ∈ t.unary, d ∈ sign.head?

theorem beginsAsTerm_of_isMark (ht : t.Regular) {c : Char} (hc : Text.isMark c = false) (s : Text) :
    BeginsAsTerm t (c :: s) := by
  intro d hd hsymbol
  cases hd
  rw [ht.isSymbol_eq_false hc] at hsymbol
  cases hsymbol

theorem BeginsAsTerm.append {s : Text} (h : BeginsAsTerm t s) (hne : s ≠ []) (s' : Text) :
    BeginsAsTerm t (s ++ s') := by
  obtain ⟨c, rest, rfl⟩ := List.exists_cons_of_ne_nil hne
  exact h

theorem BeginsAsTerm.enclose (ht : t.Regular) {s : Text} (h : BeginsAsTerm t s)
    (brackets : Bool) : BeginsAsTerm t (enclose brackets s) := by
  cases brackets with
  | false => exact h
  | true => exact beginsAsTerm_of_isMark ht (by decide) _

/-- The canonical text of a tree begins like a term. -/
theorem Formed.beginsAsTerm (ht : t.Regular) {e : Expr} (h : Formed t e)
    (hleaves : ∀ name ∈ e.leafNames, IsWord name) :
    e.render t ≠ [] ∧ BeginsAsTerm t (e.render t) := by
  induction h with
  | leaf name op =>
    have hname : IsWord name := hleaves name (by simp [leafNames])
    rw [render_word hname]
    refine ⟨dotted_ne_nil hname.1, fun d hd hsymbol => ?_⟩
    rw [ht.isSymbol_of_dotted hname.1 (List.mem_of_mem_head? hd)] at hsymbol
    cases hsymbol
  | @group op inner _ _ ih =>
    rw [render, if_pos ⟨rfl, rfl⟩]
    exact ih fun name hname => hleaves name (leafNames_of_mem List.mem_cons_self hname)
  | @prefixed sign op operand hsign _ _ _ =>
    have hne := ht.ne_nil (.inr hsign)
    rw [render_prefixed ht hsign]
    refine ⟨List.append_ne_nil_of_left_ne_nil hne _, ?_⟩
    exact BeginsAsTerm.append (fun d hd _ => ⟨sign, List.contains_iff_mem.1 hsign, hd⟩) hne _
  | call hhead hne _ _ _ =>
    rw [render_call hhead hne, List.append_assoc]
    refine ⟨List.append_ne_nil_of_left_ne_nil hhead.ne_nil _, fun d hd hsymbol => ?_⟩
    obtain ⟨c, rest, rfl, hc⟩ := hhead.first
    cases hd
    rw [hc] at hsymbol
    cases hsymbol
  | @chain label op first more hlabel _ ho _ _ hne ihfirst _ =>
    obtain ⟨hrender, hbegins⟩ := ihfirst fun name hname =>
      hleaves name (leafNames_of_mem List.mem_cons_self hname)
    have henclosed : enclose (needsBrackets t (t.precedence label) first) (first.render t) ≠ [] := by
      rw [Expr.enclose]
      split
      · exact List.cons_ne_nil _ _
      · exact hrender
    rw [render_chain hlabel hne ho]
    exact ⟨List.append_ne_nil_of_left_ne_nil henclosed _, (hbegins.enclose ht _).append henclosed _⟩

/-- In front of a text that begins like a term no operator merges, if no sign can. -/
theorem not_merges (h : t.SignsApart) {op s : Text} (hs : BeginsAsTerm t s) :
    (t.isBinary op = true → OperatorTable.merges t.isBinary op s = false) ∧
      (t.isUnary op = true → OperatorTable.merges t.isUnary op s = false) := by
  have hmerges : ∀ isOperator : Text → Bool,
      (∀ d, isOperator (op ++ [d]) = true → t.isSymbol d = true) →
      (∀ d, (∃ sign ∈ t.unary, d ∈ sign.head?) → op.length = 1 → isOperator (op ++ [d]) = false) →
      OperatorTable.merges isOperator op s = false := by
    intro isOperator hsymbol hno
    rw [← Bool.not_eq_true, OperatorTable.merges, Bool.and_eq_true, Option.any_eq_true]
    rintro ⟨hlength, d, hd, hop⟩
    rw [hno d (hs d hd (hsymbol d hop)) (of_decide_eq_true hlength)] at hop
    cases hop
  have hlast : ∀ d : Char, d ∈ op ++ [d] := fun d =>
    List.mem_append_right op (List.mem_singleton_self d)
  constructor
  · intro hop
    refine hmerges t.isBinary (fun d hd => OperatorTable.isSymbol_of_mem (.inl hd) (hlast d)) ?_
    rintro d ⟨sign, hsign, hd⟩
    obtain ⟨ops, hops, hop⟩ := List.any_eq_true.1 hop
    exact (h sign hsign d hd).1 op (List.mem_flatten.2 ⟨ops, hops, List.contains_iff_mem.1 hop⟩)
  · intro hop
    refine hmerges t.isUnary (fun d hd => OperatorTable.isSymbol_of_mem (.inr hd) (hlast d)) ?_
    rintro d ⟨sign, hsign, hd⟩
    exact (h sign hsign d hd).2 op (List.contains_iff_mem.1 hop)

/-- With such a table the operators of every tree stay apart. -/
theorem Formed.isApart (ht : t.Regular) (hsigns : t.SignsApart) {e : Expr} (h : Formed t e)
    (hleaves : ∀ name ∈ e.leafNames, IsWord name) : e.isApart t = true := by
  induction h with
  | leaf => rw [Expr.isApart]
  | @group op inner _ _ ih =>
    rw [Expr.isApart, if_pos ⟨rfl, rfl⟩]
    exact ih fun name hname => hleaves name (leafNames_of_mem List.mem_cons_self hname)
  | @prefixed sign op operand hsign hoperand _ ih =>
    have hwords : ∀ name ∈ operand.leafNames, IsWord name := fun name hname =>
      hleaves name (leafNames_of_mem List.mem_cons_self hname)
    have hbegins := (hoperand.beginsAsTerm ht hwords).2.enclose ht (0 < operand.binding t)
    rw [Expr.isApart, if_neg fun hn => ht.ne_nil (.inr hsign) hn.1, if_pos ⟨rfl, hsign⟩,
      (not_merges hsigns hbegins).2 hsign, ih hwords, Bool.or_true]
    rfl
  | @call head op terms hhead hne _ _ _ =>
    obtain ⟨first, more, rfl⟩ := List.exists_cons_of_ne_nil hne
    have hsign : ¬ (more = [] ∧ t.isUnary head = true) := fun hn => by
      rw [hhead.not_operator.1] at hn
      cases hn.2
    rw [Expr.isApart, if_neg fun hn => hhead.ne_nil hn.1, if_neg hsign, if_pos hhead.precedence_eq]
  | @chain label op first more hlabel _ _ hmore hops hne ihfirst ih =>
    have hpos : 0 < t.precedence label := OperatorTable.precedence_pos_iff.2 hlabel
    have hwords : ∀ term ∈ first :: more, ∀ name ∈ term.leafNames, IsWord name :=
      fun term hterm name hname => hleaves name (leafNames_of_mem hterm hname)
    rw [Expr.isApart, if_neg fun hn => hne hn.2, if_neg fun hn => hne hn.1,
      if_neg (Nat.ne_of_gt hpos), ihfirst (hwords first List.mem_cons_self), Bool.or_true,
      Bool.true_and, areApart_eq_all, List.all_eq_true]
    intro term hterm
    have hwords' := hwords term (List.mem_cons_of_mem first hterm)
    have hbegins : BeginsAsTerm t (term.writtenBehind t (t.precedence label)) := by
      rw [writtenBehind]
      split
      · exact beginsAsTerm_of_isMark ht (by decide) _
      · exact ((hmore term hterm).beginsAsTerm ht hwords').2.enclose ht _
    rw [(not_merges hsigns hbegins).1 (hops term hterm).1, ih term hterm hwords', Bool.or_true]
    rfl

/-- A chain in a tree of a regular table, whose leaves are dotted identifiers, is read with its own
operators if none of them merges with what is written behind it, in particular if no sign of the table
can be merged: the canonical text of the chain is split at the rank of the chain, and the operators of
this rank are those of the chain, as many of them and in the same order. -/
theorem split_of_isApart (ht : t.Regular) {depth : Nat} {s : Text} {tree e : Expr}
    {path : List Nat} (hparse : parse t depth s = .ok tree) (he : tree.subtreeAt path = some e)
    (hchain : e.isChain t = true)
    (hleaves : ∀ name ∈ e.leafNames, isDotted name = true ∧ name ≠ emptyName)
    (happart : t.SignsApart ∨ e.isApart t = true) :
    ∃ lexemes, Lexeme.ofText t (e.render t) = .ok lexemes ∧
      Lexeme.loosest? lexemes = some (t.precedence e.name) ∧
      (Lexeme.split (t.precedence e.name) lexemes).2.map Prod.fst = e.terms.tail.map Expr.op := by
  have hformed : Formed t e := (formed_of_parseLevel ht hparse).1.subtreeAt he
  have happart : e.isApart t = true := happart.elim (fun h => hformed.isApart ht h hleaves) id
  obtain ⟨lexemes, hread, -, hjoins⟩ := hformed.readsAs ht hleaves happart
  have hops : e.terms.tail.map Expr.op ≠ [] := by
    rw [isChain, Bool.and_eq_true, decide_eq_true_eq] at hchain
    have hlength : 0 < (e.terms.tail.map Expr.op).length := by
      rw [List.length_map, List.length_tail]
      omega
    exact List.length_pos_iff.1 hlength
  exact ⟨lexemes, hread.ofText, (hjoins hchain).loosest? hops, (hjoins hchain).operators⟩

example : OperatorTable.standard.Regular ∧ OperatorTable.standard.SignsApart := by decide +kernel

/-- Operators that stay apart: one of two characters in front of an identifier, and one in front of a
term that does not begin with a sign. Behind the power sign a blank is written. -/
theorem split_of_isApart_signs :
    let t := OperatorTable.ofGroups ["* *-".toList, "^".toList] ["-".toList]
    ∃ e, parse t 5 "a*-b*c^-d".toList = .ok e ∧ e.render t = "a*-b*c^ -d".toList ∧
      ∃ lexemes, Lexeme.ofText t (e.render t) = .ok lexemes ∧
        Lexeme.loosest? lexemes = some (t.precedence e.name) ∧
        (Lexeme.split (t.precedence e.name) lexemes).2.map Prod.fst = e.terms.tail.map Expr.op := by
  intro t
  have hcheck : (parse t 5 "a*-b*c^-d".toList).toOption.any (fun e =>
      e.render t = "a*-b*c^ -d".toList ∧ e.isChain t = true ∧
        (∀ name ∈ e.leafNames, isDotted name = true ∧ name ≠ emptyName) ∧ e.isApart t = true) =
      true := by decide +kernel
  obtain ⟨e, hparse, he⟩ := Result.exists_of_any hcheck
  obtain ⟨hrender, hchain, hleaves, happart⟩ := of_decide_eq_true he
  have hroot : e.subtreeAt [] = some e := rfl
  exact ⟨e, hparse, hrender,
    split_of_isApart (by decide +kernel) hparse hroot hchain hleaves (.inr happart)⟩

/-- A product whose second factor is a power of a signed term: the blank in front of the sign is not
written, and the operator in front of it is read as another one. -/
theorem exists_merged_operator :
    ∃ (t : OperatorTable) (s : Text) (e : Expr) (lexemes : List Lexeme),
      (t.levels.flatten ++ t.unary).Nodup ∧ t.Regular ∧ parse t defaultDepth s = .ok e ∧
      e.isChain t = true ∧ (∀ name ∈ e.leafNames, isDotted name = true ∧ name ≠ emptyName) ∧
      Lexeme.ofText t (e.render t) = .ok lexemes ∧
      (Lexeme.split (t.precedence e.name) lexemes).2.map Prod.fst ≠ e.terms.tail.map Expr.op := by
  let t := OperatorTable.ofGroups ["* *-".toList, "^".toList] ["-".toList]
  have hcheck : (parse t defaultDepth "a* -b^c".toList).toOption.any (fun e =>
      e.isChain t = true ∧ (∀ name ∈ e.leafNames, isDotted name = true ∧ name ≠ emptyName) ∧
        (Lexeme.ofText t (e.render t)).toOption.any (fun lexemes =>
          (Lexeme.split (t.precedence e.name) lexemes).2.map Prod.fst ≠
            e.terms.tail.map Expr.op) = true) = true := by decide +kernel
  obtain ⟨e, hparse, he⟩ := Result.exists_of_any hcheck
  obtain ⟨hchain, hleaves, hscan⟩ := of_decide_eq_true he
  obtain ⟨lexemes, htext, hne⟩ := Result.exists_of_any hscan
  exact ⟨t, _, e, lexemes, by decide +kernel, by decide +kernel, hparse, hchain, hleaves, htext,
    of_decide_eq_true hne⟩

end Expr
end Lineshape
