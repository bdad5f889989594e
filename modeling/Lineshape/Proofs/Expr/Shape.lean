import Lineshape.Proofs.Expr.Level
import Lineshape.Proofs.Expr.Split
import Lineshape.Proofs.Expr.Words

/-! # The shape of parsed trees

What every tree of the standard table looks like, whatever its text: chains have at least two terms
joined by operators of their group, a bracket group holds one node that is no list, signs have one
operand, and the head of a call does not begin with a symbol (`Expr.shaped_of_parseLevel`). -/

namespace Lineshape
set_option autoImplicit false

namespace Expr

/-- A chain of items, the content of a call with several arguments. -/
def isList (e : Expr) : Bool := e.name = [','] && !e.isLeaf

/-- The name of a leaf: the empty one, or the front of a text without operators. -/
def LeafName (name : Text) : Prop :=
  name = emptyName ∨ ∃ tail lexemes, Lexeme.scan .standard {} (name ++ tail) = .ok lexemes ∧
    Lexeme.loosest? lexemes = none

/-- The head of a call. -/
def HeadName (name : Text) : Prop :=
  ∃ c rest, name = c :: rest ∧ OperatorTable.standard.isSymbol c = false

/-- The trees that the parser makes with the standard table. -/
inductive Shaped : Expr → Prop
  | leaf {name op : Text} : LeafName name → Shaped ⟨name, op, []⟩
  | group {op : Text} {inner : Expr} : Shaped inner → inner.op = [] →
    inner.isEmptyMarker = false → inner.isList = false → Shaped ⟨[], op, [inner]⟩
  | prefixed {sign op : Text} {operand : Expr} :
    OperatorTable.standard.isUnary sign = true → Shaped operand → operand.op = [] →
    Shaped ⟨sign, op, [operand]⟩
  | call {head op : Text} {argument : Expr} : HeadName head → Shaped argument →
    argument.op = [] → argument.isEmptyMarker = false → argument.isList = false →
    Shaped ⟨head, op, [argument]⟩
  | listCall {head op : Text} {terms : List Expr} : HeadName head →
    Shaped ⟨[','], [], terms⟩ → terms ≠ [] → Shaped ⟨head, op, terms⟩
  | chain {label op : Text} {first : Expr} {more : List Expr} :
    OperatorTable.standard.isBinary label = true →
    OperatorTable.standard.groupLabel (OperatorTable.standard.precedence label) = some label →
    Shaped first → first.op = [] →
    (∀ e ∈ more, Shaped e) →
    (∀ e ∈ more, OperatorTable.standard.isBinary e.op = true ∧
      OperatorTable.standard.precedence e.op = OperatorTable.standard.precedence label) →
    more ≠ [] → Shaped ⟨label, op, first :: more⟩

/-! ## Operators of a scanned text -/

end Expr

theorem OperatorTable.longest?_spec {t : OperatorTable} {isOperator : Text → Bool} {c d : Char}
    {length : OperatorLength} (h : t.longest? isOperator c d = some length) :
    (length = .one → isOperator [c] = true) ∧ (length = .two → isOperator [c, d] = true) := by
  rw [OperatorTable.longest?] at h
  split at h
  · rename_i htwo
    cases h
    rw [Bool.and_eq_true] at htwo
    exact ⟨fun hlength => (by cases hlength), fun _ => htwo.2⟩
  · split at h
    · rename_i hone
      cases h
      exact ⟨fun _ => hone, fun hlength => (by cases hlength)⟩
    · cases h

namespace Lexeme

theorem operator_of_written {t : OperatorTable} {isBinary : Bool} {op op' : Text} {k : Nat}
    (hop : isBinary = true → t.isBinary op = true) (h : operator op' k ∈ written isBinary t op) :
    t.isBinary op' = true ∧ k = t.precedence op' := by
  cases isBinary with
  | true =>
    cases List.mem_singleton.1 h
    exact ⟨hop rfl, rfl⟩
  | false => simp [written] at h

/-- Every operator that is found is one of the table, with its rank. -/
theorem operator_of_scan {t : OperatorTable} {a : Cursor} {s : Text} {ls : List Lexeme}
    (h : scan t a s = .ok ls) {op : Text} {k : Nat} (hm : operator op k ∈ ls) :
    t.isBinary op = true ∧ k = t.precedence op := by
  rw [scan_eq_ok] at h
  induction h with
  | done | separator => cases hm
  | quoted _ _ ih | letter _ _ _ _ ih =>
    rcases List.mem_cons.1 hm with hm | hm
    · cases hm
    · exact ih hm
  | one _ _ _ hlong _ ih =>
    rcases List.mem_append.1 hm with hm | hm
    · refine operator_of_written (fun hafter => ?_) hm
      rw [if_pos hafter] at hlong
      exact (OperatorTable.longest?_spec hlong).1 rfl
    · exact ih hm
  | two _ _ _ hlong _ _ ih =>
    rcases List.mem_append.1 hm with hm | hm
    · refine operator_of_written (fun hafter => ?_) hm
      rw [if_pos hafter] at hlong
      exact (OperatorTable.longest?_spec hlong).2 rfl
    · exact ih hm

/-- A text that begins with a symbol begins with a sign, unless it is a lone separator. -/
theorem isUnary_of_scan {a : Cursor} (ha : a.Fresh) {c : Char} {s : Text} {ls : List Lexeme}
    (h : scan .standard a (c :: s) = .ok ls) (hc : OperatorTable.standard.isSymbol c = true)
    (hs : ls ≠ []) : OperatorTable.standard.isUnary [c] = true := by
  have hfed : (a.fed c).number = .outside := by
    refine feed_symbol hc fun _ => ?_
    rw [ha.number]
    rfl
  have htop := isTopLevel_of_outside (a := a.fed c) ha.opened hfed
  have hafter : (a.fed c).afterTerm = false := ha.afterTerm
  have htwo : ∀ d, OperatorTable.standard.isUnary [c, d] = false := by
    intro d
    rw [← Bool.not_eq_true, OperatorTable.isUnary_iff]
    simp
  cases scan_eq_ok.1 h with
  | separator => exact absurd rfl hs
  | quoted hq =>
    rw [ha.quoted] at hq
    cases hq
  | one _ hnote _ hlong =>
    cases (note_symbol hc).symm.trans hnote
    rw [hafter, if_neg Bool.false_ne_true] at hlong
    exact (OperatorTable.longest?_spec hlong).1 rfl
  | @two _ _ _ d _ _ _ hnote _ hlong =>
    cases (note_symbol hc).symm.trans hnote
    rw [hafter, if_neg Bool.false_ne_true] at hlong
    cases (htwo d).symm.trans ((OperatorTable.longest?_spec hlong).2 rfl)
  | letter _ hnote hletter =>
    cases (note_symbol hc).symm.trans hnote
    exact absurd (Bool.and_eq_true_iff.2 ⟨htop, hc⟩) hletter

end Lexeme

/-! ## Terms of a level -/

theorem trimmed_stripBrackets {s : Text} (h : Text.Trimmed s) :
    Text.Trimmed (stripBrackets s) := by
  rcases stripBrackets_cases s with hs | ⟨inner, -, -, hs⟩
  · rw [hs]
    exact h
  · rw [hs]
    exact Text.trimmed_trim inner

theorem exists_text_append_of_scan {t : OperatorTable} {body : Text} {ls : List Lexeme}
    (h : Lexeme.scan t {} body = .ok ls) : ∃ sep, body = Lexeme.text ls ++ sep := by
  rcases Lexeme.makeUp_of_scan h with hm | ⟨c, -, hm⟩
  · exact ⟨[], by rw [hm, List.append_nil]⟩
  · exact ⟨[c], hm⟩

/-- The lexemes of a trimmed text begin with the term that they are. -/
theorem text_eq_trim_append {t : OperatorTable} {body : Text} {ls : List Lexeme}
    (h : Lexeme.scan t {} body = .ok ls) (hb : Text.Trimmed body) :
    ∃ tail, Lexeme.text ls = Text.trim (Lexeme.text ls) ++ tail := by
  obtain ⟨sep, hsep⟩ := exists_text_append_of_scan h
  refine Text.exists_tail_of_head fun c hc => hb.1 c ?_
  rw [hsep, List.head?_append, Option.mem_def.1 hc]
  rfl

/-- A text begins with the term that its lexemes are. -/
theorem exists_tail_of_scan {t : OperatorTable} {body : Text} {ls : List Lexeme}
    (h : Lexeme.scan t {} body = .ok ls) (hb : Text.Trimmed body) :
    ∃ tail, body = Text.trim (Lexeme.text ls) ++ tail := by
  obtain ⟨sep, hsep⟩ := exists_text_append_of_scan h
  obtain ⟨tail, ht⟩ := text_eq_trim_append h hb
  exact ⟨tail ++ sep, by rw [← List.append_assoc, ← ht, hsep]⟩

namespace Expr

theorem ofText_leaf_cases {t : OperatorTable} {s name : Text}
    (h : Term.ofText t s = .ok (.leaf name)) : name = emptyName ∨ name = s := by
  rw [Term.ofText.eq_def] at h
  split at h
  · cases h
  · split at h
    · cases h
      exact .inl rfl
    · split at h
      · cases h
        exact .inr rfl
      · split at h
        · cases h
        · split at h
          · cases h
          · split at h
            · cases h
              exact .inr rfl
            · cases h

theorem ofText_prefixed_cases {t : OperatorTable} {s sign operand : Text}
    (h : Term.ofText t s = .ok (.prefixed sign operand)) : t.leading? s = some (sign, operand) := by
  rw [Term.ofText.eq_def] at h
  split at h
  · rename_i hlead
    cases h
    exact hlead
  · split at h
    · cases h
    · split at h
      · cases h
      · split at h
        · cases h
        · split at h
          · cases h
          · split at h
            · cases h
            · cases h

theorem ofText_call_cases {t : OperatorTable} {s head arguments : Text}
    (h : Term.ofText t s = .ok (.call head arguments)) :
    t.leading? s = none ∧ ∃ front inside after, s = front ++ '(' :: (inside ++ ')' :: after) ∧
      head = Text.trim front ∧ arguments = Text.trim inside := by
  rw [Term.ofText.eq_def] at h
  split at h
  · cases h
  · rename_i hlead
    refine ⟨hlead, ?_⟩
    split at h
    · cases h
    · split at h
      · cases h
      · rename_i front behind hopen
        split at h
        · cases h
        · rename_i inside after hclose
          split at h
          · cases h
          · split at h
            · cases h
            · cases h
              refine ⟨front, inside, after, ?_, rfl, rfl⟩
              rw [eq_of_splitAtOpening hopen, eq_of_splitAtClosing hclose]

theorem isUnary_of_leading? {t : OperatorTable} {s sign operand : Text}
    (h : t.leading? s = some (sign, operand)) : t.isUnary sign = true := by
  rw [OperatorTable.leading?.eq_def] at h
  split at h
  · split at h
    · rename_i hc
      cases h
      rw [Bool.and_eq_true] at hc
      exact hc.2
    · split at h
      · rename_i hu
        cases h
        exact hu
      · cases h
  · split at h
    · rename_i hu
      cases h
      exact hu
    · cases h
  · cases h

theorem eq_of_leading? {t : OperatorTable} {s sign operand : Text}
    (h : t.leading? s = some (sign, operand)) :
    s = sign ++ operand ∧ operand ≠ [] := by
  rw [OperatorTable.leading?.eq_def] at h
  split at h
  · split at h
    · cases h
      exact ⟨rfl, List.cons_ne_nil _ _⟩
    · split at h
      · cases h
        exact ⟨rfl, List.cons_ne_nil _ _⟩
      · cases h
  · split at h
    · cases h
      exact ⟨rfl, List.cons_ne_nil _ _⟩
    · cases h
  · cases h

/-- A text of at least two characters without a sign in front does not begin with one. -/
theorem isUnary_of_leading?_none {a b : Char} {s : Text}
    (h : OperatorTable.standard.leading? (a :: b :: s) = none) :
    OperatorTable.standard.isUnary [a] = false := by
  cases hu : OperatorTable.standard.isUnary [a] with
  | false => rfl
  | true =>
    cases s with
    | nil => simp [OperatorTable.leading?, hu] at h
    | cons c s =>
      simp only [OperatorTable.leading?, hu, if_true] at h
      split at h <;> cases h

theorem Shaped.with_op {e : Expr} (h : Shaped e) (op : Text) : Shaped { e with op } := by
  cases h with
  | leaf hn => exact .leaf hn
  | group hi ho he hl => exact .group hi ho he hl
  | prefixed hs ho hop => exact .prefixed hs ho hop
  | call hh ha ho he hl => exact .call hh ha ho he hl
  | listCall hh hl hne => exact .listCall hh hl hne
  | chain hb hg hf ho hm hops hne => exact .chain hb hg hf ho hm hops hne

/-- What the brackets of a call hold is nothing, a list, or one argument. Without a head, nothing and
a list stay what they are. -/
@[elab_as_elim]
theorem callNode_cases {head op : Text} {inner : Expr} {motive : Expr → Prop}
    (bare : head = [] → inner.isEmptyMarker = true ∨ inner.isList = true →
      motive ⟨inner.name, op, inner.terms⟩)
    (empty : head ≠ [] → inner.isEmptyMarker = true → motive ⟨head, op, []⟩)
    (list : head ≠ [] → inner.name = [','] → inner.terms ≠ [] → motive ⟨head, op, inner.terms⟩)
    (single : inner.isEmptyMarker = false → inner.isList = false → motive ⟨head, op, [inner]⟩) :
    motive (callNode head op inner) := by
  rw [callNode]
  split
  · rename_i hspread
    rw [Bool.or_eq_true] at hspread
    split
    · rename_i hhead
      exact bare (List.isEmpty_iff.1 hhead) hspread
    · rename_i hhead
      rw [List.isEmpty_iff] at hhead
      rcases hspread with hempty | hlist
      · have hterms : inner.terms = [] := List.isEmpty_iff.1 (Bool.and_eq_true_iff.1 hempty).1
        rw [hterms]
        exact empty hhead hempty
      · obtain ⟨hname, hterms⟩ := Bool.and_eq_true_iff.1 hlist
        exact list hhead (of_decide_eq_true hname) (by simpa [isLeaf] using hterms)
  · rename_i hno
    rw [Bool.not_eq_true, Bool.or_eq_false_iff] at hno
    exact single hno.1 hno.2

/-- A node with a head around a parsed one. -/
theorem shaped_callNode {head op : Text} {inner : Expr} (hh : head = [] ∨ HeadName head)
    (hleaf : head ≠ [] → LeafName head) (hs : Shaped inner) (ho : inner.op = []) :
    Shaped (callNode head op inner) ∧ (callNode head op inner).op = op := by
  refine callNode_cases (fun _ _ => ⟨hs.with_op op, rfl⟩) (fun hne _ => ⟨.leaf (hleaf hne), rfl⟩)
    (fun hne hname hterms => ⟨?_, rfl⟩) fun hempty hlist => ⟨?_, rfl⟩
  · obtain ⟨name, op', terms⟩ := inner
    cases hname
    cases ho
    exact .listCall (hh.resolve_left hne) hs hterms
  · rcases hh with rfl | hh
    · exact .group hs ho hempty hlist
    · exact .call hh hs ho hempty hlist

/-- A call begins with its head. -/
theorem call_shape {s head arguments : Text} (hs : Text.Trimmed s)
    (h : Term.ofText .standard s = .ok (.call head arguments)) :
    ∃ gap behind, s = head ++ (gap ++ '(' :: behind) := by
  obtain ⟨-, front, inside, after, hsplit, hhead, -⟩ := ofText_call_cases h
  have hfirst : ∀ c ∈ front.head?, Text.isBlank c = false := by
    intro c hc
    refine hs.1 c ?_
    rw [hsplit, List.head?_append, Option.mem_def.1 hc]
    rfl
  obtain ⟨gap, hgap⟩ := Text.exists_tail_of_head hfirst
  rw [← hhead] at hgap
  exact ⟨gap, inside ++ ')' :: after, by rw [hsplit, hgap, List.append_assoc]⟩

/-- The head of a call does not begin with a symbol: with a bracket behind it, the symbol would be a
sign. -/
theorem headName_of_call {body head arguments : Text} {lexemes : List Lexeme}
    (hbody : Text.Trimmed body) (hscan : Lexeme.scan .standard {} body = .ok lexemes)
    (h : Term.ofText .standard (Text.trim (Lexeme.text lexemes)) = .ok (.call head arguments)) :
    head = [] ∨ HeadName head := by
  obtain ⟨tail, htail⟩ := exists_tail_of_scan hscan hbody
  obtain ⟨gap, behind, hsplit⟩ := call_shape (Text.trimmed_trim _) h
  cases head with
  | nil => exact .inl rfl
  | cons c rest =>
    refine .inr ⟨c, rest, rfl, ?_⟩
    cases hc : OperatorTable.standard.isSymbol c with
    | false => rfl
    | true =>
      have hlong : ∃ b more, Text.trim (Lexeme.text lexemes) = c :: b :: more := by
        rw [hsplit]
        cases rest with
        | nil =>
          cases gap with
          | nil => exact ⟨_, _, rfl⟩
          | cons d gap => exact ⟨_, _, rfl⟩
        | cons d rest => exact ⟨_, _, rfl⟩
      obtain ⟨b, more, hlong⟩ := hlong
      have hlead := (ofText_call_cases h).1
      rw [hlong] at hlead htail
      have hne : lexemes ≠ [] := by
        rintro rfl
        cases hlong
      have hunary := Lexeme.isUnary_of_scan Cursor.fresh_start (htail ▸ hscan) hc hne
      rw [isUnary_of_leading?_none hlead] at hunary
      cases hunary

/-- What a chain on a level is: it is named by the first operator of the group that the level is split
at, and the terms behind the first one are read behind operators of this group. -/
theorem chain_spec {n r : Nat} {body label : Text} {lexemes : List Lexeme} {more : List Expr}
    (hscan : Lexeme.scan .standard {} body = .ok lexemes) (hr : Lexeme.loosest? lexemes = some r)
    (hlabel : OperatorTable.standard.groupLabel r = some label)
    (hmore : List.Forall₂ (fun p e => parseLevel .standard n p.1 p.2 = .ok e)
      (Lexeme.split r lexemes).2 more) :
    (OperatorTable.standard.isBinary label = true ∧ OperatorTable.standard.precedence label = r) ∧
      more ≠ [] ∧ ∀ e ∈ more, ∃ p ∈ (Lexeme.split r lexemes).2,
        parseLevel .standard n p.1 p.2 = .ok e ∧ OperatorTable.standard.isBinary p.1 = true ∧
          OperatorTable.standard.precedence p.1 = r := by
  obtain ⟨⟨op', hop'⟩, -⟩ := Lexeme.loosest?_spec hr
  obtain ⟨hbinary, rfl⟩ := Lexeme.operator_of_scan hscan hop'
  obtain ⟨label', hlabel', hspec⟩ := OperatorTable.exists_groupLabel hbinary
  rw [hlabel] at hlabel'
  cases hlabel'
  refine ⟨hspec, ?_, fun e he => ?_⟩
  · rintro rfl
    exact Lexeme.split_ne_nil hop' (List.forall₂_nil_right_iff.1 hmore)
  · obtain ⟨p, hp, hparse⟩ := Result.exists_of_forall₂ hmore he
    obtain ⟨hop, hrank⟩ := Lexeme.operator_of_scan hscan (Lexeme.operator_of_mem_split hp)
    exact ⟨p, hp, hparse, hop, hrank.symm⟩

/-- Every parsed tree has a proper shape, and carries the operator it was parsed with. -/
theorem shaped_of_parseLevel {n : Nat} {op s : Text} {e : Expr}
    (h : parseLevel .standard n op s = .ok e) : Shaped e ∧ e.op = op := by
  induction n generalizing op s e with
  | zero => cases h
  | succ n ih =>
    obtain ⟨lexemes, hscan, hlevel⟩ := parseLevel_iff.1 h
    have hbody := trimmed_stripBrackets (Text.trimmed_trim s)
    generalize stripBrackets (Text.trim s) = body at hscan hbody
    obtain ⟨tail, htail⟩ := exists_tail_of_scan hscan hbody
    cases hlevel with
    | leaf hnone hterm =>
      refine ⟨.leaf ?_, rfl⟩
      rcases ofText_leaf_cases hterm with hname | hname
      · exact .inl hname
      · exact .inr ⟨tail, lexemes, hname ▸ htail ▸ hscan, hnone⟩
    | prefixed hnone hterm hin =>
      obtain ⟨hs, ho⟩ := ih hin
      exact ⟨.prefixed (isUnary_of_leading? (ofText_prefixed_cases hterm)) hs ho, rfl⟩
    | @call head arguments inner hnone hterm hin =>
      obtain ⟨hs, ho⟩ := ih hin
      obtain ⟨gap, behind, hsplit⟩ := call_shape (Text.trimmed_trim _) hterm
      refine shaped_callNode (headName_of_call hbody hscan hterm) ?_ hs ho
      intro _
      refine .inr ⟨gap ++ '(' :: behind ++ tail, lexemes, ?_, hnone⟩
      rw [← hscan, htail, hsplit]
      simp only [List.append_assoc]
    | @chain r label first more hr hlabel hfirst hmore =>
      obtain ⟨⟨hbinary, hrank⟩, hne, hterms⟩ := chain_spec hscan hr hlabel hmore
      obtain ⟨hs, ho⟩ := ih hfirst
      refine ⟨.chain hbinary (hrank.symm ▸ hlabel) hs ho ?_ ?_ hne, rfl⟩
      · intro e he
        obtain ⟨p, -, hp, -⟩ := hterms e he
        exact (ih hp).1
      · intro e he
        obtain ⟨p, -, hp, hop⟩ := hterms e he
        rw [(ih hp).2, hrank]
        exact hop

end Expr
end Lineshape
