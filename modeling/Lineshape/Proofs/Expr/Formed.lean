import Lineshape.Proofs.Expr.Regular

/-! # Trees of regular tables

The trees that the parser makes with a regular table (`Expr.formed_of_parseLevel`). What stands in
front of the brackets of a call is read as the beginning of a term wherever a term can begin
(`Expr.Head`), since the scan found no operator in it. -/

namespace Lineshape
set_option autoImplicit false

/-! ## Heads of calls -/

/-- Looking for a bracket, quotes are counted as in a text. -/
theorem Nesting.eq_of_step {depth depth' : Nat} {quoted quoted' : Bool} {c : Char}
    (h : Nesting.step depth quoted c = some (depth', quoted')) :
    (if c = '"' then !quoted else quoted) = quoted' := by
  rw [← Nesting.quoted_of_step h]
  by_cases hc : c = '"' <;> simp [hc]

/-- If a quote is open, then the first unquoted bracket stands behind the other quote. -/
theorem mem_of_splitAtOpening {s front behind : Text}
    (h : splitAtOpening true s = some (front, behind)) : '"' ∈ front := by
  induction s generalizing front with
  | nil => cases h
  | cons c s ih =>
    simp only [splitAtOpening, Bool.not_true, Bool.and_false, Bool.false_eq_true, if_false] at h
    obtain ⟨⟨front', behind'⟩, hs, he⟩ := Option.map_eq_some_iff.1 h
    cases he
    by_cases hc : c = '"'
    · exact hc ▸ List.mem_cons_self
    · rw [if_neg hc] at hs
      exact List.mem_cons_of_mem c (ih hs)

namespace Lexeme

variable {t : OperatorTable} {a b : Cursor} {ls : List Lexeme}

/-- Where the scan finds no operators, a character that opens no bracket is read as part of a term
from every cursor that scans alike. -/
theorem reads_of_scan {c : Char} {rest : Text} (hab : a.Alike b) (ho : a.opened = [])
    (h : scan t a (c :: rest) = .ok ls) (hno : ∀ op k, operator op k ∉ ls)
    (hc : a.quoted.isSome = false → c ≠ '(')
    (hfirst : (a.afterTerm = true ∧ rest ≠ []) ∨ t.isSymbol c = false) :
    ∃ a' b' back, a'.Alike b' ∧ a'.opened = [] ∧ scan t a' rest = .ok back ∧
      ls = letter c :: back ∧ Reads t b [c] [letter c] b' ∧
      Nesting.step 0 a.quoted.isSome c = some (0, a'.quoted.isSome) ∧
      (a.afterTerm = true ∨ (a.quoted.isSome = false ∧ Text.isBlank c = false) →
        a'.afterTerm = true) := by
  -- behind the beginning of a term every operator is a binary one
  have hwritten : ∀ {cursor : Cursor} (op : Text) {back : List Lexeme},
      ¬ a.quoted.isSome = true → a.note c = some cursor → (cursor.isTopLevel && t.isSymbol c) = true →
      ls ≠ written cursor.afterTerm t op ++ back := by
    rintro cursor op back hq hnote htop rfl
    obtain ⟨ha, -⟩ := hfirst.resolve_right fun hsymbol => by
      rw [hsymbol, Bool.and_false] at htop
      cases htop
    rw [(step_of_note hq hnote).2, ha] at hno
    exact hno op (t.precedence op) List.mem_cons_self
  cases scan_eq_ok.1 h with
  | separator hq hnote htop =>
    obtain ⟨-, hrest⟩ := hfirst.resolve_right fun hsymbol => by
      rw [hsymbol, Bool.and_false] at htop
      cases htop
    exact absurd rfl hrest
  | one hq hnote htop => exact absurd rfl (hwritten [c] hq hnote htop)
  | @two _ _ _ d _ _ hq hnote htop => exact absurd rfl (hwritten [c, d] hq hnote htop)
  | @quoted _ _ _ back hq hscan =>
    have hstep := step_stepQuoted hq c
    have hopened : (a.stepQuoted c).opened = [] := by
      unfold Cursor.stepQuoted
      split <;> exact ho
    have hafter : (a.stepQuoted c).afterTerm = a.afterTerm := by
      unfold Cursor.stepQuoted
      split <;> rfl
    rw [ho, hopened] at hstep
    refine ⟨_, _, back, hab.stepQuoted c, hopened, scan_eq_ok.2 hscan, rfl,
      reads_quoted_char (hab.quoted ▸ hq) c, hstep, ?_⟩
    rintro (ha | ⟨hnone, -⟩)
    · rw [hafter, ha]
    · rw [hq] at hnone
      cases hnone
  | @letter _ a' _ _ back hq hnote htop hscan =>
    have hq' : a.quoted.isSome = false := by simpa using hq
    obtain ⟨b', hnote', halike⟩ := hab.note hnote
    obtain ⟨hstep, hafter⟩ := step_of_note hq hnote
    rw [ho] at hstep
    have hopened : a'.opened.length = 0 := by
      obtain ⟨hquoted, -⟩ | ⟨-, -, hd, -⟩ | ⟨-, hopen, -⟩ | ⟨-, -, hd, -⟩ | ⟨-, -, -, -, hd, -⟩ :=
        Nesting.step_cases hstep
      · cases hquoted
      · exact hd
      · exact absurd hopen (hc hq')
      · cases hd
      · exact hd
    have hquoted : b.quoted = none := by
      rw [hab.quoted] at hq'
      simpa using hq'
    rw [halike.isTopLevel, Bool.not_eq_true] at htop
    rw [hopened] at hstep
    refine ⟨_, _, back, halike.advance c, List.length_eq_zero_iff.1 hopened, scan_eq_ok.2 hscan, rfl,
      reads_letter hquoted hnote' htop, hq' ▸ hstep, ?_⟩
    rw [Cursor.advance_afterTerm, hafter]
    rintro (ha | ⟨-, hblank⟩)
    · rw [ha]
      rfl
    · rw [hblank, Bool.not_false, Bool.or_true]

/-- Where the scan finds no operators, what stands in front of the first bracket is read as part of a
term from every cursor that scans alike. -/
theorem reads_front {head rest rest' gap behind : Text} (hab : a.Alike b) (ho : a.opened = [])
    (hafter : a.afterTerm = true) (h : scan t a (head ++ rest) = .ok ls)
    (hno : ∀ op k, operator op k ∉ ls) (hrest : rest ≠ [])
    (hsplit : splitAtOpening a.quoted.isSome (head ++ rest') = some (head ++ gap, behind))
    (hgap : '"' ∉ gap) :
    Nesting.run 0 a.quoted.isSome head = some (0, false) ∧
      ∃ b', Reads t b head (head.map letter) b' ∧ b'.opened = [] ∧ b'.quoted = none := by
  induction head generalizing a b ls with
  | nil =>
    have hq : a.quoted.isSome = false := by
      rw [← Bool.not_eq_true]
      intro hq
      rw [hq] at hsplit
      exact hgap (mem_of_splitAtOpening hsplit)
    refine ⟨by rw [hq]; rfl, b, Reads.nil b, ?_, ?_⟩
    · have hlength := hab.opened
      rw [ho] at hlength
      exact List.length_eq_zero_iff.1 hlength.symm
    · rw [hab.quoted] at hq
      simpa using hq
  | cons c head ih =>
    rw [List.cons_append, splitAtOpening] at hsplit
    split at hsplit
    · cases hsplit
    · rename_i hopen
      obtain ⟨⟨front, behind'⟩, hs, he⟩ := Option.map_eq_some_iff.1 hsplit
      cases he
      obtain ⟨a', b', back, halike, hopened, hback, rfl, hread, hstep, ha'⟩ :=
        reads_of_scan hab ho h hno (fun hq hc => hopen (by simp [hq, hc]))
          (.inl ⟨hafter, List.append_ne_nil_of_right_ne_nil head hrest⟩)
      rw [Nesting.eq_of_step hstep] at hs
      obtain ⟨hrun, b'', hread', hb''⟩ := ih halike hopened (ha' (.inl hafter)) hback
        (fun op k hm => hno op k (List.mem_cons_of_mem _ hm)) hs
      refine ⟨?_, b'', hread.cons hread', hb''⟩
      rw [Nesting.run, hstep]
      exact hrun

/-- A symbol at the start of a scanned text is part of a sign, if the text is long enough. -/
theorem leading?_of_scan (ht : t.Regular) (ha : a.Fresh) {c d x : Char} {s tail : Text}
    (h : scan t a (c :: d :: x :: s ++ tail) = .ok ls) (hc : t.isSymbol c = true) :
    t.leading? (c :: d :: x :: s) ≠ none := by
  obtain ⟨-, -, -, hquote, hopen, hclose, -⟩ := Text.mark_facts (ht.isMark hc)
  have hnote : a.note c = some (a.fed c) := a.note_plain c hquote hopen hclose
  have hfed := feed_mark (a := a) (ht.isMark hc) ha.number
  have htop : ((a.fed c).isTopLevel && t.isSymbol c) = true := by
    rw [hc, isTopLevel_of_outside (a := a.fed c) ha.opened hfed]
    rfl
  have hafter : (a.fed c).afterTerm = false := ha.afterTerm
  rw [OperatorTable.leading?]
  cases hlong : t.longest? t.isUnary c d with
  | none =>
    rw [List.cons_append, List.cons_append, scan.eq_def] at h
    simp [ha.quoted, hnote, htop, hafter, hlong] at h
  | some length =>
    cases length with
    | one =>
      split
      · exact Option.some_ne_none _
      · rw [if_pos ((OperatorTable.longest?_spec hlong).1 rfl)]
        exact Option.some_ne_none _
    | two =>
      have htwo := (OperatorTable.longest?_spec hlong).2 rfl
      have hd : t.isSymbol d = true :=
        OperatorTable.isSymbol_of_mem (.inr htwo) (List.mem_cons_of_mem c List.mem_cons_self)
      rw [hc, hd, htwo]
      exact Option.some_ne_none _

end Lexeme

namespace Expr

variable {t : OperatorTable}

/-- The head of a call: it does not begin with a symbol, and up to the bracket behind it is read as
part of a term. -/
structure Head (t : OperatorTable) (head : Text) : Prop where
  first : ∃ c rest, head = c :: rest ∧ t.isSymbol c = false
  balanced : Balanced head
  reads : ∀ a : Cursor, a.Fresh →
    ∃ b, Lexeme.Reads t a head (head.map .letter) b ∧ b.opened = [] ∧ b.quoted = none

theorem Head.ne_nil {head : Text} (h : Head t head) : head ≠ [] := by
  obtain ⟨c, rest, rfl, -⟩ := h.first
  exact List.cons_ne_nil c rest

/-- No head is an operator. -/
theorem Head.not_operator {head : Text} (h : Head t head) :
    t.isUnary head = false ∧ t.isBinary head = false := by
  obtain ⟨c, rest, rfl, hc⟩ := h.first
  rw [← Bool.not_eq_true] at hc
  constructor
  · rw [← Bool.not_eq_true]
    exact fun hu => hc (OperatorTable.isSymbol_of_mem (.inr hu) List.mem_cons_self)
  · rw [← Bool.not_eq_true]
    exact fun hb => hc (OperatorTable.isSymbol_of_mem (.inl hb) List.mem_cons_self)

theorem Head.precedence_eq {head : Text} (h : Head t head) : t.precedence head = 0 := by
  refine Nat.eq_zero_of_not_pos fun hpos => ?_
  rw [OperatorTable.precedence_pos_iff, h.not_operator.2] at hpos
  cases hpos

/-- What stands in front of the first bracket of a term without operators is a head. -/
theorem head_of_call (ht : t.Regular) {body head arguments : Text} {lexemes : List Lexeme}
    (hbody : Text.Trimmed body) (hscan : Lexeme.scan t {} body = .ok lexemes)
    (hno : Lexeme.loosest? lexemes = none)
    (hterm : Term.ofText t (Text.trim (Lexeme.text lexemes)) = .ok (.call head arguments)) :
    head = [] ∨ Head t head := by
  obtain ⟨tail, htail⟩ := exists_tail_of_scan hscan hbody
  have hleading := (ofText_call_cases hterm).1
  obtain ⟨front, behind, inside, after, hopen, hclose, -, rfl, rfl⟩ := ofText_call_spec hterm
  have hsplit := eq_of_splitAtOpening hopen
  obtain ⟨blanks, gap, hfront, hblanks, hgap⟩ := Text.exists_trim front
  cases htrim : Text.trim front with
  | nil => exact .inl rfl
  | cons c rest =>
    right
    obtain rfl : blanks = [] := by
      refine List.eq_nil_iff_forall_not_mem.2 fun d hd => ?_
      obtain ⟨d, blanks, rfl⟩ := List.exists_cons_of_ne_nil (List.ne_nil_of_mem hd)
      have hhead := (Text.trimmed_trim (Lexeme.text lexemes)).1 d (by rw [hsplit, hfront]; rfl)
      rw [hblanks d List.mem_cons_self] at hhead
      cases hhead
    rw [htrim, List.nil_append] at hfront
    have hbracket := eq_of_splitAtClosing hclose
    -- the sign that the term does not begin with would have been found by the scan
    have hc : t.isSymbol c = false := by
      rw [← Bool.not_eq_true]
      intro hc
      obtain ⟨d, x, more, hmore⟩ : ∃ d x more, rest ++ gap ++ '(' :: behind = d :: x :: more := by
        have hlength : 2 ≤ (rest ++ gap ++ '(' :: behind).length := by
          rw [hbracket]
          simp only [List.length_append, List.length_cons]
          omega
        match rest ++ gap ++ '(' :: behind, hlength with
        | d :: x :: more, _ => exact ⟨d, x, more, rfl⟩
      have hlong : Text.trim (Lexeme.text lexemes) = c :: d :: x :: more := by
        rw [hsplit, hfront, ← hmore]
        rfl
      rw [hlong] at hleading htail
      exact Lexeme.leading?_of_scan ht Cursor.fresh_start (htail ▸ hscan) hc hleading
    have hblank : Text.isBlank c = false :=
      (Text.trimmed_trim (Lexeme.text lexemes)).1 c (by rw [hsplit, hfront]; rfl)
    have hparts : body = c :: (rest ++ (gap ++ '(' :: behind ++ tail)) := by
      rw [htail, hsplit, hfront]
      simp
    rw [hparts] at hscan
    rw [hsplit, hfront] at hopen
    have hno' := Lexeme.loosest?_eq_none_iff.1 hno
    have hall : ∀ b : Cursor, b.Fresh → Balanced (c :: rest) ∧
        ∃ b', Lexeme.Reads t b (c :: rest) ((c :: rest).map .letter) b' ∧ b'.opened = [] ∧
          b'.quoted = none := by
      intro b hb
      rw [List.cons_append, List.cons_append, splitAtOpening] at hopen
      split at hopen
      · cases hopen
      · rename_i hcopen
        obtain ⟨⟨front', behind'⟩, hs, he⟩ := Option.map_eq_some_iff.1 hopen
        cases he
        obtain ⟨a', b', back, halike, hopened, hback, rfl, hread, hstep, hafter⟩ :=
          Lexeme.reads_of_scan (Cursor.fresh_start.alike hb) rfl hscan hno'
            (fun _ hc => hcopen (by simp [hc])) (.inr hc)
        have hquote : (if c = '"' then !false else false) = a'.quoted.isSome :=
          Nesting.eq_of_step hstep
        rw [hquote, List.append_assoc] at hs
        obtain ⟨hrun, b'', hread', hb''⟩ := Lexeme.reads_front halike hopened
          (hafter (.inr ⟨rfl, hblank⟩)) hback
          (fun op k hm => hno' op k (List.mem_cons_of_mem _ hm)) (by simp) hs
          (fun hm => (Text.ne_of_isBlank (hgap _ hm)).1 rfl)
        refine ⟨?_, b'', hread.cons hread', hb''⟩
        rw [Balanced, Nesting.run]
        exact (congrArg (fun p => p.bind fun p => Nesting.run p.1 p.2 rest) hstep).trans hrun
    exact ⟨⟨c, rest, rfl, hc⟩, (hall {} Cursor.fresh_start).1, fun a ha => (hall a ha).2⟩

/-! ## Trees of regular tables -/

/-- The trees that the parser makes with a regular table. -/
inductive Formed (t : OperatorTable) : Expr → Prop
  | leaf (name op : Text) : Formed t ⟨name, op, []⟩
  | group {op : Text} {inner : Expr} : Formed t inner → inner.op = [] → Formed t ⟨[], op, [inner]⟩
  | prefixed {sign op : Text} {operand : Expr} : t.isUnary sign = true → Formed t operand →
    operand.op = [] → Formed t ⟨sign, op, [operand]⟩
  | call {head op : Text} {terms : List Expr} : Head t head → terms ≠ [] →
    (∀ e ∈ terms, Formed t e) → (∀ e ∈ terms, e.op = [] ∨ t.isBinary e.op = true) →
    Formed t ⟨head, op, terms⟩
  | chain {label op : Text} {first : Expr} {more : List Expr} : t.isBinary label = true →
    Formed t first → first.op = [] → (∀ e ∈ more, Formed t e) →
    (∀ e ∈ more, t.isBinary e.op = true ∧ t.precedence e.op = t.precedence label) → more ≠ [] →
    Formed t ⟨label, op, first :: more⟩

theorem Formed.with_op {e : Expr} (h : Formed t e) (op : Text) : Formed t { e with op } := by
  cases h with
  | leaf name => exact .leaf name op
  | group hinner ho => exact .group hinner ho
  | prefixed hsign hoperand ho => exact .prefixed hsign hoperand ho
  | call hhead hne hterms hops => exact .call hhead hne hterms hops
  | chain hlabel hfirst ho hmore hops hne => exact .chain hlabel hfirst ho hmore hops hne

theorem Formed.of_mem {e term : Expr} (h : Formed t e) (hterm : term ∈ e.terms) :
    Formed t term ∧ (term.op = [] ∨ t.isBinary term.op = true) := by
  cases h with
  | leaf => cases hterm
  | group hinner ho =>
    cases List.mem_singleton.1 hterm
    exact ⟨hinner, .inl ho⟩
  | prefixed _ hoperand ho =>
    cases List.mem_singleton.1 hterm
    exact ⟨hoperand, .inl ho⟩
  | call _ _ hterms hops => exact ⟨hterms _ hterm, hops _ hterm⟩
  | chain _ hfirst ho hmore hops =>
    rcases List.mem_cons.1 hterm with rfl | hterm
    · exact ⟨hfirst, .inl ho⟩
    · exact ⟨hmore _ hterm, .inr (hops _ hterm).1⟩

theorem Formed.subtreeAt {path : List Nat} {e e' : Expr} (h : Formed t e)
    (he : e.subtreeAt path = some e') : Formed t e' := by
  induction path generalizing e with
  | nil =>
    cases he
    exact h
  | cons i path ih =>
    obtain ⟨term, hterm, he⟩ := Option.bind_eq_some_iff.1 he
    exact ih (h.of_mem (List.mem_of_getElem? hterm)).1 he

theorem formed_callNode {head op : Text} {inner : Expr} (hhead : head = [] ∨ Head t head)
    (h : Formed t inner) (ho : inner.op = []) : Formed t (callNode head op inner) := by
  rw [callNode]
  split
  · split
    · exact h.with_op op
    · rename_i hne
      rw [List.isEmpty_iff] at hne
      by_cases hterms : inner.terms = []
      · rw [hterms]
        exact .leaf head op
      · exact .call (hhead.resolve_left hne) hterms (fun e he => (h.of_mem he).1)
          fun e he => (h.of_mem he).2
  · rcases hhead with rfl | hhead
    · exact .group h ho
    · refine .call hhead (List.cons_ne_nil _ _) ?_ ?_
      · simpa using h
      · simpa using Or.inl ho

theorem callNode_op (head op : Text) (inner : Expr) : (callNode head op inner).op = op := by
  rw [callNode]
  split
  · split <;> rfl
  · rfl

/-- Every tree that the parser makes with a regular table is formed. -/
theorem formed_of_parseLevel (ht : t.Regular) {n : Nat} {op s : Text} {e : Expr}
    (h : parseLevel t n op s = .ok e) : Formed t e ∧ e.op = op := by
  induction n generalizing op s e with
  | zero => cases h
  | succ n ih =>
    obtain ⟨lexemes, hscan, hlevel⟩ := parseLevel_iff.1 h
    cases hlevel with
    | leaf => exact ⟨.leaf _ op, rfl⟩
    | prefixed _ hterm hinner =>
      obtain ⟨hoperand, ho⟩ := ih hinner
      exact ⟨.prefixed (isUnary_of_leading? (ofText_prefixed_cases hterm)) hoperand ho, rfl⟩
    | call hno hterm hinner =>
      obtain ⟨harguments, ho⟩ := ih hinner
      have hbody := trimmed_stripBrackets (Text.trimmed_trim s)
      exact ⟨formed_callNode (head_of_call ht hbody hscan hno hterm) harguments ho,
        callNode_op _ op _⟩
    | @chain r label first more hr hlabel hfirst hmore =>
      obtain ⟨hbinary, hrank⟩ := ht.label hlabel
      obtain ⟨hformed, ho⟩ := ih hfirst
      have hterm : ∀ e ∈ more, Formed t e ∧ t.isBinary e.op = true ∧ t.precedence e.op = r := by
        intro e he
        obtain ⟨p, hp, hparse⟩ := Result.exists_of_forall₂ hmore he
        obtain ⟨hformed, hop⟩ := ih hparse
        obtain ⟨hbinary, hr⟩ := Lexeme.operator_of_scan hscan (Lexeme.operator_of_mem_split hp)
        rw [hop]
        exact ⟨hformed, hbinary, hr.symm⟩
      refine ⟨.chain hbinary hformed ho (fun e he => (hterm e he).1) (fun e he => ?_) ?_, rfl⟩
      · rw [hrank]
        exact (hterm e he).2
      · rintro rfl
        obtain ⟨⟨op', hop'⟩, -⟩ := Lexeme.loosest?_spec hr
        exact Lexeme.split_ne_nil hop' (List.forall₂_nil_right_iff.1 hmore)

/-! ## How nodes are written -/

section Written

variable {op : Text}

theorem render_prefixed (ht : t.Regular) {sign : Text} (h : t.isUnary sign = true)
    (operand : Expr) : render t ⟨sign, op, [operand]⟩ =
      sign ++ enclose (0 < operand.binding t) (operand.render t) := by
  have hne : ¬ (sign = [] ∧ ([] : List Expr) = []) := fun hn => ht.ne_nil (.inr h) hn.1
  rw [render, if_neg hne, if_pos ⟨rfl, h⟩]

theorem render_call {head : Text} (h : Head t head) {terms : List Expr} (hne : terms ≠ []) :
    render t ⟨head, op, terms⟩ =
      head ++ '(' :: renderArguments t (t.precedence ",".toList) terms ++ [')'] := by
  obtain ⟨first, more, rfl⟩ := List.exists_cons_of_ne_nil hne
  have hsign : ¬ (more = [] ∧ t.isUnary head = true) := fun hn => by
    rw [h.not_operator.1] at hn
    cases hn.2
  rw [render, if_neg fun hn => h.ne_nil hn.1, if_neg hsign, if_pos h.precedence_eq]

theorem render_chain {label : Text} (h : t.isBinary label = true) {first : Expr}
    {more : List Expr} (hne : more ≠ []) (ho : first.op = []) :
    render t ⟨label, op, first :: more⟩ =
      enclose (needsBrackets t (t.precedence label) first) (first.render t) ++
        renderChain t (t.precedence label) more := by
  have hpos : t.precedence label ≠ 0 := Nat.ne_of_gt (OperatorTable.precedence_pos_iff.2 h)
  rw [render, if_neg fun hn => hne hn.2, if_neg fun hn => hne hn.1, if_neg hpos, ho,
    List.nil_append]

end Written

end Expr
end Lineshape
