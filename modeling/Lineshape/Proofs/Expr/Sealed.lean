import Lineshape.Proofs.Expr.Reading
import Lineshape.Proofs.Expr.Rows

/-! # Texts joined by separators

A text is sealed for a separator if every one in it stands in brackets or quotes. The parser takes
sealed texts with a separator between them apart again, whatever else is in them
(`Expr.chain_of_parseLevel`); it need not be known that each of them is an expression. -/

namespace Lineshape
set_option autoImplicit false

theorem Nesting.exists_run_prefix {depth : Nat} {quoted : Bool} {s t : Text} {p : Nat × Bool}
    (h : run depth quoted (s ++ t) = some p) : ∃ p', run depth quoted s = some p' := by
  rw [run_append] at h
  obtain ⟨p', hp, -⟩ := Option.bind_eq_some_iff.1 h
  exact ⟨p', hp⟩

theorem Nesting.run_quoted {s : Text} (h : '"' ∉ s) (depth : Nat) :
    run depth true s = some (depth, true) := by
  induction s with
  | nil => rfl
  | cons c s ih =>
    have hc : (c != '"') = true := bne_iff_ne.2 fun hc => h (hc ▸ List.mem_cons_self)
    rw [run, step.eq_def, if_pos rfl, hc]
    exact ih fun hm => h (List.mem_cons_of_mem c hm)

/-- Balanced, and every separator of this kind is in brackets or quotes. -/
structure Sealed (separator : Char) (s : Text) : Prop where
  balanced : Balanced s
  hidden : ∀ front back, s = front ++ separator :: back → ¬ Balanced front

theorem sealed_iff {separator : Char} {s : Text} : Sealed separator s ↔
    Balanced s ∧ ∀ i < s.length, s[i]? = some separator → ¬ Balanced (s.take i) := by
  refine ⟨fun h => ⟨h.balanced, fun i _ hi => h.hidden _ (s.drop (i + 1)) ?_⟩, fun h => ⟨h.1, ?_⟩⟩
  · obtain ⟨hlt, hc⟩ := List.getElem?_eq_some_iff.1 hi
    rw [← hc, List.getElem_cons_drop, List.take_append_drop]
  · rintro front back rfl hfront
    refine h.2 front.length (by simp) (by simp) ?_
    rwa [List.take_left']
    rfl

instance (separator : Char) (s : Text) : Decidable (Sealed separator s) :=
  decidable_of_iff _ sealed_iff.symm

namespace Sealed

variable {c : Char} {s t : Text}

theorem plain (hs : Balanced s) (hc : c ∉ s) : Sealed c s where
  balanced := hs
  hidden front _ he _ := hc (he ▸ List.mem_append_right front List.mem_cons_self)

theorem nil (c : Char) : Sealed c [] := plain Balanced.nil List.not_mem_nil

theorem append (hs : Sealed c s) (ht : Sealed c t) : Sealed c (s ++ t) where
  balanced := hs.balanced.append ht.balanced
  hidden front back he hfront := by
    obtain ⟨front', rfl, ht'⟩ | ⟨more, rfl, hmore⟩ := List.append_eq_append_iff.1 he
    · rw [Balanced, Nesting.run_append, hs.balanced, Option.bind_some] at hfront
      exact ht.hidden front' back ht' hfront
    · cases more with
      | nil =>
        rw [List.append_nil] at hs
        exact ht.hidden [] back hmore.symm Balanced.nil
      | cons d more =>
        cases hmore
        exact hs.hidden front more rfl hfront

theorem flatMap {α : Type} {f : α → Text} {l : List α} (h : ∀ a ∈ l, Sealed c (f a)) :
    Sealed c (l.flatMap f) := by
  induction l with
  | nil => exact nil c
  | cons a l ih =>
    rw [List.flatMap_cons]
    exact (h a List.mem_cons_self).append (ih fun b hb => h b (List.mem_cons_of_mem a hb))

theorem exists_of_append_singleton {front back : Text} {d : Char} (hne : c ≠ d)
    (h : s ++ [d] = front ++ c :: back) : ∃ more, s = front ++ c :: more := by
  rcases List.eq_nil_or_concat back with rfl | ⟨more, e, rfl⟩
  · exact absurd (List.append_inj' h rfl).2 fun he => hne (List.head_eq_of_cons_eq he).symm
  · have hends : s ++ [d] = (front ++ c :: more) ++ [e] := by
      rw [h, List.concat_eq_append, List.append_assoc, List.cons_append]
    exact ⟨more, (List.append_inj' hends rfl).1⟩

theorem bracketed (hs : Balanced s) (hc : Lexeme.isSeparator c = true) :
    Sealed c ('(' :: s ++ [')']) where
  balanced := hs.bracketed
  hidden front back he hfront := by
    cases front with
    | nil =>
      cases he
      cases hc
    | cons d front =>
      obtain ⟨rfl, htail⟩ := List.cons_eq_cons.1 he
      have hne : c ≠ ')' := by
        rintro rfl
        cases hc
      -- the bracket in front is still open where the separator stands
      obtain ⟨more, rfl⟩ := exists_of_append_singleton hne htail
      obtain ⟨⟨depth, quoted⟩, hrun⟩ := Nesting.exists_run_prefix hs
      have hinside := Nesting.run_add hrun 1
      change Nesting.run 1 false front = some (0, false) at hfront
      rw [Nat.zero_add, hfront] at hinside
      cases hinside

theorem quoted (hs : '"' ∉ s) (hc : Lexeme.isSeparator c = true) :
    Sealed c ('"' :: s ++ ['"']) where
  balanced := Balanced.quoted hs
  hidden front back he hfront := by
    cases front with
    | nil =>
      cases he
      cases hc
    | cons d front =>
      obtain ⟨rfl, htail⟩ := List.cons_eq_cons.1 he
      have hne : c ≠ '"' := by
        rintro rfl
        cases hc
      obtain ⟨more, rfl⟩ := exists_of_append_singleton hne htail
      have hinside := Nesting.run_quoted (fun hm => hs (List.mem_append_left _ hm)) 0
      cases hinside.symm.trans hfront

theorem of_quotable (hs : s.Quotable) (hc : Lexeme.isSeparator c = true) :
    Sealed c ('"' :: s ++ ['"']) := by
  induction hs with
  | free hs => exact quoted hs hc
  | @paired front middle back hfront hmiddle _ ih =>
    rw [Text.quoted_paired]
    have hfree : c ∉ middle := by
      intro hm
      have hsymbol := (hmiddle c hm).2.2.2
      rw [(Lexeme.isSymbol_of_isSeparator hc).1] at hsymbol
      cases hsymbol
    exact (quoted hfront hc).append ((plain hmiddle.balanced hfree).append ih)

end Sealed

namespace Lexeme

theorem eq_of_mem_operator {c : Char} (hc : isSeparator c = true) {op : Text}
    (hop : OperatorTable.standard.isBinary op = true) (hm : c ∈ op) : op = [c] := by
  have hall : ∀ op ∈ OperatorTable.binaries, ∀ c ∈ op, isSeparator c = true → op = [c] := by
    decide +kernel
  exact hall op (OperatorTable.isBinary_iff.1 hop) c hm hc

/-- Where a separator stands behind a text in which nothing is left open: either it ends the level and
is left out, or it is an operator of the level. -/
theorem Row.at_balanced {d : Nat} {q started : Bool} {separator : Char} {front rest : Text}
    {lexemes : List Lexeme} (hsep : isSeparator separator = true)
    (h : Row d q started (front ++ separator :: rest) lexemes)
    (hrun : Nesting.run d q front = some (0, false)) :
    (rest = [] ∧ text lexemes = front) ∨
    ∃ inside back, lexemes = inside ++ Lexeme.operator [separator]
        (OperatorTable.standard.precedence [separator]) :: back ∧
      text inside = front ∧ rest ≠ [] ∧ Row 0 false false rest back := by
  generalize hs : front ++ separator :: rest = s at h
  induction h generalizing front with
  | nil => exact absurd hs (by simp)
  | @cut started c hc =>
    cases front with
    | nil =>
      cases hs
      exact .inl ⟨rfl, rfl⟩
    | cons c' front => exact absurd (congrArg List.length hs) (by simp)
  | @letter d d' q q' started started' c s lexemes hstep hc hstart hrow ih =>
    cases front with
    | nil =>
      cases hrun
      cases hs
      rw [hc rfl rfl] at hsep
      cases hsep
    | cons c' front =>
      obtain ⟨rfl, htail⟩ := List.cons_eq_cons.1 hs
      rw [Nesting.run, hstep, Option.bind_some] at hrun
      rcases ih hrun htail with ⟨hrest, htext⟩ | ⟨inside, back, rfl, htext, hback⟩
      · exact .inl ⟨hrest, congrArg (c' :: ·) htext⟩
      · exact .inr ⟨Lexeme.letter c' :: inside, back, rfl, congrArg (c' :: ·) htext, hback⟩
  | @operator op s lexemes hop hne hrow ih =>
    cases front with
    | nil =>
      obtain ⟨c, op, rfl⟩ := List.exists_cons_of_ne_nil (l := op) fun hnil => by
        rw [hnil] at hop
        exact absurd hop (by decide)
      cases List.head_eq_of_cons_eq hs
      cases eq_of_mem_operator hsep hop List.mem_cons_self
      cases hs
      exact .inr ⟨[], lexemes, rfl, rfl, hne, hrow⟩
    | cons c front =>
      -- the operator ends in front of the separator
      obtain ⟨front', hfront, rfl⟩ : ∃ front', c :: front = op ++ front' ∧
          s = front' ++ separator :: rest := by
        obtain ⟨more, rfl, hrest⟩ | ⟨more, hmore, hrest⟩ := List.append_eq_append_iff.1 hs
        · cases more with
          | nil => exact ⟨[], by rw [List.append_nil, List.append_nil], hrest.symm⟩
          | cons d more =>
            cases List.head_eq_of_cons_eq hrest
            have hlength := congrArg List.length
              (eq_of_mem_operator hsep hop (List.mem_append_right (c :: front) List.mem_cons_self))
            simp at hlength
        · exact ⟨more, hmore, hrest⟩
      rw [hfront, Nesting.run_append, balanced_of_isBinary hop, Option.bind_some] at hrun
      rw [hfront]
      rcases ih hrun rfl with ⟨hrest, htext⟩ | ⟨inside, back, rfl, htext, hback⟩
      · exact .inl ⟨hrest, congrArg (op ++ ·) htext⟩
      · exact .inr ⟨_ :: inside, back, rfl, congrArg (op ++ ·) htext, hback⟩

/-- Lexemes whose text hides all separators have none among them. -/
theorem Row.no_separator_of_hidden {d : Nat} {q started : Bool} {separator : Char} {s : Text}
    {inside back : List Lexeme} (h : Row d q started s (inside ++ back))
    (hhidden : ∀ before behind, text inside = before ++ separator :: behind →
      Nesting.run d q before ≠ some (0, false)) (k : Nat) :
    Lexeme.operator [separator] k ∉ inside := by
  intro hm
  obtain ⟨before, behind, rfl⟩ := List.append_of_mem hm
  rw [List.append_assoc] at h
  refine hhidden (text before) (text behind) ?_ (h.ending (.inr ⟨_, _, _, rfl⟩)).1
  rw [text_append]
  rfl

/-- Where a separator stands behind a text that hides all others, the text has none among its
lexemes. -/
theorem Row.at_separator {d : Nat} {q started : Bool} {separator : Char} {front rest : Text}
    {lexemes : List Lexeme} (hsep : isSeparator separator = true)
    (h : Row d q started (front ++ separator :: rest) lexemes)
    (hrun : Nesting.run d q front = some (0, false))
    (hhidden : ∀ before behind, front = before ++ separator :: behind →
      Nesting.run d q before ≠ some (0, false)) :
    (rest = [] ∧ text lexemes = front ∧ ∀ k, Lexeme.operator [separator] k ∉ lexemes) ∨
    ∃ inside back, lexemes = inside ++ Lexeme.operator [separator]
        (OperatorTable.standard.precedence [separator]) :: back ∧
      text inside = front ∧ (∀ k, Lexeme.operator [separator] k ∉ inside) ∧ rest ≠ [] ∧
      Row 0 false false rest back := by
  rcases h.at_balanced hsep hrun with ⟨hrest, rfl⟩ | ⟨inside, back, rfl, rfl, hrest, hback⟩
  · rw [← List.append_nil lexemes] at h
    exact .inl ⟨hrest, rfl, h.no_separator_of_hidden hhidden⟩
  · exact .inr ⟨inside, back, rfl, rfl, h.no_separator_of_hidden hhidden, hrest, hback⟩

theorem Row.no_separator {started : Bool} {separator : Char} {s : Text} {lexemes : List Lexeme}
    (h : Row 0 false started s lexemes) (hs : Sealed separator s) (k : Nat) :
    Lexeme.operator [separator] k ∉ lexemes := by
  intro hm
  obtain ⟨front, back, rfl⟩ := List.append_of_mem hm
  obtain ⟨t, rfl, -⟩ := h.behind
  exact hs.hidden (text front) t rfl (h.ending (.inr ⟨_, _, _, rfl⟩)).1

end Lexeme

/-- A sealed text that can stand between separators. -/
structure Chunk (separator : Char) (s : Text) : Prop extends Sealed separator s where
  nonEmpty : s ≠ []
  closed : ∀ c ∈ s.getLast?, Lexeme.isSeparator c = false

namespace Lexeme

theorem eq_of_precedence {c : Char} (hc : isSeparator c = true) {op : Text}
    (hop : OperatorTable.standard.isBinary op = true)
    (h : OperatorTable.standard.precedence op = OperatorTable.standard.precedence [c]) : op = [c] := by
  have hall : ∀ op ∈ OperatorTable.binaries, ∀ c ∈ [',', ';'],
      OperatorTable.standard.precedence op = OperatorTable.standard.precedence [c] → op = [c] := by
    decide +kernel
  refine hall op (OperatorTable.isBinary_iff.1 hop) c ?_ h
  simpa using isSeparator_iff.1 hc

theorem Row.split_text {started : Bool} {separator : Char} {s : Text}
    {lexemes inside back : List Lexeme} (hsep : isSeparator separator = true)
    (h : Row 0 false started s lexemes) (hls : lexemes = inside ++ back)
    (hno : ∀ k, Lexeme.operator [separator] k ∉ inside) :
    split (OperatorTable.standard.precedence [separator]) inside = (text inside, []) := by
  refine split_of_ne fun op k hm hk => ?_
  obtain ⟨hop, hrank⟩ := h.rank_of_mem (hls ▸ List.mem_append_left back hm)
  cases eq_of_precedence hsep hop (hrank.symm.trans hk)
  exact hno k hm

/-- Chunks with separators between them are split at these separators. -/
theorem Row.split_chunks {started : Bool} {separator : Char} {front : Text} {more : List Text}
    {lexemes : List Lexeme} (hsep : isSeparator separator = true)
    (h : Row 0 false started (front ++ more.flatMap (separator :: ·)) lexemes)
    (hfront : Chunk separator front) (hmore : ∀ s ∈ more, Chunk separator s) :
    split (OperatorTable.standard.precedence [separator]) lexemes =
      (front, more.map ([separator], ·)) := by
  induction more generalizing front started lexemes with
  | nil =>
    rw [List.flatMap_nil, List.append_nil] at h
    rw [h.split_text hsep (List.append_nil _).symm (h.no_separator hfront.toSealed)]
    rcases h.makeUp with htext | ⟨c, hc, htext⟩
    · rw [← htext]
      rfl
    · have hlast := hfront.closed c (by rw [htext, List.getLast?_concat]; rfl)
      rw [hc] at hlast
      cases hlast
  | cons s more ih =>
    rw [List.flatMap_cons, List.cons_append] at h
    obtain ⟨hchunk, hmore⟩ := List.forall_mem_cons.1 hmore
    rcases h.at_separator hsep hfront.balanced hfront.hidden with
      ⟨hrest, -⟩ | ⟨inside, back, hls, htext, hno, -, hback⟩
    · exact absurd (List.append_eq_nil_iff.1 hrest).1 hchunk.nonEmpty
    · rw [hls, split_append, h.split_text hsep hls hno, htext, ih hback hchunk hmore]
      rfl

theorem groupLabel_separator {c : Char} (hc : isSeparator c = true) :
    OperatorTable.standard.groupLabel (OperatorTable.standard.precedence [c]) = some [c] := by
  rcases isSeparator_iff.1 hc with rfl | rfl <;> decide +kernel

/-- A separator among the lexemes of a level is the loosest operator, unless there is a semicolon. -/
theorem Row.loosest?_separator {started : Bool} {separator : Char} {s : Text} {lexemes : List Lexeme}
    (hsep : isSeparator separator = true) (h : Row 0 false started s lexemes)
    (hm : Lexeme.operator [separator] (OperatorTable.standard.precedence [separator]) ∈ lexemes)
    (hlow : separator = ';' ∨ ∀ k, Lexeme.operator [';'] k ∉ lexemes) :
    loosest? lexemes = some (OperatorTable.standard.precedence [separator]) := by
  refine loosest?_eq_some hm fun op k hm => ?_
  obtain ⟨hop, rfl⟩ := h.rank_of_mem hm
  have hpos := OperatorTable.precedence_pos_iff.2 hop
  have hsemicolon : OperatorTable.standard.precedence [';'] = 1 := by decide
  rcases hlow with rfl | hno
  · omega
  · have hne : OperatorTable.standard.precedence op ≠ 1 := by
      intro hone
      cases (rank_of_semicolon hop).1 hone
      exact hno _ hm
    rcases isSeparator_iff.1 hsep with rfl | rfl
    · rw [rank_of_comma]
      omega
    · omega

theorem Row.loosest?_chunks {started : Bool} {separator : Char} {s : Text} {lexemes : List Lexeme}
    (hsep : isSeparator separator = true) (h : Row 0 false started s lexemes)
    (hne : (split (OperatorTable.standard.precedence [separator]) lexemes).2 ≠ [])
    (hlow : separator = ';' ∨ Sealed ';' s) :
    loosest? lexemes = some (OperatorTable.standard.precedence [separator]) := by
  obtain ⟨⟨op, term⟩, hp⟩ := List.exists_mem_of_ne_nil _ hne
  have hm := operator_of_mem_split hp
  obtain ⟨hop, hrank⟩ := h.rank_of_mem hm
  cases eq_of_precedence hsep hop hrank.symm
  exact h.loosest?_separator hsep hm (hlow.imp_right h.no_separator)

end Lexeme

namespace Expr

variable {n : Nat} {op front : Text} {more : List Text} {separator : Char} {e : Expr}

theorem balanced_join (hsep : Lexeme.isSeparator separator = true)
    (hmore : ∀ s ∈ more, Balanced s) : Balanced (more.flatMap (separator :: ·)) := by
  have hone : Balanced [separator] := by
    rcases Lexeme.isSeparator_iff.1 hsep with rfl | rfl <;> rfl
  induction more with
  | nil => exact Balanced.nil
  | cons s more ih =>
    obtain ⟨hs, hmore⟩ := List.forall_mem_cons.1 hmore
    exact (hone.append hs).append (ih hmore)

/-- A text of at least two chunks is read as a chain of what the chunks are read as. A list of chunks
that hides its semicolons is no sequence. -/
theorem chain_of_parseLevel (hsep : Lexeme.isSeparator separator = true)
    (hlow : separator = ';' ∨ Sealed ';' (front ++ more.flatMap (separator :: ·)))
    (hfront : Chunk separator front) (hmore : ∀ s ∈ more, Chunk separator s) (hne : more ≠ [])
    (htrim : Text.Trimmed (front ++ more.flatMap (separator :: ·)))
    (h : parseLevel .standard n op (front ++ more.flatMap (separator :: ·)) = .ok e) :
    ∃ n' first terms, e = ⟨[separator], op, first :: terms⟩ ∧
      parseLevel .standard n' [] front = .ok first ∧
      List.Forall₂ (fun s term => parseLevel .standard n' [separator] s = .ok term) more terms := by
  cases n with
  | zero => cases h
  | succ n =>
    have hback : more.flatMap (separator :: ·) ≠ [] := by
      cases more with
      | nil => exact absurd rfl hne
      | cons s more => exact List.cons_ne_nil _ _
    obtain ⟨lexemes, hscan, hlevel⟩ := parseLevel_iff.1 h
    rw [htrim.trim_eq, stripBrackets_append hfront.nonEmpty hback
      (balanced_join hsep fun s hs => (hmore s hs).balanced)] at hscan
    have hrow : Lexeme.Row 0 false false _ _ := Lexeme.row_of_scan hscan
    have hsplit := hrow.split_chunks hsep hfront hmore
    have hloosest := hrow.loosest?_chunks hsep (by rw [hsplit]; simpa using hne) hlow
    obtain ⟨_, first, terms, rfl, hlabel, hfirst, hterms⟩ := hlevel.exists_chain hloosest
    rw [hsplit] at hfirst hterms
    rw [Lexeme.groupLabel_separator hsep] at hlabel
    cases hlabel
    exact ⟨n, first, terms, rfl, hfirst, List.forall₂_map_left_iff.1 hterms⟩

/-- An item with a bracketed value is an assignment, whatever stands in the brackets. -/
theorem assign_of_parseLevel {key s : Text} (hkey : Word false key) (hs : Balanced s)
    (h : parseLevel .standard n op (key ++ '=' :: ('(' :: s ++ [')'])) = .ok e) :
    ∃ value, e = ⟨['='], op, [⟨key, [], []⟩, value]⟩ := by
  cases n with
  | zero => cases h
  | succ n =>
    obtain ⟨lexemes, hscan, hlevel⟩ := parseLevel_iff.1 h
    obtain ⟨c, rest, hfirst, -⟩ := hkey.first
    have hne : key ≠ [] := hfirst ▸ List.cons_ne_nil c rest
    have htrim : Text.Trimmed (key ++ '=' :: ('(' :: s ++ [')'])) :=
      hkey.trimmed.around (by decide : Text.Trimmed [')']) hne (List.cons_ne_nil _ _)
        ('=' :: '(' :: s)
    have hback : Balanced ('=' :: ('(' :: s ++ [')'])) :=
      (show Balanced ['='] from rfl).append hs.bracketed
    obtain ⟨b, hread, hb, hsign⟩ := hkey.reads {} Cursor.fresh_start
    obtain ⟨a, ha, hoperator⟩ := Lexeme.reads_operator hb (by decide : OperatorTable.standard.isBinary ['='] = true)
      fun _ => hsign rfl
    obtain ⟨d, hbrackets, hd, -⟩ := Lexeme.reads_brackets ha.opened ha.quoted hs
    have hlexemes := hread ('=' :: ('(' :: s ++ [')']))
    have hequals := hoperator '(' (s ++ [')']) (Phrase.mayFollow_of_not_isSymbol (by decide))
    rw [htrim.trim_eq, stripBrackets_append hne (List.cons_ne_nil _ _) hback, hlexemes] at hscan
    rw [List.singleton_append] at hequals
    rw [List.cons_append, hequals, ← List.cons_append, hbrackets.scan_eq hd] at hscan
    cases hscan
    have hloosest : Lexeme.loosest? (key.map .letter ++ Lexeme.operator ['=']
        (OperatorTable.standard.precedence ['=']) :: ('(' :: s ++ [')']).map .letter) =
        some (OperatorTable.standard.precedence ['=']) := by
      refine Lexeme.loosest?_eq_some (List.mem_append_right _ List.mem_cons_self) fun o k hm => ?_
      simp at hm
      omega
    obtain ⟨_, first, terms, rfl, hlabel, hfirst, hterms⟩ := hlevel.exists_chain hloosest
    have hletters : ∀ t : Text, Lexeme.split (OperatorTable.standard.precedence ['='])
        (t.map .letter) = (t, []) := by
      intro t
      rw [Lexeme.split_of_ne fun o k hm => (by simp at hm), Lexeme.text_map_letter]
    rw [Lexeme.split_append, hletters, hletters] at hfirst hterms
    obtain ⟨value, rest, -, hnil, rfl⟩ := List.forall₂_cons_left_iff.1 hterms
    cases List.forall₂_nil_left_iff.1 hnil
    cases Phrase.eq_tree_of_parseLevel (p := .word key false) hkey hfirst
    have hlabel' := hlabel.symm.trans (by decide +kernel :
      OperatorTable.standard.groupLabel (OperatorTable.standard.precedence ['=']) = some ['='])
    cases hlabel'
    exact ⟨value, rfl⟩
/-- Brackets around a text are taken off, or make a group. -/
theorem inside_of_parseLevel {s : Text} (hs : Balanced s) (htrim : Text.Trimmed s) (hne : s ≠ [])
    (h : parseLevel .standard n op ('(' :: s ++ [')']) = .ok e) :
    ∃ n' op' inner, parseLevel .standard n' op' s = .ok inner ∧ (e = inner ∨ e = callNode [] op inner) := by
  have htrim' : Text.Trimmed ('(' :: s ++ [')']) := by
    refine Text.Trimmed.around (s := ['(']) (t := [')']) ?_ ?_ (List.cons_ne_nil _ _)
      (List.cons_ne_nil _ _) s <;> decide
  cases n with
  | zero => cases h
  | succ n =>
    by_cases hmem : '(' ∈ s
    · obtain ⟨b, hread, hb, -⟩ := Lexeme.reads_brackets Cursor.fresh_start.opened
        Cursor.fresh_start.quoted hs
      have hlead : OperatorTable.standard.leading? ([] ++ ('(' :: s ++ [')'])) = none :=
        leading?_of_first (by decide) _
      have hcall : Term.ofText .standard (Text.trim (Lexeme.text (('(' :: s ++ [')']).map .letter))) =
          .ok (.call [] s) := by
        have hterm := ofText_brackets (List.forall_mem_nil _) hlead hs
        rw [htrim.isAllBlank_eq hne, htrim.trim_eq] at hterm
        rw [Lexeme.text_map_letter, htrim'.trim_eq]
        exact hterm
      obtain ⟨lexemes, hscan, hlevel⟩ := parseLevel_iff.1 h
      have hstrip : stripBrackets ('(' :: s ++ [')']) = '(' :: s ++ [')'] :=
        stripBrackets_of_mem (List.mem_append_left _ hmem)
      rw [htrim'.trim_eq, hstrip, hread.scan_eq hb] at hscan
      cases hscan
      cases hlevel with
      | leaf _ hterm => cases hcall.symm.trans hterm
      | prefixed _ hterm => cases hcall.symm.trans hterm
      | call _ hterm hinner =>
        cases hcall.symm.trans hterm
        exact ⟨n, [], _, hinner, .inr rfl⟩
      | chain hr => cases (Phrase.loosest?_letters _).symm.trans hr
    · have hsame : stripBrackets (Text.trim ('(' :: s ++ [')'])) = stripBrackets (Text.trim s) := by
        rw [htrim'.trim_eq, stripBrackets_bracketed hmem, htrim.trim_eq, stripBrackets_of_not_mem hmem]
      rw [parseLevel_congr hsame] at h
      exact ⟨n + 1, op, e, h, .inl rfl⟩

end Expr
end Lineshape
