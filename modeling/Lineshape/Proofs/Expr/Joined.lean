import Lineshape.Proofs.Expr.Items
import Lineshape.Proofs.Expr.Outer
import Lineshape.Proofs.Expr.Sealed

/-! # Lists of texts that can be read

Where each of several texts can be read on its own and hides its separators, the texts with
separators between them are read as a chain of what they are read as (`Expr.parseLevel_join`). So a
text may stand anywhere among others without a change in what it, or any of the others, is read
as. Behind a list that is not itself in brackets, whatever its items are, one more can be put
(`Expr.parseLevel_snoc`). -/

namespace Lineshape
set_option autoImplicit false

namespace Lexeme

variable {a a' b : Cursor} {s : Text} {lexemes : List Lexeme} {separator : Char}

theorem not_quoted_of_symbol {c : Char} (hq : ¬ a.quoted.isSome = true)
    (hn : a.note c = some b) (htop : (b.isTopLevel && OperatorTable.standard.isSymbol c) = true) :
    ¬ b.quoted.isSome = true := by
  rw [note_symbol (Bool.and_eq_true _ _ ▸ htop).2] at hn
  cases hn
  exact hq

/-- A text that can be scanned is scanned the same at every place that is like the first, and at its
end a term can end. -/
theorem exists_settled_of_scan (halike : a.Alike a') (h : scan .standard a s = .ok lexemes)
    (hs : text lexemes = s) (hlast : ∀ c ∈ s.getLast?, Text.isBlank c = false)
    (hready : s = [] ∨ a.quoted.isSome = true → a.afterTerm = true) :
    ∃ b, Reads .standard a' s lexemes b ∧ b.Settled := by
  have hbehind : ∀ (front : Text) {s : Text}, (∀ c ∈ (front ++ s).getLast?, Text.isBlank c = false) →
      ∀ c ∈ s.getLast?, Text.isBlank c = false :=
    fun _ _ hlast c hc => hlast c (List.mem_getLast?_append_of_mem_getLast? hc)
  rw [scan_eq_ok] at h
  induction h generalizing a' with
  | done ho hq =>
    exact ⟨a', .nil a', halike.opened_eq_nil ho, halike.quoted_eq_none hq,
      halike.afterTerm ▸ hready (.inl rfl)⟩
  | @quoted a c rest back hq _ ih =>
    have hafter : (a.stepQuoted c).afterTerm = true := by
      rw [Cursor.stepQuoted]
      split <;> exact hready (.inr hq)
    obtain ⟨b, hread, hb⟩ := ih (halike.stepQuoted c) (List.cons.inj hs).2
      (hbehind [c] hlast) fun _ => hafter
    exact ⟨b, (reads_quoted_char (halike.quoted ▸ hq) c).cons hread, hb⟩
  | separator => cases hs
  | @one a cursor c d rest back hq hnote htop hlong _ ih =>
    rw [text_append, text_written] at hs
    obtain ⟨cursor', hnote', hcursor⟩ := halike.note hnote
    have hquoted := not_quoted_of_symbol hq hnote htop
    obtain ⟨b, hread, hb⟩ := ih (hcursor.skip [c] false) (List.cons.inj hs).2
      (hbehind [c] hlast) fun h => absurd (h.resolve_left (List.cons_ne_nil d rest)) hquoted
    refine ⟨b, fun behind => ?_, hb⟩
    have hrest := hread behind
    rw [hcursor.isTopLevel] at htop
    rw [hcursor.afterTerm] at hlong ⊢
    rw [List.cons_append] at hrest
    rw [List.cons_append, List.cons_append, scan_one (halike.quoted ▸ hq) hnote' htop hlong, hrest,
      map_append_map]
  | @two a cursor c d rest back hq hnote htop hlong hne _ ih =>
    rw [text_append, text_written] at hs
    obtain ⟨cursor', hnote', hcursor⟩ := halike.note hnote
    have hquoted := not_quoted_of_symbol hq hnote htop
    have hrest : rest ≠ [] := by
      rintro rfl
      cases hafter : cursor.afterTerm with
      | true => exact hne (by rw [hafter]; rfl)
      | false =>
        -- no unary operator has two characters
        rw [hafter] at hlong
        have hunary := (OperatorTable.longest?_spec hlong).2 rfl
        rcases OperatorTable.isUnary_iff.1 hunary with h | h <;> cases h
    obtain ⟨b, hread, hb⟩ := ih (hcursor.skip [c, d] false)
      (List.cons.inj (List.cons.inj hs).2).2 (hbehind [c, d] hlast)
      fun h => h.elim (fun hnil => absurd hnil hrest) fun hc => absurd hc hquoted
    refine ⟨b, fun behind => ?_, hb⟩
    have hsome : ¬ (cursor'.afterTerm && (rest ++ behind).isEmpty) = true := by
      simp [hrest]
    rw [hcursor.isTopLevel] at htop
    rw [hcursor.afterTerm] at hlong ⊢
    rw [List.cons_append, List.cons_append, scan_two (halike.quoted ▸ hq) hnote' htop hlong,
      if_neg hsome, hread behind, map_append_map]
  | @letter a cursor c rest back hq hnote htop _ ih =>
    obtain ⟨cursor', hnote', hcursor⟩ := halike.note hnote
    have hafter : rest = [] ∨ (cursor.advance c).quoted.isSome = true →
        (cursor.advance c).afterTerm = true := by
      intro hcase
      cases hblank : Text.isBlank c with
      | false => simp [hblank]
      | true =>
        rcases hcase with rfl | hquoted
        · rw [hlast c rfl] at hblank
          cases hblank
        · obtain ⟨hquote, hopen, hclose⟩ := Text.ne_of_isBlank hblank
          rw [a.note_plain c hquote hopen hclose] at hnote
          cases hnote
          exact absurd hquoted hq
    obtain ⟨b, hread, hb⟩ := ih (hcursor.advance c) (List.cons.inj hs).2
      (hbehind [c] hlast) hafter
    rw [hcursor.isTopLevel] at htop
    have hnone : a'.quoted = none := by simpa [halike.quoted] using hq
    exact ⟨b, (reads_letter hnone hnote' (by simpa using htop)).cons hread, hb⟩

/-- A text without a separator at its end is scanned to its last character. -/
theorem text_of_closed (h : scan .standard a s = .ok lexemes)
    (hclosed : ∀ c ∈ s.getLast?, isSeparator c = false) : text lexemes = s := by
  rcases makeUp_of_scan h with htext | ⟨c, hc, htext⟩
  · exact htext.symm
  · have hlast := hclosed c (by rw [htext, List.getLast?_concat]; rfl)
    rw [hc] at hlast
    cases hlast

/-- Behind a separator the scan starts afresh. -/
theorem scan_behind_separator (hsep : isSeparator separator = true) (hb : b.Settled) :
    ∃ a : Cursor, a.Fresh ∧ ∀ s lexemes, (∃ c rest, s = c :: rest ∧ OperatorTable.MayFollow c) →
      scan .standard a s = .ok lexemes → scan .standard b (separator :: s) =
        .ok (operator [separator] (OperatorTable.standard.precedence [separator]) :: lexemes) := by
  have hbinary : OperatorTable.standard.isBinary [separator] = true := by
    rcases isSeparator_iff.1 hsep with rfl | rfl <;> decide
  have hnosign : [separator] = ['+'] ∨ [separator] = ['-'] → b.number.expectsSign = false := by
    rcases isSeparator_iff.1 hsep with rfl | rfl <;> simp
  obtain ⟨a, ha, hoperator⟩ := reads_operator hb hbinary hnosign
  refine ⟨a, ha, ?_⟩
  rintro s lexemes ⟨c, rest, rfl, hc⟩ h
  have hbehind := hoperator c rest hc
  rw [h] at hbehind
  exact hbehind

end Lexeme

namespace Expr

variable {n : Nat} {op s : Text} {e : Expr} {a : Cursor}

/-- A text that can be read on its own is scanned wherever a term can begin. -/
theorem exists_settled_of_parseLevel (h : parseLevel .standard n op s = .ok e) (ht : Text.Trimmed s)
    (hne : s ≠ []) (hclosed : ∀ c ∈ s.getLast?, Lexeme.isSeparator c = false) (ha : a.Fresh) :
    ∃ lexemes b, Lexeme.Reads .standard a s lexemes b ∧ b.Settled := by
  cases n with
  | zero => cases h
  | succ n =>
    rcases stripBrackets_cases s with hstrip | ⟨inner, rfl, hinner, -⟩
    · obtain ⟨lexemes, hscan, -⟩ := parseLevel_iff.1 h
      rw [ht.trim_eq, hstrip] at hscan
      obtain ⟨b, hread, hb⟩ := Lexeme.exists_settled_of_scan (Cursor.fresh_start.alike ha) hscan
        (Lexeme.text_of_closed hscan hclosed) ht.right fun h => absurd (h.resolve_left hne) Bool.false_ne_true
      exact ⟨lexemes, b, hread, hb⟩
    · rw [parseLevel_stripped .standard hinner] at h
      obtain ⟨b, hread, hb, -⟩ :=
        Lexeme.reads_brackets ha.opened ha.quoted (balanced_of_parseLevel h)
      exact ⟨_, b, hread, hb⟩

/-- It begins with a symbol only if that is a sign. -/
theorem mayFollow_of_parseLevel {c : Char} (h : parseLevel .standard n op (c :: s) = .ok e)
    (ht : Text.Trimmed (c :: s)) (hclosed : ∀ d ∈ (c :: s).getLast?, Lexeme.isSeparator d = false) :
    OperatorTable.MayFollow c := by
  intro hc
  cases n with
  | zero => cases h
  | succ n =>
    have hstrip : stripBrackets (c :: s) = c :: s := by
      refine stripBrackets_of_head ?_
      rintro ⟨⟩
      exact absurd hc (by decide)
    obtain ⟨lexemes, hscan, -⟩ := parseLevel_iff.1 h
    rw [ht.trim_eq, hstrip] at hscan
    have hne : lexemes ≠ [] := by
      rintro rfl
      cases Lexeme.text_of_closed hscan hclosed
    have hsign := Lexeme.isUnary_of_scan Cursor.fresh_start hscan hc hne
    rcases OperatorTable.isUnary_iff.1 hsign with h | h
    · exact .inl (List.cons.inj h).1
    · exact .inr (List.cons.inj h).1

/-! ## Lists -/

/-- A text that stands for a tree wherever it stands between these separators. -/
structure Stands (separator : Char) (n : Nat) (s : Text) (e : Expr) : Prop extends Chunk separator s where
  trimmed : Text.Trimmed s
  parse : parseLevel .standard n [] s = .ok e

theorem Stands.mayFollow {separator : Char} (h : Stands separator n s e) :
    ∃ c rest, s = c :: rest ∧ OperatorTable.MayFollow c := by
  obtain ⟨c, rest, rfl⟩ := List.exists_cons_of_ne_nil h.nonEmpty
  exact ⟨c, rest, rfl, mayFollow_of_parseLevel h.parse h.trimmed h.closed⟩

variable {separator : Char} {front : Text} {more : List Text} {first : Expr} {terms : List Expr}

theorem exists_scan_join (hsep : Lexeme.isSeparator separator = true)
    (hfront : Stands separator n front first) (hmore : List.Forall₂ (Stands separator n) more terms)
    (ha : a.Fresh) :
    ∃ lexemes, Lexeme.scan .standard a (front ++ more.flatMap (separator :: ·)) = .ok lexemes := by
  obtain ⟨lexemes, b, hread, hb⟩ :=
    exists_settled_of_parseLevel hfront.parse hfront.trimmed hfront.nonEmpty hfront.closed ha
  induction hmore generalizing front first a lexemes b with
  | nil =>
    rw [List.flatMap_nil, List.append_nil]
    exact ⟨lexemes, hread.scan_eq hb⟩
  | @cons s e more terms hs _ ih =>
    obtain ⟨a', ha', hbehind⟩ := Lexeme.scan_behind_separator hsep hb
    obtain ⟨lexemes', b', hread', hb'⟩ :=
      exists_settled_of_parseLevel hs.parse hs.trimmed hs.nonEmpty hs.closed ha'
    obtain ⟨back, hback⟩ := ih hs ha' lexemes' b' hread' hb'
    obtain ⟨c, rest, rfl, hc⟩ := hs.mayFollow
    rw [List.cons_append] at hback
    have hsecond := hbehind _ back ⟨c, _, rfl, hc⟩ hback
    refine ⟨lexemes ++ Lexeme.operator [separator]
      (OperatorTable.standard.precedence [separator]) :: back, ?_⟩
    rw [List.flatMap_cons, List.cons_append, List.cons_append, hread, hsecond]
    rfl

theorem trimmed_join (hfront : Stands separator n front first)
    (hmore : List.Forall₂ (Stands separator n) more terms) :
    Text.Trimmed (front ++ more.flatMap (separator :: ·)) := by
  rcases List.eq_nil_or_concat more with rfl | ⟨more, s, rfl⟩
  · rw [List.flatMap_nil, List.append_nil]
    exact hfront.trimmed
  · obtain ⟨e, -, hs⟩ := Result.exists_of_forall₂ hmore.flip
      (List.concat_eq_append ▸ List.mem_append_right more List.mem_cons_self)
    rw [List.concat_eq_append, List.flatMap_append, List.flatMap_singleton, ← List.singleton_append,
      ← List.append_assoc (more.flatMap _)]
    exact hfront.trimmed.around hs.trimmed hfront.nonEmpty hs.nonEmpty _

/-- The operator in front of a text only becomes that of the tree. -/
theorem parseLevel_withOp {t : OperatorTable} (h : parseLevel t n op s = .ok e) (op' : Text) :
    parseLevel t n op' s = .ok (e.withOp op') := by
  cases n with
  | zero => cases h
  | succ n =>
    obtain ⟨lexemes, hscan, hlevel⟩ := parseLevel_iff.1 h
    refine parseLevel_iff.2 ⟨lexemes, hscan, ?_⟩
    cases hlevel with
    | leaf hr hterm => exact .leaf hr hterm
    | prefixed hr hterm hinner => exact .prefixed hr hterm hinner
    | @call head arguments inner hr hterm hinner =>
      rw [callNode_withOp]
      exact .call hr hterm hinner
    | chain hr hlabel hfirst hmore => exact .chain hr hlabel hfirst hmore

/-- Texts that can be read, with separators between them, are read as a chain of what they are read
as. A list has to hide its semicolons. -/
theorem parseLevel_join (hsep : Lexeme.isSeparator separator = true)
    (hlow : separator = ';' ∨ Sealed ';' (front ++ more.flatMap (separator :: ·)))
    (hfront : Stands separator n front first) (hmore : List.Forall₂ (Stands separator n) more terms)
    (hne : more ≠ []) (op : Text) :
    parseLevel .standard (n + 1) op (front ++ more.flatMap (separator :: ·)) =
      .ok ⟨[separator], op, first :: terms.map (·.withOp [separator])⟩ := by
  have hchunks : ∀ s ∈ more, Chunk separator s := by
    intro s hs
    obtain ⟨e, -, h⟩ := Result.exists_of_forall₂ hmore.flip hs
    exact h.toChunk
  obtain ⟨lexemes, hscan⟩ := exists_scan_join hsep hfront hmore Cursor.fresh_start
  have hstrip : stripBrackets (Text.trim (front ++ more.flatMap (separator :: ·))) =
      front ++ more.flatMap (separator :: ·) := by
    have hback : more.flatMap (separator :: ·) ≠ [] := by
      cases more with
      | nil => exact absurd rfl hne
      | cons s more => exact List.cons_ne_nil _ _
    rw [(trimmed_join hfront hmore).trim_eq, stripBrackets_append hfront.nonEmpty hback
      (balanced_join hsep fun s hs => (hchunks s hs).balanced)]
  have hrow : Lexeme.Row 0 false false _ _ := Lexeme.row_of_scan hscan
  have hsplit := hrow.split_chunks hsep hfront.toChunk hchunks
  refine parseLevel_iff.2 ⟨lexemes, by rw [hstrip, hscan], ?_⟩
  refine .chain (hrow.loosest?_chunks hsep (by rw [hsplit]; simpa using hne) hlow)
    (Lexeme.groupLabel_separator hsep) (by rw [hsplit]; exact hfront.parse) ?_
  rw [hsplit, List.forall₂_map_left_iff, List.forall₂_map_right_iff]
  exact hmore.imp fun s e hs => parseLevel_withOp hs.parse [separator]

/-- Items that can be read on their own are read as the same items in a list. -/
theorem exists_parseLevel_items {texts : List Text} {items : List Expr}
    (h : List.Forall₂ (fun s e => Stands ',' n s e ∧ Sealed ';' s) texts items)
    (hlength : 1 < texts.length) (op : Text) :
    Sealed ';' (List.intercalate [','] texts) ∧
      ∃ e, parseLevel .standard (n + 1) op (List.intercalate [','] texts) = .ok e ∧
        e.name = [','] ∧ e.terms.map (·.withOp []) = items.map (·.withOp []) := by
  cases h with
  | nil => cases hlength
  | @cons first e more items hfirst hmore =>
    have hne : more ≠ [] := by
      rintro rfl
      simp at hlength
    rw [Text.intercalate_cons]
    have hsealed : Sealed ';' (first ++ more.flatMap (',' :: ·)) := by
      refine hfirst.2.append (.flatMap fun s hs => ?_)
      obtain ⟨e, -, -, hlow⟩ := Result.exists_of_forall₂ hmore.flip hs
      exact (Sealed.plain rfl (by decide) : Sealed ';' [',']).append hlow
    have hstands : List.Forall₂ (Stands ',' n) more items := hmore.imp fun _ _ hs => hs.1
    refine ⟨hsealed, _, parseLevel_join rfl (.inr hsealed) hfirst.1 hstands hne op, rfl, ?_⟩
    simp [withOp]

/-- An item is read as one item among others. -/
theorem exists_parseLevel_among {item : Text} {x : Expr} {before after : List Text}
    {items items' : List Expr} (hitem : Stands ',' n item x ∧ Sealed ';' item)
    (hne : before ++ after ≠ [])
    (hbefore : List.Forall₂ (fun s e => Stands ',' n s e ∧ Sealed ';' s) before items)
    (hafter : List.Forall₂ (fun s e => Stands ',' n s e ∧ Sealed ';' s) after items') (op : Text) :
    Sealed ';' (List.intercalate [','] (before ++ item :: after)) ∧
      ∃ e, parseLevel .standard (n + 1) op (List.intercalate [','] (before ++ item :: after)) = .ok e ∧
        e.name = [','] ∧ e.terms.map (·.withOp []) = (items ++ x :: items').map (·.withOp []) := by
  refine exists_parseLevel_items (List.rel_append hbefore (.cons hitem hafter)) ?_ op
  rw [← List.length_pos_iff, List.length_append] at hne
  rw [List.length_append, List.length_cons]
  omega

/-! ## One more item -/

variable {item : Text} {x : Expr}

/-- A call without a head begins with a bracket. -/
theorem head?_of_call {arguments : Text} (hs : Text.Trimmed s)
    (h : Term.ofText .standard s = .ok (.call [] arguments)) : s.head? = some '(' := by
  obtain ⟨-, front, inside, after, rfl, hfront, -⟩ := ofText_call_cases h
  cases front with
  | nil => rfl
  | cons c front =>
    have hblank := Text.trim_eq_nil_iff.1 hfront.symm
    rw [Text.isAllBlank, List.all_cons, Bool.and_eq_true] at hblank
    have hc := hs.left c rfl
    rw [hblank.1] at hc
    cases hc

/-- What a text without a bracket in front is read as: a leaf, a term behind a sign, a call with a head,
or a chain of what is split at the loosest operators. -/
theorem cases_of_parseLevel (ht : Text.Trimmed s) (hopen : s.head? ≠ some '(')
    (h : parseLevel .standard (n + 1) op s = .ok e) :
    e.terms = [] ∨ OperatorTable.standard.isUnary e.name = true ∨ HeadName e.name ∨
    ∃ lexemes label first more, OperatorTable.standard.isBinary label = true ∧
      e = ⟨label, op, first :: more⟩ ∧ Lexeme.scan .standard {} s = .ok lexemes ∧
      Lexeme.loosest? lexemes = some (OperatorTable.standard.precedence label) ∧
      parseLevel .standard n [] (Lexeme.split (OperatorTable.standard.precedence label) lexemes).1 =
        .ok first ∧
      List.Forall₂ (fun p e => parseLevel .standard n p.1 p.2 = .ok e)
        (Lexeme.split (OperatorTable.standard.precedence label) lexemes).2 more := by
  obtain ⟨lexemes, hscan, hlevel⟩ := parseLevel_iff.1 h
  rw [ht.trim_eq, stripBrackets_of_head hopen] at hscan
  cases hlevel with
  | leaf => exact .inl rfl
  | prefixed _ hterm => exact .inr (.inl (isUnary_of_leading? (ofText_prefixed_cases hterm)))
  | @call head arguments inner _ hterm _ =>
    rcases headName_of_call ht hscan hterm with rfl | hhead
    · obtain ⟨tail, rfl⟩ := exists_tail_of_scan hscan ht
      rw [List.head?_append, head?_of_call (Text.trimmed_trim _) hterm] at hopen
      exact absurd rfl hopen
    · obtain ⟨c, rest, rfl, hc⟩ := hhead
      have hname : (callNode (c :: rest) op inner).name = c :: rest := by
        rw [callNode]
        split <;> rfl
      exact .inr (.inr (.inl ⟨c, rest, hname, hc⟩))
  | @chain r label first more hr hlabel hfirst hmore =>
    obtain ⟨⟨hbinary, rfl⟩, -⟩ := chain_spec hscan hr hlabel hmore
    exact .inr (.inr (.inr ⟨lexemes, label, first, more, hbinary, rfl, hscan, hr, hfirst, hmore⟩))

/-- A text without a bracket in front is not read as a group. -/
theorem isNode_of_parseLevel (ht : Text.Trimmed s) (hopen : s.head? ≠ some '(')
    (h : parseLevel .standard n op s = .ok e) : e.IsNode := by
  obtain ⟨n, rfl⟩ : ∃ k, n = k + 1 := by
    cases n with
    | zero => cases h
    | succ n => exact ⟨n, rfl⟩
  rcases cases_of_parseLevel ht hopen h with hleaf | hsign | ⟨c, rest, hhead, -⟩ |
    ⟨_, label, first, more, hbinary, rfl, -⟩
  · exact .inr (by rw [hleaf]; decide)
  · refine .inl fun hname => ?_
    rw [hname] at hsign
    cases hsign
  · exact .inl (hhead ▸ List.cons_ne_nil c rest)
  · refine .inl fun hname => ?_
    cases hname
    cases hbinary

/-- A text behind which an item can be put: it has neither a bracket in front, nor a separator or a
blank at its end. -/
structure Extensible (s : Text) : Prop where
  trimmed : Text.Trimmed s
  unbracketed : s.head? ≠ some '('
  closed : ∀ c ∈ s.getLast?, Lexeme.isSeparator c = false

theorem stripBrackets_snoc (hs : Extensible s) (hne : s ≠ []) (hitem : Stands ',' n item x) :
    stripBrackets (Text.trim (s ++ ',' :: item)) = s ++ ',' :: item := by
  have hback : Balanced (',' :: item) := (show Balanced [','] from rfl).append hitem.balanced
  have htrim : Text.Trimmed (s ++ ([','] ++ item)) :=
    hs.trimmed.around hitem.trimmed hne hitem.nonEmpty _
  rw [show s ++ ',' :: item = s ++ ([','] ++ item) from rfl, htrim.trim_eq]
  exact stripBrackets_append hne (List.cons_ne_nil _ _) hback

/-- Behind a text that is scanned on its own an item is scanned as if nothing stood before it, and
comes last where the text is split. -/
theorem exists_scan_snoc {lexemes : List Lexeme} (hs : Extensible s) (hne : s ≠ [])
    (hscan : Lexeme.scan .standard {} s = .ok lexemes) (hitem : Stands ',' n item x)
    (hlow : Sealed ';' item) :
    ∃ back, Lexeme.scan .standard {} (s ++ ',' :: item) =
        .ok (lexemes ++ Lexeme.operator [','] (OperatorTable.standard.precedence [',']) :: back) ∧
      (∀ k, Lexeme.operator [';'] k ∉ back) ∧
      Lexeme.split (OperatorTable.standard.precedence [',']) (lexemes ++
          Lexeme.operator [','] (OperatorTable.standard.precedence [',']) :: back) =
        ((Lexeme.split (OperatorTable.standard.precedence [',']) lexemes).1,
          (Lexeme.split (OperatorTable.standard.precedence [',']) lexemes).2 ++ [([','], item)]) := by
  have hcomma : Lexeme.isSeparator ',' = true := rfl
  obtain ⟨b, hread, hb⟩ := Lexeme.exists_settled_of_scan
    (Cursor.fresh_start.alike Cursor.fresh_start) hscan (Lexeme.text_of_closed hscan hs.closed)
    hs.trimmed.right fun h => absurd (h.resolve_left hne) Bool.false_ne_true
  obtain ⟨a, ha, hbehind⟩ := Lexeme.scan_behind_separator hcomma hb
  obtain ⟨back, b', hread', hb'⟩ :=
    exists_settled_of_parseLevel hitem.parse hitem.trimmed hitem.nonEmpty hitem.closed ha
  have hback := hread'.scan_eq hb'
  have hrow : Lexeme.Row 0 false false item back := by
    have hrow := Lexeme.row_of_scan hback
    rwa [ha.opened, ha.quoted, ha.afterTerm] at hrow
  refine ⟨back, ?_, hrow.no_separator hlow, ?_⟩
  · rw [hread, hbehind item back hitem.mayFollow hback]
    rfl
  · rw [Lexeme.split_append, hrow.split_text hcomma (List.append_nil back).symm
      (hrow.no_separator hitem.toSealed), Lexeme.text_of_closed hback hitem.closed]

/-- An item can be put behind a list, or behind an assignment. -/
theorem parseLevel_snoc {separator : Char} (hsep : separator = ',' ∨ separator = '=')
    (hname : e.name = [separator]) (hterms : e.terms ≠ []) (hs : Extensible s)
    (h : parseLevel .standard n [] s = .ok e) (hitem : Stands ',' n item x) (hlow : Sealed ';' item)
    (op : Text) : parseLevel .standard (n + 1) op (s ++ ',' :: item) =
      .ok ⟨[','], op, e.toList [','] ++ [x.withOp [',']]⟩ := by
  cases n with
  | zero => cases h
  | succ n =>
    have hsymbol : OperatorTable.standard.isSymbol separator = true ∧
        OperatorTable.standard.isUnary [separator] = false := by
      rcases hsep with rfl | rfl <;> decide
    obtain ⟨lexemes, label, first, more, -, rfl, hscan, hloosest, hfirst, hmore⟩ :
        ∃ lexemes label first more, _ := by
      rcases cases_of_parseLevel hs.trimmed hs.unbracketed h with
        hleaf | hsign | ⟨c, rest, hhead, hc⟩ | hchain
      · exact absurd hleaf hterms
      · rw [hname, hsymbol.2] at hsign
        cases hsign
      · cases hname.symm.trans hhead
        rw [hsymbol.1] at hc
        cases hc
      · exact hchain
    cases hname
    have hne : s ≠ [] := by
      rintro rfl
      cases hscan
      cases hloosest
    have hrank : OperatorTable.standard.precedence [';'] <
        OperatorTable.standard.precedence [separator] := by
      rcases hsep with rfl | rfl <;> decide
    have hcomma : Lexeme.isSeparator ',' = true := rfl
    obtain ⟨back, hwhole, hback, hsplit⟩ := exists_scan_snoc hs hne hscan hitem hlow
    have hrow : Lexeme.Row 0 false false _ _ := Lexeme.row_of_scan hwhole
    have hno : ∀ k, Lexeme.operator [';'] k ∉ lexemes ++
        Lexeme.operator [','] (OperatorTable.standard.precedence [',']) :: back := by
      intro k hm
      rcases List.mem_append.1 hm with hm' | hm'
      · have hle := (Lexeme.loosest?_spec hloosest).2 _ k hm'
        obtain ⟨-, rfl⟩ := hrow.rank_of_mem hm
        omega
      · rcases List.mem_cons.1 hm' with heq | hm'
        · cases heq
        · exact hback k hm'
    have hlowest := hrow.loosest?_separator hcomma (List.mem_append_right _ List.mem_cons_self)
      (.inr hno)
    refine parseLevel_iff.2 ⟨_, by rw [stripBrackets_snoc hs hne hitem]; exact hwhole, ?_⟩
    have hlast := parseLevel_withOp hitem.parse [',']
    rcases hsep with rfl | rfl
    · change Level .standard (n + 1) op _ ⟨[','], op, first :: (more ++ [x.withOp [',']])⟩
      refine .chain hlowest (Lexeme.groupLabel_separator hcomma) ?_ ?_
      · rw [hsplit]
        exact parseLevel_le hfirst (Nat.le_succ n)
      · rw [hsplit]
        exact List.rel_append (hmore.imp fun p e h => parseLevel_le h (Nat.le_succ n)) (.cons hlast .nil)
    · have hnone : ∀ op k, Lexeme.operator op k ∈ lexemes →
          k ≠ OperatorTable.standard.precedence [','] := by
        intro op k hm
        have hle := (Lexeme.loosest?_spec hloosest).2 op k hm
        have hlt : OperatorTable.standard.precedence [','] < OperatorTable.standard.precedence ['='] := by
          decide
        omega
      rw [Lexeme.split_of_ne hnone, Lexeme.text_of_closed hscan hs.closed] at hsplit
      change Level .standard (n + 1) op _ ⟨[','], op, _ :: [x.withOp [',']]⟩
      refine .chain hlowest (Lexeme.groupLabel_separator hcomma) ?_ ?_
      · rw [hsplit]
        exact h
      · rw [hsplit]
        exact .cons hlast .nil

end Expr
end Lineshape
