import Lineshape.Model.Slot
import Lineshape.Proofs.Expr.Items
import Lineshape.Proofs.Expr.Numbers
import Lineshape.Reading.Item

/-! # Values in model texts

A value of an attribute is written in a model text as a phrase from which it is read again, with each
number as its own text gives it (`Attribute.renumbered`, `Attribute.exists_phrase`). The expression
that the phrase stands for is written another way than the value where the value is a list: without
brackets, and with a blank before a sign. -/

namespace Lineshape
set_option autoImplicit false

/-! ## Characters of numbers -/

namespace Number

variable {s : Text} {x : Float}

theorem mem_of_read (h : read? s = some x) {c : Char} (hc : c ∈ s) :
    c.isAlphanum = true ∨ c ∈ ['.', '-', '+'] := by
  have hmagnitude : ∀ {rest : Text} {y : Float}, Literal.magnitude? rest = some y → c ∈ rest →
      c.isAlphanum = true ∨ c ∈ ['.', '-', '+'] := by
    intro rest y hy hc
    rcases Literal.magnitude_shape hy with hdecimal | hword
    · obtain ⟨d, hd⟩ := Option.isSome_iff_exists.1 hdecimal
      rcases Literal.mem_of_decimal hd hc with hdigit | hmem
      · rw [Char.isAlphanum, hdigit, Bool.or_true]
        exact .inl rfl
      · simp only [List.mem_cons, List.not_mem_nil, or_false] at hmem
        rcases hmem with rfl | rfl | rfl | rfl | rfl <;> decide
    · rw [Char.isAlphanum, (Literal.isAlpha_of_word hword).2 c hc]
      exact .inl rfl
  obtain ⟨rest, y, hy, rfl | rfl | rfl⟩ := read?_cases h
  · rcases List.mem_cons.1 hc with rfl | hc
    · decide
    · exact hmagnitude hy hc
  · rcases List.mem_cons.1 hc with rfl | hc
    · decide
    · exact hmagnitude hy hc
  · exact hmagnitude hy hc

/-- A number has no quote, no bracket, no comma and no blank in it. -/
theorem plain_of_read (h : read? s = some x) {c : Char} (hc : c ∈ s) :
    c ≠ '"' ∧ c ≠ '(' ∧ c ≠ ',' ∧ Text.isBlank c = false := by
  rcases mem_of_read h hc with halnum | hmem
  · have hne : ∀ d : Char, d.isAlphanum = false → c ≠ d := by
      rintro d hd rfl
      rw [halnum] at hd
      cases hd
    refine ⟨hne _ (by decide), hne _ (by decide), hne _ (by decide), ?_⟩
    rw [Char.isAlphanum, Bool.or_eq_true] at halnum
    rcases halnum with halpha | hdigit
    · refine Text.isBlank_of_continuesName ?_
      rw [Text.continuesName, Text.isLetter_of_isAlpha halpha]
      rfl
    · exact Literal.isBlank_of_isDigit hdigit
  · simp only [List.mem_cons, List.not_mem_nil, or_false] at hmem
    rcases hmem with rfl | rfl | rfl <;> decide

theorem ne_nil_of_read (h : read? s = some x) : s ≠ [] := by
  rintro rfl
  cases h

theorem binding_phrase (s op : Text) : ((phrase s).tree op).binding .standard = 0 := by
  rw [phrase.eq_def]
  split
  · exact Expr.binding_prefixed (by decide) (by decide)
  · exact Expr.binding_prefixed (by decide) (by decide)
  · exact Expr.binding_leaf _ _

theorem op_phrase (s op : Text) : ((phrase s).tree op).op = op := by
  rw [phrase.eq_def]
  split <;> rfl

end Number

theorem Word.of_digits {s : Text} (hne : s ≠ []) (hd : s.all Char.isDigit = true) : Word false s := by
  have htrace : Lexeme.trace .outside none (s ++ []) = some (.inside true true false) :=
    Lexeme.trace_first_digits hd hne rfl
  rw [List.append_nil] at htrace
  have hblank : ∀ c ∈ s, Text.isBlank c = false :=
    fun c hc => Literal.isBlank_of_isDigit (List.all_eq_true.1 hd c hc)
  exact Word.of_trace htrace hne
    ⟨fun c hc => hblank c (List.mem_of_mem_head? hc), fun c hc => hblank c (List.mem_of_getLast? hc)⟩
    fun _ => rfl

theorem Whole.integer?_ofNat {n : Nat} (h : 2 * n < wordCount) :
    integer? (Text.ofNat n) = some (n : Int) := by
  have hplain : ∀ c rest, c.isDigit = false → Text.ofNat n ≠ c :: rest := by
    intro c rest hc he
    rw [List.all_eq_true.1 (Text.all_isDigit_ofNat n) c (he ▸ List.mem_cons_self)] at hc
    cases hc
  unfold integer?
  split
  · rename_i rest he
    exact absurd he (hplain '-' rest (by decide))
  · rename_i rest he
    exact absurd he (hplain '+' rest (by decide))
  · rw [natural?_ofNat, Option.map_some]
    refine Option.filter_eq_some_iff.2 ⟨rfl, ?_⟩
    rw [Bool.and_eq_true, decide_eq_true_eq, decide_eq_true_eq]
    constructor <;> omega

/-! ## Quotes -/

theorem Item.unquote_of_head {s : Text} (h : s.head? ≠ some '"') : unquote s = s := by
  unfold unquote
  split
  · exact absurd rfl h
  · rfl

theorem Item.unquote_quoted (s : Text) : unquote ('"' :: s ++ ['"']) = s := by
  have hlast : (s ++ ['"']).getLast? = some '"' := List.getLast?_concat
  show (if (s ++ ['"']).getLast? = some '"' then (s ++ ['"']).dropLast else _) = s
  rw [if_pos hlast, List.dropLast_concat]

/-! ## Lists of numbers -/

namespace Attribute

/-- The pieces of a list between commas and blanks. -/
def pieces (s : Text) : List Text :=
  (Text.fields (fun c => c == ',' || Text.isBlank c) s).filter (· ≠ [])

theorem pieces_cons {c : Char} (h : (c == ',' || Text.isBlank c) = true) (s : Text) :
    pieces (c :: s) = pieces s := by
  rw [pieces, Text.fields, if_pos h]
  rfl

theorem pieces_append {s rest : Text} {x : Float} (h : Number.read? s = some x)
    (hrest : rest = [] ∨ ∃ rest', rest = [','] ++ rest') : pieces (s ++ rest) = s :: pieces rest := by
  have hplain : ∀ c ∈ s, (c == ',' || Text.isBlank c) = false := by
    intro c hc
    obtain ⟨-, -, hcomma, hblank⟩ := Number.plain_of_read h hc
    rw [hblank, beq_false_of_ne hcomma]
    rfl
  have hne := Number.ne_nil_of_read h
  rcases hrest with rfl | ⟨rest', rfl⟩
  · rw [List.append_nil, pieces, Text.fields_of_forall hplain]
    simp [hne, pieces, Text.fields]
  · rw [List.singleton_append, pieces_cons rfl, pieces, Text.fields_append rest' hplain rfl]
    simp [hne, pieces]

/-- Numbers as the terms of a chain, perhaps with blanks between them. -/
theorem pieces_numbers (x : Float) (xs : List Float) (r : Nat) :
    pieces (Number.plain x ++ Expr.renderChain .standard r
      (xs.map fun x => (Number.phrase (Number.plain x)).tree [','])) =
      (x :: xs).map Number.plain := by
  have hx := Number.read?_plain x
  induction xs generalizing x with
  | nil => exact pieces_append hx (.inl rfl)
  | cons y ys ih =>
    have hy := Number.read?_plain y
    obtain ⟨-, -, -, -, htext⟩ := Number.phrase_spec hy
    have hbrackets : Expr.needsBrackets .standard r
        ((Number.phrase (Number.plain y)).tree [',']) = false := by
      rw [Expr.needsBrackets, Number.binding_phrase]
      rfl
    have hcomma : ∀ t : Text, pieces ([','] ++ t) = pieces t := fun t => pieces_cons rfl t
    have hgap : ∀ (b : Bool) (t : Text), pieces ((if b = true then [' '] else []) ++ t) = pieces t := by
      intro b t
      cases b with
      | false => rfl
      | true => exact pieces_cons (by decide) t
    rw [List.map_cons, Expr.renderChain, Number.op_phrase, hbrackets, Expr.enclose,
      if_neg Bool.false_ne_true, List.append_assoc, List.append_assoc,
      pieces_append hx (.inr ⟨_, rfl⟩), hcomma, hgap]
    rw [show ((Number.phrase (Number.plain y)).tree [',']).render .standard = _ from htext [','],
      ih y hy]
    rfl

theorem trimmed_numbers {s : Text} (xs : List Float) (r : Nat) (hs : Text.Trimmed s) (hne : s ≠ []) :
    Text.Trimmed (s ++ Expr.renderChain .standard r
      (xs.map fun x => (Number.phrase (Number.plain x)).tree [','])) := by
  induction xs generalizing s with
  | nil => exact (List.append_nil s).symm ▸ hs
  | cons x xs ih =>
    have hx := Number.read?_plain x
    obtain ⟨hvalid, htext, -, -, htree⟩ := Number.phrase_spec hx
    have hbrackets : Expr.needsBrackets .standard r
        ((Number.phrase (Number.plain x)).tree [',']) = false := by
      rw [Expr.needsBrackets, Number.binding_phrase]
      rfl
    have hplain := Phrase.trimmed hvalid
    rw [htext] at hplain
    rw [List.map_cons, Expr.renderChain, hbrackets, Expr.enclose, if_neg Bool.false_ne_true,
      show ((Number.phrase (Number.plain x)).tree [',']).render .standard = _ from htree [','],
      List.append_assoc, ← List.append_assoc, ← List.append_assoc, List.append_assoc s]
    refine ih (hs.around hplain hne (Number.ne_nil_of_read hx) _) ?_
    exact List.append_ne_nil_of_left_ne_nil hne _

theorem mapM_read (xs : List Float) :
    (xs.map Number.plain).mapM Number.read? = some (xs.map Number.reread) := by
  induction xs with
  | nil => rfl
  | cons x xs ih =>
    rw [List.map_cons, List.mapM_cons, Number.read?_plain, ih]
    rfl

theorem unbracketed_of_head {s : Text} (h : s.head? ≠ some '(') : unbracketed s = s := by
  unfold unbracketed
  split
  · exact absurd rfl h
  · rfl

theorem text_tree_chain (x : Float) (xs : List Float) :
    ((Phrase.chain [','] (Number.phrase (Number.plain x))
      (xs.map fun x => Number.phrase (Number.plain x))).tree []).text =
      Number.plain x ++ Expr.renderChain .standard (OperatorTable.standard.precedence [','])
        (xs.map fun x => (Number.phrase (Number.plain x)).tree [',']) := by
  obtain ⟨hvalid, -, hrank, -, htext⟩ := Number.phrase_spec (Number.read?_plain x)
  by_cases hxs : xs = []
  · rw [hxs]
    exact (htext []).trans (List.append_nil _).symm
  · have hlabel : Phrase.label [','] = [','] := by decide
    have hbrackets : ∀ r, Expr.needsBrackets .standard r
        ((Number.phrase (Number.plain x)).tree []) = false := by
      intro r
      rw [Expr.needsBrackets, Number.binding_phrase]
      rfl
    rw [Phrase.tree_chain (by decide) ⟨hvalid, .inl hrank⟩ (fun hnil => hxs (List.map_eq_nil_iff.1 hnil)),
      hlabel, List.map_map, Expr.text_chain (by decide) (fun hnil => hxs (List.map_eq_nil_iff.1 hnil)),
      Number.op_phrase, hbrackets, htext]
    rfl

theorem head_of_read {s : Text} {x : Float} (h : Number.read? s = some x) : s.head? ≠ some '"' :=
  fun hhead => (Number.plain_of_read h (List.mem_of_head? hhead)).1 rfl

theorem trimmed_of_read {s : Text} {x : Float} (h : Number.read? s = some x) : Text.Trimmed s := by
  obtain ⟨hvalid, htext, -⟩ := Number.phrase_spec h
  exact htext ▸ Phrase.trimmed hvalid

/-- Numbers between brackets. -/
def vectorPhrase (xs : List Float) : Phrase :=
  Phrase.list (xs.map fun x => Number.phrase (Number.plain x))

theorem tight_vectorPhrase (xs : List Float) (r : Nat) : (vectorPhrase xs).Tight r := by
  refine Phrase.tight_list (fun p hp => ?_) r
  obtain ⟨x, -, rfl⟩ := List.mem_map.1 hp
  obtain ⟨hvalid, -, hrank, -⟩ := Number.phrase_spec (Number.read?_plain x)
  exact ⟨hvalid, .inl hrank⟩

theorem text_vectorPhrase (xs : List Float) : (vectorPhrase xs).text = (vector xs).modelText := by
  have htexts : (xs.map fun x => Number.phrase (Number.plain x)).map Phrase.text =
      xs.map Number.plain := by
    rw [List.map_map]
    exact List.map_congr_left fun x _ => (Number.phrase_spec (Number.read?_plain x)).2.1
  rw [vectorPhrase, Phrase.text_list, htexts]
  rfl

theorem levels_vectorPhrase (xs : List Float) : (vectorPhrase xs).levels ≤ 4 := by
  refine Phrase.levels_list fun p hp => ?_
  obtain ⟨x, -, rfl⟩ := List.mem_map.1 hp
  exact Number.levels_phrase _

/-- How a list of numbers is written in an expression, and how it is read from there. -/
theorem vector?_text (xs : List Float) (op : Text) :
    let s := ((vectorPhrase xs).tree op).text
    vector? s = some (xs.map Number.reread) ∧ Text.Trimmed s ∧ s.head? ≠ some '"' := by
  cases xs with
  | nil => exact ⟨rfl, ⟨nofun, nofun⟩, nofun⟩
  | cons x xs =>
    have hx := Number.read?_plain x
    obtain ⟨c, rest, hs⟩ := List.exists_cons_of_ne_nil (Number.ne_nil_of_read hx)
    obtain ⟨hquote, hbracket, -⟩ :=
      Number.plain_of_read hx (hs ▸ List.mem_cons_self : c ∈ Number.plain x)
    rw [vectorPhrase, List.map_cons, Phrase.list, Phrase.text_tree_bracketed, text_tree_chain]
    refine ⟨?_, trimmed_numbers xs _ (trimmed_of_read hx) (Number.ne_nil_of_read hx), ?_⟩
    · rw [vector?, unbracketed_of_head]
      · exact (congrArg (List.mapM Number.read?) (pieces_numbers x xs _)).trans (mapM_read (x :: xs))
      · rw [hs, List.cons_append, List.head?_cons]
        exact fun he => hbracket (Option.some.inj he)
    · rw [hs, List.cons_append, List.head?_cons]
      exact fun he => hquote (Option.some.inj he)

/-! ## Values -/

/-- The value that is read from the text of a value: each number in it is the one that its own text
tells. -/
def renumbered : Attribute → Attribute
  | double x => double (Number.reread x)
  | vector xs => vector (xs.map Number.reread)
  | value => value

@[simp]
theorem type_renumbered (value : Attribute) : value.renumbered.type = value.type := by
  cases value <;> rfl

/-- What can be told of a value in a model text, up to its numbers. -/
def Tellable : Attribute → Prop
  | int n => 0 ≤ n ∧ 2 * n < Whole.wordCount
  | string s => Text.Trimmed s ∧ '"' ∉ s
  | _ => True

/-- A phrase from which a value is read in the place of any value of its type. -/
structure WrittenAs (value : Attribute) (p : Phrase) : Prop where
  tight : p.Tight 3
  reread : ∀ (name op : Text) (old : Attribute), old.type = value.type →
    old.reread name (Item.unquote (p.tree op).text) = .ok value

theorem reread_eq_ok {name s : Text} {old value : Attribute} (ht : Text.Trimmed s)
    (htype : old.type = value.type) (h : read? value.type s = some value) :
    old.reread name s = .ok value := by
  rw [reread, htype, ht.trim_eq, h]
  rfl

theorem exists_phrase {value : Attribute} (h : value.Tellable) :
    ∃ p, value.renumbered.WrittenAs p ∧ p.text = value.modelText := by
  cases value with
  | int n =>
    obtain ⟨hn, hbound⟩ := h
    obtain ⟨k, rfl⟩ := Int.eq_ofNat_of_zero_le hn
    obtain ⟨hne, hdigits⟩ := Literal.natural?_eq_some (Whole.natural?_ofNat k)
    have hword := Word.of_digits hne hdigits
    have htext : ∀ op, ((Phrase.word (Text.ofNat k) false).tree op).text = Text.ofNat k := by
      refine fun op => Number.text_leaf ?_
      intro he
      rw [he] at hdigits
      exact absurd hdigits (by decide)
    have hhead : (Text.ofNat k).head? ≠ some '"' := by
      intro hhead
      exact absurd (List.all_eq_true.1 hdigits _ (List.mem_of_head? hhead)) (by decide)
    refine ⟨.word (Text.ofNat k) false, ⟨.word hword, fun name op old htype => ?_⟩, rfl⟩
    rw [htext, Item.unquote_of_head hhead]
    refine reread_eq_ok hword.trimmed htype ?_
    rw [type_renumbered, type, read?, Whole.integer?_ofNat (by omega)]
    rfl
  | double x =>
    have hread := Number.read?_plain x
    obtain ⟨hvalid, htext, hrank, -, htree⟩ := Number.phrase_spec hread
    refine ⟨Number.phrase (Number.plain x), ⟨⟨hvalid, .inl hrank⟩, fun name op old htype => ?_⟩, htext⟩
    rw [htree, Item.unquote_of_head (head_of_read hread)]
    refine reread_eq_ok (trimmed_of_read hread) htype ?_
    rw [type_renumbered, type, read?, hread]
    rfl
  | bool b =>
    have hword : Word false (bool b).modelText := by
      cases b with
      | true | false => exact Word.of_dotted (by decide)
    have htext : ∀ op, ((Phrase.word (bool b).modelText false).tree op).text = (bool b).modelText := by
      intro op
      cases b with
      | true | false => rfl
    refine ⟨.word (bool b).modelText false, ⟨.word hword, fun name op old htype => ?_⟩, rfl⟩
    rw [htext]
    refine reread_eq_ok ?_ htype ?_
    · cases b with
      | true | false => decide
    · cases b with
      | true | false => decide
  | string s =>
    obtain ⟨htrimmed, hquote⟩ := h
    have htext : ∀ op, ((Phrase.word (string s).modelText false).tree op).text = '"' :: s ++ ['"'] :=
      fun op => Number.text_leaf nofun
    refine ⟨.word (string s).modelText false, ⟨.word (Word.of_quotes hquote),
      fun name op old htype => ?_⟩, rfl⟩
    rw [htext, Item.unquote_quoted]
    exact reread_eq_ok htrimmed htype rfl
  | vector xs =>
    refine ⟨vectorPhrase xs, ⟨tight_vectorPhrase xs 3, fun name op old htype => ?_⟩,
      text_vectorPhrase xs⟩
    obtain ⟨hread, htrimmed, hhead⟩ := vector?_text xs op
    rw [Item.unquote_of_head hhead]
    refine reread_eq_ok htrimmed htype ?_
    rw [type_renumbered, type, read?, hread]
    rfl

end Attribute

/-- The slots with the values that are read from their texts. -/
def Slots.renumbered (slots : Slots) : Slots := slots.map fun slot => (slot.1, slot.2.renumbered)

@[simp]
theorem Slots.names_renumbered (slots : Slots) :
    Named.names slots.renumbered = Named.names slots := List.map_map

theorem Slots.renumbered_eq {slots : Slots} (h : ∀ slot ∈ slots, slot.2.renumbered = slot.2) :
    slots.renumbered = slots := by
  have hslots : ∀ slot ∈ slots, (slot.1, slot.2.renumbered) = slot :=
    fun slot hslot => Prod.ext rfl (h slot hslot)
  exact (List.map_congr_left hslots).trans (List.map_id slots)

end Lineshape
