import Lineshape.Proofs.Expr.Items
import Lineshape.Proofs.Expr.Shape
import Lineshape.Proofs.Expr.Unbroken
import Lineshape.Proofs.Model.Names

/-! # How names of parameters are written

The name of a parameter of a composite holds the numbers of members, and a number may stand behind a
plus sign. In an expression such a sign is an operator. So a name is a row of words with plus signs
between them, which is read as a sum and written as it was (`Qualified.Spelling.exists_phrase`). A
name that is a leaf is dotted (`Qualified.Spelling.isDotted_of_leafName`). -/

namespace Lineshape
set_option autoImplicit false

/-! ## Words with digits in front -/

theorem isDotted_append {segment rest : Text} (hs : isSegment segment = true)
    (hr : isDotted rest = true) : isDotted (segment ++ '.' :: rest) = true := by
  have hplain : ∀ c ∈ segment, (c == '.') = false := by
    intro c hc
    rw [beq_eq_false_iff_ne]
    rintro rfl
    cases segment with
    | nil => cases hc
    | cons d segment =>
      rw [isSegment, Bool.and_eq_true] at hs
      rcases List.mem_cons.1 hc with rfl | hc
      · exact absurd hs.1 (by decide)
      · exact absurd (List.all_eq_true.1 hs.2 '.' hc) (by decide)
  rw [isDotted, Text.fields_append rest hplain rfl, List.all_cons, hs, Bool.true_and]
  exact hr

theorem isSegment_place {digits : Text} (hd : digits.all Char.isDigit = true) :
    isSegment ('f' :: digits) = true := by
  have hcont : ∀ c ∈ digits, Text.continuesName c = true :=
    fun c hc => Text.continuesName_of_isDigit (List.all_eq_true.1 hd c hc)
  rw [isSegment, List.all_eq_true.2 hcont]
  decide

namespace Unbroken

variable {s digits : Text}

/-- In a composite it is still unbroken, and nothing else is found in it than on its own. -/
theorem member (h : Unbroken s) (hd : digits.all Char.isDigit = true) :
    Unbroken ('f' :: (digits ++ '.' :: s)) ∧
      Lexeme.trace .outside none ('f' :: (digits ++ '.' :: s)) = Lexeme.trace .outside none s := by
  have htrace : Lexeme.trace .outside none ('f' :: (digits ++ '.' :: s)) =
      Lexeme.trace .outside none s := by
    rw [← List.cons_append,
      Lexeme.trace_append ((trace_dotted _).1 none (isDotted_of_isSegment (isSegment_place hd))),
      Lexeme.trace_step (by decide) (by decide) fun hdigit => absurd hdigit (by decide)]
    exact Lexeme.trace_congr (by decide)
  have hne : '.' :: s ≠ [] := List.cons_ne_nil '.' s
  refine ⟨⟨⟨'f', _, rfl, by decide⟩, htrace ▸ h.traced, ⟨fun c hc => ?_, fun c hc => ?_⟩,
    fun he => by cases he⟩, htrace⟩
  · cases hc
    decide
  · rw [← List.cons_append, List.getLast?_append_of_ne_nil _ hne, ← List.singleton_append,
      List.getLast?_append_of_ne_nil _ h.ne_nil] at hc
    exact h.trimmed.2 c hc

/-- Behind digits and a point it is a word, too. -/
theorem word_behind_point {isOpen : Bool} (h : Unbroken s) (hne : digits ≠ [])
    (hd : digits.all Char.isDigit = true)
    (hopen : isOpen = false → s.head? = some 'f' ∧ Lexeme.trace .outside none s = some .outside) :
    Word isOpen (digits ++ '.' :: s) := by
  obtain ⟨n, htrace, hsame⟩ := h.exists_trace hne hd
  obtain ⟨c, rest, rfl⟩ := List.exists_cons_of_ne_nil hne
  have hlast : '.' :: s ≠ [] := List.cons_ne_nil '.' s
  rw [List.all_cons, Bool.and_eq_true] at hd
  refine Word.of_trace htrace (List.cons_ne_nil _ _) ⟨fun d hd' => ?_, fun d hd' => ?_⟩ fun ho => ?_
  · cases hd'
    exact Literal.isBlank_of_isDigit hd.1
  · rw [List.getLast?_append_of_ne_nil _ hlast, ← List.singleton_append,
      List.getLast?_append_of_ne_nil _ h.ne_nil] at hd'
    exact h.trimmed.2 d hd'
  · obtain ⟨hhead, houtside⟩ := hopen ho
    have hn := (hsame hhead).symm.trans houtside
    cases hn
    rfl

end Unbroken

namespace Qualified

/-! ## Spellings -/

/-- How a parameter may be named: in a curve by a text of some kind, and in a composite by the number
of a member and the name there. -/
inductive Spelling (Own : Text → Prop) : Text → Prop
  | own {s : Text} : Own s → Spelling Own s
  | member {digits inner : Text} : digits ≠ [] → digits.all Char.isDigit = true →
    Spelling Own inner → Spelling Own ('f' :: (digits ++ '.' :: inner))
  | signed {digits inner : Text} : digits ≠ [] → digits.all Char.isDigit = true →
    Spelling Own inner → Spelling Own ('f' :: '+' :: (digits ++ '.' :: inner))

variable {Own : Text → Prop} {name : Text}

theorem Spelling.mono {Own' : Text → Prop} (h : Spelling Own name) (hown : ∀ s, Own s → Own' s) :
    Spelling Own' name := by
  induction h with
  | own hs => exact .own (hown _ hs)
  | member hne hd _ ih => exact .member hne hd ih
  | signed hne hd _ ih => exact .signed hne hd ih

/-- The words of a name between its plus signs. -/
structure Words (name first : Text) (more : List Text) : Prop where
  text : name = first ++ more.flatMap ('+' :: ·)
  unbroken : Unbroken first
  closes : more ≠ [] → first.head? = some 'f' ∧ Lexeme.trace .outside none first = some .outside
  word : ∀ s ∈ more, Word true s ∧ ∃ c rest, s = c :: rest ∧ c.isDigit = true
  closed : ∀ s ∈ more.dropLast, Word false s

theorem Spelling.exists_words (h : Spelling Unbroken name) : ∃ first more, Words name first more := by
  induction h with
  | @own s hs =>
    exact ⟨s, [], (List.append_nil s).symm, hs, fun h => absurd rfl h, List.forall_mem_nil _,
      List.forall_mem_nil _⟩
  | @member digits inner hne hd _ ih =>
    obtain ⟨first, more, h⟩ := ih
    obtain ⟨hunbroken, htrace⟩ := h.unbroken.member hd
    refine ⟨'f' :: (digits ++ '.' :: first), more, ?_, hunbroken,
      fun hmore => ⟨rfl, htrace.trans (h.closes hmore).2⟩, h.word, h.closed⟩
    rw [h.text]
    simp
  | @signed digits inner hne hd _ ih =>
    obtain ⟨first, more, h⟩ := ih
    have hf : Unbroken ['f'] := .of_segment (by decide) (by decide)
    refine ⟨['f'], (digits ++ '.' :: first) :: more, ?_, hf, fun _ => ⟨rfl, by decide⟩, ?_, ?_⟩
    · rw [h.text]
      simp
    · intro s hs
      rcases List.mem_cons.1 hs with rfl | hs
      · refine ⟨h.unbroken.word_behind_point hne hd fun ho => Bool.noConfusion ho, ?_⟩
        obtain ⟨c, rest, rfl⟩ := List.exists_cons_of_ne_nil hne
        rw [List.all_cons, Bool.and_eq_true] at hd
        exact ⟨c, _, rfl, hd.1⟩
      · exact h.word s hs
    · intro s hs
      cases more with
      | nil => cases hs
      | cons other more =>
        rcases List.mem_cons.1 hs with rfl | hs
        · exact h.unbroken.word_behind_point hne hd fun _ => h.closes (List.cons_ne_nil other more)
        · exact h.closed s hs

/-! ## Names in expressions -/

theorem text_sum {first : Text} {more : List Text} (hf : first ≠ Expr.emptyName)
    (hm : ∀ s ∈ more, s ≠ Expr.emptyName) (hne : more ≠ []) (op : Text) :
    Expr.text ⟨['+'], op, ⟨first, [], []⟩ :: more.map fun s => ⟨s, ['+'], []⟩⟩ =
      first ++ more.flatMap ('+' :: ·) := by
  have hbrackets : ∀ (s op : Text) (r : Nat),
      Expr.needsBrackets .standard r ⟨s, op, []⟩ = false := by
    intro s op r
    rw [Expr.needsBrackets, Expr.binding_leaf]
    rfl
  have hchain : ∀ r, Expr.renderChain .standard r (more.map fun s => ⟨s, ['+'], []⟩) =
      more.flatMap ('+' :: ·) := by
    intro r
    clear hne
    induction more with
    | nil => rfl
    | cons s more ih =>
      have hprefixed : (Expr.bracketsRemoved ⟨s, ['+'], []⟩).isPrefixed .standard = false := by
        have hnode : Expr.IsNode ⟨s, ['+'], []⟩ := .inr Nat.zero_ne_one
        rw [hnode.bracketsRemoved_eq]
        rfl
      rw [List.map_cons, Expr.renderChain, hbrackets, hprefixed,
        ih fun t ht => hm t (List.mem_cons_of_mem s ht)]
      have htext : Expr.render .standard ⟨s, ['+'], []⟩ = s :=
        Number.text_leaf (hm s List.mem_cons_self)
      rw [htext]
      simp [Expr.enclose]
  rw [Expr.text_chain (by decide) (fun h => hne (List.map_eq_nil_iff.1 h)), hbrackets, hchain,
    Number.text_leaf hf]
  rfl

/-- A name is read as a sum of its words, or as one word, and written as it was. -/
theorem Spelling.exists_phrase (h : Spelling Unbroken name) : ∃ p : Phrase, p.Tight 5 ∧
    p.text = name ∧ p.levels ≤ 2 ∧ ∀ op, (p.tree op).text = name := by
  obtain ⟨first, more, h⟩ := h.exists_words
  have hplus : OperatorTable.standard.precedence ['+'] = 6 := by decide
  cases more using List.reverseRecOn with
  | nil =>
    have hname : first = name := by
      rw [h.text]
      exact (List.append_nil first).symm
    exact ⟨.word first true, .word h.unbroken.word, hname, Nat.le_succ 1,
      fun op => hname ▸ Number.text_leaf h.unbroken.nonEmpty⟩
  | append_singleton front last =>
    have hne : front ++ [last] ≠ [] :=
      List.append_ne_nil_of_right_ne_nil front (List.cons_ne_nil last [])
    have hfirst : Word false first := by
      obtain ⟨-, htrace⟩ := h.closes hne
      exact Word.of_trace htrace h.unbroken.ne_nil h.unbroken.trimmed fun _ => by rfl
    -- Only the last word may leave room for a sign, and nothing comes behind it.
    let words := front.map (Phrase.word · false) ++ [Phrase.word last true]
    have hwords : words ≠ [] := List.append_ne_nil_of_right_ne_nil _ (List.cons_ne_nil _ [])
    have hempty : ∀ s ∈ front ++ [last], s ≠ Expr.emptyName := by
      rintro s hs rfl
      obtain ⟨-, c, rest, he, hc⟩ := h.word _ hs
      cases he
      exact absurd hc (by decide)
    have htight : ∀ p ∈ Phrase.word first false :: words, p.Tight 6 := by
      intro p hp
      rcases List.mem_cons.1 hp with rfl | hp
      · exact .word hfirst
      · rcases List.mem_append.1 hp with hp | hp
        · obtain ⟨s, hs, rfl⟩ := List.mem_map.1 hp
          refine .word (h.closed s ?_)
          rwa [List.dropLast_concat]
        · rw [List.mem_singleton.1 hp]
          exact .word (h.word last (List.mem_append_right front List.mem_cons_self)).1
    have hopen : ∀ p ∈ (Phrase.word first false :: words).dropLast,
        p.isOpen = true → ['+'] ≠ ['+'] ∧ ['+'] ≠ ['-'] := by
      intro p hp ho
      rw [← List.cons_append, List.dropLast_concat] at hp
      rcases List.mem_cons.1 hp with rfl | hp
      · cases ho
      · obtain ⟨s, -, rfl⟩ := List.mem_map.1 hp
        cases ho
    refine ⟨.chain ['+'] (.word first false) words, ⟨?_, .inr ?_⟩, ?_, ?_, fun op => ?_⟩
    · exact Phrase.valid_chain (by decide) (fun p hp => hplus ▸ htight p hp) hopen
    · rw [Phrase.rank_chain, if_neg hwords, hplus]
      decide
    · rw [h.text, Phrase.text_chain]
      simp [words, Phrase.text, List.flatMap_map]
    · refine Phrase.levels_chain ['+'] fun p hp => ?_
      rcases List.mem_cons.1 hp with rfl | hp
      · exact Nat.le_refl 1
      · rcases List.mem_append.1 hp with hp | hp
        · obtain ⟨s, -, rfl⟩ := List.mem_map.1 hp
          exact Nat.le_refl 1
        · rw [List.mem_singleton.1 hp]
          exact Nat.le_refl 1
    · have hlabel : Phrase.label ['+'] = ['+'] := by decide
      rw [Phrase.tree_chain (by decide) (hplus ▸ Phrase.Tight.word hfirst) hwords, hlabel, h.text,
        ← text_sum h.unbroken.nonEmpty hempty hne op]
      simp [words, Phrase.tree, Function.comp_def]

theorem exists_of_split? {name inner : Text} {i : Nat} (h : split? name = some (i, inner)) :
    ∃ sign digits, (sign = [] ∨ sign = ['+']) ∧ digits ≠ [] ∧ digits.all Char.isDigit = true ∧
      name = 'f' :: (sign ++ (digits ++ '.' :: inner)) := by
  rw [split?.eq_def] at h
  split at h
  · rename_i rest
    split at h
    · rename_i name' hback
      obtain ⟨n, hn, he⟩ := Option.map_eq_some_iff.1 h
      cases he
      have hrest : rest = rest.takeWhile (· ≠ '.') ++ '.' :: inner := by
        rw [← hback, List.takeWhile_append_dropWhile]
      have hdigits := (Option.filter_eq_some_iff.1 hn).1
      rw [hrest]
      generalize rest.takeWhile (· ≠ '.') = front at hdigits
      split at hdigits
      · obtain ⟨hne, hd⟩ := Literal.natural?_eq_some hdigits
        exact ⟨['+'], _, .inr rfl, hne, hd, rfl⟩
      · obtain ⟨hne, hd⟩ := Literal.natural?_eq_some hdigits
        exact ⟨[], _, .inl rfl, hne, hd, rfl⟩
    · cases h
  · cases h

theorem spelling_of_split? {inner : Text} {i : Nat} (h : split? name = some (i, inner))
    (hi : Spelling Own inner) : Spelling Own name := by
  obtain ⟨sign, digits, hsign, hne, hd, rfl⟩ := exists_of_split? h
  rcases hsign with rfl | rfl
  · exact .member hne hd hi
  · exact .signed hne hd hi

/-- A letter or an underscore with letters, digits and underscores behind it. -/
def PlainName (s : Text) : Prop := isSegment s = true ∧ s ≠ Expr.emptyName

theorem Spelling.unbroken (h : Spelling PlainName name) : Spelling Unbroken name :=
  h.mono fun _ hs => .of_segment hs.1 hs.2

theorem Spelling.isDotted_or_signed (h : Spelling PlainName name) : isDotted name = true ∨
    ∃ first c rest, isDotted first = true ∧ c.isDigit = true ∧ name = first ++ '+' :: c :: rest := by
  induction h with
  | own hs => exact .inl (isDotted_of_isSegment hs.1)
  | @member digits inner hne hd _ ih =>
    rcases ih with hinner | ⟨first, c, rest, hfirst, hc, rfl⟩
    · exact .inl (isDotted_append (isSegment_place hd) hinner)
    · refine .inr ⟨'f' :: digits ++ '.' :: first, c, rest, isDotted_append (isSegment_place hd) hfirst, hc, ?_⟩
      simp
  | @signed digits inner hne hd _ _ =>
    obtain ⟨c, digits, rfl⟩ := List.exists_cons_of_ne_nil hne
    rw [List.all_cons, Bool.and_eq_true] at hd
    exact .inr ⟨['f'], c, digits ++ '.' :: inner, by decide, hd.1, rfl⟩

/-- A name that is a single leaf is dotted. -/
theorem Spelling.isDotted_of_leafName (h : Spelling PlainName name)
    (hleaf : Expr.LeafName name) : isDotted name = true := by
  rcases h.isDotted_or_signed with hdotted | ⟨first, c, rest, hfirst, hc, rfl⟩
  · exact hdotted
  · -- the first plus sign would have been taken for an operator
    exfalso
    rcases hleaf with hname | ⟨tail, lexemes, hscan, hnone⟩
    · have hmem : '+' ∈ Expr.emptyName := hname ▸ List.mem_append_right _ List.mem_cons_self
      exact absurd hmem (by decide)
    · obtain ⟨b, hread, hb, hsign⟩ := (Word.of_dotted hfirst).reads {} Cursor.fresh_start
      obtain ⟨a, -, hoperator⟩ := Lexeme.reads_operator hb
        (show OperatorTable.standard.isBinary ['+'] = true by decide) fun _ => hsign rfl
      have hfollow : OperatorTable.MayFollow c :=
        Phrase.mayFollow_of_not_isSymbol (Lexeme.isSymbol_of_isDigit hc)
      have hname : first ++ '+' :: c :: rest ++ tail = first ++ (['+'] ++ c :: (rest ++ tail)) := by
        simp
      rw [hname, hread, hoperator c _ hfollow] at hscan
      obtain ⟨back, hback, rfl⟩ := Result.map_eq_ok.1 hscan
      obtain ⟨rest', -, rfl⟩ := Result.map_eq_ok.1 hback
      exact Lexeme.loosest?_eq_none_iff.1 hnone _ _
        (List.mem_append_right _ List.mem_cons_self)

end Qualified
end Lineshape
