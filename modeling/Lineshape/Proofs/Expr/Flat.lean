import Lineshape.Proofs.Expr.Faults

/-! # Texts without brackets

The tree of a text without unquoted brackets is made of operators alone (`Expr.flat_of_parse`). What
a level is split into has no brackets either, so brackets are never taken off and there is no call;
and what a term of a level is split at, one level below, are operators of the level that bind its
terms more strongly. -/

namespace Lineshape
set_option autoImplicit false

/-! ## Parts of a text without brackets -/

namespace Text

/-- A text all of whose brackets are quoted. -/
def Unbracketed (s : Text) : Prop := ∀ g ∈ solid false s, g.isBracket = false

instance (s : Text) : Decidable s.Unbracketed :=
  inferInstanceAs (Decidable (∀ g ∈ solid false s, g.isBracket = false))

variable {s front back : Text}

theorem Unbracketed.left (hfront : Balanced front) (h : Unbracketed (front ++ back)) :
    front.Unbracketed := by
  rw [Unbracketed, solid_balanced hfront] at h
  exact fun g hg => h g (List.mem_append_left _ hg)

theorem Unbracketed.right (hfront : Balanced front) (h : Unbracketed (front ++ back)) :
    back.Unbracketed := by
  rw [Unbracketed, solid_balanced hfront] at h
  exact fun g hg => h g (List.mem_append_right _ hg)

theorem unbracketed_trim (hs : Balanced s) : (trim s).Unbracketed ↔ s.Unbracketed := by
  rw [Unbracketed, Unbracketed, solid_trim hs]

theorem Unbracketed.of_flatMap {parts : List (Text × Text)} (hop : ∀ p ∈ parts, Balanced p.1)
    (hterm : ∀ p ∈ parts, Balanced p.2) (h : Unbracketed (parts.flatMap fun p => p.1 ++ p.2)) :
    ∀ p ∈ parts, p.2.Unbracketed := by
  induction parts with
  | nil => exact nofun
  | cons p parts ih =>
    rw [List.forall_mem_cons] at hop hterm ⊢
    rw [List.flatMap_cons] at h
    have hp : Balanced (p.1 ++ p.2) := hop.1.append hterm.1
    exact ⟨(h.left hp).right hop.1, ih hop.2 hterm.2 (h.right hp)⟩

/-- No bracket opens in a text without brackets. -/
theorem Unbracketed.splitAtOpening_eq (h : s.Unbracketed) : splitAtOpening false s = none := by
  have hopen : ∀ (q : Bool) (s front behind : Text), splitAtOpening q s = some (front, behind) →
      ⟨'(', false⟩ ∈ solid q s := by
    intro q s
    induction s generalizing q with
    | nil => exact fun front behind h => by cases h
    | cons c s ih =>
      intro front behind h
      rw [splitAtOpening] at h
      rw [solid]
      split at h
      · rename_i hc
        rw [Bool.and_eq_true, decide_eq_true_eq, Bool.not_eq_true'] at hc
        obtain ⟨rfl, rfl⟩ := hc
        exact List.mem_append_left _ List.mem_cons_self
      · obtain ⟨⟨front', behind'⟩, hsplit, -⟩ := Option.map_eq_some_iff.1 h
        have hq : (if c = '"' then !q else q) = (q != decide (c = '"')) := by
          by_cases hc : c = '"' <;> simp [hc]
        exact List.mem_append_right _ (hq ▸ ih _ front' behind' hsplit)
  cases hsplit : splitAtOpening false s with
  | none => rfl
  | some p => exact absurd (h _ (hopen false s p.1 p.2 hsplit)) (by decide)

theorem Unbracketed.stripBrackets_eq (h : s.Unbracketed) : stripBrackets s = s := by
  refine stripBrackets_of_head fun hhead => ?_
  obtain ⟨rest, rfl⟩ := List.head?_eq_some_iff.1 hhead
  exact absurd h.splitAtOpening_eq (by simp [splitAtOpening])

end Text

namespace Expr

/-! ## Levels -/

variable {n : Nat} {op s : Text} {e : Expr} {lexemes : List Lexeme}

/-- A level of a text without brackets: the whole text is scanned, and what it is split into has no
brackets either. -/
structure BareLevel (s : Text) (lexemes : List Lexeme) : Prop where
  scan : Lexeme.scan .standard {} (Text.trim s) = .ok lexemes
  term : (Text.trim (Lexeme.text lexemes)).Unbracketed
  first (r : Nat) : (Lexeme.split r lexemes).1.Unbracketed
  more (r : Nat) : ∀ p ∈ (Lexeme.split r lexemes).2, p.2.Unbracketed

theorem bareLevel_of_scan (hs : s.Unbracketed)
    (hscan : Lexeme.scan .standard {} (Text.trim s) = .ok lexemes) : BareLevel s lexemes := by
  have ht : OperatorTable.standard.Unbracketed := by decide
  have hrow : Lexeme.Row 0 false false (Text.trim s) lexemes := Lexeme.row_of_scan hscan
  have hnested : Lexeme.Nested .standard 0 false lexemes := Lexeme.nested_of_scan ht hscan
  have hbalanced : Balanced (Lexeme.text lexemes) := hrow.run_text
  have htext : (Lexeme.text lexemes).Unbracketed := by
    have hbody := (Text.unbracketed_trim (Text.balanced_trim.1 hrow.run_self)).2 hs
    rcases hrow.makeUp with heq | ⟨c, -, heq⟩
    · exact heq ▸ hbody
    · exact (heq ▸ hbody).left hbalanced
  have hparts : ∀ r, (Lexeme.split r lexemes).1.Unbracketed ∧
      ∀ p ∈ (Lexeme.split r lexemes).2, p.2.Unbracketed := by
    intro r
    obtain ⟨hfirst, hmore⟩ := hnested.run_split ht r
    rw [← Lexeme.split_text r] at htext
    refine ⟨htext.left hfirst, (htext.right hfirst).of_flatMap (fun p hp => ?_) hmore⟩
    exact ht.balanced (.inl (Lexeme.operator_of_scan hscan (Lexeme.operator_of_mem_split hp)).1)
  exact ⟨hscan, (Text.unbracketed_trim hbalanced).2 htext, fun r => (hparts r).1,
    fun r => (hparts r).2⟩

theorem exists_bareLevel (h : parseLevel .standard (n + 1) op s = .ok e) (hs : s.Unbracketed) :
    ∃ lexemes, BareLevel s lexemes ∧ Level .standard n op lexemes e := by
  obtain ⟨lexemes, hscan, hlevel⟩ := parseLevel_iff.1 h
  have hbody := (Text.unbracketed_trim (balanced_of_parseLevel h)).2 hs
  rw [hbody.stripBrackets_eq] at hscan
  exact ⟨lexemes, bareLevel_of_scan hs hscan, hlevel⟩

theorem BareLevel.operand (h : BareLevel s lexemes) {sign operand : Text}
    (hterm : Term.ofText .standard (Text.trim (Lexeme.text lexemes)) = .ok (.prefixed sign operand)) :
    operand.Unbracketed := by
  have ht : OperatorTable.standard.Unbracketed := by decide
  have hlead := ofText_prefixed_cases hterm
  have hunbracketed := h.term
  rw [(eq_of_leading? hlead).1] at hunbracketed
  exact hunbracketed.right (ht.balanced (.inr (isUnary_of_leading? hlead)))

theorem BareLevel.no_call (h : BareLevel s lexemes) (head arguments : Text) :
    Term.ofText .standard (Text.trim (Lexeme.text lexemes)) ≠ .ok (.call head arguments) := by
  intro hterm
  obtain ⟨front, behind, -, -, hopen, -⟩ := ofText_call_spec hterm
  rw [h.term.splitAtOpening_eq] at hopen
  cases hopen

/-! ## Nodes -/

/-- A node of a tree of operators: no call or bracket group, and what binds its terms less than an
operator does stands above it. -/
structure Flat (e : Expr) : Prop where
  /-- The node is a leaf, a chain or an operand behind a sign. -/
  isCall_eq : e.isCall .standard = false
  /-- A chain is named by the first operator of its group. -/
  label : e.isChain .standard = true →
    OperatorTable.standard.groupLabel (OperatorTable.standard.precedence e.name) = some e.name
  /-- The first term of a chain has no operator before it. -/
  first : e.isChain .standard = true → ∀ term ∈ e.terms.head?, term.op = []
  /-- The other terms of a chain have operators of its group before them. -/
  more : e.isChain .standard = true → ∀ term ∈ e.terms.tail,
    OperatorTable.standard.isBinary term.op = true ∧
      OperatorTable.standard.precedence term.op = OperatorTable.standard.precedence e.name
  /-- A chain within a chain binds more strongly. -/
  inner : e.isChain .standard = true → ∀ term ∈ e.terms, term.isChain .standard = true →
    OperatorTable.standard.precedence e.name < OperatorTable.standard.precedence term.name
  /-- There is no chain behind a sign. -/
  operand : e.isPrefixed .standard = true → ∀ term ∈ e.terms, term.isChain .standard = false

/-- The rank of a chain is that of an operator of its text. -/
theorem exists_operator_of_chain (h : parseLevel .standard n op s = .ok e) (hs : s.Unbracketed)
    (hchain : e.isChain .standard = true) : ∃ lexemes op',
      Lexeme.scan .standard {} (Text.trim s) = .ok lexemes ∧
        Lexeme.operator op' (OperatorTable.standard.precedence e.name) ∈ lexemes := by
  cases n with
  | zero => cases h
  | succ n =>
    obtain ⟨lexemes, hbare, hlevel⟩ := exists_bareLevel h hs
    cases hlevel with
    | leaf => cases hchain
    | prefixed => cases hchain
    | call _ hterm => exact absurd hterm (hbare.no_call _ _)
    | chain hr hlabel _ hmore =>
      obtain ⟨⟨op', hop⟩, -⟩ := Lexeme.loosest?_spec hr
      obtain ⟨⟨-, hrank⟩, -⟩ := chain_spec hbare.scan hr hlabel hmore
      exact ⟨lexemes, op', hbare.scan, hrank.symm ▸ hop⟩

/-- A chain among the terms of a level is one of operators that bind more strongly. -/
theorem BareLevel.rank_lt (h : BareLevel s lexemes) {r : Nat} {p : Text} {term : Expr}
    (hr : Lexeme.loosest? lexemes = some r)
    (hp : p = (Lexeme.split r lexemes).1 ∨ ∃ op, (op, p) ∈ (Lexeme.split r lexemes).2)
    (hterm : parseLevel .standard n op p = .ok term) (hchain : term.isChain .standard = true) :
    r < OperatorTable.standard.precedence term.name := by
  have hbare : p.Unbracketed := by
    rcases hp with rfl | ⟨op', hp⟩
    · exact h.first r
    · exact h.more r _ hp
  obtain ⟨lexemes', op', hscan, hop⟩ := exists_operator_of_chain hterm hbare hchain
  obtain ⟨hmem, hne⟩ := Lexeme.operator_of_piece h.scan hp hscan hop
  have hle := (Lexeme.loosest?_spec hr).2 op' _ hmem
  omega

/-- There is no chain behind a sign. -/
theorem BareLevel.isChain_operand (h : BareLevel s lexemes) {sign operand : Text} {inner : Expr}
    (hnone : Lexeme.loosest? lexemes = none)
    (hterm : Term.ofText .standard (Text.trim (Lexeme.text lexemes)) = .ok (.prefixed sign operand))
    (hinner : parseLevel .standard n op operand = .ok inner) : inner.isChain .standard = false := by
  cases hchain : inner.isChain .standard with
  | false => rfl
  | true =>
    obtain ⟨lexemes', op', hscan, hop⟩ := exists_operator_of_chain hinner (h.operand hterm) hchain
    exact absurd hop (Lexeme.no_operator_of_prefixed h.scan (Text.trimmed_trim s) hnone hterm hscan _ _)

theorem flat_of_parseLevel (h : parseLevel .standard n op s = .ok e) (hs : s.Unbracketed) :
    e.Flat := by
  cases n with
  | zero => cases h
  | succ n =>
    obtain ⟨lexemes, hbare, hlevel⟩ := exists_bareLevel h hs
    cases hlevel with
    | leaf => exact ⟨rfl, nofun, nofun, nofun, nofun, nofun⟩
    | prefixed hnone hterm hinner =>
      have hsign := isUnary_of_leading? (ofText_prefixed_cases hterm)
      refine ⟨?_, nofun, nofun, nofun, nofun, fun _ => List.forall_mem_singleton.2 ?_⟩
      · rw [isCall, isPrefixed, hsign]
        rfl
      · exact hbare.isChain_operand hnone hterm hinner
    | call _ hterm => exact absurd hterm (hbare.no_call _ _)
    | @chain r label first more hr hlabel hfirst hmore =>
      obtain ⟨⟨hbinary, hrank⟩, hne, hterms⟩ := chain_spec hbare.scan hr hlabel hmore
      have hlength : 1 < (first :: more).length := Nat.succ_lt_succ (List.length_pos_iff.2 hne)
      have hchain : isChain .standard ⟨label, op, first :: more⟩ = true := by
        rw [isChain, hbinary, decide_eq_true hlength]
        rfl
      have hprefixed : isPrefixed .standard ⟨label, op, first :: more⟩ = false := by
        rw [isPrefixed, decide_eq_false (Nat.ne_of_gt hlength)]
        rfl
      refine ⟨?_, fun _ => hrank.symm ▸ hlabel, fun _ term hterm => ?_, fun _ term hterm => ?_,
        fun _ term hterm hinner => ?_, fun h => absurd h (hprefixed ▸ Bool.false_ne_true)⟩
      · rw [isCall, hchain, Bool.not_true, Bool.and_false, Bool.false_and]
      · cases hterm
        exact (shaped_of_parseLevel hfirst).2
      · obtain ⟨p, -, hparse, hop, hrank'⟩ := hterms term hterm
        rw [(shaped_of_parseLevel hparse).2]
        exact ⟨hop, hrank'.trans hrank.symm⟩
      · show OperatorTable.standard.precedence label < _
        rw [hrank]
        rcases List.mem_cons.1 hterm with rfl | hterm
        · exact hbare.rank_lt hr (.inl rfl) hfirst hinner
        · obtain ⟨p, hp, hparse, -⟩ := hterms term hterm
          exact hbare.rank_lt hr (.inr ⟨p.1, hp⟩) hparse hinner

/-! ## Trees -/

/-- The terms of a node are read from texts without brackets, one level below. -/
theorem exists_parseLevel_of_mem (h : parseLevel .standard (n + 1) op s = .ok e)
    (hs : s.Unbracketed) {term : Expr} (hterm : term ∈ e.terms) :
    ∃ op' part, Text.Unbracketed part ∧ parseLevel .standard n op' part = .ok term := by
  obtain ⟨lexemes, hbare, hlevel⟩ := exists_bareLevel h hs
  cases hlevel with
  | leaf => cases hterm
  | prefixed _ hsign hinner =>
    cases List.mem_singleton.1 hterm
    exact ⟨_, _, hbare.operand hsign, hinner⟩
  | call _ hcall => exact absurd hcall (hbare.no_call _ _)
  | @chain r _ _ _ _ _ hfirst hmore =>
    rcases List.mem_cons.1 hterm with rfl | hterm
    · exact ⟨_, _, hbare.first r, hfirst⟩
    · obtain ⟨p, hp, hparse⟩ := Result.exists_of_forall₂ hmore hterm
      exact ⟨_, _, hbare.more r p hp, hparse⟩

theorem flat_of_subtreeAt {path : List Nat} {node : Expr}
    (h : parseLevel .standard n op s = .ok e) (hs : s.Unbracketed)
    (hnode : e.subtreeAt path = some node) : node.Flat := by
  induction path generalizing n op s e with
  | nil =>
    cases hnode
    exact flat_of_parseLevel h hs
  | cons i path ih =>
    cases n with
    | zero => cases h
    | succ n =>
      obtain ⟨term, hterm, hnode⟩ := Option.bind_eq_some_iff.1 hnode
      obtain ⟨_, _, hpart, hparse⟩ := exists_parseLevel_of_mem h hs (List.mem_of_getElem? hterm)
      exact ih hparse hpart hnode

/-- The tree of a text without unquoted brackets is flat at every node: it has no calls and no bracket
groups; a chain is named by the first operator of its group, its first term has no operator before it
and all others have operators of the group; a chain within a chain binds more strongly, and behind a
sign there is no chain. -/
theorem flat_of_parse {depth : Nat} {s : Text} {e node : Expr} {path : List Nat}
    (h : parse .standard depth s = .ok e) (hs : s.Unbracketed)
    (hnode : e.subtreeAt path = some node) : node.Flat :=
  flat_of_subtreeAt h hs hnode

/-- A sum with a sign of an exponent, a sign in front of a power and a quoted bracket in it. -/
theorem flat_of_parse_sum : ∃ e node,
    parse .standard 9 "a=2e-3+-w^b*\"(d\"-c,e;f".toList = .ok e ∧
      Text.Unbracketed "a=2e-3+-w^b*\"(d\"-c,e;f".toList ∧ e.subtreeAt [0, 0, 1] = some node ∧
      (node.name = ['+'] ∧ node.terms.map Expr.op = [[], ['+'], ['-']] ∧
        node.terms.map (·.isChain .standard) = [false, true, false]) ∧ node.Flat := by
  have hcheck : (parse .standard 9 "a=2e-3+-w^b*\"(d\"-c,e;f".toList).toOption.any (fun e =>
      (e.subtreeAt [0, 0, 1]).any fun node => node.name = ['+'] ∧
        node.terms.map Expr.op = [[], ['+'], ['-']] ∧
        node.terms.map (·.isChain .standard) = [false, true, false]) = true := by decide +kernel
  obtain ⟨e, hparse, he⟩ := Result.exists_of_any hcheck
  obtain ⟨node, hnode, hspec⟩ := Option.any_eq_true _ _ |>.1 he
  have hs : Text.Unbracketed "a=2e-3+-w^b*\"(d\"-c,e;f".toList := by decide +kernel
  exact ⟨e, node, hparse, hs, hnode, of_decide_eq_true hspec, flat_of_parse hparse hs hnode⟩

end Expr
end Lineshape
