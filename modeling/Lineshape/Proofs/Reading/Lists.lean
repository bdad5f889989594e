import Lineshape.Proofs.Expr.Items
import Lineshape.Proofs.Model.Description
import Lineshape.Proofs.Model.Values
import Lineshape.Proofs.Number.Equality
import Lineshape.Proofs.Reading.Gives

/-! # Lists of ties and bounds read back

The ties and the bounds of a model are written as lists in brackets. Reading such a list attaches
them again, in their order, to any model with the same parameters (`Reader.exists_ties`,
`Reader.exists_bounds`). -/

namespace Lineshape
set_option autoImplicit false

/-- A reader with the built-in types. -/
abbrev Reader.builtin (depth : Nat) : Reader := { depth := depth }

variable {m m' : Model} {depth : Nat}

/-! ## Ties -/

/-- A tree that assigns the formula of a tie to its parameter. -/
def Tie.Assigns (tie : Tie) (e : Expr) : Prop :=
  ∃ op target formula, e = ⟨['='], op, [target, formula]⟩ ∧ target.text = tie.parameter ∧
    formula.text = tie.formulaText

theorem Tie.Legible.exists_phrase {tie : Tie} (h : tie.Legible m) : ∃ p : Phrase, p.Tight 2 ∧
    p.rank ≠ 0 ∧ p.text = tie.text ∧ ∀ op, tie.Assigns (p.tree op) := by
  obtain ⟨s, hparse⟩ := h.parsed
  obtain ⟨hs, -⟩ := Expr.shaped_of_parseLevel hparse
  have hwrites := Formula.writes_of_arithmetic hs h.names
  have hbinding := h.names.binding_eq
  obtain ⟨target, htarget, htext, -, htree⟩ := h.target.unbroken.exists_phrase
  have hformula : tie.formula.phrase.Tight 3 := by
    refine ⟨hwrites.valid, ?_⟩
    rw [hwrites.rank]
    omega
  refine ⟨.assign target tie.formula.phrase, Phrase.tight_assign (htarget.mono (by decide)) hformula
    (Nat.le_refl 2), ?_, ?_, fun op => ?_⟩
  · exact (by decide : OperatorTable.standard.precedence ['='] ≠ 0)
  · rw [Phrase.text_assign, htext, hwrites.text]
    rfl
  · exact ⟨op, _, _, Phrase.tree_assign (htarget.mono (by decide)) op, htree [],
      Expr.text_congr (hwrites.tree ['='])⟩

namespace Model

theorem withTies_ties (m : Model) : m.withTies m.ties = m := by
  cases m with
  | curve | composite => rfl

theorem withTies_withTies (m : Model) (ties ties' : List Tie) :
    (m.withTies ties).withTies ties' = m.withTies ties' := by
  cases m with
  | curve | composite => rfl

end Model

namespace Reader

/-- Reading a tie attaches it with the formula that its text is read as. -/
theorem gives_addTie {tie : Tie} {e : Expr} (h : tie.Legible m) (he : tie.Assigns e)
    (hhas : ∀ name, m'.hasParameter name = m.hasParameter name)
    (hnew : ∀ other ∈ m'.ties, other.parameter ≠ tie.parameter) :
    Act.Gives ((builtin depth).addTie e) m' () (m'.withTies (m'.ties ++ [tie.canonical])) := by
  obtain ⟨op, target, formula, rfl, htarget, hformula⟩ := he
  obtain ⟨back, hback, hungrouped, hcanonical⟩ := h.exists_back
  obtain ⟨x, hvalue, -⟩ := h.holds
  have hvariables : back.variableNames = tie.formula.variableNames :=
    Expr.variableNames_congr (hungrouped.trans (Expr.withOp_of_eq rfl).symm)
  have hcreate : Tie.create m'.name m'.hasParameter tie.parameter tie.formulaText =
      .ok ⟨tie.parameter, back⟩ := by
    have hagain : Formula.evaluate (m.parameter? ·) back = .ok x :=
      (Formula.evaluate_of_ungrouped hungrouped).trans hvalue
    refine Formula.create_of_evaluate hback hagain (fun name hname => ?_) ((hhas _).trans h.has) ?_
    · rw [hvariables] at hname
      rw [hhas, Model.hasParameter_eq]
      exact (h.names.isName_of_mem_variableNames name hname).1
    · rw [hvariables]
      exact h.free
  have happend : Tie.put ⟨tie.parameter, back⟩ m'.ties = m'.ties ++ [⟨tie.parameter, back⟩] :=
    Tie.put_eq_append hnew
  have hattach : m'.attachTie tie.parameter tie.formulaText =
      .ok (m'.withTies (m'.ties ++ [tie.canonical]), tie.canonical) := by
    rw [Model.attachTie, hcreate, hcanonical, ← happend]
    rfl
  have hact : (builtin depth).addTie ⟨['='], op, [target, formula]⟩ =
      tieAll formula.text [target.text] := rfl
  rw [hact, htarget, hformula]
  exact .bind (Act.gives_tie hattach) Act.gives_pure

/-- Reading ties in order attaches them in order. -/
theorem gives_addEachTie {ties : List Tie} {items : List Expr}
    (hitems : List.Forall₂ Tie.Assigns ties items) (h : ∀ tie ∈ ties, tie.Legible m)
    (hhas : ∀ name, m'.hasParameter name = m.hasParameter name)
    (hdistinct : ((m'.ties ++ ties).map (·.parameter)).Nodup) :
    Act.Gives ((builtin depth).addEachTie items) m' ()
      (m'.withTies (m'.ties ++ ties.map Tie.canonical)) := by
  induction hitems generalizing m' with
  | nil =>
    rw [List.map_nil, List.append_nil, Model.withTies_ties]
    exact Act.gives_pure
  | @cons tie item ties items hitem _ ih =>
    rw [List.map_append, List.map_cons, List.nodup_middle] at hdistinct
    have hnew : ∀ other ∈ m'.ties, other.parameter ≠ tie.parameter := by
      intro other hother he
      refine (List.nodup_cons.1 hdistinct).1 (List.mem_append_left _ ?_)
      exact he ▸ List.mem_map_of_mem hother
    have hfirst : Act.Gives ((builtin depth).addTie item) m' ()
        (m'.withTies (m'.ties ++ [tie.canonical])) :=
      gives_addTie (h tie List.mem_cons_self) hitem hhas hnew
    have hmore := @ih (m'.withTies (m'.ties ++ [tie.canonical]))
      (fun other hother => h other (List.mem_cons_of_mem tie hother))
      (fun name => (Model.hasParameter_withTies _ _ name).trans (hhas name)) (by
        rw [Model.ties_withTies, List.append_assoc, List.map_append]
        exact List.nodup_middle.2 hdistinct)
    rw [Model.ties_withTies, Model.withTies_withTies, List.append_assoc] at hmore
    exact .bind hfirst hmore

theorem tieItems_eq {e : Expr} {ties : List Tie} {items : List Expr} (he : e.toList [','] = items)
    (hitems : List.Forall₂ Tie.Assigns ties items) : tieItems e = items := by
  rw [tieItems, he]
  clear he
  induction hitems with
  | nil => rfl
  | @cons tie item ties items hitem _ ih =>
    obtain ⟨op, target, formula, rfl, -⟩ := hitem
    have hnode : Expr.bracketsRemoved ⟨['='], op, [target, formula]⟩ = ⟨['='], op, [target, formula]⟩ :=
      Expr.bracketsRemoved_node (List.cons_ne_nil '=' [])
    rw [List.map_cons, hnode, List.filter_cons_of_pos rfl, ih]

/-- The list of the ties of a model, and what reading it does. -/
theorem exists_ties {ties : List Tie} (h : ∀ tie ∈ ties, tie.Legible m) (hne : ties ≠ [])
    (hdistinct : (ties.map (·.parameter)).Nodup) :
    ∃ p : Phrase, p.Tight 3 ∧ p.text = '(' :: List.intercalate [','] (ties.map Tie.text) ++ [')'] ∧
      ∀ (depth : Nat) (op : Text) (m' : Model),
        (∀ name, m'.hasParameter name = m.hasParameter name) → m'.ties = [] →
        Act.Gives ((builtin depth).addTies (p.tree op).bracketsRemoved) m' ()
          (m'.withTies (ties.map Tie.canonical)) := by
  have hphrase : ∀ tie ∈ ties, ∃ p : Phrase, p.Tight 2 ∧ p.rank ≠ 0 ∧ p.text = tie.text ∧
      ∀ op, tie.Assigns (p.tree op) := fun tie htie => (h tie htie).exists_phrase
  have : Nonempty Phrase := ⟨.hollow⟩
  choose! phrase htight hrank htext hassigns using hphrase
  refine ⟨.list (ties.map phrase), Phrase.tight_list (fun p hp => ?_) 3, ?_,
    fun depth op m' hhas hnone => ?_⟩
  · obtain ⟨tie, htie, rfl⟩ := List.mem_map.1 hp
    exact htight tie htie
  · rw [Phrase.text_list, List.map_map,
      List.map_congr_left (show ∀ tie ∈ ties, (Phrase.text ∘ phrase) tie = tie.text from htext)]
  · have hphrases : ∀ p ∈ ties.map phrase, p.Tight 2 ∧ p.rank ≠ 0 := by
      intro p hp
      obtain ⟨tie, htie, rfl⟩ := List.mem_map.1 hp
      exact ⟨htight tie htie, hrank tie htie⟩
    have htrees := Phrase.toList_list hphrases (fun hnil => hne (List.map_eq_nil_iff.1 hnil)) op
    obtain ⟨hlength, htrees⟩ := List.forall₂_iff_zip.1 (List.forall₂_map_left_iff.1 htrees)
    have hitems : List.Forall₂ Tie.Assigns ties
        (((Phrase.list (ties.map phrase)).tree op).bracketsRemoved.toList [',']) := by
      refine List.forall₂_iff_zip.2 ⟨hlength, fun {tie e} hmem => ?_⟩
      obtain ⟨o, rfl⟩ := htrees hmem
      exact hassigns tie (List.of_mem_zip hmem).1 o
    have hact : Act.Gives ((builtin depth).addEachTie _) m' () _ :=
      gives_addEachTie hitems h hhas (by rwa [hnone])
    rw [hnone, List.nil_append] at hact
    rw [addTies, tieItems_eq rfl hitems]
    exact hact

end Reader

/-! ## Bounds -/

namespace Bound

variable {owner name : Text} {isParameter : Text → Bool} {chain l n u : Expr} {lo hi : Float}
  {lower? upper? : Option Float}

theorem ofChain_of_limits {place : Nat} {values : List (Nat × Float)}
    (hlength : 2 ≤ chain.terms.length ∧ chain.terms.length ≤ 3)
    (hsort : sortTerms .standard none 0 chain.terms = .ok (some (place, name), values))
    (hhas : isParameter name = true)
    (htake : takeLimits none none (values.map fun (i, value) => limitAt chain.terms place i value) =
      .ok (lower?, upper?))
    (hordered : isContrary lower? upper? = false) :
    ofChain .standard owner isParameter chain false = .ok { parameter := name, lower?, upper? } := by
  rw [ofChain.eq_def]
  dsimp only
  rw [if_neg (by omega), if_neg (by omega), hsort]
  dsimp only
  rw [if_pos hhas, htake]
  dsimp only
  rw [hordered]
  rfl

theorem ofChain_between (hterms : chain.terms = [l, n, u]) (hl : Number.read? l.text = some lo)
    (hn : Number.read? n.text = none ∧ n.op = ['<'])
    (hu : Number.read? u.text = some hi ∧ u.op = ['<']) (hhas : isParameter n.text = true)
    (hordered : isContrary (some lo) (some hi) = false) :
    ofChain .standard owner isParameter chain false =
      .ok { parameter := n.text, lower? := some lo, upper? := some hi } := by
  obtain ⟨hn, hnop⟩ := hn
  obtain ⟨hu, huop⟩ := hu
  have hsort : sortTerms .standard none 0 [l, n, u] = .ok (some (1, n.text), [(0, lo), (2, hi)]) := by
    simp only [sortTerms, hl, hn, hu]
    rfl
  refine ofChain_of_limits (by rw [hterms]; exact ⟨by simp, by simp⟩) (hterms ▸ hsort) hhas ?_ hordered
  rw [hterms]
  simp [limitAt, takeLimits, Limit.isLower?, hnop, huop]

theorem ofChain_above (hterms : chain.terms = [l, n]) (hl : Number.read? l.text = some lo)
    (hn : Number.read? n.text = none ∧ n.op = ['<']) (hhas : isParameter n.text = true) :
    ofChain .standard owner isParameter chain false =
      .ok { parameter := n.text, lower? := some lo, upper? := none } := by
  obtain ⟨hn, hnop⟩ := hn
  have hsort : sortTerms .standard none 0 [l, n] = .ok (some (1, n.text), [(0, lo)]) := by
    simp only [sortTerms, hl, hn]
    rfl
  refine ofChain_of_limits (by rw [hterms]; exact ⟨by simp, by simp⟩) (hterms ▸ hsort) hhas ?_ rfl
  rw [hterms]
  simp [limitAt, takeLimits, Limit.isLower?, hnop]

theorem ofChain_below (hterms : chain.terms = [n, u]) (hn : Number.read? n.text = none)
    (hu : Number.read? u.text = some hi ∧ u.op = ['<']) (hhas : isParameter n.text = true) :
    ofChain .standard owner isParameter chain false =
      .ok { parameter := n.text, lower? := none, upper? := some hi } := by
  obtain ⟨hu, huop⟩ := hu
  have hsort : sortTerms .standard none 0 [n, u] = .ok (some (0, n.text), [(1, hi)]) := by
    simp only [sortTerms, hn, hu]
    rfl
  refine ofChain_of_limits (by rw [hterms]; exact ⟨by simp, by simp⟩) (hterms ▸ hsort) hhas ?_ rfl
  rw [hterms]
  simp [limitAt, takeLimits, Limit.isLower?, huop]

/-- A tree that states a bound, but for its factor. -/
def States (b : Bound) (e : Expr) : Prop :=
  e.name = "==".toList ∧ ∀ (owner : Text) (isParameter : Text → Bool),
    isParameter b.parameter = true →
      ofChain .standard owner isParameter e false = .ok { b with factor := defaultFactor }

/-- Terms joined by comparisons write a bound, if they are read as the bound. -/
theorem exists_chain_of_terms {b : Bound} (first : Phrase) (more : List Phrase) (hmore : more ≠ [])
    (htight : ∀ p ∈ first :: more, p.Tight 4) (hlevels : ∀ p ∈ first :: more, p.levels ≤ 2)
    (htext : first.text ++ more.flatMap (fun p => '<' :: p.text) = b.text)
    (hread : ∀ e : Expr, e.terms = first.tree [] :: more.map (·.tree ['<']) →
      ∀ (owner : Text) (isParameter : Text → Bool), isParameter b.parameter = true →
        ofChain .standard owner isParameter e false = .ok { b with factor := defaultFactor }) :
    ∃ p : Phrase, p.Tight 2 ∧ p.rank ≠ 0 ∧ p.levels ≤ 3 ∧ p.text = b.text ∧
      ∀ op, b.States (p.tree op) := by
  have hless : OperatorTable.standard.precedence ['<'] = 4 := by decide
  have hlabel : Phrase.label ['<'] = "==".toList := by decide
  refine ⟨.chain ['<'] first more, ?_, ?_, Phrase.levels_chain ['<'] hlevels, ?_, fun op => ?_⟩
  · exact Phrase.tight_chain (by decide) (by decide) (by decide) (hless ▸ htight)
  · rw [Phrase.rank_chain, if_neg hmore]
    decide
  · rw [Phrase.text_chain]
    exact htext
  · rw [Phrase.tree_chain (by decide) (hless ▸ htight first List.mem_cons_self) hmore, hlabel]
    exact ⟨rfl, hread _ rfl⟩

theorem exists_chain {b : Bound} (hb : b.Stated) (hname : Qualified.Spelling Unbroken b.parameter)
    (hnumbers : ∀ x ∈ b.numbers, Number.read? (Number.plain x) = some x) :
    ∃ p : Phrase, p.Tight 2 ∧ p.rank ≠ 0 ∧ p.levels ≤ 3 ∧ p.text = b.text ∧
      ∀ op, b.States (p.tree op) := by
  obtain ⟨q, hq, hqtext, hqlevels, hqtree⟩ := hname.exists_phrase
  obtain ⟨hread, hlimited, hordered, hown⟩ := hb
  have hq4 : q.Tight 4 := hq.mono (by decide)
  have hqread : ∀ op, Number.read? (q.tree op).text = none ∧ (q.tree op).op = op := by
    intro op
    rw [hqtree]
    exact ⟨hread, q.tree_eq_withOp op ▸ rfl⟩
  have hnumber : ∀ x ∈ b.numbers, (Number.phrase (Number.plain x)).Tight 4 ∧
      (Number.phrase (Number.plain x)).text = Number.plain x ∧
      ∀ op, Number.read? ((Number.phrase (Number.plain x)).tree op).text = some x ∧
        ((Number.phrase (Number.plain x)).tree op).op = op := by
    intro x hx
    obtain ⟨hvalid, htext, hrank, -, htree⟩ := Number.phrase_spec (hnumbers x hx)
    exact ⟨⟨hvalid, .inl hrank⟩, htext,
      fun op => ⟨(htree op).symm ▸ hnumbers x hx, Number.op_phrase _ op⟩⟩
  obtain ⟨parameter, lower?, upper?, factor, isDefault⟩ := b
  cases hown
  cases lower? with
  | none =>
    cases upper? with
    | none => rcases hlimited with h | h <;> cases h
    | some hi =>
      obtain ⟨hhi, htext, hhiread⟩ := hnumber hi (by simp [numbers])
      refine exists_chain_of_terms q [Number.phrase (Number.plain hi)] (List.cons_ne_nil _ _)
        (by simp [hq4, hhi]) (by simp [hqlevels, Number.levels_phrase]) ?_
        fun e he owner isParameter hhas => ?_
      · simp [htext, hqtext, text]
      · rw [ofChain_below he (hqread []).1 (hhiread ['<']) (hqtree [] ▸ hhas), hqtree]
  | some lo => 
    obtain ⟨hlo, hlotext, hloread⟩ := hnumber lo (by simp [numbers])
    cases upper? with
    | none =>
      refine exists_chain_of_terms (Number.phrase (Number.plain lo)) [q] (List.cons_ne_nil _ _)
        (by simp [hq4, hlo]) (by simp [hqlevels, Number.levels_phrase]) ?_
        fun e he owner isParameter hhas => ?_
      · simp [hlotext, hqtext, text]
      · rw [ofChain_above he (hloread []).1 (hqread ['<']) (hqtree ['<'] ▸ hhas), hqtree]
    | some hi =>
      obtain ⟨hhi, htext, hhiread⟩ := hnumber hi (by simp [numbers])
      refine exists_chain_of_terms (Number.phrase (Number.plain lo))
        [q, Number.phrase (Number.plain hi)] (List.cons_ne_nil _ _) (by simp [hq4, hhi, hlo])
        (by simp [hqlevels, Number.levels_phrase]) ?_ fun e he owner isParameter hhas => ?_
      · simp [htext, hlotext, hqtext, text]
      · rw [ofChain_between he (hloread []).1 (hqread ['<']) (hhiread ['<']) (hqtree ['<'] ▸ hhas)
          hordered, hqtree]

/-- Items that state bounds in order, each with its factor behind it unless it is the usual one. -/
inductive Written : List Bound → List Expr → Prop
  | nil : Written [] []
  | usual {b : Bound} {bounds : List Bound} {e : Expr} {items : List Expr} : b.States e →
    b.factor = defaultFactor → Written bounds items → Written (b :: bounds) (e :: items)
  | weighted {b : Bound} {bounds : List Bound} {e item value : Expr} {items : List Expr} :
    b.States e → Item.assignment? item = some ("penalty".toList, value) →
    Number.read? value.text = some b.factor → Written bounds items →
    Written (b :: bounds) (e :: item :: items)

/-- The clause that states a bound. -/
def StatedBy (b : Bound) : Clause → Prop
  | .constraint e factor? => b.States e ∧ match factor? with
    | none => b.factor = defaultFactor
    | some value => Number.read? value.text = some b.factor
  | .stray _ => False

theorem States.form {b : Bound} {e : Expr} (h : b.States e) :
    e.bracketsRemoved = e ∧ e.isEmptyMarker = false ∧ Item.assignment? e = none := by
  obtain ⟨name, op, terms⟩ := e
  obtain ⟨hname, -⟩ := h
  have hname : name = "==".toList := hname
  subst hname
  refine ⟨Expr.bracketsRemoved_node (by decide), Bool.and_false _, ?_⟩
  cases hassign : Item.assignment? ⟨"==".toList, op, terms⟩ with
  | none => rfl
  | some p =>
    have hname := Part.name_of_form.2.2 (Part.form_of_assignment? hassign)
    exact absurd hname (by decide : "==".toList ≠ ['='])

theorem States.factor? {b : Bound} {e : Expr} (h : b.States e) : Clause.factor? e = none := by
  rw [Clause.factor?, h.form.2.2]

/-- Whether the item behind a bound is its factor decides what the bound is. -/
theorem States.ofItems_cons {b : Bound} {e : Expr} (h : b.States e) (next : Expr) (rest : List Expr) :
    Clause.ofItems (e :: next :: rest) = match Clause.factor? next with
      | some value => .constraint e (some value) :: Clause.ofItems rest
      | none => .constraint e none :: Clause.ofItems (next :: rest) := by
  obtain ⟨hremoved, hmarker, -⟩ := h.form
  rw [Clause.ofItems, hremoved, hmarker, h.factor?]
  rfl

/-- The clauses of a list that states bounds state them in order. -/
theorem Written.clauses {bounds : List Bound} {items : List Expr} (h : Written bounds items) :
    List.Forall₂ StatedBy bounds (Clause.ofItems items) := by
  induction h with
  | nil => exact .nil
  | @usual b bounds e items he hfactor hrest ih =>
    cases hrest with
    | nil =>
      obtain ⟨hremoved, hmarker, -⟩ := he.form
      rw [Clause.ofItems.eq_def]
      dsimp only
      rw [hremoved, hmarker, he.factor?]
      exact .cons ⟨he, hfactor⟩ .nil
    | usual he' hfactor' hrest' =>
      rw [he.ofItems_cons, he'.factor?]
      exact .cons ⟨he, hfactor⟩ ih
    | weighted he' hitem hvalue hrest' =>
      rw [he.ofItems_cons, he'.factor?]
      exact .cons ⟨he, hfactor⟩ ih
  | @weighted b bounds e item value items he hitem hvalue hrest ih =>
    have hfactor : Clause.factor? item = some value := by
      rw [Clause.factor?, hitem]
      exact if_pos rfl
    rw [he.ofItems_cons, hfactor]
    exact .cons ⟨he, hvalue⟩ ih

/-- The phrases of the items that state a bound, the chain being given. -/
def phrases (chain : Bound → Phrase) (b : Bound) : List Phrase :=
  if b.factor != defaultFactor then
    [chain b, .item "penalty".toList (Number.phrase (Number.plain b.factor))]
  else [chain b]

theorem written_of_trees {chain : Bound → Phrase} {bounds : List Bound} {items : List Expr}
    (hchain : ∀ b ∈ bounds, (∀ op, b.States ((chain b).tree op)) ∧
      Number.read? (Number.plain b.factor) = some b.factor)
    (h : List.Forall₂ (fun p e => ∃ o, e = Phrase.tree o p) (bounds.flatMap (phrases chain)) items) :
    Written bounds items := by
  induction bounds generalizing items with
  | nil =>
    cases h
    exact .nil
  | cons b bounds ih =>
    obtain ⟨hstates, hfactor⟩ := hchain b List.mem_cons_self
    have hmore : ∀ b' ∈ bounds, _ := fun b' hb' => hchain b' (List.mem_cons_of_mem b hb')
    rw [List.flatMap_cons, phrases] at h
    split at h
    · obtain ⟨e, behind, ⟨o, rfl⟩, hbehind, rfl⟩ := List.forall₂_cons_left_iff.1 h
      obtain ⟨item, rest, ⟨o', rfl⟩, hrest, rfl⟩ := List.forall₂_cons_left_iff.1 hbehind
      obtain ⟨-, -, -, -, htree⟩ := Number.phrase_spec hfactor
      rw [Phrase.tree_item]
      refine .weighted (hstates o) rfl ?_ (ih hmore hrest)
      rw [htree]
      exact hfactor
    · rename_i husual
      obtain ⟨e, rest, ⟨o, rfl⟩, hrest, rfl⟩ := List.forall₂_cons_left_iff.1 h
      exact .usual (hstates o) (eq_defaultFactor (Bool.not_eq_true _ ▸ husual)) (ih hmore hrest)

end Bound

namespace Reader

/-- Reading a clause that states a bound puts the bound on the model. -/
theorem gives_addConstraint {b : Bound} {e : Expr} {factor? : Option Expr}
    (h : b.StatedBy (.constraint e factor?)) (hhas : m'.hasParameter b.parameter = true)
    (hnew : ∀ other ∈ m'.bounds, other.parameter ≠ b.parameter) :
    Act.Gives ((builtin depth).addConstraint e factor?) m' () (m'.withBounds (m'.bounds ++ [b])) := by
  obtain ⟨⟨hname, hchain⟩, hfactor⟩ := h
  have hkind : kindOf e = boundKind := by
    rw [kindOf]
    exact if_pos hname
  have hcreate : (builtin depth).createBound (kindOf e) m' e false =
      .ok { b with factor := defaultFactor } := by
    rw [createBound, hkind, if_pos (by decide : boundKinds.contains boundKind = true)]
    exact hchain _ _ hhas
  have hattach : m'.attachBound b = .ok (m'.withBounds (m'.bounds ++ [b])) := by
    rw [Model.attachBound, if_pos hhas, Bound.put_eq_append hnew]
  have hvalue : (builtin depth).factorOf factor? = .ok b.factor := by
    cases factor? with
    | none => exact congrArg Except.ok (Eq.symm hfactor)
    | some value =>
      have hread : Number.read? value.text = some b.factor := hfactor
      change (Number.read? value.text).elim _ _ = _
      rw [hread]
      rfl
  exact fun _ => ⟨_, runs_addConstraint.2 ⟨b, ⟨_, b.factor, hcreate, hvalue, rfl⟩, hattach, rfl⟩⟩

/-- Reading clauses that state bounds attaches the bounds in order. -/
theorem gives_addClauses {bounds : List Bound} {clauses : List Clause}
    (h : List.Forall₂ Bound.StatedBy bounds clauses)
    (hhas : ∀ b ∈ bounds, m'.hasParameter b.parameter = true)
    (hdistinct : ((m'.bounds ++ bounds).map (·.parameter)).Nodup) :
    Act.Gives ((builtin depth).addClauses clauses) m' () (m'.withBounds (m'.bounds ++ bounds)) := by
  induction h generalizing m' with
  | nil =>
    rw [List.append_nil, Model.withBounds_bounds]
    exact Act.gives_pure
  | @cons b clause bounds clauses hclause _ ih =>
    rw [List.map_append, List.map_cons, List.nodup_middle] at hdistinct
    have hnew : ∀ other ∈ m'.bounds, other.parameter ≠ b.parameter := by
      intro other hother he
      refine (List.nodup_cons.1 hdistinct).1 (List.mem_append_left _ ?_)
      exact he ▸ List.mem_map_of_mem hother
    have hmore := @ih (m'.withBounds (m'.bounds ++ [b]))
      (fun other hother => (Model.hasParameter_withBounds _ _ _).trans
        (hhas other (List.mem_cons_of_mem b hother))) (by
        rw [Model.bounds_withBounds, List.append_assoc, List.map_append]
        exact List.nodup_middle.2 hdistinct)
    rw [Model.bounds_withBounds, Model.withBounds_withBounds, List.append_assoc] at hmore
    cases clause with
    | stray item => exact hclause.elim
    | constraint e factor? =>
      exact .bind (gives_addConstraint hclause (hhas b List.mem_cons_self) hnew) hmore

/-- The list of the bounds of a model, and what reading it does. -/
theorem exists_bounds {bounds : List Bound} (h : ∀ b ∈ bounds, b.Stated ∧
      Qualified.Spelling Unbroken b.parameter ∧ ∀ x ∈ b.numbers, Number.read? (Number.plain x) = some x)
    (hne : bounds ≠ []) (hdistinct : (bounds.map (·.parameter)).Nodup) :
    ∃ p : Phrase, p.Tight 3 ∧ p.levels ≤ 5 ∧
      p.text = '(' :: List.intercalate [','] (bounds.flatMap Bound.items) ++ [')'] ∧
      ∀ (depth : Nat) (op : Text) (m' : Model),
        (∀ b ∈ bounds, m'.hasParameter b.parameter = true) → m'.bounds = [] →
        Act.Gives ((builtin depth).addConstraints (p.tree op).bracketsRemoved) m' ()
          (m'.withBounds bounds) := by
  have hphrase : ∀ b ∈ bounds, ∃ p : Phrase, p.Tight 2 ∧ p.rank ≠ 0 ∧ p.levels ≤ 3 ∧
      p.text = b.text ∧ ∀ op, b.States (p.tree op) :=
    fun b hb => Bound.exists_chain (h b hb).1 (h b hb).2.1 (h b hb).2.2
  have : Nonempty Phrase := ⟨.hollow⟩
  choose! phrase htight hrank hlevels htext hstates using hphrase
  have hfactor : ∀ b ∈ bounds, Number.read? (Number.plain b.factor) = some b.factor :=
    fun b hb => (h b hb).2.2 _ (List.mem_append_right _ (List.mem_singleton_self _))
  have hphrases : ∀ b ∈ bounds,
      (∀ p ∈ Bound.phrases phrase b, p.Tight 2 ∧ p.rank ≠ 0 ∧ p.levels ≤ 3) ∧
      (Bound.phrases phrase b).map Phrase.text = b.items := by
    intro b hb
    obtain ⟨hvalid, hnumber, hzero, -⟩ := Number.phrase_spec (hfactor b hb)
    have hpenalty : (Phrase.item "penalty".toList (Number.phrase (Number.plain b.factor))).Tight 2 :=
      Phrase.tight_item (Word.of_dotted (by decide)) ⟨hvalid, .inl hzero⟩ (Nat.le_refl 2)
    have hfirst := And.intro (htight b hb) (And.intro (hrank b hb) (hlevels b hb))
    have hlow := Phrase.levels_item "penalty".toList
      (Number.levels_phrase (Number.plain b.factor))
    rw [Bound.phrases, Bound.items]
    split
    · refine ⟨List.forall_mem_cons.2 ⟨hfirst, List.forall_mem_singleton.2 ⟨hpenalty, ?_, hlow⟩⟩, ?_⟩
      · exact (by decide : OperatorTable.standard.precedence ['='] ≠ 0)
      · rw [List.map_cons, List.map_singleton, htext b hb, Phrase.text_item, hnumber]
        rfl
    · exact ⟨List.forall_mem_singleton.2 hfirst, by rw [List.map_singleton, htext b hb]⟩
  have hall : ∀ p ∈ bounds.flatMap (Bound.phrases phrase),
      p.Tight 2 ∧ p.rank ≠ 0 ∧ p.levels ≤ 3 := by
    intro p hp
    obtain ⟨b, hb, hp⟩ := List.mem_flatMap.1 hp
    exact (hphrases b hb).1 p hp
  refine ⟨.list (bounds.flatMap (Bound.phrases phrase)), Phrase.tight_list (fun p hp => (hall p hp).1) 3,
    Phrase.levels_list fun p hp => (hall p hp).2.2, ?_, fun depth op m' hhas hnone => ?_⟩
  · rw [Phrase.text_list, List.map_flatMap]
    have hitems : bounds.flatMap (fun b => (Bound.phrases phrase b).map Phrase.text) =
        bounds.flatMap Bound.items := by
      rw [List.flatMap_def, List.flatMap_def,
        List.map_congr_left (fun b hb => (hphrases b hb).2)]
    rw [hitems]
  · have hnonempty : bounds.flatMap (Bound.phrases phrase) ≠ [] := by
      obtain ⟨b, rest, rfl⟩ := List.exists_cons_of_ne_nil hne
      rw [List.flatMap_cons, Bound.phrases]
      split <;> exact List.cons_ne_nil _ _
    have hwritten := Bound.written_of_trees (fun b hb => ⟨hstates b hb, hfactor b hb⟩)
      (Phrase.toList_list (fun p hp => ⟨(hall p hp).1, (hall p hp).2.1⟩) hnonempty op)
    have hact : Act.Gives ((builtin depth).addClauses _) m' () _ :=
      gives_addClauses hwritten.clauses hhas (by rwa [hnone])
    rw [hnone, List.nil_append] at hact
    exact hact

end Reader
end Lineshape
