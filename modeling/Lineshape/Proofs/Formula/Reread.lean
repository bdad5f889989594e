import Lineshape.Proofs.Formula.Depth
import Lineshape.Proofs.Formula.Leaves
import Lineshape.Proofs.Model.Attached
import Lineshape.Proofs.Reading.Steps

/-! # Formulas read back

The canonical text of a formula that has a value is read back as a tree with the same value, within
the limit on nesting that held for the formula (`Formula.parse_text`). A tie that is written and
attached again computes the same value (`Formula.evaluate_reread`). -/

namespace Lineshape
set_option autoImplicit false

namespace Formula

variable {lookup : Text → Option Float} {e : Expr} {v : Float}

/-! ## Formulas -/

/-- The names in a formula that has a value can be taken for the dotted ones with a value. -/
theorem arithmetic_of_leafNames (hs : Expr.Shaped e) (hvalue : evaluate lookup e = .ok v)
    (hnames : ∀ name ∈ e.leafNames, (lookup name).isSome = true → isDotted name = true) :
    Arithmetic (fun name => (lookup name).isSome = true ∧ isDotted name = true) e := by
  have hdotted : evaluate (fun name => if isDotted name then lookup name else none) e = .ok v := by
    rw [← hvalue]
    refine evaluate_congr fun name hname => ?_
    split
    · rfl
    · rename_i hno
      cases hlookup : lookup name with
      | none => rfl
      | some x => exact absurd (hnames name hname (by rw [hlookup]; rfl)) hno
  have h := arithmetic_of_evaluate hs hdotted
  have hname : (fun name => (if isDotted name then lookup name else none).isSome = true) =
      fun name => (lookup name).isSome = true ∧ isDotted name = true := by
    funext name
    by_cases h : isDotted name = true <;> simp [h]
  exact hname ▸ h

theorem writes_of_arithmetic (hs : Expr.Shaped e)
    (h : Arithmetic (fun name => (lookup name).isSome = true ∧ isDotted name = true) e) :
    Expr.Writes e e.phrase :=
  Expr.writes_phrase hs (h.wellFormed fun _ hname _ => hname.2)

/-- The tree that is read back does not depend on the limit. -/
theorem parse_text {depth : Nat} {s : Text} (hparse : Expr.parse .standard depth s = .ok e)
    (h : Arithmetic (fun name => (lookup name).isSome = true ∧ isDotted name = true) e) :
    ∃ back, (∀ limit, depth ≤ limit → Expr.parse .standard limit e.text = .ok back) ∧
      back.ungrouped = e.ungrouped := by
  obtain ⟨hs, ho⟩ := Expr.shaped_of_parseLevel hparse
  have hwrites := writes_of_arithmetic hs h
  have hlevels := levels_of_parseLevel hparse h
  refine ⟨e.phrase.tree [], fun limit hlimit => ?_, ?_⟩
  · refine Phrase.parseLevel_eq hwrites.valid (by omega) ?_
    rw [← hwrites.text, (Phrase.trimmed hwrites.valid).trim_eq]
  · rw [hwrites.tree, Expr.withOp_of_eq ((Expr.ungrouped_op e).trans ho)]

theorem evaluate_of_ungrouped {back : Expr} (h : back.ungrouped = e.ungrouped) :
    evaluate lookup back = evaluate lookup e := by
  rw [← evaluate_ungrouped lookup back, h, evaluate_ungrouped]

theorem isEmptyMarker_of_evaluate (h : evaluate lookup e = .ok v) : e.isEmptyMarker = false := by
  obtain ⟨name, op, terms⟩ := e
  cases terms with
  | cons first more => rfl
  | nil =>
    cases hmarker : Expr.isEmptyMarker ⟨name, op, []⟩ with
    | false => rfl
    | true =>
      have hname : name = Expr.emptyName := by
        simpa [Expr.isEmptyMarker, Expr.isLeaf] using hmarker
      rw [evaluate, leafValue, if_pos hname] at h
      cases h

/-! ## Ties -/

/-- The text of a tie is read as an assignment of the formula to the parameter. -/
theorem parse_tie {depth : Nat} {s parameter : Text}
    (hparse : Expr.parse .standard depth s = .ok e)
    (h : Arithmetic (fun name => (lookup name).isSome = true ∧ isDotted name = true) e)
    (hparameter : isDotted parameter = true) :
    ∃ formula, (∀ limit, depth < limit → Expr.parse .standard limit (Tie.text ⟨parameter, e⟩) =
        .ok ⟨['='], [], [⟨parameter, [], []⟩, formula]⟩) ∧ formula.text = e.text := by
  obtain ⟨hs, -⟩ := Expr.shaped_of_parseLevel hparse
  have hwrites := writes_of_arithmetic hs h
  have hlevels := levels_of_parseLevel hparse h
  have hrank : OperatorTable.standard.precedence ['='] = 3 := by decide
  have hlabel : Phrase.label ['='] = ['='] := by decide
  have hbinding := h.binding_eq
  have hvalid : (Phrase.joined (.word parameter false) ['='] false e.phrase).Valid := by
    refine ⟨by decide, Word.of_dotted hparameter, hwrites.valid, .inl rfl, ?_, fun h => by cases h⟩
    rw [hwrites.rank, hrank]
    omega
  have htext : (Phrase.joined (.word parameter false) ['='] false e.phrase).text =
      Tie.text ⟨parameter, e⟩ := by
    show parameter ++ (['='] ++ ([] ++ e.phrase.text)) = parameter ++ '=' :: e.text
    rw [hwrites.text]
    rfl
  refine ⟨e.phrase.tree ['='], fun limit hlimit => ?_, Expr.text_congr (hwrites.tree ['='])⟩
  have htree : (Phrase.joined (.word parameter false) ['='] false e.phrase).tree [] =
      ⟨['='], [], [⟨parameter, [], []⟩, e.phrase.tree ['=']]⟩ := by
    rw [Phrase.tree, hlabel, hrank]
    rfl
  rw [← htree]
  refine Phrase.parseLevel_eq hvalid ?_ ?_
  · have hfront : ¬ (Phrase.word parameter false).rank = 3 := fun h => by cases h
    rw [Phrase.levels, hrank, if_neg hfront]
    show max (1 + 1) (e.phrase.levels + 1) ≤ limit + 1
    omega
  · rw [← htext, (Phrase.trimmed hvalid).trim_eq]

/-- A formula that has a value can be tied to any parameter that it does not name. -/
theorem create_of_evaluate {s owner parameter : Text} {isParameter : Text → Bool}
    (hparse : Expr.ofText s = .ok e) (hvalue : evaluate lookup e = .ok v)
    (hnames : ∀ name ∈ e.variableNames, isParameter name = true)
    (hparameter : isParameter parameter = true) (hfree : parameter ∉ e.variableNames) :
    Tie.create owner isParameter parameter s = .ok ⟨parameter, e⟩ := by
  have hfault : Tie.nameFault? isParameter parameter e.variableNames = none := by
    refine Tie.nameFault?_eq_none_iff.2 fun name hname => ⟨?_, hnames name hname⟩
    rintro rfl
    exact hfree hname
  rw [Tie.create, if_pos hparameter, hparse]
  simp only [isEmptyMarker_of_evaluate hvalue, hfault, Bool.false_eq_true, if_false]

/-- The act that attaches one tie from an assignment of a formula to a parameter. -/
theorem runs_addTie {r : Reader} {target formula : Expr} {m m' : Model} {tie : Tie}
    {journal : List Event} (h : m.attachTie (r.render target) (r.render formula) = .ok (m', tie)) :
    Act.Runs (r.addTie ⟨['='], [], [target, formula]⟩) ⟨m, journal⟩ ()
      ⟨m', journal ++ [.tied m.name tie]⟩ := by
  have hact : r.addTie ⟨['='], [], [target, formula]⟩ =
      Reader.tieAll (r.render formula) [r.render target] := rfl
  rw [hact]
  exact Act.runs_bind.2 ⟨(), _, Act.runs_tie.2 ⟨tie, h, rfl⟩, Act.runs_pure.2 ⟨rfl, rfl⟩⟩

/-- Whatever formula has a value is read back from its canonical text with the same value, and a tie
to it is attached again with the same value, from the text of the formula and from that of the tie.
Of the names in the formula those that have a value need to be dotted. -/
theorem evaluate_reread {s : Text} (hparse : Expr.ofText s = .ok e)
    (hvalue : evaluate lookup e = .ok v)
    (hnames : ∀ name ∈ e.leafNames, (lookup name).isSome = true → isDotted name = true) :
    (∃ back, (∀ limit, defaultDepth ≤ limit → Expr.parse .standard limit e.text = .ok back) ∧
      evaluate lookup back = .ok v) ∧
    ∀ (m : Model) (parameter : Text), (∀ name, m.parameter? name = lookup name) →
      m.hasParameter parameter = true → parameter ∉ e.variableNames →
      ∃ tie : Tie, tie.parameter = parameter ∧ tie.value lookup = .ok v ∧
        m.attachTie parameter e.text = .ok (m.withTies (tie.put m.ties), tie) ∧
        (isDotted parameter = true → parameter ≠ Expr.emptyName →
          ∃ item, (∀ limit, defaultDepth < limit →
              Expr.parse .standard limit (Tie.text ⟨parameter, e⟩) = .ok item) ∧
            ∀ (r : Reader) (journal : List Event), r.operators = .standard →
              Act.Runs (r.addTie item) ⟨m, journal⟩ ()
                ⟨m.withTies (tie.put m.ties), journal ++ [.tied m.name tie]⟩) := by
  obtain ⟨hs, -⟩ := Expr.shaped_of_parseLevel hparse
  have h := arithmetic_of_leafNames hs hvalue hnames
  obtain ⟨back, hback, hungrouped⟩ := parse_text hparse h
  have hbackValue : evaluate lookup back = .ok v := by
    rw [evaluate_of_ungrouped hungrouped, hvalue]
  refine ⟨⟨back, hback, hbackValue⟩, fun m parameter hlookup hhas hfree => ?_⟩
  have hsame : back.ungrouped = e.ungrouped.withOp e.op := by
    rw [hungrouped, Expr.withOp_of_eq (Expr.ungrouped_op e)]
  have hvariables : back.variableNames = e.variableNames := Expr.variableNames_congr hsame
  have hknown : ∀ name ∈ back.variableNames, m.hasParameter name = true := by
    intro name hname
    rw [hvariables] at hname
    rw [Model.hasParameter_eq, hlookup]
    exact (h.isName_of_mem_variableNames name hname).1
  have hcreate : ∀ owner, Tie.create owner m.hasParameter parameter e.text = .ok ⟨parameter, back⟩ :=
    fun owner => create_of_evaluate (hback _ (Nat.le_refl _)) hbackValue hknown hhas
      (by rw [hvariables]; exact hfree)
  have hattach : m.attachTie parameter e.text =
      .ok (m.withTies (Tie.put ⟨parameter, back⟩ m.ties), ⟨parameter, back⟩) := by
    rw [Model.attachTie, hcreate]
    rfl
  refine ⟨⟨parameter, back⟩, rfl, ?_, hattach, fun hparameter hne => ?_⟩
  · rw [Tie.value, hbackValue]
    rfl
  · obtain ⟨formula, hitem, htext⟩ := parse_tie hparse h hparameter
    refine ⟨_, hitem, fun r journal hr => runs_addTie ?_⟩
    have htarget : r.render ⟨parameter, [], []⟩ = parameter := by
      rw [Reader.render, hr, Expr.render, if_neg hne]
    have hformula : r.render formula = e.text := by
      rw [Reader.render, hr]
      exact htext
    rw [htarget, hformula]
    exact hattach

theorem evaluate_reread_signed_factor :
    let m : Model := .composite .plain
      [⟨[], .curve { Curve.ofShape .linearBackground with
          parameters := [("A0".toList, 1), ("A1".toList, 3)] }⟩,
        ⟨[], .curve { Curve.ofShape .flatBackground with parameters := [("A0".toList, 5)] }⟩]
    let e : Expr := ⟨['+'], [], [⟨['2'], [], []⟩, ⟨[], ['-'], [⟨['*'], [],
      [⟨"f0.A1".toList, [], []⟩, ⟨['-'], ['*'], [⟨"f1.A0".toList, [], []⟩]⟩]⟩]⟩]⟩
    Expr.ofText "2-(f0.A1*(-f1.A0))".toList = .ok e ∧
      evaluate (m.parameter? ·) e = .ok (0 + 2 - 1 * 3 * -5) ∧
      (∀ name ∈ e.leafNames, (m.parameter? name).isSome = true → isDotted name = true) ∧
      m.hasParameter "f0.A0".toList = true ∧ "f0.A0".toList ∉ e.variableNames ∧
      e.text = "2-f0.A1* -f1.A0".toList ∧
      (∃ back, Expr.ofText "2-f0.A1* -f1.A0".toList = .ok back ∧
        evaluate (m.parameter? ·) back = .ok (0 + 2 - 1 * 3 * -5)) ∧
      ∃ tie : Tie, tie.value (m.parameter? ·) = .ok (0 + 2 - 1 * 3 * -5) ∧
        m.attachTie "f0.A0".toList "2-f0.A1* -f1.A0".toList = .ok (m.withTies [tie], tie) := by
  intro m e
  have hparse : Expr.ofText "2-(f0.A1*(-f1.A0))".toList = .ok e := by decide +kernel
  have hvalue : evaluate (m.parameter? ·) e = .ok (0 + 2 - 1 * 3 * -5) := by rfl
  have hnames : ∀ name ∈ e.leafNames, (m.parameter? name).isSome = true → isDotted name = true := by
    decide +kernel
  have hhas : m.hasParameter "f0.A0".toList = true := by decide +kernel
  have hfree : "f0.A0".toList ∉ e.variableNames := by decide +kernel
  have htext : e.text = "2-f0.A1* -f1.A0".toList := by decide +kernel
  obtain ⟨⟨back, hback, hagain⟩, hties⟩ := evaluate_reread hparse hvalue hnames
  obtain ⟨tie, -, htie, hattach, -⟩ := hties m "f0.A0".toList (fun _ => rfl) hhas hfree
  rw [htext] at hback hattach
  exact ⟨hparse, hvalue, hnames, hhas, hfree, htext, ⟨back, hback _ (Nat.le_refl _), hagain⟩, tie,
    htie, hattach⟩

end Formula
end Lineshape
