import Lineshape.Model.Conditions
import Lineshape.Proofs.Expr.Canonical
import Lineshape.Proofs.Formula.Leaves
import Lineshape.Proofs.Reading.Resolved

/-! # Names that ties look up

A tie is checked when it is made: the identifiers of its formula are parameters of the owner.
Evaluation looks up more than that, every leaf that does not begin like a number
(`Formula.IsName`). So a tie that was made can fail on a name, but only on a leaf which is looked up
without being an identifier, such as `$x`, `"a"` or `f()` (`Formula.IsStray`); with such a leaf it
has no value at all (`Model.stray_of_create`). -/

namespace Lineshape
set_option autoImplicit false

namespace Expr

theorem leafNamesOf_eq_flatMap (terms : List Expr) :
    leafNamesOf terms = terms.flatMap leafNames := by
  induction terms with
  | nil => rfl
  | cons e terms ih => rw [leafNamesOf, ih, List.flatMap_cons]

/-- The identifiers of a tree are those of its leaves that are identifiers. -/
theorem identifiers_eq_filter (e : Expr) : e.identifiers = e.leafNames.filter isIdentifier := by
  induction e with
  | node name op terms ih =>
    cases terms with
    | nil =>
      rw [identifiers, leafNames, List.filter_singleton]
      cases isIdentifier name <;> rfl
    | cons first more =>
      have hmore : identifiersOf more = (leafNamesOf more).filter isIdentifier := by
        rw [identifiersOf_eq_flatMap, leafNamesOf_eq_flatMap, List.filter_flatMap]
        exact List.flatMap_congr fun e he => ih e (List.mem_cons_of_mem first he)
      rw [identifiers, leafNames, List.filter_append, ih first List.mem_cons_self, hmore]

/-- The terms of a parsed tree look like parsed trees. -/
theorem Shaped.of_mem {name op : Text} {terms : List Expr} (h : Shaped ⟨name, op, terms⟩) {e : Expr}
    (he : e ∈ terms) : e.Shaped := by
  cases h with
  | leaf => cases he
  | group hinner | prefixed _ hinner | call _ hinner => exact List.mem_singleton.1 he ▸ hinner
  | listCall _ hlist hne =>
    obtain ⟨first, more, rfl, -, hfirst, -, hmore, -⟩ := hlist.of_list hne
    rcases List.mem_cons.1 he with rfl | he
    · exact hfirst
    · exact hmore e he
  | chain _ _ hfirst _ hmore =>
    rcases List.mem_cons.1 he with rfl | he
    · exact hfirst
    · exact hmore e he

/-- A bracket group holds one node. -/
theorem Shaped.more_eq_nil {op : Text} {first : Expr} {more : List Expr}
    (h : Shaped ⟨[], op, first :: more⟩) : more = [] := by
  cases h with
  | group | prefixed | call => rfl
  | listCall hhead => exact absurd rfl hhead.ne_nil
  | chain hlabel => exact absurd rfl (ne_nil_of_isBinary hlabel)

theorem mem_variableNames_iff {e : Expr} {name : Text} :
    name ∈ e.variableNames ↔ name ∈ e.leafNames ∧ isIdentifier name = true := by
  rw [variableNames, Text.mem_sortDistinct, identifiers_eq_filter, List.mem_filter]

end Expr

namespace Formula

/-- Whether evaluation looks a leaf up: it is neither blank nor begins like a number. -/
def IsName (name : Text) : Prop :=
  name ≠ Expr.emptyName ∧ ∀ c ∈ name.head?, c.isDigit = false ∧ c ≠ '.'

/-- Whether a leaf is looked up although it is no identifier. -/
def IsStray (name : Text) : Prop := IsName name ∧ Expr.isIdentifier name = false

instance (name : Text) : Decidable (IsName name) := inferInstanceAs (Decidable (_ ∧ _))

instance (name : Text) : Decidable (IsStray name) := inferInstanceAs (Decidable (_ ∧ _))

variable {lookup : Text → Option Float} {e : Expr} {name : Text} {x : Float} {fault : EvalFault}

theorem leafValue_of_isName (h : IsName name) :
    leafValue lookup name = (lookup name).elim (.error (.unknownName name)) .ok := by
  obtain ⟨hempty, hfirst⟩ := h
  have hno : ¬ (name.head?.any fun c => c.isDigit || c == '.') = true := by
    rw [Option.any_eq_true]
    rintro ⟨c, hc, hnumber⟩
    obtain ⟨hdigit, hpoint⟩ := hfirst c hc
    simp [hdigit, hpoint] at hnumber
  rw [leafValue, if_neg hempty, if_neg hno]

theorem isName_of_unknownName {n : Text} (h : leafValue lookup name = .error (.unknownName n)) :
    name = n ∧ IsName name ∧ lookup name = none := by
  rw [leafValue] at h
  split at h
  · cases h
  · rename_i hempty
    split at h
    · cases hread : Number.read? name <;> rw [hread] at h <;> cases h
    · rename_i hfirst
      cases hlookup : lookup name with
      | some x =>
        rw [hlookup] at h
        cases h
      | none =>
        rw [hlookup] at h
        cases h
        refine ⟨rfl, ⟨hempty, fun c hc => ?_⟩, rfl⟩
        have hno : ¬ (c.isDigit || c == '.') = true := fun hc' =>
          hfirst (Option.any_eq_true _ _ |>.2 ⟨c, hc, hc'⟩)
        simpa using hno

/-! ## Every leaf is evaluated -/

/-- A failure that is not one on a name. -/
def Nameless (result : Except EvalFault Float) : Prop := ∀ name, result ≠ .error (.unknownName name)

theorem nameless_ok (x : Float) : Nameless (.ok x) := nofun

theorem nameless_sumFrom (total : Float) (values : List (Text × Float)) :
    Nameless (sumFrom total values) := by
  induction values generalizing total with
  | nil => exact nameless_ok total
  | cons p values ih =>
    rw [sumFrom]
    split
    · exact ih _
    · split
      · exact ih _
      · exact nofun

theorem nameless_productFrom (total : Float) (values : List (Text × Float)) :
    Nameless (productFrom total values) := by
  induction values generalizing total with
  | nil => exact nameless_ok total
  | cons p values ih =>
    rw [productFrom]
    split
    · exact ih _
    · split
      · exact ih _
      · exact nofun

theorem nameless_chainValue (label : Text) (values : List (Text × Float)) :
    Nameless (chainValue label values) := by
  rw [chainValue.eq_def]
  split
  · exact nameless_sumFrom 0 values
  · split
    · exact nameless_productFrom 1 values
    · split
      · split <;> exact nameless_ok _
      · exact nofun

theorem nameless_signed (op : Text) (x : Float) : Nameless (signed op x) := by
  rw [signed]
  split
  · exact nameless_ok _
  · split
    · exact nameless_ok _
    · exact nofun

/-- What the value of a node with terms is made from: the values of all its terms, or of its only
one, or nothing. What is done with the values does not fail on a name. -/
theorem evaluate_cases (lookup : Text → Option Float) (label op : Text) (first : Expr)
    (more : List Expr) :
    (∃ result, Nameless result ∧ (∀ x, result ≠ .ok x) ∧
      evaluate lookup ⟨label, op, first :: more⟩ = result) ∨
    (∃ f : Float → Except EvalFault Float, (∀ x, Nameless (f x)) ∧ (label = [] ∨ more = []) ∧
      evaluate lookup ⟨label, op, first :: more⟩ = evaluate lookup first >>= f) ∨
    (∃ f : List Float → Except EvalFault Float, (∀ xs, Nameless (f xs)) ∧
      evaluate lookup ⟨label, op, first :: more⟩ =
        (first :: more).mapM (evaluate lookup) >>= f) := by
  by_cases hprefixed : Expr.isPrefixed .standard ⟨label, op, first :: more⟩ = true
  · have hmore : more = [] := by
      rw [Expr.isPrefixed, Bool.and_eq_true, decide_eq_true_eq, List.length_cons] at hprefixed
      exact List.eq_nil_of_length_eq_zero (Nat.succ.inj hprefixed.1)
    refine .inr (.inl ⟨_, nameless_signed label, .inr hmore, ?_⟩)
    rw [evaluate_cons, if_pos hprefixed]
  · by_cases hchain : Expr.isChain .standard ⟨label, op, first :: more⟩ = true
    · refine .inr (.inr ⟨_, fun xs =>
        nameless_chainValue label (((first :: more).map (·.op)).zip xs), ?_⟩)
      rw [evaluate_cons, if_neg hprefixed, if_pos hchain]
    · by_cases hgroup : label = []
      · refine .inr (.inl ⟨.ok, nameless_ok, .inl hgroup, ?_⟩)
        rw [evaluate_cons, if_neg hprefixed, if_neg hchain, if_pos hgroup]
        cases evaluate lookup first <;> rfl
      · rw [evaluate_cons, if_neg hprefixed, if_neg hchain, if_neg hgroup]
        cases Elementary.named? label with
        | none => exact .inl ⟨.error (.unknownFunction label), by simp [Nameless], by simp, rfl⟩
        | some f =>
          by_cases harity : (first :: more).length ≠ f.arity
          · exact .inl ⟨.error (.wrongArity f (first :: more).length), by simp [Nameless], by simp,
              if_pos harity⟩
          · refine .inr (.inr ⟨_, fun xs => ?_, if_neg harity⟩)
            cases f.apply xs with
            | none => simp [Nameless]
            | some y => exact nameless_ok y

/-- Evaluation fails on a name only at a leaf of this name, which has no value. -/
theorem leaf_of_evaluate (h : evaluate lookup e = .error (.unknownName name)) :
    name ∈ e.leafNames ∧ IsName name ∧ lookup name = none := by
  induction e with
  | node label op terms ih =>
    cases terms with
    | nil =>
      rw [evaluate] at h
      obtain ⟨rfl, hname⟩ := isName_of_unknownName h
      exact ⟨List.mem_singleton_self _, hname⟩
    | cons first more =>
      have hterm (e : Expr) (he : e ∈ first :: more)
          (h : evaluate lookup e = .error (.unknownName name)) :
          name ∈ Expr.leafNames ⟨label, op, first :: more⟩ ∧ IsName name ∧ lookup name = none := by
        obtain ⟨hleaf, hname⟩ := ih e he h
        exact ⟨Expr.mem_leafNamesOf.2 ⟨e, he, hleaf⟩, hname⟩
      obtain ⟨result, hresult, -, heq⟩ | ⟨f, hf, -, heq⟩ | ⟨f, hf, heq⟩ :=
        evaluate_cases lookup label op first more <;> rw [heq] at h
      · exact absurd h (hresult name)
      · rcases Result.bind_eq_error.1 h with h | ⟨x, -, h⟩
        · exact hterm first List.mem_cons_self h
        · exact absurd h (hf x name)
      · rcases Result.bind_eq_error.1 h with h | ⟨xs, -, h⟩
        · obtain ⟨e, he, h⟩ := Result.exists_error_of_mapM h
          exact hterm e he h
        · exact absurd h (hf xs name)

/-- A formula that has a value has one at each leaf. -/
theorem exists_leafValue_of_evaluate (hshaped : e.Shaped) (h : evaluate lookup e = .ok x)
    (hname : name ∈ e.leafNames) : ∃ y, leafValue lookup name = .ok y := by
  induction e generalizing x with
  | node label op terms ih =>
    cases terms with
    | nil =>
      rw [evaluate] at h
      cases List.mem_singleton.1 hname
      exact ⟨x, h⟩
    | cons first more =>
      obtain ⟨e, he, hname⟩ := Expr.mem_leafNamesOf.1 (show name ∈ Expr.leafNamesOf (first :: more)
        from hname)
      suffices ∃ y, evaluate lookup e = .ok y by
        obtain ⟨y, hy⟩ := this
        exact ih e he (hshaped.of_mem he) hy hname
      obtain ⟨result, -, hresult, heq⟩ | ⟨f, -, hone, heq⟩ | ⟨f, -, heq⟩ :=
        evaluate_cases lookup label op first more <;> rw [heq] at h
      · exact absurd h (hresult x)
      · obtain ⟨y, hy, -⟩ := Result.bind_eq_ok.1 h
        have hmore : more = [] := hone.elim (fun h => (h ▸ hshaped).more_eq_nil) id
        subst hmore
        exact ⟨y, List.mem_singleton.1 he ▸ hy⟩
      · obtain ⟨ys, hys, -⟩ := Result.bind_eq_ok.1 h
        exact Result.exists_of_mapM hys he

end Formula

/-! ## Ties -/

theorem Tie.ofText_of_create {owner parameter formula : Text} {isParameter : Text → Bool}
    {tie : Tie} (h : Tie.create owner isParameter parameter formula = .ok tie) :
    Expr.ofText formula = .ok tie.formula := by
  obtain ⟨-, hparameter, -⟩ := Tie.variableNames_of_create h
  unfold Tie.create at h
  rw [if_pos hparameter] at h
  cases htree : Expr.ofText formula with
  | error error =>
    rw [htree] at h
    cases h
  | ok tree =>
    rw [htree] at h
    dsimp only at h
    split at h
    · cases h
    · split at h
      · cases h
      · cases h
        rfl

theorem Tie.value_eq_ok_iff {lookup : Text → Option Float} {tie : Tie} {x : Float} :
    tie.value lookup = .ok x ↔ Formula.evaluate lookup tie.formula = .ok x := by
  rw [value]
  cases Formula.evaluate lookup tie.formula <;> simp [Except.mapError]

theorem Tie.value_eq_error_iff {lookup : Text → Option Float} {tie : Tie} {fault : EvalFault} :
    tie.value lookup = .error (.tieEvaluation tie.parameter tie.formulaText fault) ↔
      Formula.evaluate lookup tie.formula = .error fault := by
  rw [value]
  cases Formula.evaluate lookup tie.formula <;> simp [Except.mapError]

namespace Model

variable {m m' : Model} {parameter formula : Text} {tie : Tie}

/-- A tie that was made fails on a name only at a leaf that is looked up without being an
identifier, as long as its owner keeps its parameters; and with such a leaf it has no value. -/
theorem stray_of_create (hcreate : Tie.create m.name m.hasParameter parameter formula = .ok tie)
    (hoffers : m.Offers m') :
    (∀ name, tie.value (m'.parameter? ·) =
        .error (.tieEvaluation tie.parameter tie.formulaText (.unknownName name)) →
      name ∈ tie.formula.leafNames ∧ Formula.IsStray name) ∧
    (∀ name ∈ tie.formula.leafNames, Formula.IsStray name → m'.hasParameter name = false →
      ∀ x, tie.value (m'.parameter? ·) ≠ .ok x) := by
  obtain ⟨-, -, hnames⟩ := Tie.variableNames_of_create hcreate
  refine ⟨fun name hfails => ?_, fun name hleaf hstray hhas x hvalue => ?_⟩
  · obtain ⟨hleaf, hname, hlookup⟩ := Formula.leaf_of_evaluate (Tie.value_eq_error_iff.1 hfails)
    refine ⟨hleaf, hname, Bool.eq_false_iff.2 fun hid => ?_⟩
    have hhas := hoffers name (hnames name (Expr.mem_variableNames_iff.2 ⟨hleaf, hid⟩)).2
    rw [hasParameter_eq, hlookup] at hhas
    cases hhas
  · have hshaped := (Expr.shaped_of_parseLevel (Tie.ofText_of_create hcreate)).1
    obtain ⟨y, hy⟩ := Formula.exists_leafValue_of_evaluate hshaped (Tie.value_eq_ok_iff.1 hvalue) hleaf
    rw [hasParameter_eq, Option.isSome_eq_false_iff, Option.isNone_iff_eq_none] at hhas
    rw [Formula.leafValue_of_isName hstray.1, hhas] at hy
    cases hy

/-- Where all leaves of the formula are names of parameters and numbers, the tie never fails on a
name, whatever the values. -/
theorem stray_of_create_notANumber : ∃ tie m',
    Tie.create (ofShape .gaussian).name (ofShape .gaussian).hasParameter "Height".toList
        "max(PeakCentre,-2)*Sigma/0".toList = .ok tie ∧
      (ofShape .gaussian).setParameter "Sigma".toList Literal.notANumber = .ok m' ∧
      (ofShape .gaussian).Offers m' ∧ (∀ name ∈ tie.formula.leafNames, ¬ Formula.IsStray name) ∧
      ∀ name, tie.value (m'.parameter? ·) ≠
        .error (.tieEvaluation tie.parameter tie.formulaText (.unknownName name)) := by
  have hcheck : (Tie.create (ofShape .gaussian).name (ofShape .gaussian).hasParameter
      "Height".toList "max(PeakCentre,-2)*Sigma/0".toList).toOption.any (fun tie =>
        ∀ name ∈ tie.formula.leafNames, ¬ Formula.IsStray name) = true := by decide +kernel
  have hset : ((ofShape .gaussian).setParameter "Sigma".toList
      Literal.notANumber).toOption.any (fun _ => true) = true := by decide +kernel
  obtain ⟨tie, htie, hcheck⟩ := Result.exists_of_any hcheck
  obtain ⟨m', hm', -⟩ := Result.exists_of_any hset
  have hoffers : (ofShape .gaussian).Offers m' := fun name hname => by
    rwa [hasParameter_setAt? (Reader.setAt?_of_setParameter hm')]
  have hstray := of_decide_eq_true hcheck
  refine ⟨tie, m', htie, hm', hoffers, hstray, fun name hfails => ?_⟩
  obtain ⟨hleaf, hname⟩ := (stray_of_create htie hoffers).1 name hfails
  exact hstray name hleaf hname

/-- The check lets `$x` pass, which is no identifier, and evaluation looks it up. -/
theorem exists_unknown_name : ∃ tie,
    Tie.create (ofShape .gaussian).name (ofShape .gaussian).hasParameter "Height".toList
        "$x".toList = .ok tie ∧
      tie.value ((ofShape .gaussian).parameter? ·) =
        .error (.tieEvaluation "Height".toList "$x".toList (.unknownName "$x".toList)) := by
  have hcheck : (Tie.create (ofShape .gaussian).name (ofShape .gaussian).hasParameter
      "Height".toList "$x".toList).toOption.any (fun tie =>
        match tie.value ((ofShape .gaussian).parameter? ·) with
        | .error (.tieEvaluation parameter formula (.unknownName name)) =>
          parameter = "Height".toList ∧ formula = "$x".toList ∧ name = "$x".toList
        | _ => false) = true := by decide +kernel
  obtain ⟨tie, htie, hcheck⟩ := Result.exists_of_any hcheck
  refine ⟨tie, htie, ?_⟩
  split at hcheck
  · rename_i parameter formula name heq
    rw [heq]
    obtain ⟨rfl, rfl, rfl⟩ := of_decide_eq_true hcheck
    rfl
  · cases hcheck

end Model
end Lineshape
