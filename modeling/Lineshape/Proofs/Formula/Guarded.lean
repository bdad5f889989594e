import Lineshape.Proofs.Expr.Formed
import Lineshape.Proofs.Formula.Leaves

/-! # Guarded evaluation

`Formula.guarded` evaluates a formula like `Formula.evaluate`, but it takes terms and arguments by
their positions, and it folds a power from its last operand on. Where there is nothing to take, it
ends with a `Stop` of its own.

No guard is ever reached, whatever the tree (`Formula.guarded_eq`). A tree that was parsed does not
reach the faults that evaluation has in store for operators in a wrong place either, however its
leaves are renamed (`Formula.guarded_of_parse`): the operators of a chain belong to one group. -/

namespace Lineshape
set_option autoImplicit false

/-! ## Evaluation with guards -/

namespace Formula

/-- Why a guarded evaluation ends without a value. -/
inductive Stop where
  /-- The formula has no value. -/
  | fault (fault : EvalFault)
  /-- A node has no term at this position. -/
  | noTerm (i : Nat)
  /-- A call has no argument at this position. -/
  | noArgument (i : Nat)
  /-- A power has no operands. -/
  | emptyPower

/-- The outcome of the term at a position. -/
def termAt (outcomes : List (Except Stop Float)) (i : Nat) : Except Stop Float :=
  outcomes[i]?.getD (.error (.noTerm i))

/-- The argument at a position. -/
def argumentAt (xs : List Float) (i : Nat) : Except Stop Float :=
  xs[i]?.elim (.error (.noArgument i)) .ok

/-- The value of a function at the arguments it looks at. -/
def callAt (f : Elementary) (xs : List Float) : Except Stop (Option Float) :=
  match f with
  | .min | .max => do
    let x ← argumentAt xs 0
    let y ← argumentAt xs 1
    .ok (f.apply [x, y])
  | _ => do
    let x ← argumentAt xs 0
    .ok (f.apply [x])

/-- The power of several operands, from the last one on. -/
def powerAt (xs : List Float) : Except Stop Float :=
  match xs.reverse with
  | [] => .error .emptyPower
  | last :: before => .ok (before.foldl (fun exponent base => base.pow exponent) last)

/-- The value of a chain with this label. -/
def chainAt (label : Text) (values : List (Text × Float)) : Except Stop Float :=
  if label = "^".toList then powerAt (values.map (·.2))
  else (chainValue label values).mapError .fault

/-- The value of a node, from the outcomes of its terms. -/
def guardedNode (lookup : Text → Option Float) (e : Expr) (outcomes : List (Except Stop Float)) :
    Except Stop Float :=
  if e.isLeaf then (leafValue lookup e.name).mapError .fault
  else if e.isPrefixed .standard then do
    let x ← termAt outcomes 0
    (signed e.name x).mapError .fault
  else if e.isChain .standard then do
    let xs ← outcomes.mapM id
    chainAt e.name ((e.terms.map (·.op)).zip xs)
  else if e.name = [] then termAt outcomes 0
  else
    match Elementary.named? e.name with
    | none => .error (.fault (.unknownFunction e.name))
    | some f =>
      if e.terms.length ≠ f.arity then .error (.fault (.wrongArity f e.terms.length))
      else do
        let xs ← outcomes.mapM id
        let value ← callAt f xs
        value.elim (.error (.fault (.undefinedFor f xs))) .ok

mutual
/-- The value of a formula, evaluated with guards. -/
def guarded (lookup : Text → Option Float) : Expr → Except Stop Float
  | ⟨name, op, terms⟩ => guardedNode lookup ⟨name, op, terms⟩ (guardedAll lookup terms)
/-- The outcomes of several formulas. -/
def guardedAll (lookup : Text → Option Float) : List Expr → List (Except Stop Float)
  | [] => []
  | e :: more => guarded lookup e :: guardedAll lookup more
end

/-! ## No guard is reached -/

theorem guardedAll_eq_map (lookup : Text → Option Float) (terms : List Expr) :
    guardedAll lookup terms = terms.map (guarded lookup) := by
  induction terms with
  | nil => rfl
  | cons e terms ih => rw [guardedAll, List.map_cons, ih]

/-- A function looks at as many arguments as it has. -/
theorem callAt_eq {f : Elementary} {xs : List Float} (h : xs.length = f.arity) :
    callAt f xs = .ok (f.apply xs) := by
  cases f with
  | min | max =>
    obtain ⟨x, y, rfl⟩ := List.length_eq_two.1 h
    rfl
  | sin | cos | tan | exp | log | sqrt | abs =>
    obtain ⟨x, rfl⟩ := List.length_eq_one_iff.1 h
    rfl

theorem callAt_bind {f : Elementary} {xs : List Float} (h : xs.length = f.arity) :
    (do
      let value ← callAt f xs
      value.elim (.error (.fault (.undefinedFor f xs))) .ok) =
      ((f.apply xs).elim (.error (.undefinedFor f xs)) Except.ok).mapError Stop.fault := by
  rw [callAt_eq h]
  cases f.apply xs <;> rfl

theorem powerAt_eq (base : Float) (more : List Float) :
    powerAt (base :: more) = .ok (power base more) := by
  induction more generalizing base with
  | nil => rfl
  | cons x more ih =>
    have h := ih x
    rw [powerAt] at h ⊢
    obtain ⟨last, before, hlast⟩ : ∃ last before, (x :: more).reverse = last :: before :=
      List.exists_cons_of_ne_nil (by simp)
    rw [hlast] at h
    rw [List.reverse_cons, hlast, List.cons_append]
    simp only [Except.ok.injEq] at h ⊢
    rw [List.foldl_append, h, List.foldl_cons, List.foldl_nil, power]

theorem chainAt_eq {label : Text} {values : List (Text × Float)} (h : values ≠ []) :
    chainAt label values = (chainValue label values).mapError .fault := by
  by_cases hlabel : label = "^".toList
  · obtain ⟨⟨op, base⟩, more, rfl⟩ := List.exists_cons_of_ne_nil h
    subst hlabel
    exact powerAt_eq base (more.map (·.2))
  · exact if_neg hlabel

/-- No guard is ever reached: guarded evaluation has the same outcome for all trees. -/
theorem guarded_eq (lookup : Text → Option Float) (e : Expr) :
    guarded lookup e = (evaluate lookup e).mapError .fault := by
  induction e with
  | node name op terms ih =>
    rw [guarded, guardedAll_eq_map, List.map_congr_left ih, guardedNode]
    cases terms with
    | nil =>
      rw [evaluate]
      rfl
    | cons first more =>
      have hleaf : ¬ Expr.isLeaf ⟨name, op, first :: more⟩ = true := by simp [Expr.isLeaf]
      rw [if_neg hleaf, evaluate_cons, Result.mapM_mapError]
      split
      · exact (Result.mapError_bind _ _ _).symm
      · split
        · rw [Result.mapError_bind]
          cases hxs : (first :: more).mapM (evaluate lookup) with
          | error fault => rfl
          | ok xs =>
            refine chainAt_eq ?_
            obtain ⟨x, xs, -, -, rfl⟩ := List.forall₂_cons_left_iff.1 (Result.mapM_eq_ok.1 hxs)
            exact List.cons_ne_nil _ _
        · split
          · rfl
          · cases Elementary.named? name with
            | none => rfl
            | some f =>
              dsimp only
              split
              · rfl
              · rename_i harity
                rw [Result.mapError_bind]
                cases hxs : (first :: more).mapM (evaluate lookup) with
                | error fault => rfl
                | ok xs =>
                  refine callAt_bind ?_
                  rw [← (Result.mapM_eq_ok.1 hxs).length_eq]
                  exact not_not.1 harity

end Formula

/-! ## Operators in their places -/

namespace EvalFault

/-- Whether a fault blames an operator that the parser never puts into its place. -/
def IsDefensive : EvalFault → Prop
  | .unaryOperator _ | .unexpectedInSum _ | .unexpectedInProduct _ => True
  | _ => False

end EvalFault

namespace Formula

theorem exists_signed {op : Text} (h : OperatorTable.standard.isUnary op = true) (x : Float) :
    ∃ y, signed op x = .ok y := by
  rcases OperatorTable.isUnary_iff.1 h with rfl | rfl
  · exact ⟨x, rfl⟩
  · exact ⟨-x, rfl⟩

theorem exists_sumFrom (total : Float) {values : List (Text × Float)}
    (h : ∀ p ∈ values, p.1 ∈ [[], ['+'], ['-']]) : ∃ x, sumFrom total values = .ok x := by
  induction values generalizing total with
  | nil => exact ⟨total, rfl⟩
  | cons p values ih =>
    obtain ⟨op, x⟩ := p
    have hmore := fun total => ih total fun p hp => h p (List.mem_cons_of_mem _ hp)
    have hop : op ∈ [[], ['+'], ['-']] := h (op, x) List.mem_cons_self
    simp only [List.mem_cons, List.not_mem_nil, or_false] at hop
    rcases hop with rfl | rfl | rfl <;> exact hmore _

theorem exists_productFrom (total : Float) {values : List (Text × Float)}
    (h : ∀ p ∈ values, p.1 ∈ [[], ['*'], ['/']]) : ∃ x, productFrom total values = .ok x := by
  induction values generalizing total with
  | nil => exact ⟨total, rfl⟩
  | cons p values ih =>
    obtain ⟨op, x⟩ := p
    have hmore := fun total => ih total fun p hp => h p (List.mem_cons_of_mem _ hp)
    have hop : op ∈ [[], ['*'], ['/']] := h (op, x) List.mem_cons_self
    simp only [List.mem_cons, List.not_mem_nil, or_false] at hop
    rcases hop with rfl | rfl | rfl <;> exact hmore _

/-- Whether a term with this operator can stand in a chain with this label: as its first one, or behind
an operator of the same group. -/
def BelongsTo (label op : Text) : Prop :=
  op = [] ∨ (OperatorTable.standard.isBinary op = true ∧
    OperatorTable.standard.precedence op = OperatorTable.standard.precedence label)

/-- The operators of the groups of sums and products. -/
theorem operators_of_group : ∀ op ∈ OperatorTable.binaries,
    (OperatorTable.standard.precedence op = OperatorTable.standard.precedence "+".toList →
      op ∈ [[], ['+'], ['-']]) ∧
    (OperatorTable.standard.precedence op = OperatorTable.standard.precedence "*".toList →
      op ∈ [[], ['*'], ['/']]) := by decide

theorem BelongsTo.sum {op : Text} (h : BelongsTo "+".toList op) : op ∈ [[], ['+'], ['-']] := by
  rcases h with rfl | ⟨hbinary, hgroup⟩
  · exact List.mem_cons_self
  · exact (operators_of_group op (OperatorTable.isBinary_iff.1 hbinary)).1 hgroup

theorem BelongsTo.product {op : Text} (h : BelongsTo "*".toList op) : op ∈ [[], ['*'], ['/']] := by
  rcases h with rfl | ⟨hbinary, hgroup⟩
  · exact List.mem_cons_self
  · exact (operators_of_group op (OperatorTable.isBinary_iff.1 hbinary)).2 hgroup

/-- A chain whose operators belong to the group of its label does not fail on an operator. -/
theorem not_isDefensive_of_chainValue {label : Text} {values : List (Text × Float)}
    {fault : EvalFault} (hops : ∀ p ∈ values, BelongsTo label p.1)
    (h : chainValue label values = .error fault) : ¬ fault.IsDefensive := by
  rw [chainValue.eq_def] at h
  split at h
  · rename_i hlabel
    subst hlabel
    obtain ⟨x, hx⟩ := exists_sumFrom 0 fun p hp => (hops p hp).sum
    rw [hx] at h
    cases h
  · split at h
    · rename_i hlabel
      subst hlabel
      obtain ⟨x, hx⟩ := exists_productFrom 1 fun p hp => (hops p hp).product
      rw [hx] at h
      cases h
    · split at h
      · split at h <;> cases h
      · cases h
        exact id

variable {lookup : Text → Option Float}

theorem not_isDefensive_of_leafValue {name : Text} {fault : EvalFault}
    (h : leafValue lookup name = .error fault) : ¬ fault.IsDefensive := by
  rw [leafValue] at h
  split at h
  · cases h
    exact id
  · split at h
    · cases hread : Number.read? name <;> rw [hread] at h <;> cases h
      exact id
    · cases hlookup : lookup name <;> rw [hlookup] at h <;> cases h
      exact id

/-- What a node with terms can fail on: a term, its sign, its chain or its call. -/
theorem fault_of_evaluate {name op : Text} {first : Expr} {more : List Expr} {fault : EvalFault}
    (h : evaluate lookup ⟨name, op, first :: more⟩ = .error fault) :
    (∃ e ∈ first :: more, evaluate lookup e = .error fault) ∨
      (∃ x, OperatorTable.standard.isUnary name = true ∧ signed name x = .error fault) ∨
      (∃ xs, OperatorTable.standard.isBinary name = true ∧
        chainValue name (((first :: more).map (·.op)).zip xs) = .error fault) ∨
      ¬ fault.IsDefensive := by
  rw [evaluate_cons] at h
  split at h
  · rename_i hprefixed
    rcases Result.bind_eq_error.1 h with h | ⟨x, -, h⟩
    · exact .inl ⟨first, List.mem_cons_self, h⟩
    · exact .inr (.inl ⟨x, (Bool.and_eq_true _ _ ▸ hprefixed).2, h⟩)
  · split at h
    · rename_i hchain
      rcases Result.bind_eq_error.1 h with h | ⟨xs, -, h⟩
      · exact .inl (Result.exists_error_of_mapM h)
      · exact .inr (.inr (.inl ⟨xs, (Bool.and_eq_true _ _ ▸ hchain).2, h⟩))
    · split at h
      · exact .inl ⟨first, List.mem_cons_self, h⟩
      · split at h
        · cases h
          exact .inr (.inr (.inr id))
        · rename_i f _
          split at h
          · cases h
            exact .inr (.inr (.inr id))
          · rcases Result.bind_eq_error.1 h with h | ⟨xs, -, h⟩
            · exact .inl (Result.exists_error_of_mapM h)
            · cases hvalue : f.apply xs <;> rw [hvalue] at h <;> cases h
              exact .inr (.inr (.inr id))

/-- The operators of a formed chain belong to the group of its label. -/
theorem operators_of_formed {name op : Text} {terms : List Expr}
    (h : Expr.Formed .standard ⟨name, op, terms⟩)
    (hname : OperatorTable.standard.isBinary name = true) : ∀ e ∈ terms, BelongsTo name e.op := by
  cases h with
  | leaf => exact nofun
  | group _ ho | prefixed _ _ ho => exact fun e he => .inl (List.mem_singleton.1 he ▸ ho)
  | call hhead =>
    rw [hhead.not_operator.2] at hname
    cases hname
  | chain _ _ ho _ hops =>
    intro e he
    rcases List.mem_cons.1 he with rfl | he
    · exact .inl ho
    · exact .inr (hops e he)

/-- The value of a formed tree never fails on an operator. -/
theorem not_isDefensive_of_evaluate {e : Expr} {fault : EvalFault} (hformed : e.Formed .standard)
    (h : evaluate lookup e = .error fault) : ¬ fault.IsDefensive := by
  induction e with
  | node name op terms ih =>
    cases terms with
    | nil =>
      rw [evaluate] at h
      exact not_isDefensive_of_leafValue h
    | cons first more =>
      rcases fault_of_evaluate h with ⟨e, he, h⟩ | ⟨x, hunary, h⟩ | ⟨xs, hbinary, h⟩ | h
      · exact ih e he (hformed.of_mem he).1 h
      · obtain ⟨y, hy⟩ := exists_signed hunary x
        rw [hy] at h
        cases h
      · refine not_isDefensive_of_chainValue (fun p hp => ?_) h
        obtain ⟨e, he, hop⟩ := List.mem_map.1 (List.of_mem_zip hp).1
        rw [← hop]
        exact operators_of_formed hformed hbinary e he
      · exact h

end Formula

/-! ## Renamed leaves -/

namespace Expr

theorem renameAll_cons (old new name op : Text) (first : Expr) (more : List Expr) :
    renameAll old new ⟨name, op, first :: more⟩ =
      ⟨name, op, (first :: more).map (renameAll old new)⟩ := by
  rw [renameAll, renameAllOf_eq_map, List.map_cons]

@[simp] theorem renameAll_op (old new : Text) (e : Expr) : (e.renameAll old new).op = e.op := by
  obtain ⟨name, op, terms⟩ := e
  cases terms <;> rw [renameAll]

theorem Formed.renameAll {t : OperatorTable} {e : Expr} (h : Formed t e) (old new : Text) :
    Formed t (e.renameAll old new) := by
  induction h with
  | leaf name op =>
    rw [Expr.renameAll]
    exact .leaf _ op
  | group _ ho ih =>
    rw [renameAll_cons]
    exact .group ih (by simpa using ho)
  | prefixed hsign _ ho ih =>
    rw [renameAll_cons]
    exact .prefixed hsign ih (by simpa using ho)
  | @call head op terms hhead hne _ hops ih =>
    obtain ⟨first, more, rfl⟩ := List.exists_cons_of_ne_nil hne
    rw [renameAll_cons]
    refine .call hhead (by simp) (fun e' he' => ?_) fun e' he' => ?_
    all_goals obtain ⟨e, he, rfl⟩ := List.mem_map.1 he'
    · exact ih e he
    · simpa using hops e he
  | chain hlabel _ ho _ hops hne ihfirst ihmore =>
    rw [renameAll_cons, List.map_cons]
    refine .chain hlabel ihfirst (by simpa using ho) (fun e' he' => ?_) (fun e' he' => ?_)
      (by simpa using hne)
    all_goals obtain ⟨e, he, rfl⟩ := List.mem_map.1 he'
    · exact ihmore e he
    · simpa using hops e he

/-- The tree with its leaves renamed several times. -/
def renamed (renamings : List (Text × Text)) (e : Expr) : Expr :=
  renamings.foldl (fun e p => e.renameAll p.1 p.2) e

theorem Formed.renamed {t : OperatorTable} {e : Expr} (h : Formed t e)
    (renamings : List (Text × Text)) : Formed t (e.renamed renamings) := by
  induction renamings generalizing e with
  | nil => exact h
  | cons p renamings ih => exact ih (h.renameAll p.1 p.2)

end Expr

namespace Formula

/-- A parsed formula never reaches a guard, nor fails on an operator, however its leaves are renamed
and whatever their values are. -/
theorem guarded_of_parse {depth : Nat} {s : Text} {e : Expr}
    (h : Expr.parse .standard depth s = .ok e) (renamings : List (Text × Text))
    (lookup : Text → Option Float) :
    guarded lookup (e.renamed renamings) =
        (evaluate lookup (e.renamed renamings)).mapError .fault ∧
      ∀ op, evaluate lookup (e.renamed renamings) ≠ .error (.unexpectedInSum op) ∧
        evaluate lookup (e.renamed renamings) ≠ .error (.unexpectedInProduct op) ∧
        evaluate lookup (e.renamed renamings) ≠ .error (.unaryOperator op) := by
  have hregular : OperatorTable.standard.Regular := by decide +kernel
  have hformed := (Expr.formed_of_parseLevel hregular h).1.renamed renamings
  refine ⟨guarded_eq lookup _, fun op => ⟨fun hop => ?_, fun hop => ?_, fun hop => ?_⟩⟩
  all_goals exact not_isDefensive_of_evaluate hformed hop trivial

/-- Calls, lists in brackets, powers, signs and empty brackets, with leaves renamed to what is no
name at all. -/
theorem guarded_of_nested : ∃ e,
    Expr.ofText "max((a,-b))^c^2/sin(())-(+(d))".toList = .ok e ∧
    ∀ lookup, guarded lookup (e.renamed [(['a'], "b+1".toList), (['b'], [])]) =
        (evaluate lookup (e.renamed [(['a'], "b+1".toList), (['b'], [])])).mapError .fault ∧
      ∀ op, evaluate lookup (e.renamed [(['a'], "b+1".toList), (['b'], [])]) ≠
          .error (.unexpectedInSum op) ∧
        evaluate lookup (e.renamed [(['a'], "b+1".toList), (['b'], [])]) ≠
          .error (.unexpectedInProduct op) ∧
        evaluate lookup (e.renamed [(['a'], "b+1".toList), (['b'], [])]) ≠
          .error (.unaryOperator op) := by
  obtain ⟨e, he, -⟩ := Result.exists_of_any (p := fun _ => true)
    (x := Expr.ofText "max((a,-b))^c^2/sin(())-(+(d))".toList) (by decide +kernel)
  exact ⟨e, he, fun lookup => guarded_of_parse he _ lookup⟩

-- Put together by hand, a sum can have an operator of another group.
example : evaluate (fun _ => some 0) ⟨['+'], [], [⟨['a'], [], []⟩, ⟨['a'], ['*'], []⟩]⟩ =
    .error (.unexpectedInSum ['*']) := rfl

end Formula
end Lineshape
