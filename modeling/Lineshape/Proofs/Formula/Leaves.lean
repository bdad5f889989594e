import Lineshape.Formula.Value
import Lineshape.Proofs.Result

/-! # Leaves of formulas

The value of a formula depends on what its leaves stand for and on nothing else
(`Formula.evaluate_congr`). Several formulas are evaluated one after the other
(`Formula.evaluateAll_eq_mapM`). -/

namespace Lineshape
set_option autoImplicit false

namespace Expr

mutual
/-- The names of the leaves. -/
def leafNames : Expr → List Text
  | ⟨name, _, []⟩ => [name]
  | ⟨_, _, first :: more⟩ => first.leafNames ++ leafNamesOf more
/-- The names of the leaves of several trees. -/
def leafNamesOf : List Expr → List Text
  | [] => []
  | e :: more => e.leafNames ++ leafNamesOf more
end

theorem mem_leafNamesOf {name : Text} {terms : List Expr} :
    name ∈ leafNamesOf terms ↔ ∃ e ∈ terms, name ∈ e.leafNames := by
  induction terms with
  | nil => simp [leafNamesOf]
  | cons e terms ih =>
    simp only [leafNamesOf, List.mem_append, ih, List.mem_cons, exists_eq_or_imp]

end Expr

namespace Formula

variable {lookup lookup' : Text → Option Float}

theorem evaluateAll_eq_mapM (lookup : Text → Option Float) (terms : List Expr) :
    evaluateAll lookup terms = terms.mapM (evaluate lookup) := by
  induction terms with
  | nil => rfl
  | cons e terms ih =>
    rw [evaluateAll, List.mapM_cons, ih]
    rfl

/-- The value of a node with terms, which are evaluated one after the other. -/
theorem evaluate_cons (lookup : Text → Option Float) (name op : Text) (first : Expr)
    (more : List Expr) :
    evaluate lookup ⟨name, op, first :: more⟩ =
      if Expr.isPrefixed .standard ⟨name, op, first :: more⟩ then
        evaluate lookup first >>= signed name
      else if Expr.isChain .standard ⟨name, op, first :: more⟩ then
        (first :: more).mapM (evaluate lookup) >>= fun xs =>
          chainValue name (((first :: more).map (·.op)).zip xs)
      else if name = [] then evaluate lookup first
      else
        match Elementary.named? name with
        | none => .error (.unknownFunction name)
        | some f =>
          if (first :: more).length ≠ f.arity then .error (.wrongArity f (first :: more).length)
          else
            (first :: more).mapM (evaluate lookup) >>= fun xs =>
              (f.apply xs).elim (.error (.undefinedFor f xs)) .ok := by
  have hbind {β : Type} (k : List Float → Except EvalFault β) :
      (evaluate lookup first >>= fun x => evaluateAll lookup more >>= fun xs => k (x :: xs)) =
        (first :: more).mapM (evaluate lookup) >>= k := by
    rw [List.mapM_cons, evaluateAll_eq_mapM]
    cases evaluate lookup first with
    | error fault => rfl
    | ok x => cases more.mapM (evaluate lookup) <;> rfl
  have hzip (x : Float) (xs : List Float) :
      (first.op, x) :: more.zipWith (fun term y => (term.op, y)) xs =
        ((first :: more).map (·.op)).zip (x :: xs) := by
    rw [List.map_cons, List.zip_cons_cons, List.zip, List.zipWith_map_left]
  rw [evaluate]
  simp only [hzip]
  rw [hbind fun xs => chainValue name (((first :: more).map (·.op)).zip xs)]
  split
  · rfl
  · split
    · rfl
    · split
      · rfl
      · cases Elementary.named? name with
        | none => rfl
        | some f =>
          exact if_congr Iff.rfl rfl
            (hbind fun xs => (f.apply xs).elim (.error (.undefinedFor f xs)) .ok)

theorem evaluateAll_congr {terms : List Expr}
    (h : ∀ e ∈ terms, evaluate lookup e = evaluate lookup' e) :
    evaluateAll lookup terms = evaluateAll lookup' terms := by
  induction terms with
  | nil => rfl
  | cons e terms ih =>
    rw [evaluateAll, evaluateAll, h e List.mem_cons_self,
      ih fun e' he' => h e' (List.mem_cons_of_mem e he')]

theorem evaluate_congr {e : Expr} (h : ∀ name ∈ e.leafNames, lookup name = lookup' name) :
    evaluate lookup e = evaluate lookup' e := by
  induction e with
  | node name op terms ih =>
    cases terms with
    | nil =>
      rw [evaluate, evaluate, leafValue, leafValue, h name (List.mem_singleton_self name)]
    | cons first more =>
      rw [Expr.leafNames] at h
      have hfirst : evaluate lookup first = evaluate lookup' first :=
        ih first List.mem_cons_self fun n hn => h n (List.mem_append_left _ hn)
      have hmore : evaluateAll lookup more = evaluateAll lookup' more := by
        refine evaluateAll_congr fun e he => ?_
        refine ih e (List.mem_cons_of_mem first he) fun n hn => ?_
        exact h n (List.mem_append_right _ (Expr.mem_leafNamesOf.2 ⟨e, he, hn⟩))
      rw [evaluate, evaluate, hfirst, hmore]

end Formula
end Lineshape
