import Lineshape.Proofs.Expr.Level

/-! # The limit on nesting

A limit only cuts: under a lower limit a text is read as under a higher one, mistakes included, or
the reading stops at the limit (`Expr.cuts_parseLevel`). No tree that is read is higher than the
limit (`Expr.height_lt_of_parseLevel`). -/

namespace Lineshape.Expr
set_option autoImplicit false

/-! ## The height of a tree -/

mutual
/-- The number of edges on the longest path from the root of a tree to a leaf. -/
def height : Expr → Nat
  | ⟨_, _, terms⟩ => heightOf terms
/-- The height of a node with the given terms. -/
def heightOf : List Expr → Nat
  | [] => 0
  | term :: more => max (term.height + 1) (heightOf more)
end

@[simp] theorem height_mk (name op : Text) (terms : List Expr) :
    height ⟨name, op, terms⟩ = heightOf terms := by rw [height]

@[simp] theorem heightOf_terms (e : Expr) : heightOf e.terms = e.height := by
  cases e
  rw [height_mk]

theorem heightOf_le_iff {terms : List Expr} {n : Nat} :
    heightOf terms ≤ n ↔ ∀ e ∈ terms, e.height < n := by
  induction terms with
  | nil => simp [heightOf]
  | cons e terms ih => rw [heightOf, Nat.max_le, ih, List.forall_mem_cons, Nat.succ_le_iff]

/-- A call is at most one level above its brackets: a list in them gives its terms away. -/
theorem height_callNode_le (head op : Text) (e : Expr) :
    (callNode head op e).height ≤ e.height + 1 := by
  rw [callNode]
  split
  · split
    · rw [height_mk, heightOf_terms]
      exact Nat.le_succ _
    · rw [height_mk, heightOf_terms]
      exact Nat.le_succ _
  · rw [height_mk, heightOf_le_iff, List.forall_mem_singleton]
    exact Nat.lt_succ_self _

variable {t : OperatorTable} {n n' : Nat} {op s : Text} {e : Expr}

/-- Every level of a tree takes a level of the limit. -/
theorem height_lt_of_parseLevel (h : parseLevel t n op s = .ok e) : e.height < n := by
  induction n generalizing op s e with
  | zero => cases h
  | succ n ih =>
    obtain ⟨lexemes, -, hlevel⟩ := parseLevel_iff.1 h
    rw [Nat.lt_succ_iff]
    cases hlevel with
    | leaf => exact Nat.zero_le n
    | prefixed _ _ hinner =>
      rw [height_mk, heightOf_le_iff, List.forall_mem_singleton]
      exact ih hinner
    | call _ _ hinner => exact Nat.le_trans (height_callNode_le _ op _) (ih hinner)
    | chain _ _ hfirst hmore =>
      rw [height_mk, heightOf_le_iff, List.forall_mem_cons]
      refine ⟨ih hfirst, fun e he => ?_⟩
      obtain ⟨p, -, hp⟩ := Result.exists_of_forall₂ hmore he
      exact ih hp

/-! ## Runs that are cut -/

/-- The first result is the second one, or the limit was hit on the way to it. -/
def Cuts {α : Type} (x y : Except ParseError α) : Prop :=
  x = y ∨ ∃ s, x = .error ⟨.nestedTooDeep, s, 0⟩

namespace Cuts

variable {α β : Type} {x y : Except ParseError α}

theorem refl (x : Except ParseError α) : Cuts x x := .inl rfl

theorem bind {f g : α → Except ParseError β} (h : Cuts x y) (hf : ∀ a, Cuts (f a) (g a)) :
    Cuts (x >>= f) (y >>= g) := by
  rcases h with rfl | ⟨s, rfl⟩
  · cases x with
    | error e => exact .refl _
    | ok a => exact hf a
  · exact .inr ⟨s, rfl⟩

/-- A list is read from the left, so the mistake that is found first is the same one. -/
theorem mapM {f g : α → Except ParseError β} (hf : ∀ a, Cuts (f a) (g a)) (as : List α) :
    Cuts (as.mapM f) (as.mapM g) := by
  induction as with
  | nil => exact .refl _
  | cons a as ih =>
    rw [List.mapM_cons, List.mapM_cons]
    exact (hf a).bind fun _ => ih.bind fun _ => .refl _

end Cuts

/-- The levels that are allowed decide nothing but where the reading stops. -/
theorem cuts_parseLevel (h : n ≤ n') (op s : Text) :
    Cuts (parseLevel t n op s) (parseLevel t n' op s) := by
  induction n generalizing n' op s with
  | zero => exact .inr ⟨s, rfl⟩
  | succ n ih =>
    obtain ⟨n', rfl⟩ := Nat.exists_eq_add_of_le' h
    have hle : n ≤ n' + n := Nat.le_add_left n n'
    rw [parseLevel, ← Nat.add_assoc, parseLevel]
    refine (Cuts.refl _).bind fun lexemes => ?_
    split
    · split
      · exact .refl _
      · refine (ih hle _ _).bind fun _ => Cuts.bind ?_ fun _ => .refl _
        exact Cuts.mapM (fun p : Text × Text => ih hle p.1 p.2) _
    · refine (Cuts.refl _).bind fun term => ?_
      cases term with
      | leaf name => exact .refl _
      | prefixed sign operand => exact (ih hle _ _).bind fun _ => .refl _
      | call head arguments => exact (ih hle _ _).bind fun _ => .refl _

/-- A limit only cuts. Under the lower of two limits a text has the same tree or the same mistake as
under the higher one, or the parser stops at the limit; and the tree is no higher than the limit. -/
theorem parse_of_limit (t : OperatorTable) {d d' : Nat} (h : d ≤ d') (s : Text) :
    (parse t d s = parse t d' s ∨ ∃ part, parse t d s = .error ⟨.nestedTooDeep, part, 0⟩) ∧
      ∀ e, parse t d s = .ok e → e.height ≤ d :=
  ⟨cuts_parseLevel (Nat.succ_le_succ h) [] s,
    fun _ he => Nat.lt_succ_iff.1 (height_lt_of_parseLevel he)⟩

/-- A call within a call takes three levels, the tree of which is two edges high. -/
theorem parse_of_limit_calls :
    1 ≤ 2 ∧
      (parse .standard 1 "f(g(x))".toList = parse .standard 2 "f(g(x))".toList ∨
        ∃ part, parse .standard 1 "f(g(x))".toList = .error ⟨.nestedTooDeep, part, 0⟩) ∧
      ∀ e, parse .standard 1 "f(g(x))".toList = .ok e → e.height ≤ 1 :=
  ⟨by decide, parse_of_limit .standard (by decide) "f(g(x))".toList⟩

example : parse .standard 1 "f(g(x))".toList = .error ⟨.nestedTooDeep, "x".toList, 0⟩ ∧
    (parse .standard 2 "f(g(x))".toList).map height = .ok 2 := by decide +kernel

end Lineshape.Expr
