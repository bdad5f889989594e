import Lineshape.Expr.Parser
import Lineshape.Proofs.Text.Trim

/-! # Brackets and quotes

`Nesting.run` counts the open brackets of a text and knows whether a quote is open. A text is
balanced if nothing is open at its end and no bracket closes more than was opened. Balanced texts
can be put behind each other and into brackets; the partner of a bracket is found behind any
balanced text, and brackets around a text with brackets of its own are not taken off. -/

namespace Lineshape
set_option autoImplicit false

/-- The number of open brackets behind a character, and whether a quote is open; none if a bracket
closes more than was opened. -/
def Nesting.step (depth : Nat) (quoted : Bool) (c : Char) : Option (Nat × Bool) :=
  if quoted then some (depth, c != '"')
  else if c = '"' then some (depth, true)
  else if c = '(' then some (depth + 1, false)
  else if c = ')' then
    match depth with
    | 0 => none
    | depth + 1 => some (depth, false)
  else some (depth, false)

/-- The number of open brackets behind a text, and whether a quote is open. -/
def Nesting.run (depth : Nat) (quoted : Bool) : Text → Option (Nat × Bool)
  | [] => some (depth, quoted)
  | c :: s => (step depth quoted c).bind fun p => run p.1 p.2 s

/-- A text whose brackets and quotes fit together. -/
def Balanced (s : Text) : Prop := Nesting.run 0 false s = some (0, false)

instance (s : Text) : Decidable (Balanced s) := inferInstanceAs (Decidable (_ = _))

namespace Nesting

theorem run_cons {depth depth' : Nat} {quoted quoted' : Bool} {c : Char} {s : Text}
    (h : run depth quoted (c :: s) = some (depth', quoted')) :
    ∃ d q, step depth quoted c = some (d, q) ∧ run d q s = some (depth', quoted') := by
  rw [run, Option.bind_eq_some_iff] at h
  obtain ⟨⟨d, q⟩, hstep, hrun⟩ := h
  exact ⟨d, q, hstep, hrun⟩

theorem run_append (depth : Nat) (quoted : Bool) (s t : Text) :
    run depth quoted (s ++ t) = (run depth quoted s).bind fun p => run p.1 p.2 t := by
  induction s generalizing depth quoted with
  | nil => rfl
  | cons c s ih =>
    rw [List.cons_append, run, run, Option.bind_assoc]
    congr 1
    funext p
    exact ih p.1 p.2

/-- What a character does to brackets and quotes. -/
theorem step_cases {depth depth' : Nat} {quoted quoted' : Bool} {c : Char}
    (h : step depth quoted c = some (depth', quoted')) :
    (quoted = true ∧ depth' = depth ∧ quoted' = (c != '"')) ∨
    (quoted = false ∧ c = '"' ∧ depth' = depth ∧ quoted' = true) ∨
    (quoted = false ∧ c = '(' ∧ depth' = depth + 1 ∧ quoted' = false) ∨
    (quoted = false ∧ c = ')' ∧ depth = depth' + 1 ∧ quoted' = false) ∨
    (quoted = false ∧ c ≠ '"' ∧ c ≠ '(' ∧ c ≠ ')' ∧ depth' = depth ∧ quoted' = false) := by
  unfold step at h
  cases quoted with
  | true =>
    simp only [if_true, Option.some.injEq, Prod.mk.injEq] at h
    exact .inl ⟨rfl, h.1.symm, h.2.symm⟩
  | false =>
    simp only [Bool.false_eq_true, if_false] at h
    split at h
    · rename_i hc
      cases h
      exact .inr (.inl ⟨rfl, hc, rfl, rfl⟩)
    · split at h
      · rename_i hc
        cases h
        exact .inr (.inr (.inl ⟨rfl, hc, rfl, rfl⟩))
      · split at h
        · rename_i hc
          cases depth with
          | zero => cases h
          | succ depth =>
            cases h
            exact .inr (.inr (.inr (.inl ⟨rfl, hc, rfl, rfl⟩)))
        · rename_i hq ho hc
          cases h
          exact .inr (.inr (.inr (.inr ⟨rfl, hq, ho, hc, rfl, rfl⟩)))

/-- Whether a quote is open behind a text depends on the number of quotes in it. -/
theorem even_of_run {depth depth' : Nat} {quoted quoted' : Bool} {s : Text}
    (h : run depth quoted s = some (depth', quoted')) :
    (s.count '"' + quoted.toNat + quoted'.toNat) % 2 = 0 := by
  induction s generalizing depth quoted with
  | nil =>
    obtain ⟨-, rfl⟩ := Prod.mk.inj (Option.some.inj h)
    rw [List.count_nil]
    omega
  | cons c s ih =>
    obtain ⟨d, q, hstep, hrun⟩ := run_cons h
    have hmore := ih hrun
    by_cases hc : c = '"'
    · subst hc
      have hopen : q.toNat + quoted.toNat = 1 := by
        cases quoted <;> cases hstep <;> rfl
      rw [List.count_cons_self]
      omega
    · have hopen : q = quoted := by
        rcases step_cases hstep with ⟨rfl, -, rfl⟩ | ⟨-, he, -⟩ | ⟨rfl, -, -, rfl⟩ | ⟨rfl, -, -, rfl⟩ |
          ⟨rfl, -, -, -, -, rfl⟩
        · exact bne_iff_ne.2 hc
        · exact absurd he hc
        all_goals rfl
      rw [List.count_cons_of_ne hc, ← hopen]
      exact hmore

/-- More open brackets around a text are open behind it, too. -/
theorem run_add {depth depth' : Nat} {quoted quoted' : Bool} {s : Text}
    (h : run depth quoted s = some (depth', quoted')) (more : Nat) :
    run (depth + more) quoted s = some (depth' + more, quoted') := by
  induction s generalizing depth quoted with
  | nil => cases h; rfl
  | cons c s ih =>
    obtain ⟨d, q, hstep, hrun⟩ := run_cons h
    have hstep' : step (depth + more) quoted c = some (d + more, q) := by
      obtain ⟨rfl, rfl, rfl⟩ | ⟨rfl, rfl, rfl, rfl⟩ | ⟨rfl, rfl, rfl, rfl⟩ |
        ⟨rfl, rfl, rfl, rfl⟩ | ⟨rfl, hq, ho, hc, rfl, rfl⟩ := step_cases hstep
      · rfl
      · rfl
      · simp [step, Nat.add_right_comm]
      · simp [step, Nat.add_right_comm]
      · simp [step, hq, ho, hc]
    rw [run, hstep']
    exact ih hrun

theorem run_of_balanced {s : Text} (h : Balanced s) (depth : Nat) :
    run depth false s = some (depth, false) := by
  simpa using run_add h depth

/-- Without an opening bracket no more brackets are open than before. -/
theorem run_le {depth depth' : Nat} {quoted quoted' : Bool} {s : Text}
    (h : run depth quoted s = some (depth', quoted')) (hs : '(' ∉ s) : depth' ≤ depth := by
  induction s generalizing depth quoted with
  | nil => cases h; exact Nat.le_refl _
  | cons c s ih =>
    obtain ⟨d, q, hstep, hrun⟩ := run_cons h
    have hrest : depth' ≤ d := ih hrun fun hm => hs (List.mem_cons_of_mem _ hm)
    have hc : c ≠ '(' := fun hc => hs (hc ▸ List.mem_cons_self)
    have hfirst : d ≤ depth := by
      obtain h1 | h1 | h1 | h1 | h1 := step_cases hstep
      · omega
      · omega
      · exact absurd h1.2.1 hc
      · omega
      · omega
    omega

end Nesting

namespace Balanced

theorem nil : Balanced [] := rfl

theorem append {s t : Text} (hs : Balanced s) (ht : Balanced t) : Balanced (s ++ t) := by
  unfold Balanced
  rw [Nesting.run_append, Nesting.run_of_balanced hs]
  exact ht

theorem bracketed {s : Text} (hs : Balanced s) : Balanced ('(' :: s ++ [')']) := by
  unfold Balanced
  rw [List.cons_append, Nesting.run]
  change Nesting.run 1 false (s ++ [')']) = _
  rw [Nesting.run_append, Nesting.run_of_balanced hs]
  rfl

/-- A text without brackets and quotes is balanced. -/
theorem of_plain {s : Text} (h : ∀ c ∈ s, c ≠ '"' ∧ c ≠ '(' ∧ c ≠ ')') : Balanced s := by
  unfold Balanced
  induction s with
  | nil => rfl
  | cons c s ih =>
    obtain ⟨hq, ho, hc⟩ := h c List.mem_cons_self
    have hs := ih fun d hd => h d (List.mem_cons_of_mem _ hd)
    simp [Nesting.run, Nesting.step, hq, ho, hc, hs]

/-- Whatever stands between two quotes is balanced, if there is no quote in it. -/
theorem quoted {s : Text} (h : '"' ∉ s) : Balanced ('"' :: s ++ ['"']) := by
  have hrun : ∀ t : Text, '"' ∉ t → Nesting.run 0 true (t ++ ['"']) = some (0, false) := by
    intro t ht
    induction t with
    | nil => rfl
    | cons c t ih =>
      have hc : (c != '"') = true := by
        simp only [bne_iff_ne, ne_eq]
        exact fun hc => ht (hc ▸ List.mem_cons_self)
      rw [List.cons_append, Nesting.run, Nesting.step, if_pos rfl, hc]
      exact ih fun hm => ht (List.mem_cons_of_mem _ hm)
  exact hrun s h

/-- Behind a balanced text stands a closing bracket only if an opening one is in the text. -/
theorem mem_of_getLast? {s : Text} (h : Balanced s) (hl : s.getLast? = some ')') : '(' ∈ s := by
  by_contra hm
  obtain ⟨front, rfl⟩ := List.getLast?_eq_some_iff.1 hl
  unfold Balanced at h
  rw [Nesting.run_append, Option.bind_eq_some_iff] at h
  obtain ⟨⟨depth, isQuoted⟩, hf, ht⟩ := h
  have hd : depth ≤ 0 := Nesting.run_le hf fun hm' => hm (List.mem_append_left _ hm')
  have hd0 : depth = 0 := Nat.le_zero.1 hd
  subst hd0
  cases isQuoted with
  | false => cases ht
  | true => cases ht

end Balanced

/-! ## Partners of brackets -/

theorem splitAtClosing_of_run {depth : Nat} {quoted : Bool} {s : Text}
    (h : Nesting.run depth quoted s = some (0, false)) (rest : Text) :
    splitAtClosing depth quoted (s ++ ')' :: rest) = some (s, rest) := by
  induction s generalizing depth quoted with
  | nil =>
    cases h
    simp [splitAtClosing]
  | cons c s ih =>
    obtain ⟨d, q, hstep, hrun⟩ := Nesting.run_cons h
    have hs := ih hrun
    rw [List.cons_append, splitAtClosing.eq_def]
    obtain ⟨rfl, rfl, rfl⟩ | ⟨rfl, rfl, rfl, rfl⟩ | ⟨rfl, rfl, rfl, rfl⟩ |
      ⟨rfl, rfl, rfl, rfl⟩ | ⟨rfl, hq, ho, hc, rfl, rfl⟩ := Nesting.step_cases hstep
    · by_cases hc : c = '"'
      · subst hc
        simp at hs
        simp [hs]
      · have hb : (c != '"') = true := by simpa using hc
        rw [hb] at hs
        simp [hc, hs]
    · simp [hs]
    · simp [hs]
    · simp [hs]
    · simp [hq, ho, hc, hs]

/-- The partner of a bracket stands behind any balanced text. -/
theorem splitAtClosing_of_balanced {s : Text} (h : Balanced s) (rest : Text) :
    splitAtClosing 0 false (s ++ ')' :: rest) = some (s, rest) := splitAtClosing_of_run h rest

/-- The first opening bracket is found behind a text without brackets and quotes. -/
theorem splitAtOpening_append {s : Text} (h : ∀ c ∈ s, c ≠ '"' ∧ c ≠ '(') (behind : Text) :
    splitAtOpening false (s ++ '(' :: behind) = some (s, behind) := by
  induction s with
  | nil => simp [splitAtOpening]
  | cons c s ih =>
    obtain ⟨hq, ho⟩ := h c List.mem_cons_self
    have hs := ih fun d hd => h d (List.mem_cons_of_mem _ hd)
    rw [List.cons_append, splitAtOpening]
    simp [hq, ho, hs]

/-! ## Brackets that are taken off -/

/-- A text stays as it is, or it is one in brackets without an opening bracket in it. -/
theorem stripBrackets_cases (s : Text) : stripBrackets s = s ∨
    ∃ inner, s = '(' :: inner ++ [')'] ∧ '(' ∉ inner ∧ stripBrackets s = Text.trim inner := by
  rw [stripBrackets.eq_def]
  split
  · rename_i inner
    split
    · rename_i hstrip
      obtain ⟨inside, rfl⟩ := List.getLast?_eq_some_iff.1 hstrip.1
      rw [List.dropLast_concat]
      exact .inr ⟨inside, rfl, fun hm => hstrip.2 (List.mem_append_left _ hm), rfl⟩
    · exact .inl rfl
  · exact .inl rfl

theorem stripBrackets_of_head {s : Text} (h : s.head? ≠ some '(') : stripBrackets s = s := by
  unfold stripBrackets
  split
  · exact absurd rfl h
  · rfl

theorem stripBrackets_of_not_mem {s : Text} (h : '(' ∉ s) : stripBrackets s = s :=
  stripBrackets_of_head fun hh => h (List.mem_of_mem_head? hh)

theorem stripBrackets_bracketed {s : Text} (h : '(' ∉ s) :
    stripBrackets ('(' :: s ++ [')']) = Text.trim s := by
  simp [stripBrackets, h]

/-- Brackets stay around a text that has brackets itself. -/
theorem stripBrackets_of_mem {s : Text} (h : '(' ∈ s) : stripBrackets ('(' :: s) = '(' :: s := by
  simp [stripBrackets, h]

/-- Of a text that goes on behind a balanced part of it no brackets are taken off. -/
theorem stripBrackets_append {s t : Text} (hs : s ≠ []) (ht : t ≠ []) (hb : Balanced t) :
    stripBrackets (s ++ t) = s ++ t := by
  obtain ⟨c, s, rfl⟩ := List.exists_cons_of_ne_nil hs
  by_cases hc : c = '('
  · subst hc
    by_cases hl : t.getLast? = some ')'
    · refine stripBrackets_of_mem ?_
      exact List.mem_append_right _ (hb.mem_of_getLast? hl)
    · have hlast : (s ++ t).getLast? ≠ some ')' := by
        rw [List.getLast?_append, List.getLast?_eq_some_getLast ht, Option.some_or]
        rwa [List.getLast?_eq_some_getLast ht] at hl
      simp only [List.cons_append, stripBrackets, hlast, false_and, if_false]
  · refine stripBrackets_of_head ?_
    simpa using hc

end Lineshape
