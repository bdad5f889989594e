import Lineshape.Proofs.Expr.Written

/-! # Brackets around a text

Brackets around a text that can be read change nothing in its tree but bracket groups
(`Expr.ungrouped_parse_inBrackets`). There are two ways in which they are removed, and the text
decides which. Around a text without an opening bracket, quoted or not, they come off on the level
that they stand on (`Expr.parseLevel_stripped`). All others are a call without a head and take a
level of their own (`Expr.parseLevel_called`). -/

namespace Lineshape
set_option autoImplicit false

/-- A text in pairs of brackets. -/
def Text.inBrackets : Nat → Text → Text
  | 0, s => s
  | pairs + 1, s => '(' :: inBrackets pairs s ++ [')']

/-- In that many pairs of brackets the text is left in a bracket group: a single pair around a text
without an opening bracket is taken off. -/
def Text.LeavesGroup (pairs : Nat) (s : Text) : Prop := 1 < pairs ∨ pairs = 1 ∧ '(' ∈ s

theorem Text.trimmed_brackets (s : Text) : Trimmed ('(' :: s ++ [')']) where
  left c hc := by
    cases hc
    decide
  right c hc := by
    rw [List.getLast?_append] at hc
    cases hc
    decide

namespace Expr

variable {n : Nat} {op s : Text} {e e' : Expr}

/-! ## Trees that differ in groups around them -/

/-- The same node in other bracket groups. -/
structure Covers (e' e : Expr) : Prop where
  node : e'.bracketsRemoved = e.bracketsRemoved
  ungrouped : e'.ungrouped = e.ungrouped

theorem Covers.refl (e : Expr) : Covers e e := ⟨rfl, rfl⟩

theorem Covers.trans {e'' : Expr} (h : Covers e'' e') (h' : Covers e' e) : Covers e'' e :=
  ⟨h.node.trans h'.node, h.ungrouped.trans h'.ungrouped⟩

theorem covers_callNode (h : e.op = []) : Covers (callNode [] [] e) e where
  node := by
    rw [callNode]
    split
    · exact congrArg bracketsRemoved (withOp_of_eq h)
    · exact bracketsRemoved_group [] e
  ungrouped := by
    rw [Phrase.ungrouped_callNode]
    exact withOp_of_eq ((ungrouped_op e).trans h)

/-! ## The two ways -/

theorem parseLevel_stripped (t : OperatorTable) (hs : '(' ∉ s) :
    parseLevel t (n + 1) op ('(' :: s ++ [')']) = parseLevel t (n + 1) op s := by
  have htrim : '(' ∉ Text.trim s := fun hm => hs ((isInfix_trim s).subset hm)
  refine parseLevel_congr ?_
  rw [(Text.trimmed_brackets s).trim_eq, stripBrackets_bracketed hs, stripBrackets_of_not_mem htrim]

theorem parseLevel_called (hs : '(' ∈ s) (h : parseLevel .standard n [] s = .ok e) :
    parseLevel .standard (n + 1) op ('(' :: s ++ [')']) = .ok (callNode [] op e) := by
  have hbalanced := balanced_of_parseLevel h
  have hbody : stripBrackets (Text.trim ('(' :: s ++ [')'])) = '(' :: s ++ [')'] := by
    rw [(Text.trimmed_brackets s).trim_eq]
    exact stripBrackets_of_mem (List.mem_append_left _ hs)
  obtain ⟨b, hread, hsettled, -⟩ :=
    Lexeme.reads_brackets (a := {}) rfl rfl hbalanced
  have hterm : Term.ofText .standard (Text.trim (Lexeme.text (('(' :: s ++ [')']).map .letter))) =
      .ok (.call [] (Text.trim s)) := by
    have hblank : Text.isAllBlank s = false := by
      rw [Text.isAllBlank, List.all_eq_false]
      exact ⟨'(', hs, by decide⟩
    have hempty : ∀ c ∈ ([] : Text), c ≠ '"' ∧ c ≠ '(' := List.forall_mem_nil _
    have hcall := ofText_brackets hempty (leading?_of_first (by decide) _) hbalanced
    rw [hblank] at hcall
    rw [Lexeme.text_map_letter, (Text.trimmed_brackets s).trim_eq]
    exact hcall
  have hinner : parseLevel .standard n [] (Text.trim s) = .ok e := by
    cases n with
    | zero => cases h
    | succ n => exact (parseLevel_congr (by rw [Text.trim_trim])).trans h
  exact parseLevel_iff.2 ⟨_, by rw [hbody]; exact hread.scan_eq hsettled,
    .call (Phrase.loosest?_letters _) hterm hinner⟩

/-! ## Any number of brackets -/

/-- Brackets around a text are at most a group in its tree. -/
theorem exists_parse_brackets (h : parseLevel .standard n [] s = .ok e) :
    ∃ e', parseLevel .standard (n + 1) [] ('(' :: s ++ [')']) = .ok e' ∧ e'.Covers e := by
  by_cases hs : '(' ∈ s
  · exact ⟨_, parseLevel_called hs h, covers_callNode (shaped_of_parseLevel h).2⟩
  · exact ⟨e, (parseLevel_stripped .standard hs).trans (parseLevel_le h (Nat.le_succ n)), .refl e⟩

theorem exists_parseLevel_brackets (h : parseLevel .standard n [] s = .ok e) :
    ∃ e', parseLevel .standard (n + 1) [] ('(' :: s ++ [')']) = .ok e' ∧
      e'.ungrouped = e.ungrouped := by
  obtain ⟨e', he', hcovers⟩ := exists_parse_brackets h
  exact ⟨e', he', hcovers.ungrouped⟩

/-- Brackets around a text are transparent: with one level more for each pair the text is read
within them, and its tree is the same up to bracket groups. -/
theorem ungrouped_parse_inBrackets {depth : Nat} (h : parse .standard depth s = .ok e)
    (pairs : Nat) :
    ∃ e', parse .standard (depth + pairs) (s.inBrackets pairs) = .ok e' ∧
      e'.ungrouped = e.ungrouped := by
  induction pairs with
  | zero => exact ⟨e, h, rfl⟩
  | succ pairs ih =>
    obtain ⟨inner, hinner, hungrouped⟩ := ih
    obtain ⟨outer, houter, heq⟩ := exists_parseLevel_brackets hinner
    exact ⟨outer, houter, heq.trans hungrouped⟩

/-- A quoted bracket keeps the brackets around it from being stripped, and a separator at the end
stays within them. -/
theorem ungrouped_parse_inBrackets_quoted : ∃ e,
    parse .standard 1 "a+\"(\",".toList = .ok e ∧
      ∃ e', parse .standard 3 "((a+\"(\",))".toList = .ok e' ∧ e'.ungrouped = e.ungrouped := by
  have hparse : parse .standard 1 "a+\"(\",".toList =
      .ok ⟨['+'], [], [⟨['a'], [], []⟩, ⟨"\"(\"".toList, ['+'], []⟩]⟩ := by decide +kernel
  exact ⟨_, hparse, ungrouped_parse_inBrackets hparse 2⟩

/-- One pair is stripped, of two pairs the outer one is a group. -/
example : parse .standard 1 "(a+b)".toList = parse .standard 1 "a+b".toList ∧
    (parse .standard 2 "((a+b))".toList).map (·.name) = .ok [] := by decide +kernel

/-! ## Groups that are left -/

theorem form_callNode (op : Text) (e : Expr) : (callNode [] op e).form ≠ .assign := by
  refine callNode_cases (fun _ hspread => ?_) (fun hnil => absurd rfl hnil)
    (fun hnil => absurd rfl hnil) fun _ _ => Form.noConfusion
  · change e.form ≠ .assign
    rcases hspread with hempty | hlist
    · have hleaf : e.isLeaf = true := (Bool.and_eq_true_iff.1 hempty).1
      rw [form, if_pos hleaf]
      decide
    · obtain ⟨hname, hterms⟩ := Bool.and_eq_true_iff.1 hlist
      have hform : e.form = .list := by
        rw [form, if_neg (by simpa using hterms), of_decide_eq_true hname]
        rfl
      rw [hform]
      exact Form.noConfusion

theorem leavesGroup_succ {pairs : Nat} : Text.LeavesGroup (pairs + 1) s ↔ '(' ∈ s.inBrackets pairs := by
  cases pairs with
  | zero => simp [Text.LeavesGroup, Text.inBrackets]
  | succ pairs => simp [Text.LeavesGroup, Text.inBrackets]

/-- Any number of brackets around a text are groups in its tree, or leave no trace. -/
theorem exists_parse_inBrackets (h : parseLevel .standard n [] s = .ok e) (pairs : Nat) :
    ∃ n' e', parseLevel .standard n' [] (s.inBrackets pairs) = .ok e' ∧ e'.Covers e ∧
      (Text.LeavesGroup pairs s → e'.form ≠ .assign) ∧ (¬ Text.LeavesGroup pairs s → e' = e) := by
  induction pairs with
  | zero =>
    have hno : ¬ Text.LeavesGroup 0 s := by simp [Text.LeavesGroup]
    exact ⟨n, e, h, .refl e, fun hleaves => absurd hleaves hno, fun _ => rfl⟩
  | succ pairs ih =>
    obtain ⟨n', e', he', hcovers, -, hplain⟩ := ih
    rw [leavesGroup_succ]
    by_cases hs : '(' ∈ s.inBrackets pairs
    · refine ⟨_, _, parseLevel_called hs he', (covers_callNode (shaped_of_parseLevel he').2).trans hcovers,
        fun _ => form_callNode [] e', fun hno => absurd hs hno⟩
    · have hno : ¬ Text.LeavesGroup pairs s := by
        cases pairs with
        | zero => simp [Text.LeavesGroup]
        | succ pairs => exact absurd List.mem_cons_self hs
      exact ⟨_, e', (parseLevel_stripped .standard hs).trans (parseLevel_le he' (Nat.le_succ n')), hcovers,
        fun hleaves => absurd hleaves hs, fun _ => hplain hno⟩

end Expr
end Lineshape
