import Lineshape.Expr.Lexeme
import Lineshape.Proofs.Result

/-! # The steps of a scan

One equation for each step of the scan, and the scans that succeed as a relation with one constructor
for each of these steps (`Lexeme.scan_eq_ok`). What a scan that succeeds says of its text is proved by
induction on this relation. The faults of a scan are found by the recursion of the scan itself. -/

namespace Lineshape.Lexeme
set_option autoImplicit false

variable {t : OperatorTable} {a b : Cursor} {c d : Char} {s rest : Text} {lexemes : List Lexeme}

theorem exists_of_map {result : Except (Fault × Nat) (List Lexeme)} (front : List Lexeme)
    (h : result.map (front ++ ·) = .ok lexemes) :
    ∃ back, result = .ok back ∧ lexemes = front ++ back := by
  obtain ⟨back, hback, he⟩ := Result.map_eq_ok.1 h
  exact ⟨back, hback, he.symm⟩

theorem scan_quoted (hq : a.quoted.isSome = true) :
    scan t a (c :: s) = (scan t (a.stepQuoted c) s).map ([letter c] ++ ·) := by
  rw [scan.eq_def]
  simp only [hq, if_true]
  rfl

theorem scan_letter (hq : ¬ a.quoted.isSome = true) (hn : a.note c = some b)
    (htop : ¬ (b.isTopLevel && t.isSymbol c) = true) :
    scan t a (c :: s) = (scan t (b.advance c) s).map ([letter c] ++ ·) := by
  rw [scan.eq_def]
  simp only [hq, hn, htop]
  rfl

theorem scan_one (hq : ¬ a.quoted.isSome = true) (hn : a.note c = some b)
    (htop : (b.isTopLevel && t.isSymbol c) = true)
    (hlong : t.longest? (if b.afterTerm = true then t.isBinary else t.isUnary) c d = some .one) :
    scan t a (c :: d :: s) =
      (scan t (b.skip [c] false) (d :: s)).map (written b.afterTerm t [c] ++ ·) := by
  rw [scan.eq_def]
  simp only [hq, hn, htop, if_true, hlong]
  rfl

theorem scan_two (hq : ¬ a.quoted.isSome = true) (hn : a.note c = some b)
    (htop : (b.isTopLevel && t.isSymbol c) = true)
    (hlong : t.longest? (if b.afterTerm = true then t.isBinary else t.isUnary) c d = some .two) :
    scan t a (c :: d :: s) = if (b.afterTerm && s.isEmpty) = true then
      .error (.missingOperand, b.position) else
      (scan t (b.skip [c, d] false) s).map (written b.afterTerm t [c, d] ++ ·) := by
  rw [scan.eq_def]
  simp only [hq, hn, htop, if_true, hlong]
  rfl

theorem scan_lone_separator (hq : ¬ a.quoted.isSome = true) (hn : a.note c = some b)
    (htop : (b.isTopLevel && t.isSymbol c) = true) (hc : isSeparator c = true) :
    scan t a [c] = .ok [] := by
  rw [scan.eq_def]
  simp only [hq, hn, htop, if_true, hc]
  rfl

/-- The scans that succeed. A text ends where nothing is open, or with a separator that is left out.
Before that each character belongs to a quoted text, to an operator or to a term. -/
inductive Scans (t : OperatorTable) : Cursor → Text → List Lexeme → Prop
  | done {a : Cursor} : a.opened = [] → a.quoted = none → Scans t a [] []
  | separator {a b : Cursor} {c : Char} :
    ¬ a.quoted.isSome = true → a.note c = some b → (b.isTopLevel && t.isSymbol c) = true →
    isSeparator c = true → Scans t a [c] []
  | quoted {a : Cursor} {c : Char} {rest : Text} {back : List Lexeme} :
    a.quoted.isSome = true → Scans t (a.stepQuoted c) rest back →
    Scans t a (c :: rest) (letter c :: back)
  | one {a b : Cursor} {c d : Char} {rest : Text} {back : List Lexeme} :
    ¬ a.quoted.isSome = true → a.note c = some b → (b.isTopLevel && t.isSymbol c) = true →
    t.longest? (if b.afterTerm = true then t.isBinary else t.isUnary) c d = some .one →
    Scans t (b.skip [c] false) (d :: rest) back →
    Scans t a (c :: d :: rest) (written b.afterTerm t [c] ++ back)
  | two {a b : Cursor} {c d : Char} {rest : Text} {back : List Lexeme} :
    ¬ a.quoted.isSome = true → a.note c = some b → (b.isTopLevel && t.isSymbol c) = true →
    t.longest? (if b.afterTerm = true then t.isBinary else t.isUnary) c d = some .two →
    ¬ (b.afterTerm && rest.isEmpty) = true → Scans t (b.skip [c, d] false) rest back →
    Scans t a (c :: d :: rest) (written b.afterTerm t [c, d] ++ back)
  | letter {a b : Cursor} {c : Char} {rest : Text} {back : List Lexeme} :
    ¬ a.quoted.isSome = true → a.note c = some b → ¬ (b.isTopLevel && t.isSymbol c) = true →
    Scans t (b.advance c) rest back → Scans t a (c :: rest) (letter c :: back)

theorem scan_eq_ok : scan t a s = .ok lexemes ↔ Scans t a s lexemes := by
  constructor
  · intro h
    fun_induction scan t a s generalizing lexemes with
    | case1 a =>
      obtain ⟨rfl, ho, hq⟩ := Cursor.map_finish_eq_ok.1 h
      exact .done ho hq
    | case2 a c rest hq ih =>
      obtain ⟨back, hback, rfl⟩ := exists_of_map [letter c] h
      exact .quoted hq (ih hback)
    | case4 a c hq b hn htop hc =>
      cases h
      exact .separator hq hn htop hc
    | case7 a c hq b hn htop d rest hlong ih =>
      obtain ⟨back, hback, rfl⟩ := exists_of_map _ h
      exact .one hq hn htop hlong (ih hback)
    | case9 a c hq b hn htop d rest hlong hne ih =>
      obtain ⟨back, hback, rfl⟩ := exists_of_map _ h
      exact .two hq hn htop hlong hne (ih hback)
    | case10 a c rest hq b hn htop ih =>
      obtain ⟨back, hback, rfl⟩ := exists_of_map [letter c] h
      exact .letter hq hn htop (ih hback)
    | case3 | case5 | case6 | case8 => cases h
  · intro h
    induction h with
    | done ho hq => exact Cursor.map_finish_eq_ok.2 ⟨rfl, ho, hq⟩
    | separator hq hn htop hc => exact scan_lone_separator hq hn htop hc
    | quoted hq _ ih =>
      rw [scan_quoted hq, ih]
      rfl
    | one hq hn htop hlong _ ih =>
      rw [scan_one hq hn htop hlong, ih]
      rfl
    | two hq hn htop hlong hne _ ih =>
      rw [scan_two hq hn htop hlong, if_neg hne, ih]
      rfl
    | letter hq hn htop _ ih =>
      rw [scan_letter hq hn htop, ih]
      rfl

end Lineshape.Lexeme
