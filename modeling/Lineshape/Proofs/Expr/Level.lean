import Lineshape.Expr.Parser
import Lineshape.Proofs.Result

/-! # One level of an expression

What the parser makes of one level: the text, trimmed and without redundant brackets, is scanned, and
its lexemes are a leaf, an operand behind a sign, a call or a chain (`Expr.parseLevel_iff`). -/

namespace Lineshape.Expr
set_option autoImplicit false

/-- The tree of the lexemes of a level, when `n` more levels are allowed below it. -/
inductive Level (t : OperatorTable) (n : Nat) (op : Text) (lexemes : List Lexeme) : Expr → Prop
  | leaf {name : Text} :
    Lexeme.loosest? lexemes = none →
    Term.ofText t (Text.trim (Lexeme.text lexemes)) = .ok (.leaf name) →
    Level t n op lexemes ⟨name, op, []⟩
  | prefixed {sign operand : Text} {e : Expr} :
    Lexeme.loosest? lexemes = none →
    Term.ofText t (Text.trim (Lexeme.text lexemes)) = .ok (.prefixed sign operand) →
    parseLevel t n [] operand = .ok e →
    Level t n op lexemes ⟨sign, op, [e]⟩
  | call {head arguments : Text} {e : Expr} :
    Lexeme.loosest? lexemes = none →
    Term.ofText t (Text.trim (Lexeme.text lexemes)) = .ok (.call head arguments) →
    parseLevel t n [] arguments = .ok e →
    Level t n op lexemes (callNode head op e)
  | chain {r : Nat} {label : Text} {first : Expr} {more : List Expr} :
    Lexeme.loosest? lexemes = some r →
    t.groupLabel r = some label →
    parseLevel t n [] (Lexeme.split r lexemes).1 = .ok first →
    List.Forall₂ (fun p e => parseLevel t n p.1 p.2 = .ok e) (Lexeme.split r lexemes).2 more →
    Level t n op lexemes ⟨label, op, first :: more⟩

variable {t : OperatorTable} {n : Nat} {op s : Text} {e : Expr}

/-- A level with an operator is a chain. -/
theorem Level.exists_chain {lexemes : List Lexeme} {r : Nat} (h : Level t n op lexemes e)
    (hr : Lexeme.loosest? lexemes = some r) :
    ∃ label first more, e = ⟨label, op, first :: more⟩ ∧ t.groupLabel r = some label ∧
      parseLevel t n [] (Lexeme.split r lexemes).1 = .ok first ∧
      List.Forall₂ (fun p e => parseLevel t n p.1 p.2 = .ok e) (Lexeme.split r lexemes).2 more := by
  cases h with
  | leaf hnone => cases hr.symm.trans hnone
  | prefixed hnone => cases hr.symm.trans hnone
  | call hnone => cases hr.symm.trans hnone
  | chain hr' hlabel hfirst hmore =>
    cases hr.symm.trans hr'
    exact ⟨_, _, _, rfl, hlabel, hfirst, hmore⟩

theorem ofText_eq_ok {body : Text} {lexemes : List Lexeme} :
    Lexeme.ofText t body = .ok lexemes ↔ Lexeme.scan t {} body = .ok lexemes := by
  rw [Lexeme.ofText]
  cases Lexeme.scan t {} body with
  | error e => simp
  | ok ls => simp

theorem parseLevel_iff :
    parseLevel t (n + 1) op s = .ok e ↔
      ∃ lexemes, Lexeme.scan t {} (stripBrackets (Text.trim s)) = .ok lexemes ∧
        Level t n op lexemes e := by
  rw [parseLevel, Result.bind_eq_ok]
  refine exists_congr fun lexemes => and_congr ofText_eq_ok ?_
  constructor
  · intro h
    split at h
    · rename_i r hr
      split at h
      · cases h
      · rename_i label hlabel
        obtain ⟨first, hfirst, h⟩ := Result.bind_eq_ok.1 h
        obtain ⟨more, hmore, h⟩ := Result.bind_eq_ok.1 h
        cases h
        exact .chain hr hlabel hfirst (Result.mapM_eq_ok.1 hmore)
    · rename_i hr
      obtain ⟨term, hterm, h⟩ := Result.bind_eq_ok.1 h
      cases term with
      | leaf name =>
        cases h
        exact .leaf hr hterm
      | prefixed sign operand =>
        obtain ⟨inner, hinner, h⟩ := Result.bind_eq_ok.1 h
        cases h
        exact .prefixed hr hterm hinner
      | call head arguments =>
        obtain ⟨inner, hinner, h⟩ := Result.bind_eq_ok.1 h
        cases h
        exact .call hr hterm hinner
  · intro h
    cases h with
    | leaf hr hterm =>
      rw [hr]
      exact Result.bind_eq_ok.2 ⟨_, hterm, rfl⟩
    | prefixed hr hterm hinner =>
      rw [hr]
      exact Result.bind_eq_ok.2 ⟨_, hterm, Result.bind_eq_ok.2 ⟨_, hinner, rfl⟩⟩
    | call hr hterm hinner =>
      rw [hr]
      exact Result.bind_eq_ok.2 ⟨_, hterm, Result.bind_eq_ok.2 ⟨_, hinner, rfl⟩⟩
    | chain hr hlabel hfirst hmore =>
      rw [hr]
      simp only [hlabel]
      exact Result.bind_eq_ok.2 ⟨_, hfirst, Result.bind_eq_ok.2
        ⟨_, Result.mapM_eq_ok.2 hmore, rfl⟩⟩

theorem parseLevel_congr {s' : Text}
    (h : stripBrackets (Text.trim s) = stripBrackets (Text.trim s')) :
    parseLevel t (n + 1) op s = parseLevel t (n + 1) op s' := by
  rw [parseLevel, parseLevel, h]

/-- More levels do not change what a text is read as. -/
theorem parseLevel_le {n' : Nat} (h : parseLevel t n op s = .ok e) (hn : n ≤ n') :
    parseLevel t n' op s = .ok e := by
  induction n generalizing n' op s e with
  | zero => cases h
  | succ n ih =>
    obtain ⟨n', rfl⟩ := Nat.exists_eq_add_of_lt hn
    have hle : n ≤ n + n' := Nat.le_add_right n n'
    obtain ⟨lexemes, hscan, hlevel⟩ := parseLevel_iff.1 h
    refine parseLevel_iff.2 ⟨lexemes, hscan, ?_⟩
    cases hlevel with
    | leaf hr hterm => exact .leaf hr hterm
    | prefixed hr hterm hinner => exact .prefixed hr hterm (ih hinner hle)
    | call hr hterm hinner => exact .call hr hterm (ih hinner hle)
    | chain hr hlabel hfirst hmore =>
      exact .chain hr hlabel (ih hfirst hle) (hmore.imp fun _ _ hterm => ih hterm hle)

end Lineshape.Expr
