import Lineshape.Proofs.Expr.Pieces
import Lineshape.Proofs.Formula.Arithmetic

/-! # The depth of formulas

The canonical text of a formula has no more brackets than the text that it was parsed from, so it is
read back within the same limit on nesting (`Formula.levels_of_parseLevel`). -/

namespace Lineshape
set_option autoImplicit false

namespace Formula
open Lineshape.Expr Phrase

/-- A phrase that takes at most `n` levels, and has brackets only if a text has some. -/
structure Fits (n : Nat) (s : Text) (p : Phrase) : Prop where
  levels : p.levels ≤ n
  brackets : '(' ∈ p.text → '(' ∈ s

/-! ## Brackets -/

theorem needsBrackets_of_binding {e : Expr} {r : Nat}
    (h : e.binding .standard = 0 ∨ r < e.binding .standard) : needsBrackets .standard r e = false := by
  rw [← Bool.not_eq_true, needsBrackets_eq]
  omega

theorem levels_enclosed (b : Bool) (p : Phrase) : (p.enclosed b).levels ≤ p.levels + 1 := by
  cases b with
  | false => exact Nat.le_succ p.levels
  | true =>
    show (Phrase.bracketed p).levels ≤ p.levels + 1
    rw [Phrase.levels]
    split <;> omega

/-- In a text with brackets one more pair around a phrase takes one more level. -/
theorem Fits.enclosed_succ {n : Nat} {s s' : Text} {p : Phrase} (h : Fits n s' p) (hs : '(' ∈ s)
    (b : Bool) : Fits (n + 1) s (p.enclosed b) where
  levels := by
    have := levels_enclosed b p
    have := h.levels
    omega
  brackets _ := hs

/-- Around a phrase without brackets a pair takes no level. -/
theorem Fits.enclosed {n : Nat} {s s' : Text} {p : Phrase} (h : Fits n s' p) (hs' : '(' ∉ s')
    (hs : '(' ∈ s) (b : Bool) : Fits n s (p.enclosed b) where
  levels := by
    have hno : '(' ∉ p.text := fun hc => hs' (h.brackets hc)
    cases b with
    | false => exact h.levels
    | true =>
      show (Phrase.bracketed p).levels ≤ n
      rw [Phrase.levels, if_neg hno]
      exact h.levels
  brackets _ := hs

/-! ## Chains -/

theorem levels_phraseChain {n r : Nat} (blanks : Bool) {front : Phrase} {terms : List Expr}
    (hops : ∀ e ∈ terms, OperatorTable.standard.precedence e.op = r)
    (hterms : ∀ e ∈ terms, (e.phrase.enclosed (needsBrackets .standard r e)).levels ≤ n)
    (hfront : (if front.rank = r then front.levels else front.levels + 1) ≤ n + 1) :
    (phraseChain r blanks front terms).levels ≤ n + 1 := by
  induction terms generalizing front with
  | nil =>
    rw [phraseChain]
    split at hfront <;> omega
  | cons e terms ih =>
    have hop := hops e List.mem_cons_self
    have hterm := hterms e List.mem_cons_self
    rw [phraseChain]
    apply ih (fun e' he' => hops e' (List.mem_cons_of_mem e he'))
      (fun e' he' => hterms e' (List.mem_cons_of_mem e he'))
    rw [Phrase.rank, if_pos hop, Phrase.levels, hop]
    omega

theorem mem_phraseChain {r : Nat} {blanks : Bool} {front : Phrase} {terms : List Expr}
    (hops : ∀ e ∈ terms, OperatorTable.standard.isBinary e.op = true)
    (h : '(' ∈ (phraseChain r blanks front terms).text) :
    '(' ∈ front.text ∨ ∃ e ∈ terms, '(' ∈ (e.phrase.enclosed (needsBrackets .standard r e)).text := by
  induction terms generalizing front with
  | nil => exact .inl h
  | cons e terms ih =>
    rw [phraseChain] at h
    rcases ih (fun e' he' => hops e' (List.mem_cons_of_mem e he')) h with h | ⟨e', he', h⟩
    · rw [Phrase.text, List.mem_append, List.mem_append, List.mem_append] at h
      rcases h with h | h | h | h
      · exact .inl h
      · have hno : ∀ op ∈ OperatorTable.binaries, '(' ∉ op := by decide
        exact absurd h (hno _ (OperatorTable.isBinary_iff.1 (hops e List.mem_cons_self)))
      · have hno : ∀ spaced, '(' ∉ gap spaced := by decide
        exact absurd h (hno _)
      · exact .inr ⟨e, List.mem_cons_self, h⟩
    · exact .inr ⟨e', List.mem_cons_of_mem e he', h⟩

/-- A chain fits one level above its terms. -/
theorem fits_phraseChain {n r : Nat} {s : Text} (blanks : Bool) {first : Expr} {more : List Expr}
    (hops : ∀ e ∈ more, OperatorTable.standard.isBinary e.op = true ∧
      OperatorTable.standard.precedence e.op = r)
    (h : ∀ e ∈ first :: more, Fits n s (e.phrase.enclosed (needsBrackets .standard r e))) :
    Fits (n + 1) s (phraseChain r blanks
      (first.phrase.enclosed (needsBrackets .standard r first)) more) where
  levels := by
    have hfirst := (h first List.mem_cons_self).levels
    apply levels_phraseChain blanks (fun e he => (hops e he).2)
      (fun e he => (h e (List.mem_cons_of_mem first he)).levels)
    split <;> omega
  brackets hc := by
    rcases mem_phraseChain (fun e he => (hops e he).1) hc with hc | ⟨e, he, hc⟩
    · exact (h first List.mem_cons_self).brackets hc
    · exact (h e (List.mem_cons_of_mem first he)).brackets hc

/-! ## Parsed texts -/

theorem mem_of_mem_trim {s : Text} {c : Char} (h : c ∈ Text.trim s) : c ∈ s := by
  obtain ⟨front, behind, hs, -⟩ := Text.exists_trim s
  rw [hs]
  exact List.mem_append_left _ (List.mem_append_right _ h)

variable {isName : Text → Prop}

theorem Arithmetic.of_mem {e term : Expr} (h : Arithmetic isName e) (hm : term ∈ e.terms) :
    Arithmetic isName term := by
  cases h with
  | number | name => cases hm
  | signed _ hi | group hi =>
    rw [List.mem_singleton.1 hm]
    exact hi
  | call _ hi | chain _ _ hi => exact hi _ hm

/-- What the induction on the levels needs of the texts of the level below. -/
def FitsBelow (isName : Text → Prop) (n : Nat) : Prop :=
  ∀ {op s : Text} {e : Expr} {r : Nat}, parseLevel .standard n op s = .ok e →
    (∀ term ∈ e.terms, Arithmetic isName term) →
    (∀ ls, Lexeme.scan .standard {} (Text.trim s) = .ok ls →
      ∀ op k, Lexeme.operator op k ∈ ls → r < k) →
    Fits n s (e.phrase.enclosed (needsBrackets .standard r e))

theorem rank_pos_of_scan {a : Cursor} {s : Text} {ls : List Lexeme}
    (h : Lexeme.scan .standard a s = .ok ls) {op : Text} {k : Nat}
    (hm : Lexeme.operator op k ∈ ls) : 0 < k := by
  obtain ⟨hbinary, rfl⟩ := Lexeme.operator_of_scan h hm
  exact OperatorTable.precedence_pos_iff.2 hbinary

/-- No node is bracketed at the top. -/
theorem FitsBelow.top {n : Nat} (ih : FitsBelow isName n) {op s : Text} {e : Expr}
    (h : parseLevel .standard n op s = .ok e) (ht : ∀ term ∈ e.terms, Arithmetic isName term) :
    Fits n s e.phrase := by
  have hfits := ih (r := 0) h ht fun ls hls op k hm => rank_pos_of_scan hls hm
  have hno : needsBrackets .standard 0 e = false := needsBrackets_of_binding (by omega)
  rwa [hno] at hfits

theorem fits_leaf {n r : Nat} {s : Text} {op name : Text} (h : '(' ∈ name → '(' ∈ s) :
    Fits (n + 1) s (phrase ⟨name, op, []⟩ |>.enclosed (needsBrackets .standard r ⟨name, op, []⟩)) := by
  rw [needsBrackets_of_binding (.inl (binding_leaf name op))]
  exact ⟨Nat.le_add_left 1 n, h⟩

theorem fits_prefixed {n r : Nat} {s : Text} {sign op : Text} {operand : Expr}
    (hs : OperatorTable.standard.isUnary sign = true)
    (h : Fits n s (operand.phrase.enclosed (0 < operand.binding .standard))) :
    Fits (n + 1) s ((phrase ⟨sign, op, [operand]⟩).enclosed
      (needsBrackets .standard r ⟨sign, op, [operand]⟩)) := by
  rw [needsBrackets_of_binding (.inl (binding_prefixed (ne_nil_of_isUnary hs) hs)), phrase_prefixed hs]
  refine ⟨Nat.succ_le_succ h.levels, ?_⟩
  intro hc
  have hc : '(' ∈ sign ++ (operand.phrase.enclosed (0 < operand.binding .standard)).text := hc
  rcases List.mem_append.1 hc with hc | hc
  · obtain ⟨c, rfl, hsign⟩ := exists_sign hs
    have : '(' = c := List.mem_singleton.1 hc
    rcases hsign with rfl | rfl <;> exact absurd this (by decide)
  · exact h.brackets hc

theorem phrase_with_op (e : Expr) (op : Text) : phrase { e with op } = e.phrase := by
  obtain ⟨name, op', terms⟩ := e
  cases terms with
  | nil => rfl
  | cons first more => rw [phrase, phrase]

theorem levels_phraseChain_congr (r : Nat) (blanks blanks' : Bool) {front front' : Phrase}
    (terms : List Expr) (hl : front.levels = front'.levels) (hr : front.rank = front'.rank) :
    (phraseChain r blanks front terms).levels = (phraseChain r blanks' front' terms).levels := by
  induction terms generalizing front front' with
  | nil => exact hl
  | cons e terms ih =>
    rw [phraseChain, phraseChain]
    apply ih
    · rw [Phrase.levels, Phrase.levels, hl, hr]
    · rfl

/-- A call takes one level more than its arguments, which are written as a list of their own. -/
theorem levels_head {n : Nat} {head op : Text} {inner : Expr} (hh : HeadName head)
    (hs : Shaped inner) (ho : inner.op = []) (hin : inner.phrase.levels ≤ n)
    (ht : ∀ term ∈ (callNode head op inner).terms, Arithmetic isName term) :
    (callNode head op inner).phrase.levels ≤ n + 1 := by
  revert ht
  refine callNode_cases (fun hnil => absurd hnil hh.ne_nil) (fun _ _ _ => ?_)
    (fun _ hname hterms _ => ?_) fun hempty hlist ht => ?_
  · exact Nat.le_add_left 1 n
  · obtain ⟨name, op', terms⟩ := inner
    cases hname
    cases ho
    obtain ⟨first, more, rfl, hmore, -⟩ := hs.of_list hterms
    rw [phrase_chain (by decide) hmore] at hin
    rw [phrase_head hh, Phrase.levels, levels_phraseChain_congr _ false true more rfl rfl]
    omega
  · have hbinding := (ht inner List.mem_cons_self).binding_eq
    have hrank : OperatorTable.standard.precedence [','] = 2 := by decide
    rw [phrase_head hh, hrank, needsBrackets_of_binding (by omega), phraseChain]
    exact Nat.succ_le_succ hin

theorem fits_call {n r : Nat} {s head op : Text} {inner : Expr} (hh : head = [] ∨ HeadName head)
    (hs : Shaped inner) (ho : inner.op = []) (hin : Fits n s inner.phrase) (hbracket : '(' ∈ s)
    (ht : ∀ term ∈ (callNode head op inner).terms, Arithmetic isName term) :
    Fits (n + 1) s ((callNode head op inner).phrase.enclosed
      (needsBrackets .standard r (callNode head op inner))) := by
  rcases hh with rfl | hh
  · have hphrase : (callNode [] op inner).phrase = inner.phrase := by
      rw [callNode]
      split
      · exact phrase_with_op inner op
      · rw [phrase, if_pos ⟨rfl, rfl⟩]
    rw [hphrase]
    exact hin.enclosed_succ hbracket _
  · have hbinding : (callNode head op inner).binding .standard = 0 := by
      have hnil : head.isEmpty = false := by simpa using hh.ne_nil
      rw [callNode, hnil]
      split <;> exact binding_head hh.ne_nil hh.precedence_eq
    rw [needsBrackets_of_binding (.inl hbinding)]
    exact ⟨levels_head hh hs ho hin.levels ht, fun _ => hbracket⟩

/-! ## One level -/

theorem mem_of_split {r : Nat} {ls : List Lexeme} {p : Text} {c : Char}
    (hp : p = (Lexeme.split r ls).1 ∨ ∃ op, (op, p) ∈ (Lexeme.split r ls).2) (hc : c ∈ p) :
    c ∈ Lexeme.text ls := by
  rw [← Lexeme.split_text r ls, List.mem_append, List.mem_flatMap]
  rcases hp with rfl | ⟨op, hp⟩
  · exact .inl hc
  · exact .inr ⟨(op, p), hp, List.mem_append_right op hc⟩

/-- The terms of a chain fit into the level below. -/
theorem fits_of_split {n r : Nat} {s p op : Text} {ls : List Lexeme} {e : Expr}
    (ih : FitsBelow isName n) (hscan : Lexeme.scan .standard {} (Text.trim s) = .ok ls)
    (hr : Lexeme.loosest? ls = some r)
    (hp : p = (Lexeme.split r ls).1 ∨ ∃ op, (op, p) ∈ (Lexeme.split r ls).2)
    (h : parseLevel .standard n op p = .ok e) (he : Arithmetic isName e) :
    Fits n s (e.phrase.enclosed (needsBrackets .standard r e)) := by
  have hfits := ih (r := r) h (fun term hm => he.of_mem hm) fun ls' hls' op k hm => by
    obtain ⟨hmem, hne⟩ := Lexeme.operator_of_piece hscan hp hls' hm
    have := (Lexeme.loosest?_spec hr).2 op k hmem
    omega
  refine ⟨hfits.levels, fun hc => ?_⟩
  have hmem := mem_of_split hp (hfits.brackets hc)
  rcases Lexeme.makeUp_of_scan hscan with hs | ⟨c, -, hs⟩
  · exact mem_of_mem_trim (hs ▸ hmem)
  · exact mem_of_mem_trim (hs ▸ List.mem_append_left _ hmem)

/-- The operand behind a sign has no operators of its own. -/
theorem fits_of_operand {n : Nat} {s sign operand : Text} {ls : List Lexeme} {e : Expr}
    (ih : FitsBelow isName n) (hscan : Lexeme.scan .standard {} (Text.trim s) = .ok ls)
    (hno : Lexeme.loosest? ls = none)
    (hterm : Term.ofText .standard (Text.trim (Lexeme.text ls)) = .ok (.prefixed sign operand))
    (h : parseLevel .standard n [] operand = .ok e) (he : Arithmetic isName e) :
    Fits n s (e.phrase.enclosed (0 < e.binding .standard)) := by
  have hfits := ih (r := e.binding .standard) h (fun term hm => he.of_mem hm)
    fun ls' hls' op k hm => absurd hm
      (Lexeme.no_operator_of_prefixed hscan (Text.trimmed_trim s) hno hterm hls' op k)
  have hneeds : needsBrackets .standard (e.binding .standard) e = decide (0 < e.binding .standard) := by
    rw [needsBrackets, decide_eq_true (Nat.le_refl _), Bool.and_true]
  rw [hneeds] at hfits
  refine ⟨hfits.levels, fun hc => ?_⟩
  have hmem := hfits.brackets hc
  obtain ⟨tail, htail⟩ := exists_tail_of_scan hscan (Text.trimmed_trim s)
  apply mem_of_mem_trim
  rw [htail, (eq_of_leading? (ofText_prefixed_cases hterm)).1]
  exact List.mem_append_left tail (List.mem_append_right sign hmem)

/-- What is left of a level when brackets around it are not taken off. -/
theorem fits_unstripped {n r : Nat} {op s : Text} {e : Expr} (ih : FitsBelow isName n)
    (hs : stripBrackets (Text.trim s) = Text.trim s)
    (h : parseLevel .standard (n + 1) op s = .ok e)
    (ht : ∀ term ∈ e.terms, Arithmetic isName term)
    (hr : ∀ ls, Lexeme.scan .standard {} (Text.trim s) = .ok ls →
      ∀ op k, Lexeme.operator op k ∈ ls → r < k) :
    Fits (n + 1) s (e.phrase.enclosed (needsBrackets .standard r e)) := by
  obtain ⟨ls, hscan, hlevel⟩ := parseLevel_iff.1 h
  rw [hs] at hscan
  have hbody := Text.trimmed_trim s
  obtain ⟨tail, htail⟩ := exists_tail_of_scan hscan hbody
  have hmem : ∀ c ∈ Text.trim (Lexeme.text ls), c ∈ s := by
    intro c hc
    apply mem_of_mem_trim
    rw [htail]
    exact List.mem_append_left tail hc
  cases hlevel with
  | leaf hnone hterm =>
    apply fits_leaf
    intro hc
    rcases ofText_leaf_cases hterm with rfl | rfl
    · exact absurd hc (by decide)
    · exact hmem _ hc
  | prefixed hnone hterm hin =>
    have hsign := isUnary_of_leading? (ofText_prefixed_cases hterm)
    exact fits_prefixed hsign
      (fits_of_operand ih hscan hnone hterm hin (ht _ List.mem_cons_self))
  | @call head arguments inner hnone hterm hin =>
    obtain ⟨hshaped, ho⟩ := shaped_of_parseLevel hin
    obtain ⟨gap, behind, hsplit⟩ := call_shape (Text.trimmed_trim _) hterm
    have hbracket : '(' ∈ Text.trim (Lexeme.text ls) := by
      rw [hsplit]
      exact List.mem_append_right head (List.mem_append_right gap List.mem_cons_self)
    have hinner : ∀ term ∈ inner.terms, Arithmetic isName term := by
      intro term hm
      rw [callNode] at ht
      split at ht
      · split at ht
        · exact ht term hm
        · exact ht term hm
      · exact (ht inner List.mem_cons_self).of_mem hm
    have hfits := ih.top hin hinner
    refine fits_call (headName_of_call hbody hscan hterm) hshaped ho ⟨hfits.levels, fun _ => ?_⟩ ?_ ht
    · exact hmem _ hbracket
    · exact hmem _ hbracket
  | @chain k label first more hk hlabel hfirst hmore =>
    obtain ⟨⟨hbinary, hrank⟩, hne, hpiece⟩ := chain_spec hscan hk hlabel hmore
    obtain ⟨⟨op', hop'⟩, -⟩ := Lexeme.loosest?_spec hk
    have hrk : r < (⟨label, op, first :: more⟩ : Expr).binding .standard := by
      rw [binding_chain (ne_nil_of_isBinary hbinary) hne, hrank]
      exact hr ls hscan op' k hop'
    rw [needsBrackets_of_binding (.inr hrk), phrase_chain hbinary hne, hrank]
    apply fits_phraseChain
    · intro e he
      obtain ⟨p, -, hparse, hop⟩ := hpiece e he
      rw [(shaped_of_parseLevel hparse).2]
      exact hop
    · intro e he
      rcases List.mem_cons.1 he with rfl | hm
      · exact fits_of_split ih hscan hk (.inl rfl) hfirst (ht _ he)
      · obtain ⟨p, hp, hparse, -⟩ := hpiece e hm
        exact fits_of_split ih hscan hk (.inr ⟨p.1, hp⟩) hparse (ht _ he)

/-- A formula that is parsed within `n` levels is written within `n` levels. -/
theorem fitsBelow (n : Nat) : FitsBelow isName n := by
  induction n with
  | zero =>
    intro op s e r h
    cases h
  | succ n ih =>
    intro op s e r h ht hr
    by_cases hs : stripBrackets (Text.trim s) = Text.trim s
    · exact fits_unstripped ih hs h ht hr
    · -- what is in the brackets is parsed on the same level, and has no brackets
      obtain ⟨inner, htrim, hinner⟩ : ∃ inner, Text.trim s = '(' :: inner ++ [')'] ∧ '(' ∉ inner := by
        unfold stripBrackets at hs
        split at hs
        · rename_i inner htrim
          split at hs
          · rename_i hlast
            refine ⟨inner.dropLast, ?_, fun hm => hlast.2 (List.dropLast_subset inner hm)⟩
            rw [htrim, List.cons_append, List.dropLast_append_getLast? _ hlast.1]
          · exact absurd rfl hs
        · exact absurd rfl hs
      have hno : '(' ∉ Text.trim inner := fun hm => hinner (mem_of_mem_trim hm)
      have hhead : (Text.trim inner).head? ≠ some '(' := fun hh => hno (List.mem_of_mem_head? hh)
      have htrimmed : Text.trim (Text.trim inner) = Text.trim inner := (Text.trimmed_trim inner).trim_eq
      have hbody : stripBrackets (Text.trim (Text.trim inner)) = Text.trim (Text.trim inner) := by
        rw [htrimmed]
        exact stripBrackets_of_head hhead
      have hstrip : stripBrackets (Text.trim s) = stripBrackets (Text.trim (Text.trim inner)) := by
        rw [hbody, htrim, htrimmed]
        exact stripBrackets_bracketed hinner
      rw [parseLevel_congr hstrip] at h
      have hfits := fits_unstripped (r := 0) ih hbody h ht fun ls hls op k hm => rank_pos_of_scan hls hm
      rw [needsBrackets_of_binding (by omega)] at hfits
      have hopen : '(' ∈ s := by
        apply mem_of_mem_trim
        rw [htrim]
        exact List.mem_cons_self
      exact Fits.enclosed hfits hno hopen _

theorem levels_of_parseLevel {n : Nat} {op s : Text} {e : Expr}
    (h : parseLevel .standard n op s = .ok e) (he : Arithmetic isName e) : e.phrase.levels ≤ n :=
  (FitsBelow.top (fitsBelow n) h fun _ hm => he.of_mem hm).levels

end Formula
end Lineshape
