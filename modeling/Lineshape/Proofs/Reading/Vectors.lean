import Lineshape.Proofs.Expr.Exchange
import Lineshape.Proofs.Reading.Assigned

/-! # Lists of numbers read back

The item of a list of numbers is read as one item, whatever stands around it, and its value gives the
list again (`Reader.exists_carried`).

The value has no brackets any more: without a number in them they are the empty leaf, with one number
they are this number, with more they are a list. When the value is written, a sign behind a comma has a
blank in front of it. A list is read with or without brackets, and blanks separate numbers as commas do,
so none of this changes the numbers. -/

namespace Lineshape
set_option autoImplicit false

/-- The item of a list of numbers is read wherever items stand. -/
theorem Attribute.stands_vector {key : Text} (hkey : Word true key) (hplain : Text.Plain key)
    (xs : List Float) {n : Nat} (hn : 5 ≤ n) :
    Expr.Stands ',' n (Model.item key (vector xs).modelText)
        ⟨['='], [], [⟨key, [], []⟩, (vectorPhrase xs).tree ['=']]⟩ ∧
      Sealed ';' (Model.item key (vector xs).modelText) := by
  have hhidden : (vector xs).Hidden := trivial
  have hpiece : Piece (vectorPhrase xs).text := by
    rw [text_vectorPhrase]
    exact hhidden.piece
  have hlevels : (vectorPhrase xs).levels < n := Nat.lt_of_le_of_lt (levels_vectorPhrase xs) hn
  rw [← text_vectorPhrase]
  exact Reader.stands_assignment_of_lt hkey hplain (tight_vectorPhrase xs 3) hpiece hlevels (by omega)

theorem Attribute.reread_vector (name op : Text) (xs ys : List Float) :
    (vector ys).reread name (Item.unquote ((vectorPhrase xs).tree op).text) = .ok (vector xs) := by
  obtain ⟨hread, htrimmed, hhead⟩ := vector?_text xs op
  have hsame : xs.map Number.reread = xs :=
    (List.map_congr_left fun x _ => Number.reread_eq (Number.read?_plain_self x)).trans (List.map_id xs)
  rw [Item.unquote_of_head hhead]
  refine reread_eq_ok htrimmed rfl ?_
  rw [type, read?, hread, hsame]
  rfl

namespace Reader

variable {r : Reader} {key : Text}

/-- A list of numbers survives being written in an item: the item is read as one assignment of a value
from which the list is read again. It may stand alone, or among items that can be read, which give a text
that can be a member of a sequence, or anywhere in a list that can be read as a whole. -/
structure Carries (r : Reader) (key : Text) (xs : List Float) (value : Expr) : Prop where
  alone : ∀ n op, 5 ≤ n →
    Expr.parseLevel .standard n op (Model.item key (Attribute.vector xs).modelText) =
      .ok ⟨['='], op, [⟨key, [], []⟩, value]⟩
  placed : ∀ n op before after items items', 5 ≤ n → before ++ after ≠ [] →
    List.Forall₂ (fun s e => Expr.Stands ',' n s e ∧ Sealed ';' s) before items →
    List.Forall₂ (fun s e => Expr.Stands ',' n s e ∧ Sealed ';' s) after items' →
    let text := List.intercalate [',']
      (before ++ Model.item key (Attribute.vector xs).modelText :: after)
    Sealed ';' text ∧ ∃ e, Expr.parseLevel .standard (n + 1) op text = .ok e ∧ e.name = [','] ∧
      e.terms.map (·.withOp []) =
        (items ++ ⟨['='], [], [⟨key, [], []⟩, value]⟩ :: items').map (·.withOp [])
  found : ∀ front behind n op e, Text.Between ',' front behind →
    let text := front ++ Model.item key (Attribute.vector xs).modelText ++ behind
    Text.Trimmed text → Sealed ';' text → Expr.parseLevel .standard n op text = .ok e →
    ∃ items items' o, e = ⟨[','], op, items ++ ⟨['='], o, [⟨key, [], []⟩, value]⟩ :: items'⟩
  reread : ∀ name ys,
    (Attribute.vector ys).reread name (r.unquoted value) = .ok (Attribute.vector xs)

/-- Every list of numbers survives being written in an item. -/
theorem exists_carried (hr : r.operators = .standard) (hkey : Word true key)
    (hplain : Text.Plain key) (xs : List Float) : ∃ value, r.Carries key xs value := by
  have hstands := fun n hn => Attribute.stands_vector hkey hplain xs (n := n) hn
  refine ⟨(Attribute.vectorPhrase xs).tree ['='], ?_, ?_, ?_, ?_⟩
  · intro n op hn
    exact Expr.parseLevel_withOp (hstands n hn).1.parse op
  · intro n op before after items items' hn hne hbefore hafter
    exact Expr.exists_parseLevel_among (hstands n hn) hne hbefore hafter op
  · intro front behind n op e hbetween text htrimmed hsealed hparse
    have hpart : Expr.IsPart ',' front _ behind _ :=
      ⟨⟨5, (hstands 5 (Nat.le_refl 5)).1⟩, hbetween, htrimmed, .inr hsealed⟩
    obtain ⟨items, items', o, -, rfl, -⟩ := hpart.exists_exchange rfl hparse
    exact ⟨items, items', o, rfl⟩
  · intro name ys
    rw [unquoted, render, hr]
    exact Attribute.reread_vector name ['='] xs ys

/-- Numbers that are not finite, between two other items. -/
theorem exists_carried_not_finite :
    let r : Reader := {}
    let xs : List Float := [-1.5, 1 / 0, 0 / 0]
    ∃ value e, Expr.parseLevel .standard 6 [] "name=Tabulated,X=(-1.5,inf,NaN),Y=()".toList = .ok e ∧
      e.terms.map (·.withOp []) = [
        ⟨['='], [], [⟨"name".toList, [], []⟩, ⟨"Tabulated".toList, ['='], []⟩]⟩,
        ⟨['='], [], [⟨['X'], [], []⟩, value]⟩,
        ⟨['='], [], [⟨['Y'], [], []⟩, ⟨Expr.emptyName, ['='], []⟩]⟩] ∧
      ∀ name ys, (Attribute.vector ys).reread name (r.unquoted value) = .ok (Attribute.vector xs) := by
  intro r xs
  have hword : ∀ key ∈ ["name".toList, ['X'], ['Y']], Word true key := by
    intro key hkey
    have hsegment : ∀ key ∈ ["name".toList, ['X'], ['Y']],
        isSegment key = true ∧ key ≠ Expr.emptyName := by decide
    exact (Unbroken.of_segment (hsegment key hkey).1 (hsegment key hkey).2).word
  have htext : (Attribute.vector xs).modelText = "(-1.5,inf,NaN)".toList := by decide +kernel
  have hname := stands_assignment_of_lt (n := 5) (hword "name".toList (by decide)) (by decide)
    (Phrase.Tight.word (Word.of_dotted (by decide) : Word false "Tabulated".toList))
    (.of_plain (by decide) (by decide) (by decide)) (by decide) (by decide)
  have hempty := Attribute.stands_vector (hword ['Y'] (by decide)) (by decide) [] (Nat.le_refl 5)
  obtain ⟨value, hvalue⟩ := exists_carried (r := r) rfl (hword ['X'] (by decide)) (by decide) xs
  obtain ⟨-, e, he, -, hterms⟩ := hvalue.placed 5 [] _ _ _ _ (Nat.le_refl 5) (by simp)
    (.cons hname .nil) (.cons hempty .nil)
  rw [htext] at he
  exact ⟨value, e, he, hterms, hvalue.reread⟩

end Reader
end Lineshape
