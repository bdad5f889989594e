import Lineshape.Model.Text
import Lineshape.Proofs.Curve.Rebuilt
import Lineshape.Proofs.Expr.Identifiers
import Lineshape.Proofs.Expr.Sealed
import Lineshape.Proofs.Model.Names
import Lineshape.Proofs.Model.Sound
import Lineshape.Proofs.Model.Spelling
import Lineshape.Proofs.Model.Values

/-! # Pieces of model texts

The text of a model is put together from pieces with separators between them. A piece hides its
separators in brackets or quotes, so the parser finds only those between the pieces. Strings are the
one thing in a model text that may fail to do so, since quotes in them are written as they are
(`Attribute.Hidden`). -/

namespace Lineshape
set_option autoImplicit false

namespace Text

instance (s : Text) : Decidable (Plain s) :=
  inferInstanceAs (Decidable (∀ c ∈ s, c ≠ '"' ∧ c ≠ '(' ∧ c ≠ ')' ∧ Lexeme.isSeparator c = false))

variable {s t : Text}

theorem Plain.append (hs : Plain s) (ht : Plain t) : Plain (s ++ t) :=
  fun c hc => (List.mem_append.1 hc).elim (hs c) (ht c)

theorem Plain.cons {c : Char} (hc : Plain [c]) (hs : Plain s) : Plain (c :: s) := hc.append hs

theorem plain_of_name (h : ∀ c ∈ s, continuesName c = true ∨ c ∈ ['.', '-', '+']) : Plain s := by
  intro c hc
  have hne : ∀ d : Char, continuesName d = false → d ∉ ['.', '-', '+'] → c ≠ d := by
    rintro d hd hd' rfl
    rcases h c hc with hname | hsign
    · rw [hd] at hname
      cases hname
    · exact hd' hsign
  refine ⟨hne '"' (by decide) (by decide), hne '(' (by decide) (by decide),
    hne ')' (by decide) (by decide), ?_⟩
  rw [Lexeme.isSeparator, decide_eq_false (hne ',' (by decide) (by decide)),
    decide_eq_false (hne ';' (by decide) (by decide))]
  rfl

theorem plain_of_dotted (h : isDotted s = true) : Plain s :=
  plain_of_name fun _ hc => (dotted_char h hc).imp_right fun he => List.mem_cons.2 (.inl he)

theorem plain_of_digits (h : s.all Char.isDigit = true) : Plain s :=
  plain_of_name fun c hc => .inl (continuesName_of_isDigit (List.all_eq_true.1 h c hc))

theorem plain_of_read {x : Float} (h : Number.read? s = some x) : Plain s := by
  refine plain_of_name fun c hc => (Number.mem_of_read h hc).imp_left fun hc => ?_
  rw [Char.isAlphanum, Bool.or_eq_true] at hc
  rcases hc with hc | hc
  · rw [continuesName, isLetter_of_isAlpha hc]
    rfl
  · exact continuesName_of_isDigit hc

end Text

/-- A text that hides its separators and ends in a character that is neither one nor a blank. -/
structure Piece (s : Text) : Prop where
  hidden : ∀ c, Lexeme.isSeparator c = true → Sealed c s
  nonEmpty : s ≠ []
  last : ∀ c ∈ s.getLast?, Text.isBlank c = false ∧ Lexeme.isSeparator c = false

namespace Piece

variable {s front key : Text}

theorem balanced (h : Piece s) : Balanced s := (h.hidden ',' rfl).balanced

theorem chunk (h : Piece s) {c : Char} (hc : Lexeme.isSeparator c = true) : Chunk c s where
  toSealed := h.hidden c hc
  nonEmpty := h.nonEmpty
  closed d hd := (h.last d hd).2

theorem of_plain (h : Text.Plain s) (hne : s ≠ []) (ht : Text.Trimmed s) : Piece s where
  hidden _ hc := .plain h.balanced (h.not_mem hc)
  nonEmpty := hne
  last c hc := ⟨ht.2 c hc, (h c (List.mem_of_getLast? hc)).2.2.2⟩

theorem append (hfront : Text.Plain front) (h : Piece s) : Piece (front ++ s) where
  hidden c hc := (Sealed.plain hfront.balanced (hfront.not_mem hc)).append (h.hidden c hc)
  nonEmpty := List.append_ne_nil_of_right_ne_nil front h.nonEmpty
  last c hc := h.last c (by rwa [List.getLast?_append_of_ne_nil _ h.nonEmpty] at hc)

theorem bracketed (h : Balanced s) : Piece ('(' :: s ++ [')']) where
  hidden _ hc := .bracketed h hc
  nonEmpty := List.cons_ne_nil _ _
  last c hc := by
    rw [List.getLast?_append_of_ne_nil _ (List.cons_ne_nil _ _)] at hc
    cases hc
    decide

theorem quoted (h : ∀ c, Lexeme.isSeparator c = true → Sealed c ('"' :: s ++ ['"'])) :
    Piece ('"' :: s ++ ['"']) where
  hidden := h
  nonEmpty := List.cons_ne_nil _ _
  last c hc := by
    rw [List.getLast?_append_of_ne_nil _ (List.cons_ne_nil _ _)] at hc
    cases hc
    decide

theorem item (hkey : Text.Plain key) (h : Piece s) : Piece (Model.item key s) := by
  have hequals : Text.Plain (key ++ ['=']) := hkey.append (by decide)
  have hitem := h.append hequals
  rwa [List.append_assoc] at hitem

theorem number (x : Float) : Piece (Number.plain x) := by
  obtain ⟨y, hy⟩ := Number.exists_read_plain x
  exact .of_plain (Text.plain_of_read hy) (Number.ne_nil_of_read hy) (Attribute.trimmed_of_read hy)

end Piece

theorem balanced_intercalate {texts : List Text} (h : ∀ s ∈ texts, Balanced s) :
    Balanced (List.intercalate [','] texts) := by
  cases texts with
  | nil => exact Balanced.nil
  | cons first more =>
    obtain ⟨hfirst, hmore⟩ := List.forall_mem_cons.1 h
    rw [Text.intercalate_cons]
    exact hfirst.append (Expr.balanced_join rfl hmore)

theorem Text.trimmed_join {c : Char} {front : Text} {more : List Text} (hfront : Trimmed front)
    (hne : front ≠ []) (hmore : ∀ s ∈ more, s ≠ [] ∧ ∀ c ∈ s.getLast?, isBlank c = false) :
    Trimmed (front ++ more.flatMap (c :: ·)) := by
  rcases List.eq_nil_or_concat more with rfl | ⟨init, s, rfl⟩
  · rwa [List.flatMap_nil, List.append_nil]
  · obtain ⟨hs, hlast⟩ := hmore s (by simp)
    rw [List.concat_eq_append, List.flatMap_append, List.flatMap_singleton, ← List.append_assoc]
    refine ⟨fun d hd => hfront.1 d ?_, fun d hd => hlast d ?_⟩
    · rwa [List.append_assoc, List.head?_append_of_ne_nil _ hne] at hd
    · rwa [← List.singleton_append, ← List.append_assoc, List.getLast?_append_of_ne_nil _ hs] at hd

/-- A part of a sequence, between two semicolons. -/
structure Segment (s : Text) : Prop extends Chunk ';' s where
  trimmed : Text.Trimmed s

namespace Segment

variable {front s : Text} {more : List Text}

theorem of_pieces (hfront : Piece front) (ht : Text.Trimmed front) (hmore : ∀ s ∈ more, Piece s) :
    Segment (front ++ more.flatMap (',' :: ·)) where
  toSealed := by
    refine (hfront.hidden ';' rfl).append (.flatMap fun s hs => ?_)
    exact (Sealed.plain rfl (by decide) : Sealed ';' [',']).append ((hmore s hs).hidden ';' rfl)
  nonEmpty := List.append_ne_nil_of_left_ne_nil hfront.nonEmpty _
  closed d hd := by
    rcases List.eq_nil_or_concat more with rfl | ⟨init, s, rfl⟩
    · rw [List.flatMap_nil, List.append_nil] at hd
      exact (hfront.last d hd).2
    · have hs := hmore s (by simp)
      rw [List.concat_eq_append, List.flatMap_append, List.flatMap_singleton, ← List.append_assoc,
        ← List.singleton_append, ← List.append_assoc, List.getLast?_append_of_ne_nil _ hs.nonEmpty] at hd
      exact (hs.last d hd).2
  trimmed := Text.trimmed_join ht hfront.nonEmpty fun s hs =>
    ⟨(hmore s hs).nonEmpty, fun d hd => ((hmore s hs).last d hd).1⟩

end Segment

/-! ## Values -/

namespace Attribute

/-- Strings have their separators in quotes or brackets when they are written between quotes. -/
def Hidden : Attribute → Prop
  | string s => Sealed ',' ('"' :: s ++ ['"']) ∧ Sealed ';' ('"' :: s ++ ['"'])
  | int _ | double _ | bool _ | vector _ => True

instance (value : Attribute) : Decidable value.Hidden := by
  cases value <;> unfold Hidden <;> infer_instance

theorem Hidden.piece {value : Attribute} (h : value.Hidden) : Piece value.modelText := by
  cases value with
  | int n =>
    have hnatural : ∀ k, Piece (Text.ofNat k) := by
      intro k
      obtain ⟨hne, hdigits⟩ := Literal.natural?_eq_some (Whole.natural?_ofNat k)
      exact .of_plain (Text.plain_of_digits hdigits) hne (Word.of_digits hne hdigits).trimmed
    cases n with
    | ofNat k => exact hnatural k
    | negSucc k => exact .append (by decide : Text.Plain ['-']) (hnatural (k + 1))
  | double x => exact .number x
  | bool b =>
    cases b with
    | true | false => exact .of_plain (by decide) (by decide) (by decide)
  | string s =>
    refine .quoted fun c hc => ?_
    rcases Lexeme.isSeparator_iff.1 hc with rfl | rfl
    · exact h.1
    · exact h.2
  | vector xs =>
    refine .bracketed (balanced_intercalate fun s hs => ?_)
    obtain ⟨x, -, rfl⟩ := List.mem_map.1 hs
    exact (Piece.number x).balanced

end Attribute

/-! ## Names -/

theorem Curve.Configured.plain_parameter {c : Curve} (h : c.Configured) {name : Text}
    (hname : name ∈ Named.names c.parameters) : Text.Plain name := by
  by_cases huser : c.shape = .userFunction
  · unfold Configured at h
    rw [huser] at h
    obtain ⟨s, -, -, hblank | hformula⟩ := h
    · rw [hblank.2.2] at hname
      cases hname
    · obtain ⟨-, formula, hparse, -, hnames⟩ := hformula
      have hmem := (List.mem_filter.1 (hnames ▸ hname : name ∈ formulaParameters formula)).1
      exact (Expr.tidy_of_parseLevel hparse).plain name (Text.mem_sortDistinct.1 hmem)
  · have hkey := h.parameterKey (fun he => absurd he huser) name hname
    exact Text.plain_of_dotted (isDotted_of_isSegment hkey.segment)

namespace Model

variable {m : Model} {c : Curve}

theorem Sound.plain_parameter (h : m.Sound) {name : Text} (hname : m.hasParameter name = true) :
    Text.Plain name := by
  induction h generalizing name with
  | curve hc _ =>
    rw [hasParameter_curve] at hname
    exact hc.plain_parameter (Named.has_iff_mem_names.1 hname)
  | composite _ _ _ _ ih =>
    obtain ⟨i, inner, mem, hsplit, hmem, hinner⟩ := hasParameter_composite.1 hname
    obtain ⟨sign, digits, hsign, -, hdigits, rfl⟩ := Qualified.exists_of_split? hsplit
    have hplain : Text.Plain inner := ih mem (List.mem_of_getElem? hmem) hinner
    refine .cons (by decide) (.append ?_ ((Text.plain_of_digits hdigits).append (.cons (by decide) hplain)))
    rcases hsign with rfl | rfl <;> decide

/-! ## Ties and bounds -/

theorem Sound.balanced_tie (h : m.Sound) {tie : Tie} (htie : tie ∈ m.ties) : Balanced tie.text := by
  obtain ⟨hhas, ⟨s, hparse⟩, -⟩ := h.attached.ties tie htie
  obtain ⟨said, hsays⟩ := (Expr.tidy_of_parseLevel hparse).written
  exact (h.plain_parameter hhas).balanced.append ((show Balanced ['='] from rfl).append hsays.balanced)

theorem Sound.balanced_bound (h : m.Sound) {b : Bound} (hb : b ∈ m.bounds) :
    ∀ s ∈ b.items, Balanced s := by
  have hless : Balanced ['<'] := rfl
  have hname := (h.plain_parameter (h.attached.bounds b hb).1).balanced
  have hnumber : ∀ x, Balanced (Number.plain x) := fun x => (Piece.number x).balanced
  have htext : Balanced b.text := by
    rw [Bound.text.eq_def]
    split
    · exact ((hnumber _).append (hless.append hname)).append (hless.append (hnumber _))
    · exact (hnumber _).append (hless.append hname)
    · exact hname.append (hless.append (hnumber _))
    · exact hname
  rw [Bound.items]
  split
  · exact List.forall_mem_cons.2 ⟨htext, List.forall_mem_singleton.2 (.append rfl (hnumber _))⟩
  · exact List.forall_mem_singleton.2 htext

/-- A list of ties or of bounds as an item. -/
def IsSection (s : Text) : Prop :=
  ∃ key inner, (key = "ties".toList ∨ key = "constraints".toList) ∧ Balanced inner ∧
    s = item key ('(' :: inner ++ [')'])

theorem IsSection.piece {s : Text} (h : IsSection s) : Piece s := by
  obtain ⟨key, inner, hkey, hinner, rfl⟩ := h
  refine .item ?_ (.bracketed hinner)
  rcases hkey with rfl | rfl <;> decide

theorem Sound.exists_sections (h : m.Sound) : ∃ items : List Text, (∀ s ∈ items, IsSection s) ∧
    ∀ separator, sections separator m.ties m.bounds = items.flatMap (separator :: ·) := by
  have hpart : ∀ key ∈ ["ties".toList, "constraints".toList], ∀ texts : List Text,
      (∀ s ∈ texts, Balanced s) → ∃ items : List Text, (∀ s ∈ items, IsSection s) ∧
        ∀ separator : Char, (if texts.isEmpty then [] else separator ::
          item key ('(' :: List.intercalate [','] texts ++ [')'])) = items.flatMap (separator :: ·) := by
    intro key hkey texts htexts
    cases texts with
    | nil => exact ⟨[], List.forall_mem_nil _, fun _ => rfl⟩
    | cons s texts =>
      refine ⟨[_], List.forall_mem_singleton.2 ⟨key, _, by simpa using hkey,
        balanced_intercalate htexts, rfl⟩, fun separator => ?_⟩
      exact (List.append_nil _).symm
  obtain ⟨ties, hties, htied⟩ := hpart "ties".toList (by decide) (m.ties.map Tie.text) fun s hs => by
    obtain ⟨tie, htie, rfl⟩ := List.mem_map.1 hs
    exact h.balanced_tie htie
  obtain ⟨bounds, hbounds, hbounded⟩ := hpart "constraints".toList (by decide)
    ((m.bounds.filter (!·.isDefault)).flatMap Bound.items) fun s hs => by
      obtain ⟨b, hb, hs⟩ := List.mem_flatMap.1 hs
      exact h.balanced_bound (List.mem_filter.1 hb).1 s hs
  refine ⟨ties ++ bounds, fun s hs => (List.mem_append.1 hs).elim (hties s) (hbounds s),
    fun separator => ?_⟩
  rw [List.flatMap_append, ← htied, ← hbounded]
  rfl

/-! ## Curves -/

theorem slotItems_eq (mark : Text) (slots : Slots) : slotItems mark slots =
    (slots.map fun slot => item (mark ++ slot.1) slot.2.modelText).flatMap (',' :: ·) := by
  rw [List.flatMap_map, slotItems]
  refine congrArg (List.flatMap · slots) (funext fun slot => ?_)
  obtain ⟨name, value⟩ := slot
  exact congrArg (',' :: ·) (List.append_assoc mark name _).symm

theorem pieces_slots {mark : Text} {slots : Slots}
    (h : ∀ slot ∈ slots, Text.Plain (mark ++ slot.1) ∧ slot.2.Hidden) :
    ∀ s ∈ slots.map fun slot => item (mark ++ slot.1) slot.2.modelText, Piece s := by
  intro s hs
  obtain ⟨slot, hslot, rfl⟩ := List.mem_map.1 hs
  exact .item (h slot hslot).1 (h slot hslot).2.piece

theorem Sound.exists_curve_pieces (h : (Model.curve c).Sound) (hhidden : ∀ slot ∈ c.attributes, slot.2.Hidden) :
    ∃ items : List Text, (∀ s ∈ items, Piece s) ∧
      curveText c = item "name".toList c.shape.name ++ items.flatMap (',' :: ·) := by
  have hc : c.Configured := by
    cases h
    assumption
  obtain ⟨sections, hsections, htext⟩ := h.exists_sections
  have hattributes : ∀ s ∈ c.attributes.map fun slot => item ([] ++ slot.1) slot.2.modelText, Piece s :=
    pieces_slots fun slot hslot =>
      ⟨Text.plain_of_dotted (hc.attribute_keys (List.mem_map_of_mem hslot)).1, hhidden slot hslot⟩
  have hparameters : ∀ s ∈ c.parameters.map fun p => item p.1 (Number.plain p.2), Piece s := by
    intro s hs
    obtain ⟨p, hp, rfl⟩ := List.mem_map.1 hs
    exact .item (hc.plain_parameter (List.mem_map_of_mem hp)) (.number p.2)
  refine ⟨_, List.forall_mem_append.2 ⟨List.forall_mem_append.2 ⟨hattributes, hparameters⟩,
    fun s hs => (hsections s hs).piece⟩, ?_⟩
  have htext := htext ','
  rw [ties, bounds] at htext
  rw [curveText, slotItems_eq, htext]
  simp only [List.append_assoc, List.flatMap_append, List.flatMap_map]

end Model
end Lineshape
