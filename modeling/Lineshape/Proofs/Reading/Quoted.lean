import Lineshape.Proofs.Reading.Assigned

/-! # Strings between quotes

A string is written between quotes, and nothing in it is changed. If it has no quotes it is read back
as it was: the parser finds a single word between the quotes, whatever separators, operators, brackets
or blanks are in the string, and the word without its quotes is the string. The same is true if the
quotes in it enclose nothing that would end a word, since these parts come to stand outside of quotes.

* `Place`: where a string is kept, in an attribute of a function or by a composite for a member.
* `Place.exists_set`: a string that was put in a place can be put again in every like place.
* `Reader.Sets`: what an item does that is meant for a place.
* `Reader.Survives`: the item of a string is one item among others, and sets the string again.
* `Reader.survives_of_set`: this is so for every quotable string that a place takes, and never for one
  with an odd number of quotes.
* `Reader.survives_of_sound`: in the functions of the built-in types the key of a place is no obstacle.
-/

namespace Lineshape
set_option autoImplicit false

/-! ## Places for strings -/

/-- A place for a string: an attribute of a function, or one that a composite keeps for a member. -/
inductive Place where
  /-- An attribute of a function. -/
  | own (key : Text)
  /-- An attribute that a composite keeps for the member with this number. -/
  | kept (attr : Text) (i : Nat)

namespace Place

/-- The key of the items that set what is in the place. -/
def key : Place → Text
  | own key => key
  | kept attr _ => '$' :: attr

/-- What is in the place. -/
def get (m : Model) : Place → Except ModelError Attribute
  | own key => m.getAttribute key
  | kept attr i => m.localAttribute i attr

/-- Put what a text stands for in the place. -/
def set (s : Text) (m : Model) : Place → Except ModelError Model
  | own key => m.setAttributeText key s
  | kept attr i => m.setLocal i attr s

end Place

/-- The shape of a curve. -/
def Model.shape? : Model → Option Shape
  | curve c => some c.shape
  | composite _ _ => none

theorem Attribute.reread_string (name s old : Text) :
    reread name s (.string old) = .ok (.string (Text.trim s)) := rfl

/-- Only a string is replaced by a string. -/
theorem Attribute.exists_string_of_reread {value : Attribute} {name s t : Text}
    (h : value.reread name s = .ok (.string t)) : ∃ old, value = .string old := by
  have htype := (trimmed_of_reread h).1
  cases value with
  | string old => exact ⟨old, rfl⟩
  | int | double | bool | vector => cases htype

namespace Place

variable {p : Place} {m m' m₂ : Model} {s t old : Text}

/-- What is put in a place depends on the text, and on what was there. -/
theorem set_cases (hset : p.set t m = .ok m') : ∃ name old value, p.get m = .ok old ∧
    old.reread name t = .ok value ∧ p.get m' = .ok value ∧
      ∀ key, p = own key → m.setAttribute key value = .ok m' := by
  cases p with
  | own key =>
    obtain ⟨old, value, hold, hreread, hset⟩ := Model.setAttributeText_eq_ok hset
    refine ⟨key, old, value, Slots.get_eq_ok.2 hold, hreread, Slots.get_eq_ok.2 ?_, ?_⟩
    · rw [(Model.setAttribute_eq_ok hset).1, Named.get?_set_self]
      rw [Named.has, hold]
      rfl
    · rintro _ ⟨⟩
      exact hset
  | kept attr i =>
    cases m with
    | curve c => cases hset
    | composite c members =>
      obtain ⟨mem, old, value, hmem, hold, hreread, rfl⟩ := Model.setLocal_eq_ok hset
      refine ⟨attr, old, value, Model.localAttribute_eq_ok.2 ⟨mem, hmem, hold⟩, hreread,
        Model.localAttribute_eq_ok.2 ⟨_, List.getElem?_set_self ?_, Named.get?_set_self ?_⟩, by simp⟩
      · exact (List.getElem?_eq_some_iff.1 hmem).1
      · rw [Named.has, hold]
        rfl

/-- A place for strings keeps the text without blanks around it. -/
theorem get_of_set (hset : p.set t m = .ok m') (hold : p.get m = .ok (.string old)) :
    p.get m' = .ok (.string (Text.trim t)) := by
  obtain ⟨name, other, value, hother, hreread, hvalue, -⟩ := set_cases hset
  cases hother.symm.trans hold
  cases hreread
  exact hvalue

theorem exists_setAttributeText {key : Text} (hs : Text.Trimmed s) (hshape : m₂.shape? = m.shape?)
    (hset : m.setAttribute key (.string s) = .ok m')
    (hold : Named.get? key m₂.attributes = some (.string old)) :
    ∃ m₂', m₂.setAttributeText key s = .ok m₂' := by
  have hreplace (owner : Text) : m₂.attributes.replace owner key (.string s) =
      .ok (Named.set key (.string s) m₂.attributes) := Slots.replace_of_get hold rfl
  obtain ⟨m₂', hset₂⟩ : ∃ m₂', m₂.setAttribute key (.string s) = .ok m₂' := by
    cases m₂ with
    | composite c₂ members₂ => exact ⟨_, Result.bind_eq_ok.2 ⟨_, hreplace _, rfl⟩⟩
    | curve c₂ =>
      cases m with
      | composite c members => cases hshape
      | curve c =>
        obtain ⟨c', hc', -⟩ := Result.map_eq_ok.1 hset
        obtain ⟨other, hother, -, hchanged⟩ := Curve.setAttribute_eq_ok hc'
        have hshape' : c₂.shape = c.shape := Option.some.inj hshape
        have hget : Named.get? key (Named.set key (.string s) c₂.attributes) =
            Named.get? key (Named.set key (.string s) c.attributes) := by
          rw [Named.get?_set_self, Named.get?_set_self]
          · rw [Named.has, hother]
            rfl
          · rw [Named.has, show Named.get? key c₂.attributes = _ from hold]
            rfl
        obtain ⟨c₂', hchanged₂⟩ : ∃ c₂', Curve.attributeChanged key
            { c₂ with attributes := Named.set key (.string s) c₂.attributes } = .ok c₂' :=
          Curve.exists_attributeChanged
            (c := { c with attributes := Named.set key (.string s) c.attributes }) hshape' hget hchanged
        exact ⟨.curve c₂', Result.map_eq_ok.2 ⟨c₂', Result.bind_eq_ok.2 ⟨_, hreplace _, hchanged₂⟩, rfl⟩⟩
  refine ⟨m₂', Result.bind_eq_ok.2 ⟨.string old, Slots.get_eq_ok.2 hold, ?_⟩⟩
  refine Result.bind_eq_ok.2 ⟨.string s, ?_, hset₂⟩
  rw [Attribute.reread_string, hs.trim_eq]

theorem exists_setLocal {attr : Text} {i : Nat} (h : m₂.localAttribute i attr = .ok (.string old)) :
    ∃ m₂', m₂.setLocal i attr s = .ok m₂' := by
  cases m₂ with
  | curve c₂ => cases h
  | composite c₂ members₂ =>
    obtain ⟨mem, hmem, hlocal⟩ := Model.localAttribute_eq_ok.1 h
    change members₂[i]? = some mem at hmem
    have hreplace : mem.locals.replace c₂.name attr (.string (Text.trim s)) =
        .ok (Named.set attr (.string (Text.trim s)) mem.locals) := Slots.replace_of_get hlocal rfl
    refine ⟨.composite c₂ (members₂.set i
      { mem with locals := Named.set attr (.string (Text.trim s)) mem.locals }), ?_⟩
    refine Result.bind_eq_ok.2 ⟨.string old, h, ?_⟩
    refine Result.bind_eq_ok.2 ⟨.string (Text.trim s), rfl, ?_⟩
    rw [hmem]
    exact Result.bind_eq_ok.2 ⟨_, hreplace, rfl⟩

/-- What was put in a place for strings can be put again in a like place. -/
theorem exists_set (hset : p.set t m = .ok m') (hget : p.get m' = .ok (.string s))
    (hshape : m₂.shape? = m.shape?) (hold : p.get m₂ = .ok (.string old)) :
    ∃ m₂', p.set s m₂ = .ok m₂' ∧ p.get m₂' = .ok (.string s) := by
  obtain ⟨name, other, value, -, hreread, hvalue, hown⟩ := set_cases hset
  cases hvalue.symm.trans hget
  have hs : Text.Trimmed s := (Attribute.trimmed_of_reread hreread).2 s rfl
  obtain ⟨m₂', hset₂⟩ : ∃ m₂', p.set s m₂ = .ok m₂' := by
    cases p with
    | own key => exact exists_setAttributeText hs hshape (hown key rfl) (Slots.get_eq_ok.1 hold)
    | kept attr i => exact exists_setLocal hold
  have hget₂ := get_of_set hset₂ hold
  rw [hs.trim_eq] at hget₂
  exact ⟨m₂', hset₂, hget₂⟩

/-! ### Keys of built-in types -/

theorem key_of_configured {c : Curve} {key : Text} (h : c.Configured)
    (hget : Named.get? key c.attributes = some (.string s)) : key = "Formula".toList := by
  have hmem := Named.mem_of_get? hget
  unfold Curve.Configured at h
  split at h
  · obtain ⟨n, -, hattributes, -⟩ := h
    simp [hattributes] at hmem
  · obtain ⟨n, start, stop, -, hattributes, -⟩ := h
    simp [hattributes] at hmem
  · obtain ⟨s, -, hattributes, -⟩ := h
    simp only [hattributes, List.mem_singleton, Prod.mk.injEq] at hmem
    exact hmem.1
  · obtain ⟨xs, ys, hattributes, -⟩ := h
    simp [hattributes] at hmem
  · simp [h.1] at hmem

/-- The places for strings that the built-in types have. -/
theorem key_of_sound (h : m.Sound) (hget : p.get m = .ok (.string s)) :
    p.key = "Formula".toList ∨ p.key = "$domains".toList := by
  cases p with
  | own key =>
    have hget : Named.get? key m.attributes = some (.string s) := Slots.get_eq_ok.1 hget
    cases h with
    | curve hc _ => exact .inl (key_of_configured hc hget)
    | @composite c members hc _ _ _ =>
      obtain ⟨b, hattributes⟩ := hc.attributes
      have hmem : (key, Attribute.string s) ∈ c.attributes := Named.mem_of_get? hget
      simp [hattributes] at hmem
  | kept attr i =>
    obtain ⟨mem, hmem, hlocal⟩ := Model.localAttribute_eq_ok.1 hget
    cases h with
    | curve _ _ => cases hmem
    | composite _ _ hkeeps _ =>
      obtain ⟨-, hlocals⟩ | ⟨default, s, -, -, hlocals⟩ := hkeeps mem (List.mem_of_getElem? hmem)
      · rw [hlocals] at hlocal
        cases hlocal
      · rw [hlocals] at hlocal
        obtain ⟨rfl, -⟩ | ⟨-, hnil⟩ := Named.get?_cons_eq_some.1 hlocal
        · exact .inr rfl
        · cases hnil

/-- Their keys are plain words. -/
theorem word_key_of_sound (h : m.Sound) (hget : p.get m = .ok (.string s)) :
    Word true p.key ∧ Text.Plain p.key := by
  rcases key_of_sound h hget with hkey | hkey
  all_goals rw [hkey]
  · exact ⟨.of_trace (by decide : Lexeme.trace .outside none _ = some .outside) (by decide) (by decide)
      (by simp), by decide⟩
  · exact ⟨.of_trace (by decide : Lexeme.trace .outside none _ = some .outside) (by decide) (by decide)
      (by simp), by decide⟩

end Place

/-! ## Items among others -/

namespace Reader

variable {r : Reader} {p : Place} {m m' m₂ m₂' : Model} {s t old : Text} {item value : Expr}

/-- What an item does that is meant for a place. Among the items of a function or of a header it sets
an attribute; or it is sent up from wherever it stands, and the composite keeps it. -/
def Sets (r : Reader) (item : Expr) (s : Text) (m m' : Model) : Place → Prop
  | .own _ => ∀ w, Act.Runs (r.readItem m item) w m' w ∧ Act.Runs (r.readHeaderItem m item) w m' w
  | .kept attr i =>
    (∀ w, Act.Runs (r.readTrailing [item]) w () { w with state := w.state.put attr s }) ∧
    (∀ w (new : Model), new.hasAttribute ('$' :: attr) = false →
      Act.Runs (r.readItem new item) w new { w with state := w.state.put attr s } ∧
      Act.Runs (r.readHeaderItem new item) w new { w with state := w.state.put attr s }) ∧
    (m.hasLocal attr = true → ∀ w, Act.Runs (keep m i [(attr, s)]) w m' w)

theorem sets_of_set (hassign : Item.assignment? item = some (p.key, value))
    (hunquoted : r.unquoted value = s) (hold : p.get m = .ok (.string old))
    (hset : p.set s m = .ok m') : r.Sets item s m m' p := by
  cases p with
  | own key =>
    have hhas : m.hasAttribute key = true := by
      rw [Model.hasAttribute, Named.has, Slots.get_eq_ok.1 hold]
      rfl
    intro w
    rw [readItem, readHeaderItem, hassign]
    dsimp only
    rw [readAssignment, Place.key, if_pos hhas, if_pos hhas, hunquoted]
    exact ⟨Act.runs_ofModel.2 ⟨hset, rfl⟩, Act.runs_ofModel.2 ⟨hset, rfl⟩⟩
  | kept attr i =>
    have hkey : Key.ofText (Place.kept attr i).key = .parent attr := ofText_eq_parent.2 rfl
    have hsend (w : Work Parents) : Act.Runs (r.sendUp attr value) w ()
        { w with state := w.state.put attr s } := runs_sendUp.2 (by rw [hunquoted])
    refine ⟨fun w => ?_, fun w new hfree => ?_, fun hlocal w => ?_⟩
    · rw [readTrailing, hassign]
      dsimp only
      rw [hkey]
      exact Act.runs_bind.2 ⟨(), _, hsend w, Act.runs_pure.2 ⟨rfl, rfl⟩⟩
    · have hnew : ¬ new.hasAttribute (Place.kept attr i).key = true := Bool.eq_false_iff.1 hfree
      rw [readItem, readHeaderItem, hassign]
      dsimp only
      rw [readAssignment, if_neg hnew, if_neg hnew, hkey]
      have hruns : Act.Runs (r.sendUp attr value >>= fun _ => pure new) w new
          { w with state := w.state.put attr s } :=
        Act.runs_bind.2 ⟨(), _, hsend w, Act.runs_pure.2 ⟨rfl, rfl⟩⟩
      exact ⟨hruns, hruns⟩
    · rw [keep, if_pos hlocal]
      exact Act.runs_bind.2 ⟨m', w, Act.runs_ofModel.2 ⟨hset, rfl⟩, Act.runs_pure.2 ⟨rfl, rfl⟩⟩

/-- A string survives being written between quotes, and read as this value. The item is read as one
item among any others, the value without its quotes is the string again, and the item sets the string
in every place that is like the one in `m`. -/
structure Survives (r : Reader) (p : Place) (m : Model) (s : Text) (value : Expr) : Prop where
  unquoted : r.unquoted value = s
  placed : ∀ n op before after items items', 3 ≤ n → before ++ after ≠ [] →
    List.Forall₂ (fun s e => Expr.Stands ',' n s e ∧ Sealed ';' s) before items →
    List.Forall₂ (fun s e => Expr.Stands ',' n s e ∧ Sealed ';' s) after items' →
    let text := List.intercalate [','] (before ++ Model.item p.key (Attribute.string s).modelText :: after)
    Sealed ';' text ∧ ∃ e, Expr.parseLevel .standard (n + 1) op text = .ok e ∧ e.name = [','] ∧
      e.terms.map (·.withOp []) =
        (items ++ ⟨['='], [], [⟨p.key, [], []⟩, value]⟩ :: items').map (·.withOp [])
  sets : ∀ m₂ old op, m₂.shape? = m.shape? → p.get m₂ = .ok (.string old) →
    ∃ m₂', p.set s m₂ = .ok m₂' ∧ p.get m₂' = .ok (.string s) ∧
      r.Sets ⟨['='], op, [⟨p.key, [], []⟩, value]⟩ s m₂ m₂' p

theorem unquoted_string (hr : r.operators = .standard) (s op : Text) :
    r.unquoted ⟨(Attribute.string s).modelText, op, []⟩ = s := by
  have htext : Expr.text ⟨(Attribute.string s).modelText, op, []⟩ = '"' :: s ++ ['"'] :=
    Number.text_leaf (by rintro ⟨⟩)
  rw [unquoted, render, hr]
  exact (congrArg Item.unquote htext).trans (Item.unquote_quoted s)

/-- The item of a quotable string is read wherever items stand. -/
theorem stands_string {key : Text} (hkey : Word true key) (hplain : Text.Plain key)
    (hs : s.Quotable) {n : Nat} (hn : 3 ≤ n) :
    Expr.Stands ',' n (Model.item key (Attribute.string s).modelText)
        ⟨['='], [], [⟨key, [], []⟩, ⟨(Attribute.string s).modelText, ['='], []⟩]⟩ ∧
      Sealed ';' (Model.item key (Attribute.string s).modelText) := by
  have hword : Word false (Attribute.string s).modelText := .of_quotable hs
  have hpiece : Piece (Attribute.string s).modelText := .quoted fun c hc => .of_quotable hs hc
  exact stands_assignment hkey hplain (.word hword) (Nat.le_succ 1) hpiece hn

theorem survives_of_quotable (hr : r.operators = .standard) (hkey : Word true p.key)
    (hplain : Text.Plain p.key) (hset : p.set t m = .ok m') (hget : p.get m' = .ok (.string s))
    (hs : s.Quotable) : r.Survives p m s ⟨(Attribute.string s).modelText, ['='], []⟩ where
  unquoted := unquoted_string hr s ['=']
  placed n op before after items items' hn hne hbefore hafter :=
    Expr.exists_parseLevel_among (stands_string hkey hplain hs hn) hne hbefore hafter op
  sets m₂ old op hshape hold := by
    obtain ⟨m₂', hset₂, hget₂⟩ := Place.exists_set hset hget hshape hold
    exact ⟨m₂', hset₂, hget₂, sets_of_set rfl (unquoted_string hr s ['=']) hold hset₂⟩

/-- The keys of built-in types never keep a quotable string from being read back. -/
theorem survives_of_sound (hr : r.operators = .standard) (hm : m.Sound) (hset : p.set t m = .ok m')
    (hget : p.get m' = .ok (.string s)) (hs : s.Quotable) : ∃ value, r.Survives p m s value := by
  obtain ⟨name, old, value, hold, hreread, hvalue, -⟩ := Place.set_cases hset
  cases hvalue.symm.trans hget
  obtain ⟨old, rfl⟩ := Attribute.exists_string_of_reread hreread
  obtain ⟨hkey, hplain⟩ := Place.word_key_of_sound hm hold
  exact ⟨_, survives_of_quotable hr hkey hplain hset hget hs⟩

end Reader

/-! ## Quotes in strings -/

/-- No text is read in which an item has a string with an odd number of quotes, while the quotes around
the item pair up. -/
theorem Expr.parseLevel_ne_of_odd {n : Nat} {op key s front back : Text} (hkey : '"' ∉ key)
    (hs : s.count '"' % 2 = 1) (hrest : (front ++ back).count '"' % 2 = 0) (e : Expr) :
    parseLevel .standard n op (front ++ Model.item key (Attribute.string s).modelText ++ back) ≠ .ok e := by
  intro h
  have heven := Nesting.even_of_run (balanced_of_parseLevel h)
  have hitem : (Model.item key (Attribute.string s).modelText).count '"' = s.count '"' + 2 := by
    have hnone := List.count_eq_zero.2 hkey
    simp [Model.item, Attribute.modelText, hnone]
  rw [List.count_append] at hrest
  rw [List.count_append, List.count_append, hitem] at heven
  simp only [Bool.toNat_false] at heven
  omega

namespace Reader

variable {r : Reader} {p : Place} {m m' : Model} {s t : Text}

/-- Strings are written between quotes as they are. A string survives this if it has no quotes, whatever
else is in it, and also if the quotes in it enclose only parts without quotes, brackets and operators.
With an odd number of quotes it spoils every text in which the other quotes pair up. -/
theorem survives_of_set (hr : r.operators = .standard) (hkey : Word true p.key)
    (hplain : Text.Plain p.key) (hset : p.set t m = .ok m') (hget : p.get m' = .ok (.string s)) :
    (s.Quotable → ∃ value, r.Survives p m s value) ∧
    (s.count '"' % 2 = 1 → ∀ n op front back e, (front ++ back).count '"' % 2 = 0 →
      Expr.parseLevel .standard n op
        (front ++ Model.item p.key (Attribute.string s).modelText ++ back) ≠ .ok e) := by
  have hquote : '"' ∉ p.key := fun hm => (hplain '"' hm).1 rfl
  constructor
  · intro hs
    exact ⟨_, survives_of_quotable hr hkey hplain hset hget hs⟩
  · intro hodd n op front back e hrest
    exact Expr.parseLevel_ne_of_odd hquote hodd hrest e

/-- A formula with separators and brackets, and with a word between quotes, among other items. -/
theorem survives_of_set_formula :
    let r : Reader := {}
    let m := Model.ofShape .userFunction
    let s := "x;(a,b)=d\"c\"".toList
    ∃ e item m', Expr.parseLevel .standard 4 []
        "name=UserFunction,Formula=\"x;(a,b)=d\"c\"\",a=2".toList = .ok e ∧
      e.terms.map (·.withOp []) = [⟨['='], [], [⟨"name".toList, [], []⟩, ⟨"UserFunction".toList, ['='], []⟩]⟩,
        item, ⟨['='], [], [⟨"a".toList, [], []⟩, ⟨"2".toList, ['='], []⟩]⟩] ∧
      (∀ w, Act.Runs (r.readItem m (item.withOp [','])) w m' w) ∧
      m'.getAttribute "Formula".toList = .ok (.string s) := by
  intro r m s
  have hword : ∀ key ∈ ["name".toList, "Formula".toList, "a".toList], Word true key := by
    intro key hkey
    have hsegment : ∀ key ∈ ["name".toList, "Formula".toList, "a".toList],
        isSegment key = true ∧ key ≠ Expr.emptyName := by decide
    exact (Unbroken.of_segment (hsegment key hkey).1 (hsegment key hkey).2).word
  have hname := stands_assignment (hword "name".toList (by decide)) (by decide)
    (Phrase.Tight.word (Word.of_dotted (by decide) : Word false "UserFunction".toList)) (by decide)
    (.of_plain (by decide) (by decide) (by decide)) (Nat.le_refl 3)
  have ha := stands_assignment (hword "a".toList (by decide)) (by decide)
    (Phrase.Tight.word (Word.of_digits (by decide) (by decide) : Word false "2".toList)) (by decide)
    (.of_plain (by decide) (by decide) (by decide)) (Nat.le_refl 3)
  have hold : (Place.own "Formula".toList).get m = .ok (.string []) := rfl
  have hcheck : ((Place.own "Formula".toList).set s m).toOption.any (fun _ => true) = true := by
    decide +kernel
  obtain ⟨m₁, hset, -⟩ := Result.exists_of_any hcheck
  have htrim : Text.trim s = s := by decide
  have hget : (Place.own "Formula".toList).get m₁ = .ok (.string s) := htrim ▸ Place.get_of_set hset hold
  have hparts : s = "x;(a,b)=d".toList ++ '"' :: ("c".toList ++ '"' :: []) := by decide
  have hquotable : Text.Quotable s := by
    rw [hparts]
    exact .paired (by decide) (by decide) (.free (by decide))
  obtain ⟨value, hsurvives⟩ := (survives_of_set (r := r) (p := .own "Formula".toList) rfl
    (hword "Formula".toList (by decide)) (by decide) hset hget).1 hquotable
  obtain ⟨-, e, he, -, hterms⟩ := hsurvives.placed 3 [] _ _ _ _ (Nat.le_refl 3) (by simp)
    (.cons hname .nil) (.cons ha .nil)
  obtain ⟨m', -, hget', hruns⟩ := hsurvives.sets m [] [','] rfl hold
  exact ⟨e, _, m', he, hterms, fun w => (hruns w).1, hget'⟩

/-- A formula with a comma between two quotes: its item is read as two. -/
theorem exists_divided_string :
    let r : Reader := {}
    let p : Place := .own "Formula".toList
    let s := "a\",\"b".toList
    ∃ m' e, p.set s (.ofShape .userFunction) = .ok m' ∧ p.get m' = .ok (.string s) ∧
      Expr.parse r.operators r.depth
        ("name=UserFunction,".toList ++ Model.item p.key (Attribute.string s).modelText) = .ok e ∧
      e.terms.length = 3 ∧
      ((r.readFunction e).run.run { state := [] }).1 = .error (.invalidInput "\"b\"".toList) := by
  intro r p s
  have hcheck : (p.set s (.ofShape .userFunction)).toOption.any (fun _ =>
      (Expr.parse r.operators r.depth ("name=UserFunction,".toList ++
        Model.item p.key (Attribute.string s).modelText)).toOption.any fun e =>
          decide (e.terms.length = 3) && match ((r.readFunction e).run.run { state := [] }).1 with
            | .error (.invalidInput part) => part = "\"b\"".toList
            | _ => false) = true := by
    decide +kernel
  obtain ⟨m', hset, hcheck⟩ := Result.exists_of_any hcheck
  obtain ⟨e, he, hcheck⟩ := Result.exists_of_any hcheck
  obtain ⟨hlength, hrefused⟩ := Bool.and_eq_true_iff.1 hcheck
  have hold : p.get (.ofShape .userFunction) = .ok (.string []) := rfl
  have htrim : Text.trim s = s := by decide
  have hget : p.get m' = .ok (.string s) := htrim ▸ Place.get_of_set hset hold
  refine ⟨m', e, hset, hget, he, of_decide_eq_true hlength, ?_⟩
  split at hrefused
  · rename_i part heq
    rw [heq, of_decide_eq_true hrefused]
  · cases hrefused

end Reader
end Lineshape
