import Lineshape.Proofs.Reading.Curves
import Lineshape.Proofs.Reading.Rearranged
import Lineshape.Proofs.Reading.Skeleton

/-! # Headers of composites

The header of a composite is a list of items, its type first. Where a sequence begins with it, it
gives the composite without members (`Reader.exists_header`). In any other place the same list is a
function, and gives the same composite (`Reader.gives_readFunction_of_readHeader`). -/

namespace Lineshape
set_option autoImplicit false

open Reader (builtin)

namespace Model

variable {c : Composite}

/-- The header of a composite where it needs one, without the semicolon behind it. -/
def headerText (c : Composite) : Text :=
  item "composite".toList c.name ++ slotItems [] (c.attributes.filter (!Slots.unchanged c.defaults ·))

theorem header_cases (c : Composite) (size : Nat) : header c size = headerText c ++ [';'] ∨
    (header c size = [] ∧ c.name = Composite.plain.name ∧
      c.attributes.filter (!Slots.unchanged c.defaults ·) = [] ∧ 2 ≤ size) := by
  rw [header]
  split
  · exact .inl rfl
  · rename_i h
    simp only [not_or, not_not, Bool.not_eq_true, Bool.not_eq_false', not_lt, List.isEmpty_iff] at h
    exact .inr ⟨rfl, h⟩

end Model

namespace Reader

variable {c : Composite} {p : Phrase}

theorem isNode_of_functionItems {e head : Expr} {items : List Expr}
    (h : functionItems e = head :: items) : e.IsNode := by
  rw [functionItems] at h
  refine .inl ?_
  split at h
  · rename_i hform
    rw [Part.name_of_form.2.2 hform]
    exact List.cons_ne_nil _ _
  · rename_i hform
    rw [Part.name_of_form.2.1 hform]
    exact List.cons_ne_nil _ _
  · cases h

theorem typeName?_item {key type : Text} (hkey : key = "name".toList ∨ key = "composite".toList)
    (htype : type ≠ Expr.emptyName) (depth : Nat) (op : Text) :
    (builtin depth).typeName? ((Phrase.item key (.word type false)).tree op) = some type := by
  have hrender : (builtin depth).render ((Phrase.word type false).tree ['=']) = type :=
    Number.text_leaf htype
  rw [typeName?, Phrase.assignment?_item]
  rcases hkey with rfl | rfl
  · exact congrArg some hrender
  · exact congrArg some hrender

/-- What is written in a header: nothing besides the type, or the one attribute if it is set. -/
theorem header_slots (h : c.Configured) : c.defaults = [("NumDeriv".toList, .bool false)] ∧
    ∃ b : Bool, c.attributes = [("NumDeriv".toList, .bool b)] ∧
      c.attributes.filter (!Slots.unchanged c.defaults ·) =
        if b then [("NumDeriv".toList, .bool true)] else [] := by
  obtain ⟨⟨base, hbase, -, hdefaults, -⟩, b, hb⟩ := h
  have hnew : c.defaults = [("NumDeriv".toList, .bool false)] := by
    rcases List.mem_cons.1 hbase with rfl | hbase
    · exact hdefaults
    · cases List.mem_singleton.1 hbase
      exact hdefaults
  refine ⟨hnew, b, hb, ?_⟩
  rw [hb, hnew]
  cases b <;> rfl

theorem create_composite (h : c.Configured) : isDotted c.name = true ∧ c.name ≠ Expr.emptyName ∧
    Catalogue.builtin.createComposite c.name =
      .ok (.composite { c with attributes := c.defaults, ties := [], bounds := [] } []) := by
  obtain ⟨⟨base, hbase, hname, hdefaults, hlocals⟩, -⟩ := h
  obtain ⟨name, attributes, defaults, localDefaults, ties, bounds⟩ := c
  cases hname
  cases hdefaults
  cases hlocals
  rcases List.mem_cons.1 hbase with rfl | hbase
  · exact ⟨(by decide : isDotted Composite.plain.name = true),
      (by decide : Composite.plain.name ≠ Expr.emptyName), rfl⟩
  · cases List.mem_singleton.1 hbase
    exact ⟨(by decide : isDotted Composite.multiDomain.name = true),
      (by decide : Composite.multiDomain.name ≠ Expr.emptyName), rfl⟩

/-- A phrase writes the header of a composite. -/
structure WritesHeader (c : Composite) (p : Phrase) : Prop where
  tight : p.Tight 1
  text : p.text = Model.headerText c
  items : ∀ op, ∃ o items, functionItems (p.tree op) =
    (Phrase.item "composite".toList (.word c.name false)).tree o :: items
  gives : ∀ depth op s, Act.Gives ((builtin depth).readHeader (p.tree op)) s
    (.composite { c with ties := [], bounds := [] } []) s

/-- The phrase of the header of a composite. -/
theorem exists_header (h : c.Configured) : ∃ p, WritesHeader c p := by
  obtain ⟨hdefaults, b, hattributes, hchanged⟩ := header_slots h
  obtain ⟨hdotted, hname, hcreate⟩ := create_composite h
  have hkey : Word false "composite".toList := .of_dotted (by decide)
  have hvalue : (Phrase.word c.name false).Tight 3 := .word (.of_dotted hdotted)
  have hfirst := Phrase.tight_item hkey hvalue (Nat.le_refl 2)
  have hslots : ∀ slot ∈ c.attributes.filter (!Slots.unchanged c.defaults ·),
      Word false ([] ++ slot.1) ∧ slot.2.Tellable := by
    rw [hchanged]
    cases b
    · nofun
    · exact List.forall_mem_singleton.2 ⟨.of_dotted (by decide), trivial⟩
  obtain ⟨items, hitems, hlisted⟩ := Slots.exists_items [] (fun slot hslot => (hslots slot hslot).1)
    fun slot hslot => (hslots slot hslot).2
  have htight : ∀ p ∈ Phrase.item "composite".toList (.word c.name false) :: items, p.Tight 2 :=
    List.forall_mem_cons.2 ⟨hfirst, fun p hp => (hlisted.tight p hp).1⟩
  have hlist := functionItems_chain items hkey hvalue
  refine ⟨.chain [','] (.item "composite".toList (.word c.name false)) items,
    Phrase.tight_chain (by decide) (by decide) (by decide) htight, ?_,
    fun op => ⟨_, _, (hlist op).choose_spec⟩, fun depth op s => ?_⟩
  · rw [Phrase.text_chain, Model.headerText, ← hlisted.text]
    rfl
  · obtain ⟨o, ho⟩ := hlist op
    rw [readHeader, toList_of_functionItems ho]
    dsimp only
    rw [Phrase.assignment?_item]
    dsimp only
    have htype : (builtin depth).render ((Phrase.word c.name false).tree ['=']) = c.name :=
      Number.text_leaf hname
    rw [htype]
    refine .bind (Act.gives_ofModel hcreate) ?_
    rw [hchanged] at hitems
    rw [hattributes, hdefaults]
    cases b with
    | false =>
      cases hitems
      exact Act.gives_pure
    | true =>
      obtain ⟨p, rest, ⟨v, hv, rfl⟩, hnil, rfl⟩ := List.forall₂_cons_left_iff.1 hitems
      cases List.forall₂_nil_left_iff.1 hnil
      have hset : (Model.composite { c with
            attributes := [("NumDeriv".toList, .bool false)], defaults := [("NumDeriv".toList, .bool false)],
            ties := [], bounds := [] } []).setAttributeText "NumDeriv".toList
          (Item.unquote (v.tree ['=']).text) = .ok (.composite { c with
            attributes := [("NumDeriv".toList, .bool true)], defaults := [("NumDeriv".toList, .bool false)],
            ties := [], bounds := [] } []) :=
        Result.bind_eq_ok.2 ⟨.bool false, rfl,
          Result.bind_eq_ok.2 ⟨.bool true, hv.reread _ ['='] (.bool false) rfl, rfl⟩⟩
      refine .bind ?_ Act.gives_pure
      rw [readHeaderItem, Phrase.assignment?_item]
      exact Act.gives_ofModel hset

theorem WritesHeader.opening (h : WritesHeader c p) (op : Text) :
    Opening.of (p.tree op) = .header (p.tree op) := by
  obtain ⟨o, items, hitems⟩ := h.items op
  have hkey := Item.firstKey?_of_functionItems hitems
  rw [Phrase.assignment?_item] at hkey
  rw [Opening.of, (isNode_of_functionItems hitems).bracketsRemoved_eq, hkey]
  rfl

/-- The header of a composite has no brackets in it, so it can stand in brackets itself. -/
theorem WritesHeader.closed (h : WritesHeader c p) (hc : c.Configured) : (Phrase.closed p).Valid := by
  obtain ⟨-, b, -, hchanged⟩ := header_slots hc
  obtain ⟨base, hbase, hname, -⟩ := hc.type
  refine ⟨h.tight.valid, ?_⟩
  rw [h.text, Model.headerText, hchanged, hname]
  rcases List.mem_cons.1 hbase with rfl | hbase
  · cases b <;> decide
  · cases List.mem_singleton.1 hbase
    cases b <;> decide

theorem WritesHeader.openingName? (h : WritesHeader c p) (depth : Nat) (op : Text) :
    (builtin depth).openingName? (.header (p.tree op)) = some c.name := by
  obtain ⟨journal, hrun⟩ := h.gives depth op [] []
  obtain ⟨type, htype, hskeleton⟩ := openingName?_beginComposite (o := .header (p.tree op)) hrun
  rw [htype]
  cases hskeleton
  rfl

/-- A plain sum with the attributes of a new one needs no header. -/
theorem begins_plain (h : c.Configured) (hname : c.name = Composite.plain.name)
    (hchanged : c.attributes.filter (!Slots.unchanged c.defaults ·) = []) (depth : Nat) (s : Parents) :
    Act.Gives ((builtin depth).beginComposite .plain) s
      (.composite { c with ties := [], bounds := [] } []) s := by
  obtain ⟨hdefaults, b, hattributes, hslots⟩ := header_slots h
  obtain ⟨-, -, hcreate⟩ := create_composite h
  have heq : c.attributes = c.defaults := by
    rw [hchanged] at hslots
    cases b with
    | false => rw [hattributes, hdefaults]
    | true => cases hslots
  have hnew : ({ c with attributes := c.defaults, ties := [], bounds := [] } : Composite) =
      { c with ties := [], bounds := [] } := by
    rw [← heq]
  rw [hnew] at hcreate
  rw [beginComposite]
  refine Act.gives_ofModel ?_
  rw [← hname]
  exact hcreate

/-! ## Headers as functions -/

variable {r : Reader} {m m₀ m' : Model} {s s' : Parents} {w w' : Work Parents}

/-- A header is also a function: the composite without members. -/
theorem gives_readFunction_of_readHeader {e head : Expr} {items : List Expr} {type : Text}
    (hitems : functionItems e = head :: items) (htype : r.typeName? head = some type)
    (hcreate : r.types.createComposite type = .ok m₀) (hties : m.applyTies = (m, none))
    (h : Act.Gives (r.readHeader e) s m s') : Act.Gives (r.readFunction e) s m s' := by
  intro journal
  obtain ⟨journal', h⟩ := h (journal ++ [.creating type])
  rw [readHeader, toList_of_functionItems hitems] at h
  rw [readFunction, (isNode_of_functionItems hitems).bracketsRemoved_eq, hitems]
  dsimp only at h ⊢
  rw [htype]
  dsimp only
  rw [typeName?] at htype
  split at htype
  · rename_i key value hassign
    rw [hassign] at h
    dsimp only at h
    have hrender : r.render value = type := by
      split at htype
      · exact Option.some.inj htype
      · exact Option.some.inj htype
      · cases htype
    rw [hrender, hcreate] at h
    obtain ⟨m₁, v, hof, h⟩ := Act.runs_bind.1 h
    obtain ⟨hm₁, rfl⟩ := Act.runs_ofModel.1 hof
    cases hm₁
    obtain ⟨journal'', hchange⟩ := (Act.Gives.change (s := s') (Act.gives_applyTies hties)) journal'
    exact ⟨journal'', Act.runs_bind.2 ⟨m₀, _, Act.runs_ofModel.2
      ⟨(Catalogue.createComposite_eq_ok hcreate).1, rfl⟩, Act.runs_bind.2 ⟨(), _, Act.runs_note.2 rfl,
        Act.runs_bind.2 ⟨m, _, runs_readItems_of_readHeaderItems h, hchange⟩⟩⟩⟩
  · cases htype

theorem WritesHeader.gives_readFunction (h : WritesHeader c p) (hc : c.Configured) (depth : Nat)
    (op : Text) (s : Parents) : Act.Gives ((builtin depth).readFunction (p.tree op)) s
      (.composite { c with ties := [], bounds := [] } []) s := by
  obtain ⟨o, items, hitems⟩ := h.items op
  obtain ⟨-, hname, hcreate⟩ := create_composite hc
  exact gives_readFunction_of_readHeader hitems (typeName?_item (.inr rfl) hname depth o) hcreate rfl
    (h.gives depth op s)

end Reader
end Lineshape
