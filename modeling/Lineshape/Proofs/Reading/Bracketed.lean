import Lineshape.Proofs.Reading.Blind
import Lineshape.Proofs.Reading.Exchanged
import Lineshape.Proofs.Reading.Lists

/-! # Items in brackets

Around the only item of a function, around ties and around constraints there may be any number of
brackets: the text describes the same model. Beside other items of a function, and around a factor
behind a constraint, brackets may only stand if they leave no group behind, which is one pair around a
text without an opening bracket; with any others the text is never read (`Reader.read_bracketed`).

`Text.Bracketed` says in which texts and how an item is put in brackets. -/

namespace Lineshape
set_option autoImplicit false

namespace Text

/-- The second text is the first one with one item, or a part with items, in that many pairs of
brackets. The flag says whether reading sees through the groups that they leave. -/
inductive Bracketed (pairs : Nat) : Bool → Region → Text → Text → Prop
  /-- All of a text, and so an item with no other beside it. -/
  | whole {region : Region} {s : Text} : Readable s → Bracketed pairs true region s (s.inBrackets pairs)
  /-- A tie among others. -/
  | tie {front s behind : Text} {e : Expr} : Expr.IsPart ',' front s behind e →
    Bracketed pairs true (.list .ties) (front ++ s ++ behind) (front ++ s.inBrackets pairs ++ behind)
  /-- A constraint among others. -/
  | constraint {front s behind : Text} {e : Expr} : Expr.IsPart ',' front s behind e →
    Clause.factor? e = none →
    Bracketed pairs true (.list .constraints) (front ++ s ++ behind)
      (front ++ s.inBrackets pairs ++ behind)
  /-- Any item in brackets that are taken off. -/
  | plain {region : Region} {front s behind : Text} {e : Expr} : Expr.IsPart ',' front s behind e →
    ¬ LeavesGroup pairs s →
    Bracketed pairs true region (front ++ s ++ behind) (front ++ s.inBrackets pairs ++ behind)
  /-- A factor among constraints that is left in a group. -/
  | factor {front s behind : Text} {e : Expr} : Expr.IsPart ',' front s behind e →
    (Clause.factor? e).isSome → LeavesGroup pairs s →
    Bracketed pairs false (.list .constraints) (front ++ s ++ behind)
      (front ++ s.inBrackets pairs ++ behind)
  /-- An item among others that is left in a group. -/
  | item {front s behind : Text} {e : Expr} : Expr.IsPart ',' front s behind e →
    e.form = .assign → LeavesGroup pairs s →
    Bracketed pairs false .model (front ++ s ++ behind) (front ++ s.inBrackets pairs ++ behind)
  /-- An item of a list that is an item of its function on its own. -/
  | list {seen : Bool} (c : Conditions) {blanks blanks' s s' : Text} : Bracketed pairs seen (.list c) s s' →
    Readable s → (∀ x ∈ blanks, isBlank x = true) → (∀ x ∈ blanks', isBlank x = true) →
    Bracketed pairs seen .model (assign c.key blanks blanks' s) (assign c.key blanks blanks' s')
  /-- An item of a list that is an item of its function among others. -/
  | listAmong {seen : Bool} (c : Conditions) {blanks blanks' front s s' behind : Text} {e : Expr} :
    Bracketed pairs seen (.list c) s s' → Readable s →
    (∀ x ∈ blanks, isBlank x = true) → (∀ x ∈ blanks', isBlank x = true) →
    Expr.IsPart ',' front (assign c.key blanks blanks' s) behind e →
    Bracketed pairs seen .model (front ++ assign c.key blanks blanks' s ++ behind)
      (front ++ assign c.key blanks blanks' s' ++ behind)
  /-- Inside a member of a composite. -/
  | member {seen : Bool} {front s s' behind : Text} {e : Expr} : Bracketed pairs seen .model s s' →
    Expr.IsPart ';' front s behind e →
    Bracketed pairs seen .model (front ++ s ++ behind) (front ++ s' ++ behind)
  /-- Inside a composite in brackets that has items behind it. -/
  | nested {seen : Bool} {s s' behind : Text} {e : Expr} : Bracketed pairs seen .model s s' →
    Expr.IsPart ',' [] s behind e → e.bracketsRemoved.form = .sequence →
    Bracketed pairs seen .model (s ++ behind) (s' ++ behind)
  /-- Inside other brackets. -/
  | brackets {seen : Bool} {region : Region} {s s' : Text} : Bracketed pairs seen region s s' → Readable s →
    Bracketed pairs seen region ('(' :: s ++ [')']) ('(' :: s' ++ [')'])
  /-- With blanks around it. -/
  | blanks {seen : Bool} {region : Region} {blanks blanks' s s' : Text} : Bracketed pairs seen region s s' →
    Readable s → (∀ x ∈ blanks, isBlank x = true) → (∀ x ∈ blanks', isBlank x = true) →
    Bracketed pairs seen region (blanks ++ s ++ blanks') (blanks ++ s' ++ blanks')
  /-- In front of a separator at the end. -/
  | separator {seen : Bool} {region : Region} {blanks s s' : Text} {c : Char} :
    Bracketed pairs seen region s s' → Readable s → Trimmed s →
    (∀ x ∈ s.getLast?, Lexeme.isSeparator x = false) →
    (∀ x ∈ blanks, isBlank x = true) → Lexeme.isSeparator c = true →
    Bracketed pairs seen region (s ++ (blanks ++ [c])) (s' ++ (blanks ++ [c]))

end Text

/-! ## Items in brackets -/

/-- A text with an item in brackets can stand for the text without them, and its tree is what the tree
of that one becomes. -/
theorem Text.Bracketed.exchanges {r : Reader} {pairs : Nat} {seen : Bool} {region : Region} {s s' : Text}
    (hr : r.operators = .standard) (htypes : r.types.FreeKeys) (hkinds : ['='] ∉ r.kinds)
    (h : Bracketed pairs seen region s s') : region.Exchanges r seen s s' := by
  induction h with
  | whole hs => exact .whole hs
  | tie hpart => exact .tie hpart
  | constraint hpart hfactor => exact .constraint hpart hfactor
  | plain hpart hleaves => exact .plain hpart hleaves
  | factor hpart hfactor hleaves => exact .factor hkinds hpart hfactor hleaves
  | item hpart hform hleaves => exact .item htypes hpart hform hleaves
  | list c _ hs hblanks hblanks' ih => exact ih.list hs hblanks hblanks'
  | listAmong c _ hs hblanks hblanks' hpart ih => exact ih.listAmong hs hblanks hblanks' hr htypes hpart
  | member _ hpart ih => exact ih.member hpart
  | nested _ hpart hform ih => exact ih.nested hpart hform
  | brackets _ hs ih => exact ih.brackets hs
  | blanks _ hs hfront hbehind ih => exact ih.padded hs hfront hbehind
  | separator _ hs htrim hclosed hblanks hc ih => exact ih.separator hs htrim hclosed hblanks hc

theorem Text.Bracketed.exchanges_builtin {pairs : Nat} {seen : Bool} {region : Region} {s s' : Text}
    (h : Bracketed pairs seen region s s') (depth : Nat) : region.Exchanges (.builtin depth) seen s s' := by
  have hkinds : ['='] ∉ boundKinds := by decide
  exact h.exchanges rfl Catalogue.freeKeys_builtin hkinds

namespace Reader

variable {pairs depth : Nat} {s s' : Text} {m : Model}

theorem exists_limit_of_bracketed (h : Text.Bracketed pairs true .model s s')
    (hread : (builtin depth).read s = .ok m) :
    ∃ limit, ∀ depth', limit ≤ depth' → (builtin depth').read s' = .ok m := by
  obtain ⟨tree, w, hparse, hne, hruns⟩ := read_eq_ok.1 hread
  obtain ⟨n, tree', hparse', hbecomes⟩ := (h.exchanges_builtin depth).reads hparse
  have halike : (builtin depth).ReadsAlike tree tree' := hbecomes.outcome
  rw [← halike.tree] at hruns
  refine ⟨n, fun depth' hle => ?_⟩
  -- the other text has another tree in its journal, and its reader another limit
  obtain ⟨w', hruns', -⟩ : ∃ w', Act.Runs ((builtin depth').readTree tree'.bracketsRemoved)
      ⟨[], [.parsed tree']⟩ m w' ∧ w'.state = w.state :=
    ((builtin depth).agree_readTree depth' tree'.bracketsRemoved).runs hruns
  refine read_eq_ok.2 ⟨tree', w', Expr.parseLevel_le hparse' (Nat.le_succ_of_le hle), ?_, hruns'⟩
  rw [← Expr.isEmptyMarker_ungrouped, hbecomes.ungrouped, Expr.isEmptyMarker_ungrouped, hne]

theorem read_ne_of_bracketed (h : Text.Bracketed pairs false .model s s')
    (hread : (builtin depth).read s = .ok m) (depth' : Nat) (m' : Model) :
    (builtin depth').read s' ≠ .ok m' := by
  intro hread'
  obtain ⟨tree, w, hparse, -⟩ := read_eq_ok.1 hread
  obtain ⟨n, tree', hparse', hbecomes⟩ := (h.exchanges_builtin depth').reads hparse
  have hrefused : (builtin depth').Refused tree' := hbecomes.outcome
  obtain ⟨tree'', w', hparse'', -, hruns'⟩ := read_eq_ok.1 hread'
  cases Expr.parseLevel_unique hparse' hparse''
  exact hrefused.tree _ _ _ hruns'

/-- A text with an item in brackets describes the same model as without them, with enough nesting
allowed, or it is never read; which of the two depends on the groups that the brackets leave. -/
theorem read_bracketed {seen : Bool} (h : Text.Bracketed pairs seen .model s s')
    (hread : (builtin depth).read s = .ok m) :
    (seen = true → ∃ limit, ∀ depth', limit ≤ depth' → (builtin depth').read s' = .ok m) ∧
    (seen = false → ∀ depth' m', (builtin depth').read s' ≠ .ok m') := by
  constructor
  · rintro rfl
    exact exists_limit_of_bracketed h hread
  · rintro rfl
    exact read_ne_of_bracketed h hread

/-- A tie of a member, in two pairs of brackets. -/
theorem read_bracketed_member_tie :
    ∃ m, Text.Bracketed 2 true .model
        "name=FlatBackground;name=Gaussian,ties=(Height=2*Sigma,PeakCentre=3)".toList
        "name=FlatBackground;name=Gaussian,ties=(Height=2*Sigma,((PeakCentre=3)))".toList ∧
      (builtin 8).read "name=FlatBackground;name=Gaussian,ties=(Height=2*Sigma,PeakCentre=3)".toList =
        .ok m ∧
      ∃ limit, ∀ depth, limit ≤ depth → (builtin depth).read
        "name=FlatBackground;name=Gaussian,ties=(Height=2*Sigma,((PeakCentre=3)))".toList = .ok m := by
  let list := "Height=2*Sigma".toList ++ [','] ++ "PeakCentre=3".toList ++ []
  let item := Text.assign Conditions.ties.key [] [] list
  let function := "name=Gaussian".toList ++ [','] ++ item ++ []
  obtain ⟨e₁, htie, -⟩ := Expr.exists_isPart_last (P := fun _ => true) ',' "Height=2*Sigma".toList
    "PeakCentre=3".toList (by decide +kernel) (by decide +kernel)
  obtain ⟨e₂, hitem, -⟩ := Expr.exists_isPart_last (P := fun _ => true) ',' "name=Gaussian".toList
    item (by decide +kernel) (by decide +kernel)
  obtain ⟨e₃, hmember, -⟩ := Expr.exists_isPart_last (P := fun _ => true) ';' "name=FlatBackground".toList
    function (by decide +kernel) (by decide +kernel)
  have hlist : Text.Bracketed 2 true (.list .ties) list _ := .tie htie
  have hreadable : Text.Readable list := Text.readable_of_parse (by decide +kernel)
  have hfunction : Text.Bracketed 2 true .model function _ :=
    .listAmong .ties hlist hreadable nofun nofun hitem
  have hbracketed : Text.Bracketed 2 true .model
      "name=FlatBackground;name=Gaussian,ties=(Height=2*Sigma,PeakCentre=3)".toList
      "name=FlatBackground;name=Gaussian,ties=(Height=2*Sigma,((PeakCentre=3)))".toList :=
    .member hfunction hmember
  have hread : ((builtin 8).read
      "name=FlatBackground;name=Gaussian,ties=(Height=2*Sigma,PeakCentre=3)".toList).toOption.any
        (fun _ => true) = true := by decide +kernel
  obtain ⟨m, hm, -⟩ := Result.exists_of_any hread
  exact ⟨m, hbracketed, hm, (read_bracketed hbracketed hm).1 rfl⟩

/-- Two pairs of brackets around an item of a function, and around a factor behind a constraint. -/
theorem exists_bracketed_unread :
    (∃ m, (builtin 8).read "name=Gaussian,Sigma=2".toList = .ok m) ∧
    (∀ depth m, (builtin depth).read "name=Gaussian,((Sigma=2))".toList ≠ .ok m) ∧
    (∃ m, (builtin 8).read "name=Gaussian,constraints=(Sigma<5,penalty=7)".toList = .ok m) ∧
    ∀ depth m, (builtin depth).read "name=Gaussian,constraints=(Sigma<5,((penalty=7)))".toList ≠ .ok m := by
  have hleaves : ∀ s, Text.LeavesGroup 2 s := fun s => .inl (by decide)
  have hread : ((builtin 8).read "name=Gaussian,Sigma=2".toList).toOption.any (fun _ => true) = true := by
    decide +kernel
  have hread' : ((builtin 8).read "name=Gaussian,constraints=(Sigma<5,penalty=7)".toList).toOption.any
      (fun _ => true) = true := by decide +kernel
  obtain ⟨m, hm, -⟩ := Result.exists_of_any hread
  obtain ⟨m', hm', -⟩ := Result.exists_of_any hread'
  -- the item
  obtain ⟨e₁, hsigma, hform⟩ := Expr.exists_isPart_last (P := fun e => e.form = .assign) ','
    "name=Gaussian".toList "Sigma=2".toList (by decide +kernel) (by decide +kernel)
  have hfirst : Text.Bracketed 2 false .model "name=Gaussian,Sigma=2".toList
      "name=Gaussian,((Sigma=2))".toList := .item hsigma (of_decide_eq_true hform) (hleaves _)
  -- the factor
  let list := "Sigma<5".toList ++ [','] ++ "penalty=7".toList ++ []
  let item := Text.assign Conditions.constraints.key [] [] list
  obtain ⟨e₂, hpenalty, hfactor⟩ := Expr.exists_isPart_last (P := fun e => (Clause.factor? e).isSome) ','
    "Sigma<5".toList "penalty=7".toList (by decide +kernel) (by decide +kernel)
  obtain ⟨e₃, hitem, -⟩ := Expr.exists_isPart_last (P := fun _ => true) ',' "name=Gaussian".toList item
    (by decide +kernel) (by decide +kernel)
  have hlist : Text.Bracketed 2 false (.list .constraints) list _ := .factor hpenalty hfactor (hleaves _)
  have hreadable : Text.Readable list := Text.readable_of_parse (by decide +kernel)
  have hfunction : Text.Bracketed 2 false .model ("name=Gaussian".toList ++ [','] ++ item ++ []) _ :=
    .listAmong .constraints hlist hreadable nofun nofun hitem
  have hsecond : Text.Bracketed 2 false .model "name=Gaussian,constraints=(Sigma<5,penalty=7)".toList
      "name=Gaussian,constraints=(Sigma<5,((penalty=7)))".toList := hfunction
  exact ⟨⟨m, hm⟩, read_ne_of_bracketed hfirst hm, ⟨m', hm'⟩, read_ne_of_bracketed hsecond hm'⟩

end Reader
end Lineshape
