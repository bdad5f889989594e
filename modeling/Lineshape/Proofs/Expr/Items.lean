import Mathlib.Data.List.Forall2
import Mathlib.Data.List.Induction
import Lineshape.Proofs.Expr.Groups
import Lineshape.Reading.Composite

/-! # Items

Model texts are items, keys with values, in lists, and members in sequences. This is how a phrase of
such a form is put together (`Phrase.chain`, `Phrase.assign`, `Phrase.bracketed`) and how its tree
is taken apart again: as the terms of a chain, as the list that brackets enclose, and as the parts of
a composite. -/

namespace Lineshape
set_option autoImplicit false

theorem Text.intercalate_cons (separator first : Text) (more : List Text) :
    List.intercalate separator (first :: more) = first ++ more.flatMap (separator ++ ·) := by
  induction more generalizing first with
  | nil => simp
  | cons second more ih =>
    rw [List.intercalate_cons_cons, ih, List.flatMap_cons, List.append_assoc, List.append_assoc]

namespace Phrase

/-! ## Chains -/

/-- A valid phrase that is one term of a chain of rank `r`. -/
structure Tight (r : Nat) (p : Phrase) : Prop where
  valid : p.Valid
  rank : p.rank = 0 ∨ r < p.rank

theorem Tight.mono {r r' : Nat} {p : Phrase} (h : p.Tight r) (hr : r' ≤ r) : p.Tight r' := by
  refine ⟨h.valid, ?_⟩
  have := h.rank
  omega

theorem Tight.word {r : Nat} {isOpen : Bool} {s : Text} (h : Word isOpen s) :
    (word s isOpen).Tight r := ⟨h, .inl rfl⟩

theorem Tight.bracketed {r : Nat} {p : Phrase} (h : p.Valid) : p.bracketed.Tight r := ⟨h, .inl rfl⟩

/-- Terms joined by one operator. -/
def chain (op : Text) (first : Phrase) (more : List Phrase) : Phrase :=
  more.foldl (fun front term => joined front op false term) first

section Chain

variable {op : Text} {first : Phrase} {more : List Phrase}

theorem chain_append (op : Text) (first : Phrase) (more : List Phrase) (term : Phrase) :
    chain op first (more ++ [term]) = joined (chain op first more) op false term := by
  rw [chain, List.foldl_append]
  rfl

theorem text_chain (op : Text) (first : Phrase) (more : List Phrase) :
    (chain op first more).text = first.text ++ more.flatMap fun p => op ++ p.text := by
  induction more using List.reverseRecOn with
  | nil => exact (List.append_nil _).symm
  | append_singleton more term ih =>
    rw [chain_append, text, ih, List.flatMap_append, List.append_assoc]
    congr 2
    exact (List.append_nil _).symm

theorem rank_chain (op : Text) (first : Phrase) (more : List Phrase) :
    (chain op first more).rank =
      if more = [] then first.rank else OperatorTable.standard.precedence op := by
  cases more using List.reverseRecOn with
  | nil => rfl
  | append_singleton more term =>
    rw [chain_append, if_neg (List.append_ne_nil_of_right_ne_nil more (List.cons_ne_nil term []))]
    rfl

/-- A chain takes one level more than its terms. -/
theorem levels_chain (op : Text) {k : Nat} (h : ∀ p ∈ first :: more, p.levels ≤ k) :
    (chain op first more).levels ≤ k + 1 := by
  induction more using List.reverseRecOn with
  | nil => exact Nat.le_succ_of_le (h first List.mem_cons_self)
  | append_singleton more term ih =>
    rw [← List.cons_append] at h
    have hterm := h term (List.mem_append_right _ List.mem_cons_self)
    have hfront := ih fun p hp => h p (List.mem_append_left _ hp)
    rw [chain_append, levels]
    refine Nat.max_le.2 ⟨?_, Nat.succ_le_succ hterm⟩
    split
    · exact hfront
    · rename_i hrank
      -- a chain of several terms is of the rank of its operator
      rw [rank_chain] at hrank
      split at hrank
      · rename_i hmore
        rw [hmore]
        exact Nat.succ_le_succ (h first List.mem_cons_self)
      · exact absurd rfl hrank

theorem isOpen_chain (h : (chain op first more).isOpen = true) :
    ∃ p ∈ first :: more, p.isOpen = true := by
  cases more using List.reverseRecOn with
  | nil => exact ⟨first, List.mem_cons_self, h⟩
  | append_singleton more term =>
    rw [chain_append] at h
    exact ⟨term, by simp, h⟩

/-- A chain of phrases that bind more strongly is valid, if no sign comes behind an open one. -/
theorem valid_chain (hop : OperatorTable.standard.isBinary op = true)
    (h : ∀ p ∈ first :: more, p.Tight (OperatorTable.standard.precedence op))
    (hsign : ∀ p ∈ (first :: more).dropLast, p.isOpen = true → op ≠ ['+'] ∧ op ≠ ['-']) :
    (chain op first more).Valid := by
  induction more using List.reverseRecOn with
  | nil => exact (h first List.mem_cons_self).valid
  | append_singleton more term ih =>
    rw [← List.cons_append] at h
    rw [← List.cons_append, List.dropLast_concat] at hsign
    have hterm := h term (List.mem_append_right _ List.mem_cons_self)
    have hfirst := (h first List.mem_cons_self).rank
    rw [chain_append]
    refine ⟨hop, ih (fun p hp => h p (List.mem_append_left _ hp)) (fun p hp => ?_), hterm.valid, ?_,
      hterm.rank, fun ho => ?_⟩
    · exact hsign p (List.dropLast_subset _ hp)
    · rw [rank_chain]
      split <;> omega
    · obtain ⟨p, hp, hopen⟩ := isOpen_chain ho
      exact hsign p hp hopen

theorem tight_chain {r : Nat} (hop : OperatorTable.standard.isBinary op = true)
    (hr : r < OperatorTable.standard.precedence op) (hs : op ≠ ['+'] ∧ op ≠ ['-'])
    (h : ∀ p ∈ first :: more, p.Tight (OperatorTable.standard.precedence op)) :
    (chain op first more).Tight r := by
  refine ⟨valid_chain hop h fun _ _ _ => hs, ?_⟩
  have hfirst := (h first List.mem_cons_self).rank
  rw [rank_chain]
  split <;> omega

theorem termsAt_chain (hf : first.rank ≠ OperatorTable.standard.precedence op) :
    (chain op first more).termsAt (OperatorTable.standard.precedence op) =
      first.tree [] :: more.map (·.tree op) := by
  induction more using List.reverseRecOn with
  | nil =>
    rw [chain, List.foldl_nil, termsAt, if_neg hf]
    rfl
  | append_singleton more term ih =>
    rw [chain_append, termsAt_joined rfl, ih, List.map_append]
    rfl

/-- The tree of a chain. -/
theorem tree_chain (hop : OperatorTable.standard.isBinary op = true)
    (hf : first.Tight (OperatorTable.standard.precedence op)) (hm : more ≠ []) (o : Text) :
    (chain op first more).tree o = ⟨label op, o, first.tree [] :: more.map (·.tree op)⟩ := by
  have hpos := OperatorTable.precedence_pos_iff.2 hop
  have hrank := hf.rank
  have hchain : (chain op first more).rank = OperatorTable.standard.precedence op := by
    rw [rank_chain, if_neg hm]
  rw [tree_eq_chain hchain (by omega) (label_eq hop), termsAt_chain (by omega)]

end Chain

/-! ## Assignments -/

/-- A value behind a target. -/
def assign (target value : Phrase) : Phrase := joined target ['='] false value

/-- A value behind a key. -/
def item (key : Text) (value : Phrase) : Phrase := assign (word key false) value

theorem text_assign (target value : Phrase) :
    (assign target value).text = target.text ++ '=' :: value.text := rfl

theorem text_item (key : Text) (value : Phrase) :
    (item key value).text = key ++ '=' :: value.text := rfl

theorem tight_assign {r : Nat} {target value : Phrase} (ht : target.Tight 3) (hv : value.Tight 3)
    (hr : r ≤ 2) : (assign target value).Tight r := by
  have hrank : OperatorTable.standard.precedence ['='] = 3 := by decide
  refine ⟨⟨by decide, ht.valid, hv.valid, ?_, ?_, fun _ => by decide⟩, .inr ?_⟩
  · have := ht.rank
    omega
  · have := hv.rank
    omega
  · rw [assign, rank, hrank]
    omega

theorem tree_assign {target value : Phrase} (ht : target.Tight 3) (o : Text) :
    (assign target value).tree o = ⟨['='], o, [target.tree [], value.tree ['=']]⟩ := by
  have hrank : OperatorTable.standard.precedence ['='] = 3 := by decide
  have hlabel : label ['='] = ['='] := by decide
  have hne : target.rank ≠ 3 := by
    have := ht.rank
    omega
  rw [assign, tree, hlabel, hrank, if_neg hne]
  rfl

theorem tight_item {r : Nat} {key : Text} {value : Phrase} (hk : Word false key)
    (hv : value.Tight 3) (hr : r ≤ 2) : (item key value).Tight r :=
  tight_assign (.word hk) hv hr

/-- The tree of an item. -/
theorem tree_item (key : Text) (value : Phrase) (o : Text) :
    (item key value).tree o = ⟨['='], o, [⟨key, [], []⟩, value.tree ['=']]⟩ := by
  have hlabel : label ['='] = ['='] := by decide
  rw [item, assign, tree, hlabel]
  rfl

/-! ## Brackets and lists -/

/-- The name of the tree of a chain has the rank of the chain. -/
theorem precedence_name_tree {p : Phrase} (hv : p.Valid) (h : p.rank ≠ 0) (o : Text) :
    OperatorTable.standard.precedence (p.tree o).name = p.rank := by
  cases p with
  | joined front op spaced term =>
    obtain ⟨l, hl, -, hrank⟩ := OperatorTable.exists_groupLabel hv.1
    rw [label_eq hv.1] at hl
    cases hl
    exact hrank
  | _ => exact absurd rfl h

theorem bracketsRemoved_tree {p : Phrase} (hv : p.Valid) (h : p.rank ≠ 0) (o : Text) :
    (p.tree o).bracketsRemoved = p.tree o := by
  refine Expr.IsNode.bracketsRemoved_eq (.inl fun hname => ?_)
  have hrank := precedence_name_tree hv h o
  rw [hname] at hrank
  exact h hrank.symm

/-- What stands in brackets is found below them. -/
theorem bracketsRemoved_bracketed {p : Phrase} (hv : p.Valid) (h : p.rank ≠ 0) (o : Text) :
    ∃ o', (p.bracketed.tree o).bracketsRemoved = p.tree o' := by
  rw [tree]
  split
  · rw [Expr.callNode]
    split
    · refine ⟨o, ?_⟩
      rw [← bracketsRemoved_tree hv h o, tree_eq_withOp p o]
      rfl
    · exact ⟨[], (Expr.bracketsRemoved_group o _).trans (bracketsRemoved_tree hv h [])⟩
  · exact ⟨o, bracketsRemoved_tree hv h o⟩

/-- The items of a list, of which there may be only one. -/
theorem toList_chain {first : Phrase} (more : List Phrase) (hf : first.Tight 2)
    (hrank : first.rank ≠ 0) (o : Text) :
    ∃ o', ((chain [','] first more).tree o).toList [','] = first.tree o' :: more.map (·.tree [',']) := by
  have hcomma : OperatorTable.standard.precedence [','] = 2 := by decide
  by_cases hm : more = []
  · refine ⟨o, ?_⟩
    have hname : ((chain [','] first more).tree o).name ≠ [','] := by
      rw [hm]
      intro hname
      have hp := precedence_name_tree hf.valid hrank o
      rw [show (first.tree o).name = [','] from hname, hcomma] at hp
      have := hf.rank
      omega
    rw [Expr.toList, if_neg (fun h => hname h.1), hm]
    rfl
  · have hlabel : label [','] = [','] := by decide
    refine ⟨[], ?_⟩
    rw [tree_chain (by decide) (hcomma ▸ hf) hm, hlabel, Expr.toList, if_pos ⟨rfl, rfl⟩]

/-- Items between brackets. -/
def list : List Phrase → Phrase
  | [] => hollow
  | first :: more => bracketed (chain [','] first more)

theorem text_list (items : List Phrase) :
    (list items).text = '(' :: List.intercalate [','] (items.map text) ++ [')'] := by
  cases items with
  | nil => rfl
  | cons first more =>
    rw [list, text, text_chain, List.map_cons, Text.intercalate_cons, List.flatMap_map]

theorem tight_list {items : List Phrase} (h : ∀ p ∈ items, p.Tight 2) (r : Nat) :
    (list items).Tight r := by
  cases items with
  | nil => exact ⟨trivial, .inl rfl⟩
  | cons first more => 
    exact .bracketed (valid_chain (by decide) h fun _ _ _ => by decide)

theorem levels_list {k : Nat} {items : List Phrase} (h : ∀ p ∈ items, p.levels ≤ k) :
    (list items).levels ≤ k + 2 := by
  cases items with
  | nil => exact Nat.le_add_left 1 (k + 1)
  | cons first more =>
    have hchain := levels_chain [','] h
    rw [list, levels]
    split <;> omega

theorem levels_item (key : Text) {k : Nat} {value : Phrase} (h : value.levels ≤ k) :
    (item key value).levels ≤ max 2 (k + 1) := by
  have hword : (word key false).levels = 1 := rfl
  rw [item, assign, levels, hword]
  split <;> omega

/-- Brackets around an expression are not written. -/
theorem text_tree_bracketed (p : Phrase) (op : Text) :
    (p.bracketed.tree op).text = (p.tree []).text :=
  Expr.text_congr (ungrouped_tree_enclosed true p op)

/-- The items between brackets are found below them. -/
theorem toList_list {items : List Phrase} (h : ∀ p ∈ items, p.Tight 2 ∧ p.rank ≠ 0)
    (hne : items ≠ []) (op : Text) :
    List.Forall₂ (fun p e => ∃ o, e = Phrase.tree o p) items
      (((list items).tree op).bracketsRemoved.toList [',']) := by
  obtain ⟨first, more, rfl⟩ := List.exists_cons_of_ne_nil hne
  obtain ⟨hfirst, hrank⟩ := h first List.mem_cons_self
  have hcomma : OperatorTable.standard.precedence [','] = 2 := by decide
  have hvalid : (chain [','] first more).Valid :=
    valid_chain (by decide) (fun p hp => (h p hp).1) fun _ _ _ => by decide
  have hchain : (chain [','] first more).rank ≠ 0 := by
    rw [rank_chain, hcomma]
    split
    · exact hrank
    · decide
  obtain ⟨o, ho⟩ := bracketsRemoved_bracketed hvalid hchain op
  obtain ⟨o', ho'⟩ := toList_chain more hfirst hrank o
  rw [list, ho, ho']
  exact .cons ⟨o', rfl⟩ (List.forall₂_map_right_iff.2 (List.forall₂_same.2 fun p _ => ⟨[','], rfl⟩))

end Phrase
end Lineshape
