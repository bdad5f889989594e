import Lineshape.Proofs.Model.Attached
import Lineshape.Proofs.Number.Equality

/-! # What a comparison chain says

A chain compares each term with the next. The bound read from it takes every number of the chain for
a limit on the parameter, on the side that the comparison next to the number says, towards the
parameter (`Bound.ReadAt`). So a value within the bound makes all comparisons of the chain true, and
where no two numbers are neighbours the converse holds as well (`Bound.within_iff_comparisons`). Two
numbers on the same side of the parameter are refused only if they limit it on the same side
(`Bound.exists_read_beyond`). -/

namespace Lineshape
set_option autoImplicit false

/-! ## Comparisons -/

/-- Whether a comparison is true of two numbers, read non-strictly. -/
def Compares (op : Text) (x y : Float) : Prop :=
  ((op = "<".toList ∨ op = "<=".toList) ∧ x ≤ y) ∨ ((op = ">".toList ∨ op = ">=".toList) ∧ y ≤ x)

instance (op : Text) (x y : Float) : Decidable (Compares op x y) :=
  inferInstanceAs (Decidable (_ ∨ _))

/-- Whether two numbers do not contradict a comparison, read non-strictly. -/
def Allows (op : Text) (x y : Float) : Prop :=
  ((op = "<".toList ∨ op = "<=".toList) ∧ ¬ y < x) ∨
    ((op = ">".toList ∨ op = ">=".toList) ∧ ¬ x < y)

theorem allows_iff_compares {op : Text} {x y : Float} (hx : x.isNaN = false)
    (hy : y.isNaN = false) : Allows op x y ↔ Compares op x y := by
  rw [Allows, Compares, Binary64.le_iff_not_lt hx hy, Binary64.le_iff_not_lt hy hx]

namespace Expr

/-- What a term of a comparison chain stands for: its number, or `v` for the parameter. -/
def numberAt (t : OperatorTable) (v : Float) (term : Expr) : Float :=
  (Number.read? (term.render t)).getD v

/-- The terms of a chain, each with the next. -/
def neighbours (chain : Expr) : List (Expr × Expr) := chain.terms.zip chain.terms.tail

theorem mem_neighbours {chain left right : Expr} : (left, right) ∈ chain.neighbours ↔
    ∃ i : Nat, chain.terms[i]? = some left ∧ chain.terms[i + 1]? = some right := by
  rw [neighbours, List.mem_iff_getElem?]
  refine exists_congr fun i => ?_
  rw [List.getElem?_zip_eq_some, List.getElem?_tail]

/-- Whether all comparisons between neighbours in a chain are true, with `v` for the parameter. -/
def Comparisons (t : OperatorTable) (v : Float) (chain : Expr) : Prop :=
  ∀ p ∈ chain.neighbours, Compares p.2.op (p.1.numberAt t v) (p.2.numberAt t v)

/-- Whether no two neighbours in a chain are numbers. -/
def NumbersApart (t : OperatorTable) (chain : Expr) : Prop :=
  ∀ p ∈ chain.neighbours,
    Number.read? (p.1.render t) = none ∨ Number.read? (p.2.render t) = none

instance (t : OperatorTable) (v : Float) (chain : Expr) : Decidable (chain.Comparisons t v) :=
  List.decidableBAll _ _

instance (t : OperatorTable) (chain : Expr) : Decidable (chain.NumbersApart t) :=
  List.decidableBAll _ _

end Expr

namespace Bound

/-- Whether a value is not below the lower limit and not above the upper one. -/
def Within (b : Bound) (v : Float) : Prop :=
  (∀ lower ∈ b.lower?, ¬ v < lower) ∧ ∀ upper ∈ b.upper?, ¬ upper < v

instance (b : Bound) (v : Float) : Decidable (b.Within v) :=
  inferInstanceAs (Decidable (_ ∧ _))

theorem within_of_isNaN {b : Bound} {v : Float} (h : v.isNaN = true) : b.Within v :=
  ⟨fun _ _ => Binary64.not_lt_of_isNaN (.inl h), fun _ _ => Binary64.not_lt_of_isNaN (.inr h)⟩

/-- The values within a bound are those that cost nothing. -/
theorem distance?_eq_none_iff {b : Bound} {v : Float} : b.distance? v = none ↔ b.Within v := by
  rw [distance?, Within]
  cases b.lower? with
  | none => cases b.upper? <;> simp
  | some lower =>
    cases b.upper? with
    | none => simp
    | some upper => by_cases hlower : v < lower <;> simp [hlower]

/-! ## Limits -/

/-- Whether a value does not contradict the comparison of a limit. -/
def Limit.Allows (limit : Limit) (v : Float) : Prop :=
  if limit.before then Lineshape.Allows limit.op limit.value v
  else Lineshape.Allows limit.op v limit.value

theorem Limit.allows_iff {limit : Limit} {isLower : Bool} (h : limit.isLower? = some isLower)
    (v : Float) :
    limit.Allows v ↔ if isLower then ¬ v < limit.value else ¬ limit.value < v := by
  obtain ⟨x, op, before⟩ := limit
  rw [Limit.isLower?] at h
  dsimp only at h
  split at h
  · rename_i hop
    have hgreater : ¬ (op = ">".toList ∨ op = ">=".toList) := by
      rcases hop with rfl | rfl <;> decide
    obtain rfl : isLower = before := (Option.some.inj h).symm
    cases isLower <;> simp only [Limit.Allows, Lineshape.Allows, hop, hgreater, true_and, false_and,
      or_false, Bool.false_eq_true, if_true, if_false]
  · rename_i hless
    split at h
    · rename_i hop
      obtain rfl : isLower = !before := (Option.some.inj h).symm
      cases before <;> simp only [Limit.Allows, Lineshape.Allows, hop, hless, true_and, false_and,
        false_or, Bool.not_true, Bool.not_false, Bool.false_eq_true, if_true, if_false]
    · cases h

/-- Every limit is taken, as the lower or as the upper one, and nothing else is. -/
theorem takeLimits_spec {lower? upper? l u : Option Float} {limits : List Limit}
    (h : takeLimits lower? upper? limits = .ok (l, u)) :
    (∀ limit ∈ limits, ∃ isLower, limit.isLower? = some isLower) ∧
      ∀ (isLower : Bool) x, (if isLower then l else u) = some x ↔
        (if isLower then lower? else upper?) = some x ∨
          ∃ limit ∈ limits, limit.isLower? = some isLower ∧ limit.value = x := by
  induction limits generalizing lower? upper? with
  | nil =>
    cases h
    exact ⟨nofun, by simp⟩
  | cons limit more ih =>
    rw [takeLimits] at h
    split at h
    · cases h
    · rename_i hlower
      split at h
      · cases h
      · rename_i hnone
        rw [Option.isSome_iff_ne_none, not_not] at hnone
        obtain ⟨hsides, htaken⟩ := ih h
        refine ⟨List.forall_mem_cons.2 ⟨⟨true, hlower⟩, hsides⟩, fun isLower x => ?_⟩
        rw [htaken, List.exists_mem_cons_iff]
        cases isLower <;> simp [hlower, hnone]
    · rename_i hupper
      split at h
      · cases h
      · rename_i hnone
        rw [Option.isSome_iff_ne_none, not_not] at hnone
        obtain ⟨hsides, htaken⟩ := ih h
        refine ⟨List.forall_mem_cons.2 ⟨⟨false, hupper⟩, hsides⟩, fun isLower x => ?_⟩
        rw [htaken, List.exists_mem_cons_iff]
        cases isLower <;> simp [hupper, hnone]

/-! ## Numbers and the parameter -/

variable {t : OperatorTable} {terms : List Expr} {values : List (Nat × Float)}

/-- The numbers found are the numbers among the terms, with their places. -/
theorem mem_of_sortTerms {found found' : Option (Nat × Text)} {start : Nat}
    (h : sortTerms t found start terms = .ok (found', values)) (i : Nat) (x : Float) :
    (i, x) ∈ values ↔ ∃ k term, terms[k]? = some term ∧ i = start + k ∧
      Number.read? (term.render t) = some x := by
  induction terms generalizing found start values with
  | nil =>
    cases h
    simp
  | cons first more ih =>
    -- the terms behind the first one are counted from the next place on
    have hshift : (∃ k term, (first :: more)[k]? = some term ∧ i = start + k ∧
          Number.read? (term.render t) = some x) ↔
        (i = start ∧ Number.read? (first.render t) = some x) ∨
          ∃ k term, more[k]? = some term ∧ i = start + 1 + k ∧
            Number.read? (term.render t) = some x := by
      constructor
      · rintro ⟨k, term, hterm, hi, hread⟩
        cases k with
        | zero =>
          cases hterm
          exact .inl ⟨hi, hread⟩
        | succ k => exact .inr ⟨k, term, hterm, by omega, hread⟩
      · rintro (⟨hi, hread⟩ | ⟨k, term, hterm, hi, hread⟩)
        · exact ⟨0, first, rfl, hi, hread⟩
        · exact ⟨k + 1, term, hterm, by omega, hread⟩
    rw [hshift]
    rw [sortTerms] at h
    dsimp only at h
    split at h
    · rename_i value hread
      obtain ⟨⟨found₁, values₁⟩, hmore, h⟩ := Result.bind_eq_ok.1 h
      cases h
      rw [List.mem_cons, ih hmore, hread, Prod.mk.injEq, Option.some.injEq, eq_comm (a := x)]
    · rename_i hread
      split at h
      · cases h
      · rw [ih h, hread]
        simp

/-- Where the parameter is known already all terms are numbers, and where it is not all but one. -/
theorem place_of_sortTerms {found found' : Option (Nat × Text)} {start : Nat}
    (h : sortTerms t found start terms = .ok (found', values)) :
    (found.isSome = true → found' = found ∧ ∀ term ∈ terms, Number.read? (term.render t) ≠ none) ∧
    (found = none → ∀ place name, found' = some (place, name) →
      ∃ k < terms.length, place = start + k ∧ ∀ j term, terms[j]? = some term →
        (Number.read? (term.render t) = none ↔ j = k)) := by
  induction terms generalizing found start values with
  | nil =>
    cases h
    refine ⟨fun _ => ⟨rfl, List.forall_mem_nil _⟩, ?_⟩
    rintro rfl place name hfound
    cases hfound
  | cons first more ih =>
    rw [sortTerms] at h
    dsimp only at h
    split at h
    · rename_i value hread
      have hnumber : Number.read? (first.render t) ≠ none := by simp [hread]
      obtain ⟨⟨found₁, values₁⟩, hmore, h⟩ := Result.bind_eq_ok.1 h
      cases h
      obtain ⟨hall, hplace⟩ := ih hmore
      refine ⟨fun hsome => ⟨(hall hsome).1, List.forall_mem_cons.2 ⟨hnumber, (hall hsome).2⟩⟩, ?_⟩
      intro hnone place name hfound
      obtain ⟨k, hk, rfl, hiff⟩ := hplace hnone place name hfound
      refine ⟨k + 1, Nat.succ_lt_succ hk, by omega, fun j term hterm => ?_⟩
      cases j with
      | zero =>
        cases hterm
        simp [hnumber]
      | succ j => rw [hiff j term hterm, Nat.add_right_cancel_iff]
    · rename_i hread
      split at h
      · cases h
      · rename_i hsome
        obtain ⟨hfound, hall⟩ := (ih h).1 rfl
        refine ⟨fun h => absurd h hsome, fun _ place name hname => ?_⟩
        rw [hfound] at hname
        cases hname
        refine ⟨0, Nat.zero_lt_succ _, rfl, fun j term hterm => ?_⟩
        cases j with
        | zero =>
          cases hterm
          exact ⟨fun _ => rfl, fun _ => hread⟩
        | succ j =>
          exact ⟨fun hnone => absurd hnone (hall term (List.mem_of_getElem? hterm)),
            fun hj => absurd hj (Nat.succ_ne_zero j)⟩

/-! ## The bound of a chain -/

/-- How a bound is read from a chain with the parameter at a place: all other terms are numbers, each
of them is the limit that its comparison says, and there are no other limits. -/
structure ReadAt (t : OperatorTable) (chain : Expr) (place : Nat) (b : Bound) : Prop where
  place_lt : place < chain.terms.length
  parameter : ∀ i term, chain.terms[i]? = some term →
    (Number.read? (term.render t) = none ↔ i = place)
  limit : ∀ i term x, chain.terms[i]? = some term → Number.read? (term.render t) = some x →
    ∃ isLower, (limitAt chain.terms place i x).isLower? = some isLower ∧
      (if isLower then b.lower? else b.upper?) = some x
  taken : ∀ isLower x, (if isLower then b.lower? else b.upper?) = some x →
    ∃ i term, chain.terms[i]? = some term ∧ Number.read? (term.render t) = some x ∧
      (limitAt chain.terms place i x).isLower? = some isLower
  ordered : isContrary b.lower? b.upper? = false

variable {chain : Expr} {b : Bound} {v : Float}

theorem limitAt_value (terms : List Expr) (place i : Nat) (x : Float) :
    (limitAt terms place i x).value = x := by
  rw [limitAt]
  split <;> rfl

theorem limitAt_before {right : Expr} {place i : Nat} (x : Float) (hi : i < place)
    (hright : terms[i + 1]? = some right) : limitAt terms place i x = ⟨x, right.op, true⟩ := by
  simp [limitAt, hi, hright]

theorem limitAt_behind {term : Expr} {place i : Nat} (x : Float) (hi : ¬ i < place)
    (hterm : terms[i]? = some term) : limitAt terms place i x = ⟨x, term.op, false⟩ := by
  simp [limitAt, hi, hterm]

theorem readAt_of_ofChain {owner : Text} {isParameter : Text → Bool} {isDefault : Bool}
    (h : ofChain t owner isParameter chain isDefault = .ok b) : ∃ place, b.ReadAt t chain place := by
  rw [ofChain.eq_def] at h
  dsimp only at h
  split at h
  · cases h
  · split at h
    · cases h
    · split at h
      · cases h
      · cases h
      · rename_i place parameter values hsort
        split at h
        · split at h
          · cases h
          · rename_i l u htake
            split at h
            · cases h
            · rename_i hordered
              cases h
              obtain ⟨hsides, htaken⟩ := takeLimits_spec htake
              obtain ⟨k, hk, hplace, hiff⟩ := (place_of_sortTerms hsort).2 rfl _ _ rfl
              obtain rfl : place = k := hplace.trans (Nat.zero_add k)
              refine ⟨place, hk, hiff, fun i term x hterm hread => ?_, fun isLower x hx => ?_,
                Bool.not_eq_true _ ▸ hordered⟩
              · have hvalue : (i, x) ∈ values := (mem_of_sortTerms hsort i x).2
                  ⟨i, term, hterm, (Nat.zero_add i).symm, hread⟩
                have hlimit := List.mem_map_of_mem
                  (f := fun p : Nat × Float => limitAt chain.terms place p.1 p.2) hvalue
                obtain ⟨isLower, hside⟩ := hsides _ hlimit
                exact ⟨isLower, hside,
                  (htaken isLower x).2 (.inr ⟨_, hlimit, hside, limitAt_value _ _ _ _⟩)⟩
              · rcases (htaken isLower x).1 hx with hnone | ⟨limit, hlimit, hside, rfl⟩
                · cases isLower <;> cases hnone
                · obtain ⟨⟨i, x⟩, hvalue, rfl⟩ := List.mem_map.1 hlimit
                  obtain ⟨j, term, hterm, hi, hread⟩ := (mem_of_sortTerms hsort i x).1 hvalue
                  obtain rfl : i = j := hi.trans (Nat.zero_add j)
                  rw [limitAt_value]
                  exact ⟨i, term, hterm, hread, hside⟩
        · cases h

/-- A value is within the bound exactly if it does not contradict any number of the chain, compared
with the value by the comparison next to the number. -/
theorem ReadAt.within_iff {place : Nat} (h : b.ReadAt t chain place) (v : Float) :
    b.Within v ↔ ∀ i term x, chain.terms[i]? = some term →
      Number.read? (term.render t) = some x → (limitAt chain.terms place i x).Allows v := by
  constructor
  · intro hv i term x hterm hread
    obtain ⟨isLower, hside, hx⟩ := h.limit i term x hterm hread
    rw [Limit.allows_iff hside, limitAt_value]
    cases isLower with
    | true => exact hv.1 x hx
    | false => exact hv.2 x hx
  · intro hall
    refine ⟨fun x hx => ?_, fun x hx => ?_⟩
    · obtain ⟨i, term, hterm, hread, hside⟩ := h.taken true x hx
      have hallows := (Limit.allows_iff hside v).1 (hall i term x hterm hread)
      rwa [limitAt_value] at hallows
    · obtain ⟨i, term, hterm, hread, hside⟩ := h.taken false x hx
      have hallows := (Limit.allows_iff hside v).1 (hall i term x hterm hread)
      rwa [limitAt_value] at hallows

/-- Two numbers of a chain do not contradict the sides that they are limits on. -/
theorem ReadAt.sides {place : Nat} (h : b.ReadAt t chain place) {isLower isLower' : Bool} {x y : Float}
    (hx : (if isLower then b.lower? else b.upper?) = some x)
    (hy : (if isLower' then b.lower? else b.upper?) = some y) :
    if isLower then ¬ y < x else ¬ x < y := by
  have hordered := h.ordered
  cases isLower with
  | true =>
    cases isLower' with
    | true =>
      obtain rfl : x = y := Option.some.inj (hx.symm.trans hy)
      exact Binary64.not_lt_self x
    | false =>
      rw [show b.lower? = some x from hx, show b.upper? = some y from hy] at hordered
      exact of_decide_eq_false hordered
  | false =>
    cases isLower' with
    | true =>
      rw [show b.lower? = some y from hy, show b.upper? = some x from hx] at hordered
      exact of_decide_eq_false hordered
    | false =>
      obtain rfl : x = y := Option.some.inj (hx.symm.trans hy)
      exact Binary64.not_lt_self x

/-- A bound is only read from a chain whose numbers do not contradict each other. -/
theorem ReadAt.allows_numbers {place i : Nat} {left right : Expr} {x y : Float}
    (h : b.ReadAt t chain place) (hleft : chain.terms[i]? = some left)
    (hright : chain.terms[i + 1]? = some right) (hx : Number.read? (left.render t) = some x)
    (hy : Number.read? (right.render t) = some y) : Allows right.op x y := by
  obtain ⟨isLower, hside, hl⟩ := h.limit i left x hleft hx
  obtain ⟨isLower', hside', hl'⟩ := h.limit (i + 1) right y hright hy
  have hplace : i + 1 ≠ place := fun hi => by
    have hnone := (h.parameter _ _ hright).2 hi
    rw [hy] at hnone
    cases hnone
  by_cases hi : i < place
  · rw [limitAt_before x hi hright] at hside
    exact (Limit.allows_iff hside y).2 (h.sides hl hl')
  · rw [limitAt_behind y (by omega) hright] at hside'
    exact (Limit.allows_iff hside' x).2 (h.sides hl' hl)

/-- A value within the bound contradicts no comparison of the chain. -/
theorem ReadAt.allows_of_within {place i : Nat} {left right : Expr} (h : b.ReadAt t chain place)
    (hv : b.Within v) (hleft : chain.terms[i]? = some left)
    (hright : chain.terms[i + 1]? = some right) :
    Allows right.op (left.numberAt t v) (right.numberAt t v) := by
  rw [h.within_iff] at hv
  rw [Expr.numberAt, Expr.numberAt]
  cases hx : Number.read? (left.render t) with
  | none =>
    obtain rfl := (h.parameter i left hleft).1 hx
    cases hy : Number.read? (right.render t) with
    | none => exact absurd ((h.parameter _ right hright).1 hy) (Nat.succ_ne_self i)
    | some y =>
      have hallows := hv (i + 1) right y hright hy
      rwa [limitAt_behind y (by omega) hright] at hallows
  | some x =>
    cases hy : Number.read? (right.render t) with
    | none =>
      obtain rfl := (h.parameter _ right hright).1 hy
      have hallows := hv i left x hleft hx
      rwa [limitAt_before x (Nat.lt_succ_self i) hright] at hallows
    | some y => exact h.allows_numbers hleft hright hx hy

/-- Where every number stands next to the parameter, a value that contradicts no comparison is
within the bound. -/
theorem ReadAt.within_of_allows {place : Nat} (h : b.ReadAt t chain place)
    (hapart : chain.NumbersApart t)
    (hall : ∀ i left right, chain.terms[i]? = some left → chain.terms[i + 1]? = some right →
      Allows right.op (left.numberAt t v) (right.numberAt t v)) : b.Within v := by
  rw [h.within_iff]
  intro i term x hterm hx
  by_cases hi : i < place
  · have hlt : i + 1 < chain.terms.length := Nat.lt_of_le_of_lt hi h.place_lt
    have hright := List.getElem?_eq_getElem hlt
    have hnone := (hapart (term, _) (Expr.mem_neighbours.2 ⟨i, hterm, hright⟩)).resolve_left
      (by simp [hx])
    have hallows := hall i term _ hterm hright
    rw [Expr.numberAt, Expr.numberAt, hx, hnone] at hallows
    rwa [limitAt_before x hi hright]
  · have hne : i ≠ place := fun hi => by
      rw [(h.parameter i term hterm).2 hi] at hx
      cases hx
    obtain ⟨j, rfl⟩ := Nat.exists_eq_add_one_of_ne_zero (show i ≠ 0 by omega)
    have hlt : j < chain.terms.length :=
      Nat.lt_of_succ_lt (List.getElem?_eq_some_iff.1 hterm).1
    have hleft := List.getElem?_eq_getElem hlt
    have hnone := (hapart (_, term) (Expr.mem_neighbours.2 ⟨j, hleft, hterm⟩)).resolve_right
      (by simp [hx])
    have hallows := hall j _ term hleft hterm
    rw [Expr.numberAt, Expr.numberAt, hx, hnone] at hallows
    rwa [limitAt_behind x hi hterm]

/-- A bound means what its chain says. A value within the bound makes all comparisons of the chain
true, and where no two numbers are neighbours the values that do so are those within the bound. NaN
makes no comparison true, and is outside no bound. -/
theorem within_iff_comparisons {owner : Text} {isParameter : Text → Bool} {isDefault : Bool}
    (h : ofChain t owner isParameter chain isDefault = .ok b)
    (hnan : ∀ term ∈ chain.terms, ∀ x ∈ Number.read? (term.render t), x.isNaN = false) (v : Float) :
    (b.Within v → v.isNaN = true ∨ chain.Comparisons t v) ∧
      (chain.NumbersApart t → (b.Within v ↔ v.isNaN = true ∨ chain.Comparisons t v)) := by
  obtain ⟨place, hread⟩ := readAt_of_ofChain h
  have hvalue : v.isNaN = false → ∀ term ∈ chain.terms, (term.numberAt t v).isNaN = false := by
    intro hv term hterm
    rw [Expr.numberAt]
    cases hx : Number.read? (term.render t) with
    | none => exact hv
    | some x => exact hnan term hterm x hx
  have hsound : b.Within v → v.isNaN = true ∨ chain.Comparisons t v := by
    intro hwithin
    cases hv : v.isNaN with
    | true => exact .inl rfl
    | false =>
      refine .inr fun ⟨left, right⟩ hp => ?_
      obtain ⟨i, hleft, hright⟩ := Expr.mem_neighbours.1 hp
      exact (allows_iff_compares (hvalue hv left (List.mem_of_getElem? hleft))
        (hvalue hv right (List.mem_of_getElem? hright))).1 (hread.allows_of_within hwithin hleft hright)
  refine ⟨hsound, fun hapart => ⟨hsound, ?_⟩⟩
  rintro (hv | hcompare)
  · exact within_of_isNaN hv
  · cases hv : v.isNaN with
    | true => exact within_of_isNaN hv
    | false =>
      refine hread.within_of_allows hapart fun i left right hleft hright => ?_
      exact (allows_iff_compares (hvalue hv left (List.mem_of_getElem? hleft))
        (hvalue hv right (List.mem_of_getElem? hright))).2
        (hcompare (left, right) (Expr.mem_neighbours.2 ⟨i, hleft, hright⟩))

/-- The greater number first, and different comparisons. -/
theorem within_iff_comparisons_descending : ∃ chain b,
    Expr.ofText "10>=Sigma>-1".toList = .ok chain ∧
      ofChain .standard "Gaussian".toList (· = "Sigma".toList) chain false = .ok b ∧
      (∀ term ∈ chain.terms, ∀ x ∈ Number.read? (term.render .standard), x.isNaN = false) ∧
      chain.NumbersApart .standard ∧ b.Within 3 ∧ ¬ b.Within 11 ∧
      ∀ v, b.Within v ↔ v.isNaN = true ∨ chain.Comparisons .standard v := by
  have hcheck : (Expr.ofText "10>=Sigma>-1".toList).toOption.any (fun chain =>
      (ofChain .standard "Gaussian".toList (· = "Sigma".toList) chain false).toOption.any (fun b =>
        (∀ term ∈ chain.terms, ∀ x ∈ Number.read? (term.render .standard), x.isNaN = false) ∧
        chain.NumbersApart .standard ∧ b.Within 3 ∧ ¬ b.Within 11)) = true := by decide +kernel
  obtain ⟨chain, hchain, hcheck⟩ := Result.exists_of_any hcheck
  obtain ⟨b, hb, hcheck⟩ := Result.exists_of_any hcheck
  obtain ⟨hnan, hapart, hinside, houtside⟩ := of_decide_eq_true hcheck
  exact ⟨chain, b, hchain, hb, hnan, hapart, hinside, houtside,
    fun v => (within_iff_comparisons hb hnan v).2 hapart⟩

/-- Where two numbers are neighbours, the one away from the parameter is taken for a limit too,
although the chain does not compare it with the parameter: 0 makes both comparisons true and is
outside the bound. -/
theorem exists_read_beyond : ∃ chain b, Expr.ofText "Sigma<10>1".toList = .ok chain ∧
    ofChain .standard "Gaussian".toList (· = "Sigma".toList) chain false = .ok b ∧
    (∀ term ∈ chain.terms, ∀ x ∈ Number.read? (term.render .standard), x.isNaN = false) ∧
    chain.Comparisons .standard 0 ∧ ¬ b.Within 0 ∧ b.check 0 = 1000 := by
  have hcheck : (Expr.ofText "Sigma<10>1".toList).toOption.any (fun chain =>
      (ofChain .standard "Gaussian".toList (· = "Sigma".toList) chain false).toOption.any (fun b =>
        (∀ term ∈ chain.terms, ∀ x ∈ Number.read? (term.render .standard), x.isNaN = false) ∧
        chain.Comparisons .standard 0 ∧ ¬ b.Within 0 ∧ b.check 0 = 1000)) = true := by
    decide +kernel
  obtain ⟨chain, hchain, hcheck⟩ := Result.exists_of_any hcheck
  obtain ⟨b, hb, hcheck⟩ := Result.exists_of_any hcheck
  exact ⟨chain, b, hchain, hb, of_decide_eq_true hcheck⟩

end Bound
end Lineshape
