import Mathlib.Algebra.Order.Field.Basic
import Mathlib.Tactic.Linarith
import Lineshape.Curve.Table

/-! # Interpolation in a table

Among knots that do not decrease, the search by halving counts those that are not above `u`
(`Table.search_eq`). So `u` lies between two neighbouring knots or on the last one, and over exact
numbers the value of the table lies between the values of those knots (`Table.scaled_of_sorted`). -/

namespace Lineshape.Table
set_option autoImplicit false

/-! ## The search -/

section Search

variable {A : Type} {holds : A → Bool} {items : List A}

/-- Where a test holds of no item behind one that it does not hold of, it holds of exactly the leading
items that are counted. -/
theorem holds_iff_lt (h : items.Pairwise fun a b => holds b = true → holds a = true) {i : Nat}
    (hi : i < items.length) :
    holds items[i] = true ↔ i < (items.takeWhile holds).length := by
  induction items generalizing i with
  | nil => exact absurd hi (Nat.not_lt_zero i)
  | cons a items ih =>
    obtain ⟨ha, hitems⟩ := List.pairwise_cons.1 h
    by_cases hholds : holds a = true
    · rw [List.takeWhile_cons_of_pos hholds, List.length_cons]
      cases i with
      | zero => exact iff_of_true hholds (Nat.succ_pos _)
      | succ i => exact (ih hitems (Nat.lt_of_succ_lt_succ hi)).trans Nat.succ_lt_succ_iff.symm
    · rw [List.takeWhile_cons_of_neg hholds]
      have hnone : ¬ holds (a :: items)[i] = true := by
        cases i with
        | zero => exact hholds
        | succ i => exact fun hb => hholds (ha _ (List.getElem_mem _) hb)
      exact iff_of_false hnone (Nat.not_lt_zero i)

/-- Halving keeps the end of the items that satisfy the test within its range, which begins at the
front of the list or at one of those items. -/
theorem narrow_spec {count : Nat}
    (hcount : ∀ i, ∀ hi : i < items.length, holds items[i] = true ↔ i < count)
    {base size : Nat} (hsize : 0 < size) (hend : base + size ≤ items.length)
    (hbase : base = 0 ∨ base < count) (hlast : count ≤ base + size) :
    narrow holds items base size < items.length ∧
      (narrow holds items base size = 0 ∨ narrow holds items base size < count) ∧
      count ≤ narrow holds items base size + 1 := by
  fun_induction narrow holds items base size with
  | case1 base size hmore half middle ih =>
    have hmiddle : middle < items.length := by omega
    have hany : (items[middle]?).any holds = holds items[middle] := by
      rw [List.getElem?_eq_getElem hmiddle, Option.any_some]
    have htest := hcount middle hmiddle
    rw [hany] at ih ⊢
    cases hholds : holds items[middle] with
    | true =>
      rw [hholds, dif_pos rfl] at ih
      rw [if_pos rfl]
      exact ih (by omega) (by omega) (.inr (htest.1 hholds)) (by omega)
    | false =>
      have hbelow : ¬ middle < count := fun h => by
        rw [htest.2 h] at hholds
        cases hholds
      rw [hholds, dif_neg Bool.false_ne_true] at ih
      rw [if_neg Bool.false_ne_true]
      exact ih (by omega) (by omega) hbase (by omega)
  | case2 base size hone => omega

/-- The search counts the leading items that satisfy a test which holds of no item behind one that
it does not hold of. -/
theorem search_eq (h : items.Pairwise fun a b => holds b = true → holds a = true) :
    search holds items = (items.takeWhile holds).length := by
  have hle : (items.takeWhile holds).length ≤ items.length := (List.takeWhile_prefix holds).length_le
  rw [search]
  split
  · rename_i hempty
    rw [List.isEmpty_iff.1 hempty]
    rfl
  · rename_i hne
    have hpos : 0 < items.length := List.length_pos_iff.2 fun h => hne (List.isEmpty_iff.2 h)
    obtain ⟨hlt, hfirst, hlast⟩ := narrow_spec (fun _ hi => holds_iff_lt h hi) hpos
      (Nat.le_of_eq (Nat.zero_add _)) (.inl rfl) (by omega)
    have htest := holds_iff_lt h hlt
    simp only [List.getElem?_eq_getElem hlt, Option.any_some]
    split
    · rename_i hholds
      have hcounted := htest.1 hholds
      omega
    · rename_i hholds
      have hbehind := mt htest.2 hholds
      omega

end Search

/-! ## The knots around a point -/

section Knots

variable {R : Type} [LinearOrder R] {u : R} {table : List (R × R)}

/-- A point that lies before the first knot or behind the last one. -/
def Outside (u : R) (table : List (R × R)) : Prop :=
  (∃ k ∈ table.head?, u < k.1) ∨ ∃ k ∈ table.getLast?, k.1 < u

/-- The number of knots that are not above a point, found by halving. -/
def knotsUpTo (u : R) (table : List (R × R)) : Nat := search (· ≤ u) (table.map (·.1))

/-- Knots that do not decrease make a table of such knots, as far as there are values for them. -/
theorem pairwise_knots {xs : List R} (h : xs.Pairwise (· ≤ ·)) (ys : List R) :
    (knots xs ys).Pairwise (·.1 ≤ ·.1) := by
  refine List.pairwise_iff_getElem.2 fun i j hi hj hij => ?_
  have hzip : (knots xs ys).length = min xs.length ys.length := List.length_zip
  simp only [knots, List.getElem_zip]
  exact List.pairwise_iff_getElem.1 h i j (by omega) (by omega) hij

theorem knotsUpTo_eq (h : table.Pairwise (·.1 ≤ ·.1)) (u : R) :
    knotsUpTo u table = ((table.map (·.1)).takeWhile (· ≤ u)).length := by
  refine search_eq (List.pairwise_map.2 (h.imp fun hab hb => ?_))
  exact decide_eq_true (hab.trans (of_decide_eq_true hb))

theorem knotsUpTo_le_length (h : table.Pairwise (·.1 ≤ ·.1)) (u : R) :
    knotsUpTo u table ≤ table.length := by
  rw [knotsUpTo_eq h]
  exact (List.takeWhile_prefix _).length_le.trans_eq (List.length_map _)

/-- The knots that are not above a point are the first ones. -/
theorem le_iff_lt_knotsUpTo (h : table.Pairwise (·.1 ≤ ·.1)) {i : Nat} (hi : i < table.length) :
    table[i].1 ≤ u ↔ i < knotsUpTo u table := by
  have hpairwise : (table.map (·.1)).Pairwise fun a b => decide (b ≤ u) = true → decide (a ≤ u) = true :=
    List.pairwise_map.2 (h.imp fun hab hb => decide_eq_true (hab.trans (of_decide_eq_true hb)))
  have hi' : i < (table.map (·.1)).length := by rwa [List.length_map]
  rw [knotsUpTo_eq h, ← holds_iff_lt hpairwise hi', List.getElem_map, decide_eq_true_iff]

/-- The knot in front of the first one above a point is the last knot at that point, if there is a
knot there. -/
theorem eq_of_last_knot (h : table.Pairwise (·.1 ≤ ·.1)) {k : Nat} (hk : k < table.length)
    (hat : table[k].1 = u) (hlast : ∀ l, ∀ hl : l < table.length, k < l → table[l].1 ≠ u) :
    knotsUpTo u table = k + 1 := by
  have hcounted : k < knotsUpTo u table := (le_iff_lt_knotsUpTo h hk).1 hat.le
  by_contra hne
  have hle := knotsUpTo_le_length h u
  have hbefore : k < knotsUpTo u table - 1 := by omega
  have hend : knotsUpTo u table - 1 < table.length := by omega
  have hbelow : table[knotsUpTo u table - 1].1 ≤ u := (le_iff_lt_knotsUpTo h hend).2 (by omega)
  have habove : table[k].1 ≤ table[knotsUpTo u table - 1].1 :=
    List.pairwise_iff_getElem.1 h k _ hk hend hbefore
  exact hlast _ hend hbefore (hbelow.antisymm (hat ▸ habove))

end Knots

/-! ## The value -/

section Value

variable {R : Type} [Field R] [LinearOrder R] {u : R} {table : List (R × R)}

theorem lookup_eq_none (h : table = [] ∨ Outside u table) : lookup u table = none := by
  rcases h with rfl | h
  · rfl
  · rw [lookup]
    split
    · rename_i first y last y' hfirst hlast
      rw [if_pos]
      rcases h with ⟨k, hk, hlt⟩ | ⟨k, hk, hlt⟩
      · cases hfirst.symm.trans hk
        exact .inl hlt
      · cases hlast.symm.trans hk
        exact .inr hlt
    · rfl

/-- Within a table the value is made from the knots around the place that the search has found. -/
theorem lookup_of_inside {first last : R × R} {count : Nat} (hfirst : table.head? = some first)
    (hlast : table.getLast? = some last) (hin : ¬ Outside u table)
    (hcount : knotsUpTo u table = count + 1) :
    lookup u table = match table[count]?, table[count + 1]? with
      | some (x0, y0), some (x1, y1) => some (between u x0 x1 y0 y1)
      | _, _ => some last.2 := by
  have hno : ¬ (u < first.1 ∨ last.1 < u) := by
    rintro (h | h)
    · exact hin (.inl ⟨first, hfirst, h⟩)
    · exact hin (.inr ⟨last, hlast, h⟩)
  rw [knotsUpTo] at hcount
  rw [lookup]
  simp only [hfirst, hlast, hcount]
  exact (if_neg hno).trans rfl

/-- Within a table a point lies between two neighbouring knots, of which the second is above it, or
on the last knot. -/
theorem lookup_cases (h : table.Pairwise (·.1 ≤ ·.1)) (hne : table ≠ []) (hin : ¬ Outside u table) :
    (∃ i, ∃ hi : i + 1 < table.length, knotsUpTo u table = i + 1 ∧
      table[i].1 ≤ u ∧ u < table[i + 1].1 ∧
      lookup u table = some (between u table[i].1 table[i + 1].1 table[i].2 table[i + 1].2)) ∨
    (∃ i, ∃ hi : i < table.length, i + 1 = table.length ∧ knotsUpTo u table = i + 1 ∧
      table[i].1 = u ∧ lookup u table = some table[i].2) := by
  have hpos : 0 < table.length := List.length_pos_iff.2 hne
  have hfirst : table.head? = some table[0] := List.head?_eq_getElem? ▸ List.getElem?_eq_getElem hpos
  have hend : table.length - 1 < table.length := Nat.sub_lt hpos Nat.one_pos
  have hlast : table.getLast? = some table[table.length - 1] :=
    List.getLast?_eq_getElem? ▸ List.getElem?_eq_getElem hend
  have hlow : table[0].1 ≤ u := not_lt.1 fun hlt => hin (.inl ⟨_, hfirst, hlt⟩)
  have hhigh : u ≤ table[table.length - 1].1 := not_lt.1 fun hlt => hin (.inr ⟨_, hlast, hlt⟩)
  obtain ⟨i, hi⟩ : ∃ i, knotsUpTo u table = i + 1 :=
    Nat.exists_eq_succ_of_ne_zero (Nat.ne_zero_of_lt ((le_iff_lt_knotsUpTo h hpos).1 hlow))
  have hle := knotsUpTo_le_length h u
  have hvalue := lookup_of_inside hfirst hlast hin hi
  have hthis : i < table.length := by omega
  have hbelow : table[i].1 ≤ u := (le_iff_lt_knotsUpTo h hthis).2 (by omega)
  rw [List.getElem?_eq_getElem hthis] at hvalue
  by_cases hnext : i + 1 < table.length
  · refine .inl ⟨i, hnext, hi, hbelow, ?_, ?_⟩
    · refine not_le.1 fun habove => ?_
      have hcounted := (le_iff_lt_knotsUpTo h hnext).1 habove
      omega
    · rw [hvalue, List.getElem?_eq_getElem hnext]
  · obtain rfl : i = table.length - 1 := by omega
    refine .inr ⟨_, hthis, by omega, hi, hbelow.antisymm hhigh, ?_⟩
    rw [hvalue, List.getElem?_eq_none (by omega)]

end Value

section Between

variable {R : Type} [Field R] {u x0 x1 y0 y1 : R}

theorem between_self (h : u = x0) : between u x0 x1 y0 y1 = y0 := by
  rw [between, h, sub_self, mul_zero, zero_div, add_zero]

variable [LinearOrder R] [IsStrictOrderedRing R]

/-- Between two knots the value lies between their values. -/
theorem between_mem (hlow : x0 ≤ u) (hhigh : u < x1) :
    min y0 y1 ≤ between u x0 x1 y0 y1 ∧ between u x0 x1 y0 y1 ≤ max y0 y1 := by
  have hpos : 0 < x1 - x0 := sub_pos.2 (hlow.trans_lt hhigh)
  -- the value divides the way from `y0` to `y1` as `u` divides the way from `x0` to `x1`
  obtain ⟨part, hpart⟩ : ∃ part, part = (u - x0) / (x1 - x0) := ⟨_, rfl⟩
  have hpart0 : 0 ≤ part := hpart ▸ div_nonneg (sub_nonneg.2 hlow) hpos.le
  have hpart1 : part ≤ 1 := by
    rw [hpart, div_le_one hpos]
    exact sub_le_sub_right hhigh.le x0
  have hvalue : between u x0 x1 y0 y1 = y0 + (y1 - y0) * part := by
    rw [between, hpart, mul_div_assoc]
  rw [hvalue]
  rcases le_total y0 y1 with hy | hy
  · rw [min_eq_left hy, max_eq_right hy]
    constructor <;> nlinarith
  · rw [min_eq_right hy, max_eq_left hy]
    constructor <;> nlinarith

end Between

/-! ## Scaled tables -/

/-- A number that a table may have as its value at `u`: it lies between the values of two neighbouring
knots that `u` lies between, where the only knot of a table is its own neighbour; and if `u` is a knot,
it is the value of the last knot at `u`. -/
structure Interpolates {R : Type} [LinearOrder R] (table : List (R × R)) (u value : R) : Prop where
  neighbours : ∃ i j, ∃ hi : i < table.length, ∃ hj : j < table.length,
    (j = i + 1 ∨ j = i ∧ table.length = 1) ∧ table[i].1 ≤ u ∧ u ≤ table[j].1 ∧
      min table[i].2 table[j].2 ≤ value ∧ value ≤ max table[i].2 table[j].2
  knot : ∀ k, ∀ hk : k < table.length, table[k].1 = u →
    (∀ l, ∀ hl : l < table.length, k < l → table[l].1 ≠ u) → value = table[k].2

variable {R : Type} [Field R] [LinearOrder R] [IsStrictOrderedRing R]

theorem exists_interpolates {u : R} {table : List (R × R)} (hsorted : table.Pairwise (·.1 ≤ ·.1))
    (hne : table ≠ []) (hin : ¬ Outside u table) :
    ∃ value, lookup u table = some value ∧ Interpolates table u value := by
  rcases lookup_cases hsorted hne hin with ⟨i, hi, hcount, hlow, hhigh, hvalue⟩ |
    ⟨i, hi, hend, hcount, hat, hvalue⟩
  · refine ⟨_, hvalue, ⟨i, i + 1, by omega, hi, .inl rfl, hlow, hhigh.le, ?_⟩, ?_⟩
    · exact between_mem hlow hhigh
    · intro k hk hat hlast
      obtain rfl : k = i := by
        have hplace := eq_of_last_knot hsorted hk hat hlast
        omega
      exact between_self hat.symm
  · refine ⟨_, hvalue, ?_, ?_⟩
    · by_cases hone : table.length = 1
      · exact ⟨i, i, hi, hi, .inr ⟨rfl, hone⟩, hat.le, hat.ge, min_le_left _ _, le_max_left _ _⟩
      · have hbefore : i - 1 < i := by omega
        have hle : table[i - 1].1 ≤ table[i].1 :=
          List.pairwise_iff_getElem.1 hsorted _ _ (by omega) hi hbefore
        exact ⟨i - 1, i, by omega, hi, .inl (by omega), hat ▸ hle, hat.ge, min_le_right _ _,
          le_max_right _ _⟩
    · intro k hk hat' hlast
      obtain rfl : k = i := by
        have hplace := eq_of_last_knot hsorted hk hat' hlast
        omega
      rfl

/-- A scaled table whose knots do not decrease, at `x`, with `u` the place that `x` is moved to. The
search ends within the table, and no two knots between which it ends are the same. Outside the knots
the value is zero, and within them it is the scaled value of a number that the table has at `u`. -/
theorem scaled_of_sorted {xs : List R} (h : xs.Pairwise (· ≤ ·)) (ys : List R)
    (scaling shift xScaling x : R) :
    ∃ u table, u = xScaling * (x - shift) ∧ table = knots xs ys ∧
      knotsUpTo u table ≤ table.length ∧
      (∀ i, ∀ hi : i + 1 < table.length, knotsUpTo u table = i + 1 → table[i + 1].1 - table[i].1 ≠ 0) ∧
      (table = [] ∨ Outside u table → scaled scaling shift xScaling xs ys x = 0) ∧
      (table ≠ [] → ¬ Outside u table → ∃ value,
        scaled scaling shift xScaling xs ys x = scaling * value ∧ Interpolates table u value) := by
  refine ⟨xScaling * (x - shift), knots xs ys, rfl, rfl, ?_⟩
  have hsorted : (knots xs ys).Pairwise (·.1 ≤ ·.1) := pairwise_knots h ys
  refine ⟨knotsUpTo_le_length hsorted _, fun i hi hcount => ?_, fun hout => ?_, fun hne hin => ?_⟩
  · have hthis := (le_iff_lt_knotsUpTo hsorted (Nat.lt_of_succ_lt hi)).2 (Nat.lt_of_succ_le hcount.ge)
    have hnext := mt (le_iff_lt_knotsUpTo hsorted hi).1 hcount.not_gt
    exact sub_ne_zero.2 (hthis.trans_lt (not_le.1 hnext)).ne'
  · rw [scaled, lookup_eq_none hout]
  · obtain ⟨value, hvalue, hinterpolates⟩ := exists_interpolates hsorted hne hin
    exact ⟨value, by rw [scaled, hvalue], hinterpolates⟩

/-- At a knot that is written twice the value is the second one. -/
theorem scaled_of_sorted_repeated_knot :
    ([0, 1, 1, 3] : List ℚ).Pairwise (· ≤ ·) ∧
      scaled (2 : ℚ) 1 1 [0, 1, 1, 3] [5, 7, 9] 2 = 2 * 9 := by
  have h : ([0, 1, 1, 3] : List ℚ).Pairwise (· ≤ ·) := by decide
  have htable : knots ([0, 1, 1, 3] : List ℚ) [5, 7, 9] = [(0, 5), (1, 7), (1, 9)] := rfl
  have hmoved : (1 : ℚ) * (2 - 1) = 1 := by norm_num
  obtain ⟨u, table, hu, hknots, -, -, -, hvalue⟩ := scaled_of_sorted h [5, 7, 9] 2 1 1 2
  obtain rfl : u = 1 := hu.trans hmoved
  obtain rfl : table = [(0, 5), (1, 7), (1, 9)] := hknots.trans htable
  have hin : ¬ Outside (1 : ℚ) [(0, 5), (1, 7), (1, 9)] := by
    rintro (⟨k, hk, hlt⟩ | ⟨k, hk, hlt⟩)
    · cases hk
      exact absurd hlt (by decide)
    · cases hk
      exact absurd hlt (by decide)
  obtain ⟨value, hscaled, hinterpolates⟩ := hvalue (List.cons_ne_nil _ _) hin
  have hnine : value = 9 := by
    refine hinterpolates.knot 2 (by decide) rfl fun l hl hbehind => ?_
    exact absurd hl (by simp only [List.length_cons, List.length_nil]; omega)
  exact ⟨h, hnine ▸ hscaled⟩

/-- Between two knots the value goes along a line, and outside the knots it is zero. -/
example : scaled (2 : ℚ) 0 1 [0, 4] [1, 3, 8] 1 = 3 ∧ scaled (2 : ℚ) 0 1 [0, 4] [1, 3, 8] 5 = 0 := by
  decide +kernel

end Lineshape.Table
