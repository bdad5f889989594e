import Mathlib
import Lineshape.Model.Bound

/-! # Equal numbers and their order

Numbers are compared by value, and so the two zeros are equal. A normal positive number equals only
itself (`Binary64.eq_of_beq`), since sign, exponent and mantissa make up its word. NaN apart, any two
numbers are ordered one way or the other (`Binary64.le_iff_not_lt`). -/

namespace Lineshape
set_option autoImplicit false

namespace Binary64

open Float.Model (UnpackedFloat)
open Float.Model.UnpackedFloat (unpackSign unpackExponent unpackMantissa Sign)

/-- Sign, exponent and mantissa make up a word. -/
theorem eq_of_fields {a b : BitVec 64}
    (hs : @unpackSign .binary64 a = @unpackSign .binary64 b)
    (he : @unpackExponent .binary64 a = @unpackExponent .binary64 b)
    (hm : @unpackMantissa .binary64 a = @unpackMantissa .binary64 b) : a = b := by
  have hparts : ∀ c : BitVec 64, c = @unpackSign .binary64 c ++
      @unpackExponent .binary64 c ++ @unpackMantissa .binary64 c := by
    intro c
    simp only [unpackSign, unpackExponent, unpackMantissa, BitVec.extractLsb]
    ext i hi
    grind
  rw [hparts a, hparts b, hs, he, hm]

theorem unpack_eq_finite {a : BitVec 64} {s : Sign} {m : Nat} {e : Int} {hm : 0 < m}
    (h : UnpackedFloat.unpack .binary64 a = .finite s m e hm) (hnormal : 2 ^ 52 ≤ m) :
    Sign.ofBitVec (@unpackSign .binary64 a) = s ∧
      ((@unpackExponent .binary64 a).toNat : Int) = e + 1075 ∧
      (@unpackMantissa .binary64 a).toNat = m - 2 ^ 52 := by
  have hlt : (@unpackMantissa .binary64 a).toNat < 2 ^ 52 :=
    (@unpackMantissa .binary64 a).isLt
  rw [UnpackedFloat.unpack] at h
  dsimp only at h
  split at h
  · split at h <;> cases h
  · split at h
    · split at h
      · cases h
      · injection h with hs hm' he
        omega
    · injection h with hs hm' he
      have happend : (1#1 ++ @unpackMantissa .binary64 a).toNat =
          2 ^ 52 + (@unpackMantissa .binary64 a).toNat := by
        rw [BitVec.toNat_append, BitVec.toNat_one Nat.one_pos]
        exact (Nat.shiftLeft_add_eq_or_of_lt hlt 1).symm
      have hbias : ((Float.Model.Format.binary64.exponentBias : Nat) : Int) = 1023 := rfl
      have hbits : ((Float.Model.Format.binary64.mantissaBitsWithoutImplicit : Nat) : Int) = 52 := rfl
      rw [hbias, hbits] at he
      exact ⟨hs, by omega, by omega⟩

theorem eq_of_unpack {a b : BitVec 64} {s : Sign} {m : Nat} {e : Int} {hm : 0 < m}
    (ha : UnpackedFloat.unpack .binary64 a = .finite s m e hm)
    (hb : UnpackedFloat.unpack .binary64 b = .finite s m e hm) (hnormal : 2 ^ 52 ≤ m) : a = b := by
  obtain ⟨has, hae, ham⟩ := unpack_eq_finite ha hnormal
  obtain ⟨hbs, hbe, hbm⟩ := unpack_eq_finite hb hnormal
  refine eq_of_fields ?_ ?_ ?_
  · have hsign : ∀ x y : BitVec 1, Sign.ofBitVec x = Sign.ofBitVec y → x = y := by
      intro x y
      simp only [Sign.ofBitVec]
      split <;> split <;> intro h
      · rename_i hx hy
        rw [hx, hy]
      · cases h
      · cases h
      · bv_omega
    exact hsign _ _ (has.trans hbs.symm)
  · exact BitVec.eq_of_toNat_eq (by omega)
  · exact BitVec.eq_of_toNat_eq (ham.trans hbm.symm)

theorem eq_of_compare {u : UnpackedFloat} {m : Nat} {e : Int} {hm : 0 < m}
    (h : u.compare (.finite .positive m e hm) = some .eq) : u = .finite .positive m e hm := by
  cases u with
  | notANumber => cases h
  | infinity s => cases s <;> cases h
  | zero s => cases h
  | finite s m' e' hm' =>
    cases s with
    | negative => cases h
    | positive =>
      have hthen : (compare e' e).then (compare m' m) = .eq := Option.some.inj h
      obtain ⟨he, hm⟩ := Ordering.then_eq_eq.1 hthen
      cases Std.LawfulEqCmp.eq_of_compare he
      cases Std.LawfulEqCmp.eq_of_compare hm
      rfl

/-- A normal positive number equals only itself. -/
theorem eq_of_beq {x y : Float} {m : Nat} {e : Int} {hm : 0 < m}
    (hy : y.toModel.unpack = .finite .positive m e hm) (hnormal : 2 ^ 52 ≤ m)
    (h : (x == y) = true) : x = y := by
  have hcompare : x.toModel.unpack.compare y.toModel.unpack = some .eq := LawfulBEq.eq_of_beq h
  rw [hy] at hcompare
  have hbits := eq_of_unpack (eq_of_compare hcompare) hy hnormal
  obtain ⟨⟨⟨bits⟩, hx⟩⟩ := x
  obtain ⟨⟨⟨bits'⟩, hy⟩⟩ := y
  cases hbits
  rfl

/-! ## Order -/

theorem compare_sign_swap (s s' : Sign) : (compare s s').swap = compare s' s := by
  cases s <;> cases s' <;> rfl

/-- Two numbers that are none of them NaN are ordered one way or the other. -/
theorem exists_compare {u v : UnpackedFloat} (hu : u.isNaN = false) (hv : v.isNaN = false) :
    ∃ o : Ordering, u.compare v = some o ∧ v.compare u = some o.swap := by
  cases u with
  | notANumber => cases hu
  | infinity s =>
    cases v with
    | notANumber => cases hv
    | infinity s' => exact ⟨_, rfl, congrArg some (compare_sign_swap s s').symm⟩
    | zero s' => cases s <;> exact ⟨_, rfl, rfl⟩
    | finite s' m' e' hm' => cases s <;> cases s' <;> exact ⟨_, rfl, rfl⟩
  | zero s =>
    cases v with
    | notANumber => cases hv
    | infinity s' => cases s' <;> exact ⟨_, rfl, rfl⟩
    | zero s' => exact ⟨_, rfl, rfl⟩
    | finite s' m' e' hm' => cases s' <;> exact ⟨_, rfl, rfl⟩
  | finite s m e hm =>
    cases v with
    | notANumber => cases hv
    | infinity s' => cases s <;> cases s' <;> exact ⟨_, rfl, rfl⟩
    | zero s' => cases s <;> exact ⟨_, rfl, rfl⟩
    | finite s' m' e' hm' =>
      have hswap : ∀ (a b : Int) (c d : Nat), ((compare a b).then (compare c d)).swap =
          (compare b a).then (compare d c) := by
        intro a b c d
        rw [Ordering.swap_then, ← Std.OrientedCmp.eq_swap, ← Std.OrientedCmp.eq_swap]
      cases s with
      | positive =>
        cases s' with
        | positive => exact ⟨_, rfl, congrArg some (hswap e e' m m').symm⟩
        | negative => exact ⟨_, rfl, rfl⟩
      | negative =>
        cases s' with
        | positive => exact ⟨_, rfl, rfl⟩
        | negative => exact ⟨_, rfl, congrArg (fun o : Ordering => some o.swap) (hswap e e' m m').symm⟩

theorem lt_iff_compare {x y : Float} :
    x < y ↔ (x.toModel.unpack.compare y.toModel.unpack == some .lt) = true :=
  decide_eq_true_iff

/-- Of two numbers one is at most the other exactly if the other is not below it. -/
theorem le_iff_not_lt {x y : Float} (hx : x.isNaN = false) (hy : y.isNaN = false) :
    x ≤ y ↔ ¬ y < x := by
  obtain ⟨o, hxy, hyx⟩ := exists_compare (u := x.toModel.unpack) (v := y.toModel.unpack) hx hy
  have hle : x ≤ y ↔ (x.toModel.unpack.compare y.toModel.unpack).any (·.isLE) = true :=
    decide_eq_true_iff
  rw [hle, lt_iff_compare, hxy, hyx]
  cases o <;> decide

/-- What is not a number is below nothing, and nothing is below it. -/
theorem not_lt_of_isNaN {x y : Float} (h : x.isNaN = true ∨ y.isNaN = true) : ¬ x < y := by
  have hnan : ∀ {z : Float}, z.isNaN = true → z.toModel.unpack = .notANumber := by
    intro z hz
    have hz' : z.toModel.unpack.isNaN = true := hz
    generalize z.toModel.unpack = u at hz'
    cases u with
    | notANumber => rfl
    | infinity | zero | finite => cases hz'
  rw [lt_iff_compare]
  rcases h with h | h
  · rw [hnan h]
    exact Bool.false_ne_true
  · rw [hnan h]
    cases x.toModel.unpack <;> exact Bool.false_ne_true

theorem not_lt_self (x : Float) : ¬ x < x := by
  cases hx : x.isNaN with
  | true => exact not_lt_of_isNaN (.inl hx)
  | false =>
    obtain ⟨o, ho, hswap⟩ := exists_compare (u := x.toModel.unpack) (v := x.toModel.unpack) hx hx
    have heq : o = o.swap := Option.some.inj (ho.symm.trans hswap)
    rw [lt_iff_compare, ho]
    cases o with
    | eq => decide
    | lt | gt => cases heq

end Binary64

/-! ## The usual factor -/

/-- No other number equals the usual factor of bounds. -/
theorem eq_defaultFactor {x : Float} (h : (x != defaultFactor) = false) : x = defaultFactor := by
  have hfactor : defaultFactor.toModel.unpack =
    .finite .positive (1000 * 2 ^ 43) (-43) (by decide) := rfl
  exact Binary64.eq_of_beq hfactor (by decide) ((Bool.not_eq_false' _).mp h)

end Lineshape
