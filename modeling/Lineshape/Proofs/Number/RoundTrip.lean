import Lineshape.Proofs.Expr.Numbers
import Lineshape.Proofs.Number.Equality

/-! # Numbers read back

Every double is read back from its text (`Number.read?_plain_self`). If the search for few digits
finds a decimal, that one reads back by the choice made. Otherwise the text has all digits of the
exact value, and nothing is rounded where they are scaled, since the result fits into a double
(`Binary64.roundWithAccuracy_exact`, `Binary64.div_exact`). -/

namespace Lineshape
set_option autoImplicit false

namespace Binary64

open Float.Model (UnpackedFloat totalExponent Format)
open Float.Model.UnpackedFloat (unpackSign unpackExponent unpackMantissa packComponents Sign)

/-! ## Words -/

/-- Significand and exponent that a finite double other than zero can have. -/
structure Fits (m : Nat) (e : Int) : Prop where
  pos : 0 < m
  lt : m < 2 ^ 53
  lower : -1074 ≤ e
  upper : e ≤ 971
  full : 2 ^ 52 ≤ m ∨ e = -1074

variable {s : Sign} {m : Nat} {e : Int} {hm : 0 < m}

theorem toBitVec_ofBitVec (v : BitVec 1) : (Sign.ofBitVec v).toBitVec = v := by
  revert v
  decide

theorem unpackSign_packComponents (s : Sign) (e : BitVec 11) (m : BitVec 52) :
    @unpackSign .binary64 (packComponents .binary64 s e m) = s.toBitVec := by
  simp only [unpackSign, packComponents, BitVec.extractLsb]
  ext i hi
  grind

theorem packComponents_unpack (b : BitVec 64) :
    packComponents .binary64 (Sign.ofBitVec (@unpackSign .binary64 b)) (@unpackExponent .binary64 b)
      (@unpackMantissa .binary64 b) = b := by
  refine eq_of_fields ?_ ?_ ?_
  · rw [unpackSign_packComponents, toBitVec_ofBitVec]
  · simp
  · simp

theorem toNat_implicit (v : BitVec 52) : (1#1 ++ v).toNat = 2 ^ 52 + v.toNat := by
  rw [BitVec.toNat_append, BitVec.toNat_one Nat.one_pos]
  exact (Nat.shiftLeft_add_eq_or_of_lt v.isLt 1).symm

/-- The exponent field of what fits. -/
def exponentField (m : Nat) (e : Int) : BitVec 11 :=
  if 2 ^ 52 ≤ m then BitVec.ofNat 11 (e + 1075).toNat else 0#11

theorem fields_of_unpack {b : BitVec 64} (h : UnpackedFloat.unpack .binary64 b = .finite s m e hm) :
    Fits m e ∧ Sign.ofBitVec (@unpackSign .binary64 b) = s ∧
      @unpackExponent .binary64 b = exponentField m e ∧
      @unpackMantissa .binary64 b = BitVec.ofNat 52 m := by
  have hmantissa : (@unpackMantissa .binary64 b).toNat < 2 ^ 52 := (@unpackMantissa .binary64 b).isLt
  have hexponent : (@unpackExponent .binary64 b).toNat < 2 ^ 11 := (@unpackExponent .binary64 b).isLt
  have hbias : ((Format.binary64.exponentBias : Nat) : Int) = 1023 := rfl
  have hbits : ((Format.binary64.mantissaBitsWithoutImplicit : Nat) : Int) = 52 := rfl
  rw [UnpackedFloat.unpack] at h
  dsimp only at h
  split at h
  · split at h <;> cases h
  · rename_i hinfinite
    have hne : (@unpackExponent .binary64 b).toNat ≠ 2047 := fun h => hinfinite (BitVec.eq_of_toNat_eq h)
    split at h
    · rename_i hzero
      split at h
      · cases h
      · injection h with hs hm' he
        have hzero' : (@unpackExponent .binary64 b).toNat = 0 := congrArg BitVec.toNat hzero
        refine ⟨⟨hm, by omega, by omega, by omega, by omega⟩, hs, ?_, ?_⟩
        · rw [exponentField, if_neg (by omega), hzero]
        · rw [← hm', BitVec.ofNat_toNat, BitVec.setWidth_eq]
    · rename_i hnonzero
      have hne' : (@unpackExponent .binary64 b).toNat ≠ 0 := fun h => hnonzero (BitVec.eq_of_toNat_eq h)
      injection h with hs hm' he
      rw [toNat_implicit] at hm'
      refine ⟨⟨hm, by omega, by omega, by omega, by omega⟩, hs, ?_, ?_⟩
      · rw [exponentField, if_pos (by omega)]
        refine BitVec.eq_of_toNat_eq (Eq.trans ?_ (BitVec.toNat_ofNat ..).symm)
        change _ = _ % 2 ^ 11
        omega
      · refine BitVec.eq_of_toNat_eq (Eq.trans ?_ (BitVec.toNat_ofNat ..).symm)
        change _ = _ % 2 ^ 52
        omega

theorem pack_finite (h : Fits m e) : UnpackedFloat.pack .binary64 (.finite s m e hm) =
    packComponents .binary64 s (exponentField m e) (BitVec.ofNat 52 m) := by
  have hlower := h.lower
  have hupper := h.upper
  have hbias : (e + (Format.binary64.exponentBias : Nat) +
      (Format.binary64.mantissaBitsWithoutImplicit : Nat)).toNat = (e + 1075).toNat :=
    congrArg Int.toNat (Int.add_assoc e 1023 52)
  rw [UnpackedFloat.pack, exponentField]
  dsimp only
  rw [hbias, if_neg (by omega)]
  by_cases hnormal : 2 ^ 52 ≤ m
  · have hlog : m.log2 + 1 = Format.binary64.mantissaBits :=
      congrArg Nat.succ ((Nat.log2_eq_iff (by omega)).2 ⟨hnormal, h.lt⟩)
    rw [if_pos hlog, if_pos hnormal]
  · have hlog : ¬ m.log2 + 1 = Format.binary64.mantissaBits := fun hlog =>
      hnormal ((Nat.le_log2 (Nat.ne_of_gt hm)).1 (Nat.succ.inj hlog).ge)
    rw [if_neg hlog, if_neg hnormal]

/-- What fits is not changed by packing. -/
theorem unpack_pack (h : Fits m e) : UnpackedFloat.unpack .binary64
    (UnpackedFloat.pack .binary64 (.finite s m e hm)) = .finite s m e hm := by
  have hsign : Sign.ofBitVec s.toBitVec = s := by cases s <;> rfl
  have hmantissa : (BitVec.ofNat 52 m).toNat = m % 2 ^ 52 := BitVec.toNat_ofNat ..
  have hlower := h.lower
  have hupper := h.upper
  have hlt := h.lt
  rw [pack_finite h, UnpackedFloat.unpack]
  simp only [Float.Model.UnpackedFloat.unpackExponent_packComponents,
    Float.Model.UnpackedFloat.unpackMantissa_packComponents, unpackSign_packComponents, hsign]
  by_cases hnormal : 2 ^ 52 ≤ m
  · have hexponent : (exponentField m e).toNat = (e + 1075).toNat := by
      rw [exponentField, if_pos hnormal, BitVec.toNat_ofNat, Nat.mod_eq_of_lt (by omega)]
    have hinfinite : exponentField m e ≠ -1#11 := fun heq => by
      have hvalue : (exponentField m e).toNat = 2047 := congrArg BitVec.toNat heq
      omega
    have hzero : exponentField m e ≠ 0#11 := fun heq => by
      have hvalue : (exponentField m e).toNat = 0 := congrArg BitVec.toNat heq
      omega
    have himplicit : (1#1 ++ BitVec.ofNat 52 m).toNat = m := by
      rw [toNat_implicit]
      omega
    simp only [if_neg hinfinite, if_neg hzero, hexponent, himplicit]
    congr 1
    change ((e + 1075).toNat : Int) - 1075 = e
    omega
  · have hfield : exponentField m e = 0#11 := if_neg hnormal
    have hne : BitVec.ofNat 52 m ≠ 0#52 := fun heq => by
      have hvalue : (BitVec.ofNat 52 m).toNat = 0 := congrArg BitVec.toNat heq
      omega
    obtain rfl := h.full.resolve_left hnormal
    have hself : (BitVec.ofNat 52 m).toNat = m := by omega
    rw [hfield, if_neg (by decide), if_pos rfl, dif_neg hne]
    simp only [hself]
    rfl

/-- A double is made up of what it unpacks to. -/
theorem pack_unpack (x : Float) : .ofModel (.pack x.toModel.unpack) = x := by
  obtain ⟨⟨⟨bits⟩, hvalid⟩⟩ := x
  have hself := packComponents_unpack bits
  have hbits : UnpackedFloat.pack .binary64 (UnpackedFloat.unpack .binary64 bits) = bits := by
    by_cases hfinite : ∃ s m e hm, UnpackedFloat.unpack .binary64 bits = .finite s m e hm
    · obtain ⟨s, m, e, hm, hunpack⟩ := hfinite
      obtain ⟨hfits, hsign, hexponent, hmantissa⟩ := fields_of_unpack hunpack
      rw [hunpack, pack_finite hfits, ← hsign, ← hexponent, ← hmantissa, hself]
    · rw [UnpackedFloat.unpack] at hfinite ⊢
      dsimp only at hfinite ⊢
      split
      · rename_i hexponent
        split
        · rename_i hmantissa
          rw [hexponent, hmantissa] at hself
          exact hself
        · rename_i hmantissa
          exact (hvalid.eq_packedNaN hexponent hmantissa).symm
      · rename_i hinfinite
        split
        · rename_i hexponent
          split
          · rename_i hmantissa
            rw [hexponent, hmantissa] at hself
            exact hself
          · rename_i hmantissa
            rw [if_neg hinfinite, if_pos hexponent, dif_neg hmantissa] at hfinite
            exact absurd ⟨_, _, _, _, rfl⟩ hfinite
        · rename_i hexponent
          rw [if_neg hinfinite, if_neg hexponent] at hfinite
          exact absurd ⟨_, _, _, _, rfl⟩ hfinite
  exact congrArg Float.ofModel (Float.Model.mk.injEq .. ▸ congrArg UInt64.ofBitVec hbits)

/-! ## Exact values are not rounded -/

theorem log2_mul_two_pow (hm : 0 < m) (k : Nat) : (m * 2 ^ k).log2 = m.log2 + k := by
  have hne : m ≠ 0 := Nat.ne_of_gt hm
  have hlow := Nat.mul_le_mul_right (2 ^ k) (Nat.log2_self_le hne)
  have hhigh := (Nat.mul_lt_mul_right (Nat.two_pow_pos k)).2 (@Nat.lt_log2_self m)
  rw [← Nat.pow_add] at hlow hhigh
  refine (Nat.log2_eq_iff (Nat.mul_ne_zero hne (Nat.ne_of_gt (Nat.two_pow_pos k)))).2 ⟨hlow, ?_⟩
  rwa [Nat.add_right_comm]

theorem targetExponent_eq (h : Fits m e) :
    Format.binary64.targetExponent (totalExponent m e) = e := by
  have hlower := h.lower
  have hlog : m.log2 < 53 := (Nat.log2_lt (Nat.ne_of_gt h.pos)).2 h.lt
  have hfull : 52 ≤ m.log2 ∨ e = -1074 :=
    h.full.imp_left (Nat.le_log2 (Nat.ne_of_gt h.pos)).2
  change max ((m.log2 : Int) + 1 + e - 53) (-1074) = e
  omega

/-- Shifting drops nothing but zeros. -/
theorem shiftRight_exact (m k : Nat) :
    (⟨m * 2 ^ k, false, false⟩ : UnpackedFloat.ExtendedMantissa) >>> k = ⟨m, false, false⟩ := by
  change k.repeat UnpackedFloat.ExtendedMantissa.shiftRightOne _ = _
  induction k generalizing m with
  | zero => simp [Nat.repeat]
  | succ k ih =>
    have hdouble : m * 2 ^ (k + 1) = m * 2 * 2 ^ k := by
      rw [Nat.pow_succ, Nat.mul_comm (2 ^ k), Nat.mul_assoc]
    rw [Nat.repeat, hdouble, ih]
    simp [UnpackedFloat.ExtendedMantissa.shiftRightOne]

theorem shiftToTargetExponent_exact (h : Fits m e) (k : Nat) :
    UnpackedFloat.shiftToTargetExponent .binary64 (m * 2 ^ k) (e - k) .exact =
      (⟨m, false, false⟩, e) := by
  have htotal : totalExponent (m * 2 ^ k) (e - k) = totalExponent m e := by
    rw [totalExponent, totalExponent, log2_mul_two_pow h.pos]
    omega
  have hshift : (e - (e - k)).toNat = k := by omega
  rw [UnpackedFloat.shiftToTargetExponent, htotal, targetExponent_eq h, UnpackedFloat.shiftToExponent,
    hshift]
  exact congrArg₂ Prod.mk (shiftRight_exact m k) (by omega)

/-- Rounding keeps a value that fits, whatever its exponent is before. -/
theorem roundWithAccuracy_exact (h : Fits m e) (k : Nat) :
    UnpackedFloat.roundWithAccuracy .binary64 s (m * 2 ^ k) (e - k) .exact = .finite s m e h.pos := by
  have hagain : UnpackedFloat.shiftToTargetExponent .binary64 m e .exact = (⟨m, false, false⟩, e) := by
    simpa using shiftToTargetExponent_exact h 0
  have hrounded : UnpackedFloat.ExtendedMantissa.roundedMantissa ⟨m, false, false⟩ = m := rfl
  rw [UnpackedFloat.roundWithAccuracy, shiftToTargetExponent_exact h]
  dsimp only
  rw [hrounded, hagain]
  exact dif_neg (Nat.ne_of_gt h.pos)

/-- A quotient that fits is exact. -/
theorem div_exact {n d : Nat} {k : Int} {a b : Nat} {hn : 0 < n} {hd : 0 < d} (h : Fits m e)
    (heq : n * 2 ^ a = m * d * 2 ^ b) (hk : k - a = e - b) :
    UnpackedFloat.div .binary64 (.finite .positive n k hn) (.finite .positive d 0 hd) =
      .finite .positive m e h.pos := by
  -- the exponent of the quotient before rounding
  obtain ⟨t, ht⟩ : ∃ t, min (k - 0) (Format.binary64.targetExponent
    (totalExponent n k - totalExponent d 0)) = t := ⟨_, rfl⟩
  have hne : m * d ≠ 0 := Nat.mul_ne_zero (Nat.ne_of_gt h.pos) (Nat.ne_of_gt hd)
  have hlog : n.log2 + a = (m * d).log2 + b := by
    rw [← log2_mul_two_pow hn, heq, log2_mul_two_pow (Nat.pos_of_ne_zero hne)]
  have hlogs : (m * d).log2 < m.log2 + d.log2 + 2 := by
    refine (Nat.log2_lt hne).2 ?_
    calc m * d < 2 ^ (m.log2 + 1) * 2 ^ (d.log2 + 1) :=
          Nat.mul_lt_mul'' Nat.lt_log2_self Nat.lt_log2_self
      _ = 2 ^ (m.log2 + d.log2 + 2) := by rw [← Nat.pow_add]; congr 1; omega
  have hte : t ≤ e := by
    have hself := targetExponent_eq h
    change max ((m.log2 : Int) + 1 + e - 53) (-1074) = e at hself
    have htarget : Format.binary64.targetExponent (totalExponent n k - totalExponent d 0) =
        max ((n.log2 : Int) + 1 + k - (d.log2 + 1 + 0) - 53) (-1074) := rfl
    omega
  have hshift : n * 2 ^ (k - 0 - t).toNat = d * (m * 2 ^ (e - t).toNat) := by
    refine Nat.eq_of_mul_eq_mul_right (Nat.two_pow_pos b) ?_
    have hpow : (k - 0 - t).toNat + b = a + (e - t).toNat := by omega
    calc n * 2 ^ (k - 0 - t).toNat * 2 ^ b = n * 2 ^ a * 2 ^ (e - t).toNat := by
          rw [Nat.mul_assoc, ← Nat.pow_add, hpow, Nat.pow_add, Nat.mul_assoc]
      _ = d * (m * 2 ^ (e - t).toNat) * 2 ^ b := by rw [heq]; ring
  rw [UnpackedFloat.div, UnpackedFloat.divCore, ht]
  dsimp only
  rw [Nat.shiftLeft_eq, hshift, Nat.mul_div_cancel_left _ hd, Nat.mul_mod_right]
  have hexponent : t = e - (e - t).toNat := by omega
  have hround := @roundWithAccuracy_exact .positive m e h (e - t).toNat
  rw [← hexponent] at hround
  exact hround

end Binary64

/-! ## Exact decimals -/

namespace Literal

open Float.Model (UnpackedFloat)
open Binary64 (Fits)

variable {m : Nat} {e : Int} {x : Float}

/-- A positive double is made up of its significand and exponent. -/
theorem eq_of_unpack_positive {x : Float} {m : Nat} {e : Int} {hm : 0 < m}
    (hx : x.toModel.unpack = .finite .positive m e hm) :
    .ofModel (.pack (.finite .positive m e hm)) = x := by
  rw [← hx, Binary64.pack_unpack]

theorem mul_eq (x y : Float) : x * y =
    .ofModel (.pack (UnpackedFloat.mul .binary64 x.toModel.unpack y.toModel.unpack)) := rfl

theorem ofNat_exact {m : Nat} (hfits : Fits m 0) :
    UnpackedFloat.ofNat .binary64 m = .finite .positive m 0 hfits.pos := by
  have hpositive : compare (m : Int) 0 = .gt := Int.compare_eq_gt.2 (Int.natCast_pos.2 hfits.pos)
  have hround := @Binary64.roundWithAccuracy_exact .positive m 0 hfits 0
  rw [UnpackedFloat.ofNat, UnpackedFloat.ofInt, UnpackedFloat.normalize, hpositive]
  dsimp only
  rw [Int.toNat_natCast, UnpackedFloat.round, Binary64.targetExponent_eq hfits,
    UnpackedFloat.decreaseExponent]
  simpa using hround

theorem scale_whole {k : Nat} (hfits : Fits m k)
    (hx : x.toModel.unpack = .finite .positive m k hfits.pos) : scale (m * 2 ^ k) 0 = x := by
  have hfull : 2 ^ 52 ≤ m := hfits.full.resolve_right (by omega)
  change Float.ofScientific (m * 2 ^ k) false 0 = x
  rw [Float.ofScientific]
  split
  · rename_i hsmall
    -- the significand is too large for a shift
    obtain rfl : k = 0 := by
      by_contra hk
      have hpow : 2 ^ 1 ≤ 2 ^ k := Nat.pow_le_pow_right Nat.two_pos (Nat.pos_of_ne_zero hk)
      have hmul := Nat.mul_le_mul hfull hpow
      omega
    have hlt := hfits.lt
    have hword : (m * 2 ^ 0).toUInt64.toNat = m := by
      rw [Nat.pow_zero, Nat.mul_one]
      exact UInt64.toNat_ofNat_of_lt (Nat.lt_trans hlt (by decide))
    have hself : (m * 2 ^ 0).toUInt64.toFloat = x := by
      rw [← eq_of_unpack_positive hx]
      change Float.ofModel (.pack (UnpackedFloat.ofNat .binary64 (m * 2 ^ 0).toUInt64.toNat)) = _
      rw [hword, ofNat_exact hfits]
      rfl
    have hone : Float.exactlyRepresentablePowersOfTen[0].toModel.unpack =
      .finite .positive (2 ^ 52) (-52) (by decide) := rfl
    dsimp only
    rw [if_neg Bool.false_ne_true, hself]
    rw [mul_eq, hx, hone]
    change Float.ofModel (.pack (UnpackedFloat.roundWithAccuracy .binary64 .positive (m * 2 ^ 52)
      ((0 : Nat) - (52 : Nat)) .exact)) = x
    rw [Binary64.roundWithAccuracy_exact hfits]
    exact eq_of_unpack_positive hx
  · have hne : m * 2 ^ k ≠ 0 :=
      Nat.mul_ne_zero (Nat.ne_of_gt hfits.pos) (Nat.ne_of_gt (Nat.two_pow_pos k))
    have hshift : (m * 2 ^ k) <<< 53 * 10 ^ (0 : Int).toNat = m * 2 ^ (k + 53) := by
      rw [Nat.shiftLeft_eq, Nat.pow_add]
      simp [Nat.mul_assoc]
    change Float.ofModel (.pack (UnpackedFloat.ofScientific .binary64 (m * 2 ^ k) 0)) = x
    have hbits : (2 ^ Float.Model.Format.binary64.exponentBits : Int) = 2048 := rfl
    rw [UnpackedFloat.ofScientific, dif_neg hne, hbits, if_neg (by decide), if_neg (by omega),
      if_pos (by decide)]
    change Float.ofModel (.pack (UnpackedFloat.roundWithAccuracy .binary64 .positive
      ((m * 2 ^ k) <<< 53 * 10 ^ (0 : Int).toNat) (-53 + 0) .exact)) = x
    have hexponent : (-53 + 0 : Int) = k - (k + 53 : Nat) := by omega
    rw [hshift, hexponent, Binary64.roundWithAccuracy_exact hfits]
    exact eq_of_unpack_positive hx

theorem scale_fraction {k : Nat} (hfits : Fits m (-(k + 1 : Nat)))
    (hx : x.toModel.unpack = .finite .positive m (-(k + 1 : Nat)) hfits.pos) :
    scale (m * 5 ^ (k + 1)) (-(k + 1 : Nat)) = x := by
  have hlower := hfits.lower
  have hne : m * 5 ^ (k + 1) ≠ 0 :=
    Nat.mul_ne_zero (Nat.ne_of_gt hfits.pos) (Nat.ne_of_gt (Nat.pow_pos (by decide)))
  change Float.ofScientific (m * 5 ^ (k + 1)) true (k + 1) = x
  rw [Float.ofScientific]
  split
  · rename_i hsmall
    have hfull : 2 ^ 52 ≤ m := hfits.full.resolve_right (by omega)
    have hpow : 5 ^ 1 ≤ 5 ^ (k + 1) := Nat.pow_le_pow_right (by decide) (Nat.succ_pos k)
    have hmul := Nat.mul_le_mul hfull hpow
    omega
  · have hden : 0 < 10 ^ (k + 1) := Nat.pow_pos (by decide)
    have heq : m * 5 ^ (k + 1) * 2 ^ (k + 1) = m * 10 ^ (k + 1) * 2 ^ 0 := by
      rw [Nat.mul_assoc, ← Nat.mul_pow, Nat.pow_zero, Nat.mul_one]
    have hdiv := @Binary64.div_exact m (-(k + 1 : Nat)) (m * 5 ^ (k + 1)) (10 ^ (k + 1)) 0 (k + 1) 0
      (Nat.pos_of_ne_zero hne) hden hfits heq (by omega)
    change Float.ofModel (.pack (UnpackedFloat.ofScientific .binary64 (m * 5 ^ (k + 1))
      (-(k + 1 : Nat)))) = x
    have hbits : (2 ^ Float.Model.Format.binary64.exponentBits : Int) = 2048 := rfl
    rw [UnpackedFloat.ofScientific, dif_neg hne, hbits, if_neg (by omega), if_neg (by omega),
      if_neg (by omega), ← eq_of_unpack_positive hx, ← hdiv]
    rfl

end Literal

namespace Number

open Float.Model (UnpackedFloat)
open Binary64 (Fits)

/-- The digits of a double read back, whether they were searched or are all there are. -/
theorem magnitude?_decimal {x : Float} {m : Nat} {e : Int} (hfits : Fits m e)
    (hx : x.toModel.unpack = .finite .positive m e hfits.pos) :
    Literal.magnitude? (Shortest.inFull (Shortest.decimal x m e)) = some x := by
  have hdigits : ∀ n, (Text.ofNat n).all Char.isDigit = true ∧ Text.ofNat n ≠ [] := fun n =>
    (Literal.natural?_eq_some (Whole.natural?_ofNat n)).symm
  have hvalue : ∀ n, Whole.value (Text.ofNat n) = n := fun n => Nat.ofDigitChars_ten_toDigits
  have hdecimal : ∀ d : Nat × Int, Literal.decimal? (Shortest.inFull d) =
      some (d.1 * Nat.pow 10 d.2.toNat, min d.2 0) := fun d => by
    rw [Shortest.inFull, Literal.decimal?_write (hdigits d.1).1 (hdigits d.1).2, hvalue]
  rw [Shortest.decimal.eq_def]
  dsimp only
  split
  · rename_i found hfound
    have hread := Shortest.read_of_searched hfound
    have hmagnitude : ∃ y, Literal.magnitude? (Shortest.inFull found) = some y :=
      ⟨_, by rw [Literal.magnitude?, hdecimal]⟩
    obtain ⟨y, hy⟩ := hmagnitude
    rw [hy, ← read?_of_magnitude hy, hread]
  · cases e with
    | ofNat k =>
      have hscale := Literal.scale_whole hfits hx
      simp only [Literal.magnitude?, hdecimal]
      simpa using hscale
    | negSucc k =>
      have hscale := Literal.scale_fraction hfits hx
      have hmin : min (-(k + 1 : Int)) 0 = -(k + 1 : Nat) := by omega
      have hzero : (-(k + 1 : Int)).toNat = 0 := by omega
      have hone : Nat.pow 10 0 = 1 := rfl
      simp only [Literal.magnitude?, hdecimal, hmin, hzero, hone, Nat.mul_one]
      exact congrArg some hscale

theorem isNegative_finite {x : Float} {s : UnpackedFloat.Sign} {m : Nat} {e : Int} {hm : 0 < m}
    (hx : x.toModel.unpack = .finite s m e hm) : isNegative x = true ↔ s = .negative := by
  obtain ⟨-, hsign, -⟩ := Binary64.fields_of_unpack hx
  have hnan : x.isNaN = false := congrArg UnpackedFloat.isNaN hx
  have hbit : (@UnpackedFloat.unpackSign .binary64 x.toBits.toBitVec).toNat = x.toBits.toNat / 2 ^ 63 := by
    have hlt := x.toBits.toNat_lt
    change (x.toBits.toNat >>> 63) % 2 ^ 1 = _
    rw [Nat.shiftRight_eq_div_pow]
    omega
  rw [isNegative, hnan, Bool.not_false, Bool.true_and, decide_eq_true_eq, ← hsign,
    UnpackedFloat.Sign.ofBitVec]
  change 2 ^ 63 ≤ x.toBits.toNat ↔ _
  split
  · rename_i hzero
    have hvalue : (@UnpackedFloat.unpackSign .binary64 x.toBits.toBitVec).toNat = 0 :=
      congrArg BitVec.toNat hzero
    simp only [reduceCtorEq, iff_false]
    omega
  · rename_i hone
    have hvalue : (@UnpackedFloat.unpackSign .binary64 x.toBits.toBitVec).toNat ≠ 0 :=
      fun h => hone (BitVec.eq_of_toNat_eq h)
    simp only [iff_true]
    omega

/-- A double is read back from its text. -/
theorem read?_plain_self (x : Float) : read? (plain x) = some x := by
  have hself := Binary64.pack_unpack x
  cases hx : x.toModel.unpack with
  | notANumber =>
    rw [← hself, hx]
    decide +kernel
  | infinity s | zero s =>
    rw [← hself, hx]
    cases s <;> decide +kernel
  | finite s m e hm =>
    obtain ⟨hfits, -⟩ := Binary64.fields_of_unpack hx
    have hpositive : x.abs.toModel.unpack = .finite .positive m e hm := by
      change (Float.Model.pack x.toModel.unpack.abs).unpack = _
      rw [hx]
      exact Binary64.unpack_pack hfits
    have hmagnitude := magnitude?_decimal hfits hpositive
    have htext : magnitudeText .plain x = Shortest.inFull (Shortest.decimal x.abs m e) := by
      rw [magnitudeText, hx]
      rfl
    have hnegative := isNegative_finite hx
    rw [hx] at hself
    rw [plain, text, htext]
    cases s with
    | negative =>
      rw [if_pos (hnegative.2 rfl), read?, hmagnitude]
      refine congrArg some ?_
      change Float.ofModel (.pack x.abs.toModel.unpack.neg) = x
      rw [hpositive]
      exact hself
    | positive =>
      rw [if_neg (fun h => by cases hnegative.1 h), read?_of_magnitude hmagnitude,
        ← Binary64.pack_unpack x.abs, hpositive]
      exact congrArg some hself

end Number
end Lineshape
