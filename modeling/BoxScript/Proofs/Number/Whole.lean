import BoxScript.Number.Binary
import Mathlib

/-!
# Whole numbers in double precision

A number is stored as a sign, an exponent and a mantissa in 64 bits. Unpacked it is `m * 2 ^ e`, where
the mantissa `m` has 53 digits, or fewer if `e` is as small as it can be (`Canonical`). These are the
parts that the language computes with (`parts_eq`).

A whole number from 1 up to `2 ^ 53` has one unpacked form (`ofWhole`): its digits are moved up until
there are 53 of them. So nothing is lost when one is taken off it.

Results:
* **`whole?_sub_one`**: one less than a whole number that is positive and below `2 ^ 53`;
* `pos_of_whole?`, `not_pos_of_whole?`: such a number is positive, and zero is not.
-/

namespace BoxScript.Number

open Float.Model (Format UnpackedFloat totalExponent)
open Float.Model.UnpackedFloat

/-! ## The bits of a number -/

/-- The number that is stored as this sign, exponent and mantissa. -/
def ofFields (s : Sign) (exponent mantissa : Nat) : UnpackedFloat :=
  if exponent = 2047 then if mantissa = 0 then .infinity s else .notANumber
  else if exponent = 0 then
    if h : mantissa = 0 then .zero s else .finite s mantissa (-1074) (Nat.pos_of_ne_zero h)
  else .finite s (2 ^ 52 + mantissa) (exponent - 1075) (by omega)

/-- A mantissa below its implicit bit. -/
theorem toNat_one_append (m : BitVec 52) : (1#1 ++ m).toNat = 2 ^ 52 + m.toNat := by
  have hlt : m.toNat < 2 ^ 52 := m.isLt
  rw [BitVec.toNat_append]
  change 1 <<< 52 ||| m.toNat = _
  rw [Nat.shiftLeft_eq, Nat.one_mul, Nat.or_comm, Nat.or_two_pow_eq_add_of_lt hlt, Nat.add_comm]

theorem unpack_eq (b : BitVec 64) :
    unpack Format.binary64 b = ofFields (Sign.ofBitVec (@unpackSign Format.binary64 b))
      (@unpackExponent Format.binary64 b).toNat
      (@unpackMantissa Format.binary64 b).toNat := by
  have hlast : @unpackExponent Format.binary64 b = -1#11 ↔
      (@unpackExponent Format.binary64 b).toNat = 2047 := BitVec.toNat_eq
  have hfirst : @unpackExponent Format.binary64 b = 0#11 ↔
      (@unpackExponent Format.binary64 b).toNat = 0 := BitVec.toNat_eq
  have hmantissa : @unpackMantissa Format.binary64 b = 0#52 ↔
      (@unpackMantissa Format.binary64 b).toNat = 0 := BitVec.toNat_eq
  unfold unpack ofFields
  dsimp only
  split
  · rename_i h
    rw [if_pos (hlast.mp h)]
    simp only [hmantissa]
  · rename_i h
    rw [if_neg fun h' => h (hlast.mpr h')]
    split
    · rename_i h₀
      rw [if_pos (hfirst.mp h₀)]
      split
      · rename_i hm
        rw [dif_pos (hmantissa.mp hm)]
      · rename_i hm
        rw [dif_neg fun h' => hm (hmantissa.mpr h')]
        simp only [h₀]
        rfl
    · rename_i h₀
      rw [if_neg fun h' => h₀ (hfirst.mpr h')]
      simp only [toNat_one_append]
      rfl

theorem unpackSign_packComponents (s : Sign) (e : BitVec 11) (m : BitVec 52) :
    unpackSign (packComponents Format.binary64 s e m) = s.toBitVec := by
  change ((s.toBitVec ++ e ++ m).extractLsb' 63 1) = _
  rw [BitVec.extractLsb'_append_eq_of_le (by decide), BitVec.extractLsb'_append_eq_of_le (by decide)]
  cases s <;> rfl

theorem ofBitVec_toBitVec (s : Sign) : Sign.ofBitVec s.toBitVec = s := by
  cases s <;> rfl

theorem unpack_packComponents (s : Sign) (e : BitVec 11) (m : BitVec 52) :
    unpack Format.binary64 (packComponents Format.binary64 s e m) = ofFields s e.toNat m.toNat := by
  rw [unpack_eq, unpackSign_packComponents, ofBitVec_toBitVec, unpackExponent_packComponents,
    unpackMantissa_packComponents]

/-! ## Packing and unpacking -/

/-- The unpacked numbers that there are in double precision. -/
inductive Canonical : UnpackedFloat → Prop
  | notANumber : Canonical .notANumber
  | infinity (s : Sign) : Canonical (.infinity s)
  | zero (s : Sign) : Canonical (.zero s)
  | subnormal (s : Sign) {m : Nat} (hm : 0 < m) : m < 2 ^ 52 → Canonical (.finite s m (-1074) hm)
  | normal (s : Sign) {m : Nat} {e : Int} (hm : 0 < m) :
    2 ^ 52 ≤ m → m < 2 ^ 53 → -1074 ≤ e → e ≤ 971 → Canonical (.finite s m e hm)

theorem canonical_ofFields (s : Sign) {exponent mantissa : Nat} (he : exponent < 2 ^ 11)
    (hm : mantissa < 2 ^ 52) : Canonical (ofFields s exponent mantissa) := by
  unfold ofFields
  split
  · split
    · exact .infinity s
    · exact .notANumber
  · split
    · split
      · exact .zero s
      · exact .subnormal s _ hm
    · exact .normal s _ (by omega) (by omega) (by omega) (by omega)

theorem canonical_unpack (x : Float) : Canonical x.toModel.unpack := by
  unfold Float.Model.unpack
  rw [unpack_eq]
  exact canonical_ofFields _ (BitVec.isLt _) (BitVec.isLt _)

variable {m : Nat} {f : UnpackedFloat}

theorem mantissa_log2_iff (hm : 0 < m) (hlt : m < 2 ^ 53) :
    m.log2 + 1 = Format.binary64.mantissaBits ↔ 2 ^ 52 ≤ m := by
  change m.log2 + 1 = 53 ↔ _
  have hne : m ≠ 0 := Nat.ne_of_gt hm
  have hlog := (Nat.log2_lt hne).mpr hlt
  rw [← Nat.le_log2 hne]
  omega

/-- **Unpacking gives back what was packed.** -/
theorem unpack_pack (h : Canonical f) : (Float.Model.pack f).unpack = f := by
  change unpack Format.binary64 (pack Format.binary64 f) = f
  cases h with
  | notANumber => rfl
  | infinity s => cases s <;> rfl
  | zero s => cases s <;> rfl
  | @subnormal s m hm hlt =>
    have hlog : ¬ m.log2 + 1 = Format.binary64.mantissaBits := by
      rw [mantissa_log2_iff hm (Nat.lt_trans hlt (by decide))]
      omega
    have hpack : pack Format.binary64 (.finite s m (-1074) hm) =
        packComponents Format.binary64 s 0#11 (BitVec.ofNat 52 m) := by
      unfold pack
      dsimp only
      rw [if_neg (by decide), if_neg hlog]
    have hmod : (BitVec.ofNat 52 m).toNat = m := Nat.mod_eq_of_lt hlt
    rw [hpack, unpack_packComponents, hmod]
    exact dif_neg (Nat.ne_of_gt hm)
  | @normal s m e hm hle hlt he he' =>
    have hpack : pack Format.binary64 (.finite s m e hm) =
        packComponents Format.binary64 s (BitVec.ofNat 11 (e + 1075).toNat) (BitVec.ofNat 52 m) := by
      have hbiased : (e + Format.binary64.exponentBias +
          Format.binary64.mantissaBitsWithoutImplicit).toNat = (e + 1075).toNat :=
        congrArg Int.toNat (Int.add_assoc e 1023 52)
      have hsmall : ¬ 2 ^ 11 ≤ (e + 1075).toNat + 1 := by omega
      unfold pack
      dsimp only
      rw [hbiased, if_neg hsmall, if_pos ((mantissa_log2_iff hm hlt).mpr hle)]
    rw [hpack, unpack_packComponents, BitVec.toNat_ofNat, BitVec.toNat_ofNat,
      Nat.mod_eq_of_lt (show (e + 1075).toNat < 2 ^ 11 by omega)]
    unfold ofFields
    rw [if_neg (by omega), if_neg (by omega)]
    congr 1
    · omega
    · omega

theorem Canonical.neg (h : Canonical f) : Canonical f.neg := by
  cases h with
  | notANumber => exact .notANumber
  | infinity s => exact .infinity _
  | zero s => exact .zero _
  | subnormal s hm hlt => exact .subnormal _ hm hlt
  | normal s hm hle hlt he he' => exact .normal _ hm hle hlt he he'

theorem unpack_neg (x : Float) : (-x).toModel.unpack = x.toModel.unpack.neg :=
  unpack_pack (canonical_unpack x).neg

/-! ## Parts -/

/-- The parts of an unpacked number. -/
def partsOf : UnpackedFloat → Parts
  | .notANumber => .nan
  | .infinity s => .infinite (s == .negative)
  | .zero s => .finite (s == .negative) 0 (-1074)
  | .finite s m e _ => .finite (s == .negative) m e

theorem partsOf_ofFields (s : Sign) (exponent mantissa : Nat) :
    partsOf (ofFields s exponent mantissa) =
      if exponent = 2047 then
        if mantissa = 0 then .infinite (s == .negative) else .nan
      else if exponent = 0 then .finite (s == .negative) mantissa (-1074)
      else .finite (s == .negative) (2 ^ 52 + mantissa) (exponent - 1075) := by
  unfold ofFields
  split
  · split <;> rfl
  · split
    · split
      · rename_i h
        rw [h]
        rfl
      · rfl
    · rfl

/-- **The parts of a number are those of its unpacked form.** -/
theorem parts_eq (x : Float) : parts x = partsOf x.toModel.unpack := by
  unfold Float.Model.unpack
  rw [unpack_eq, partsOf_ofFields]
  have hmantissa : (@unpackMantissa Format.binary64 x.toModel.toBits.toBitVec).toNat =
      x.toBits.toNat % 2 ^ 52 := by
    simp [unpackMantissa, BitVec.extractLsb_toNat, Float.toBits]
  have hexponent : (@unpackExponent Format.binary64 x.toModel.toBits.toBitVec).toNat =
      x.toBits.toNat / 2 ^ 52 % 2 ^ 11 := by
    simp [unpackExponent, BitVec.extractLsb_toNat, Nat.shiftRight_eq_div_pow, Float.toBits]
  have hsign : (Sign.ofBitVec (@unpackSign Format.binary64 x.toModel.toBits.toBitVec) ==
      .negative) = (x.toBits.toNat / 2 ^ 63 == 1) := by
    have hbit : (@unpackSign Format.binary64 x.toModel.toBits.toBitVec).toNat =
        x.toBits.toNat / 2 ^ 63 := by
      have hlt : x.toModel.toBits.toNat < 2 ^ 64 := x.toModel.toBits.toBitVec.isLt
      simp [unpackSign, BitVec.extractLsb_toNat, Nat.shiftRight_eq_div_pow, Float.toBits]
      omega
    rw [← hbit]
    generalize @unpackSign Format.binary64 x.toModel.toBits.toBitVec = b
    revert b
    decide
  rw [hmantissa, hexponent, hsign]
  rfl

variable {x : Float} {negative : Bool} {e : Int}

theorem parts_neg (h : parts x = .finite negative m e) : parts (-x) = .finite (!negative) m e := by
  rw [parts_eq] at h
  rw [parts_eq, unpack_neg]
  cases hx : x.toModel.unpack with
  | zero s =>
    rw [hx] at h
    obtain ⟨rfl, rfl, rfl⟩ := Parts.finite.inj h
    cases s <;> rfl
  | finite s m e hm =>
    rw [hx] at h
    obtain ⟨rfl, rfl, rfl⟩ := Parts.finite.inj h
    cases s <;> rfl
  | _ =>
    rw [hx] at h
    exact nomatch h

/-! ## Whole numbers -/

variable {j : Nat} {n : Int} {s : Sign}

theorem floor?_eq (h : parts x = .finite negative m (-(j : Int))) :
    floor? x = some ((if negative then -(m : Int) else m) / 2 ^ j) := by
  unfold floor?
  rw [h]
  cases j with
  | zero =>
    change some (if negative then -((m * 1 : Nat) : Int) else (m * 1 : Nat)) = _
    rw [Nat.mul_one, Int.pow_zero, Int.ediv_one]
  | succ j =>
    change some (Int.fdiv (if negative then -(m : Int) else m) ((Nat.pow 2 (j + 1) : Nat) : Int)) = _
    rw [Int.fdiv_eq_ediv_of_nonneg _ (Int.natCast_nonneg _)]
    simp

/-- A number is whole if its mantissa has no digits behind the point. -/
theorem whole?_eq_some_iff (h : parts x = .finite negative m (-(j : Int))) :
    whole? x = some n ↔ (if negative then -(m : Int) else m) = n * 2 ^ j := by
  have hneg : floor? (-x) = some (-(if negative then -(m : Int) else m) / 2 ^ j) := by
    rw [floor?_eq (parts_neg h)]
    cases negative <;> simp
  have hpos : (0 : Int) < 2 ^ j := Int.pow_pos (by decide)
  unfold whole? ceil?
  rw [floor?_eq h, hneg]
  generalize (if negative then -(m : Int) else m) = a
  simp only [Option.map_some]
  constructor
  · intro heq
    split at heq
    · rename_i hsame
      obtain rfl := Option.some.inj heq
      have hle := Int.ediv_mul_le a (Int.ne_of_gt hpos)
      have hge := Int.ediv_mul_le (-a) (Int.ne_of_gt hpos)
      have hflip : -a / 2 ^ j = -(a / 2 ^ j) := by omega
      rw [hflip, Int.neg_mul] at hge
      omega
    · exact nomatch heq
  · rintro rfl
    rw [Int.mul_ediv_cancel _ (Int.ne_of_gt hpos), ← Int.neg_mul,
      Int.mul_ediv_cancel _ (Int.ne_of_gt hpos), Int.neg_neg, if_pos rfl]

/-- The unpacked form of a whole number from 1 up to `2 ^ 53`. -/
def ofWhole (n : Nat) (hn : 0 < n) : UnpackedFloat :=
  .finite .positive (n * 2 ^ (52 - n.log2)) (-((52 - n.log2 : Nat) : Int))
    (Nat.mul_pos hn (Nat.two_pow_pos _))

theorem log2_mul_two_pow {n : Nat} (hn : 0 < n) (j : Nat) : (n * 2 ^ j).log2 = n.log2 + j := by
  have hpos : 0 < n * 2 ^ j := Nat.mul_pos hn (Nat.two_pow_pos j)
  rw [Nat.log2_eq_iff (Nat.ne_of_gt hpos), Nat.pow_add, Nat.add_right_comm, Nat.pow_add]
  have hlog := (Nat.log2_eq_iff (Nat.ne_of_gt hn)).mp rfl
  exact ⟨Nat.mul_le_mul_right _ hlog.1, Nat.mul_lt_mul_of_pos_right hlog.2 (Nat.two_pow_pos j)⟩

theorem log2_le {n : Nat} (hn : 0 < n) (hlt : n < 2 ^ 53) : n.log2 ≤ 52 :=
  Nat.le_of_lt_succ ((Nat.log2_lt (Nat.ne_of_gt hn)).mpr hlt)

theorem canonical_ofWhole {n : Nat} (hn : 0 < n) (hlt : n < 2 ^ 53) : Canonical (ofWhole n hn) := by
  have hle := log2_le hn hlt
  have hpos : n * 2 ^ (52 - n.log2) ≠ 0 := Nat.ne_of_gt (Nat.mul_pos hn (Nat.two_pow_pos _))
  have hlog : (n * 2 ^ (52 - n.log2)).log2 = 52 := by
    rw [log2_mul_two_pow hn]
    omega
  obtain ⟨hge, hlt⟩ := (Nat.log2_eq_iff hpos).mp hlog
  exact .normal _ _ hge hlt (by omega) (by omega)

theorem floor?_of_whole? (h : whole? x = some n) : floor? x = some n := by
  unfold whole? at h
  split at h
  · rename_i k l hk hl
    split at h
    · exact hk.trans h
    · exact nomatch h
  · exact nomatch h

/-- A number that is equal to a positive whole number is positive. -/
theorem eq_mul_two_pow {n : Nat} (hn : 0 < n)
    (h : (if s == .negative then -(m : Int) else m) = n * 2 ^ j) :
    s = .positive ∧ m = n * 2 ^ j ∧ 0 < m := by
  have hpow : ((n * 2 ^ j : Nat) : Int) = n * 2 ^ j := by simp
  have hpos : 0 < n * 2 ^ j := Nat.mul_pos hn (Nat.two_pow_pos j)
  cases s with
  | negative =>
    have hneg : -(m : Int) = (n * 2 ^ j : Nat) := h.trans hpow.symm
    omega
  | positive =>
    obtain rfl : m = n * 2 ^ j := Int.ofNat.inj (h.trans hpow.symm)
    exact ⟨rfl, rfl, hpos⟩

/-- **A whole number from 1 up to `2 ^ 53` has this form.** -/
theorem unpack_eq_ofWhole {n : Nat} (h : whole? x = some (n : Int)) (hn : 0 < n)
    (hlt : n < 2 ^ 53) : x.toModel.unpack = ofWhole n hn := by
  have hparts := parts_eq x
  have hcanonical := canonical_unpack x
  have hfloor := floor?_of_whole? h
  generalize x.toModel.unpack = f at hparts hcanonical ⊢
  cases hcanonical with
  | notANumber =>
    rw [floor?, hparts] at hfloor
    exact nomatch hfloor
  | infinity s =>
    rw [floor?, hparts] at hfloor
    exact nomatch hfloor
  | zero s =>
    have hzero := eq_mul_two_pow hn ((whole?_eq_some_iff (j := 1074) hparts).mp h)
    exact absurd hzero.2.2 (Nat.lt_irrefl 0)
  | @subnormal s m hm hsmall =>
    obtain ⟨j, hj, hparts⟩ :
        ∃ j : Nat, 52 ≤ j ∧ parts x = .finite (s == .negative) m (-(j : Int)) :=
      ⟨1074, by decide, hparts⟩
    obtain ⟨-, rfl, -⟩ := eq_mul_two_pow hn ((whole?_eq_some_iff hparts).mp h)
    have hlog := (Nat.log2_lt (Nat.ne_of_gt hm)).mpr hsmall
    rw [log2_mul_two_pow hn] at hlog
    omega
  | @normal s m e hm hle hlt he he' =>
    rcases Int.lt_or_le 0 e with hpos | hneg
    · -- a mantissa of 53 digits with a zero behind it is too large
      obtain ⟨k, rfl⟩ : ∃ k : Nat, e = .ofNat (k + 1) := ⟨(e - 1).toNat, by
        change e = ((e - 1).toNat + 1 : Nat)
        omega⟩
      rw [floor?, hparts] at hfloor
      have hvalue : (if s == .negative then -((m * 2 ^ (k + 1) : Nat) : Int)
          else (m * 2 ^ (k + 1) : Nat)) = n := Option.some.inj hfloor
      have hlarge : 2 ^ 52 * 2 ^ 1 ≤ m * 2 ^ (k + 1) :=
        Nat.mul_le_mul hle (Nat.pow_le_pow_right (by decide) (Nat.le_add_left 1 k))
      split at hvalue <;> omega
    · obtain ⟨j, rfl⟩ : ∃ j : Nat, e = -(j : Int) := ⟨(-e).toNat, by omega⟩
      obtain ⟨rfl, rfl, -⟩ := eq_mul_two_pow hn ((whole?_eq_some_iff hparts).mp h)
      have hlog := (Nat.log2_eq_iff (Nat.ne_of_gt hm)).mpr ⟨hle, hlt⟩
      rw [log2_mul_two_pow hn] at hlog
      obtain rfl : j = 52 - n.log2 := by omega
      rfl

theorem whole?_of_unpack {n : Nat} (hn : 0 < n) (h : x.toModel.unpack = ofWhole n hn) :
    whole? x = some (n : Int) := by
  have hparts : parts x = .finite false (n * 2 ^ (52 - n.log2)) (-((52 - n.log2 : Nat) : Int)) := by
    rw [parts_eq, h]
    rfl
  rw [whole?_eq_some_iff hparts]
  simp

/-! ## One less -/

theorem shiftRight_mul_two_pow (m j : Nat) :
    (⟨m * 2 ^ j, false, false⟩ : ExtendedMantissa) >>> j = ⟨m, false, false⟩ := by
  change j.repeat ExtendedMantissa.shiftRightOne ⟨m * 2 ^ j, false, false⟩ = _
  induction j generalizing m with
  | zero => rw [Nat.pow_zero, Nat.mul_one]; rfl
  | succ j ih =>
    have hshift : m * 2 ^ (j + 1) = m * 2 * 2 ^ j := by
      rw [Nat.pow_succ, Nat.mul_comm (2 ^ j), Nat.mul_assoc]
    rw [Nat.repeat, hshift, ih]
    simp [ExtendedMantissa.shiftRightOne]

theorem targetExponent_whole {n : Nat} (hn : 0 < n) (j : Nat) :
    Format.binary64.targetExponent (totalExponent (n * 2 ^ j) (-(j : Int))) = n.log2 - 52 := by
  have hlog := log2_mul_two_pow hn (j := j)
  have hmin : Format.binary64.minExponent = -1074 := by decide
  have hbits : (Format.binary64.mantissaBits : Int) = 53 := by decide
  rw [Format.targetExponent, totalExponent, hlog, hmin, hbits]
  omega

/-- A whole number is brought into its form without a loss. -/
theorem shiftToTargetExponent_whole {n : Nat} (hn : 0 < n) (hle : n.log2 ≤ 52) (i : Nat) :
    shiftToTargetExponent Format.binary64 (n * 2 ^ (52 - n.log2 + i))
        (-((52 - n.log2 + i : Nat) : Int)) .exact =
      (⟨n * 2 ^ (52 - n.log2), false, false⟩, -((52 - n.log2 : Nat) : Int)) := by
  have hshift : ((n.log2 : Int) - 52 - -((52 - n.log2 + i : Nat) : Int)).toNat = i := by omega
  rw [shiftToTargetExponent, targetExponent_whole hn, shiftToExponent, hshift,
    ExtendedMantissa.ofMantissaAndAccuracy, Nat.pow_add, ← Nat.mul_assoc, shiftRight_mul_two_pow]
  congr 1
  omega

/-- Rounding brings a whole number into its form. -/
theorem round_whole {n : Nat} (hn : 0 < n) (hlt : n < 2 ^ 53) (j : Nat) (hj : 52 ≤ n.log2 + j) :
    UnpackedFloat.round Format.binary64 .positive (n * 2 ^ j) (-(j : Int)) = ofWhole n hn := by
  have hle := log2_le hn hlt
  obtain ⟨i, rfl⟩ : ∃ i, j = 52 - n.log2 + i := ⟨j - (52 - n.log2), by omega⟩
  have hstay : (-((52 - n.log2 + i : Nat) : Int) - ((n.log2 : Int) - 52)).toNat = 0 := by omega
  have hfirst := shiftToTargetExponent_whole hn hle i
  have hsecond := shiftToTargetExponent_whole hn hle 0
  rw [Nat.add_zero] at hsecond
  have hpos : n * 2 ^ (52 - n.log2) ≠ 0 := Nat.ne_of_gt (Nat.mul_pos hn (Nat.two_pow_pos _))
  rw [UnpackedFloat.round, targetExponent_whole hn, decreaseExponent, hstay, Nat.shiftLeft_zero]
  simp only [Int.natCast_zero, Int.sub_zero, roundWithAccuracy, hfirst,
    ExtendedMantissa.roundedMantissa, ExtendedMantissa.accuracy, Accuracy.roundToNearestEven,
    hsecond, dif_neg hpos, ofWhole]

/-- The mantissa of a whole number, moved to the exponent that it and 1 have in common. -/
theorem decreaseExponent_ofWhole {n : Nat} (hn : 0 < n) (hlt : n < 2 ^ 53) :
    (decreaseExponent (n * 2 ^ (52 - n.log2)) (-((52 - n.log2 : Nat) : Int)) (-52)).1 =
      n * 2 ^ 52 := by
  have hle := log2_le hn hlt
  have hshift : (-((52 - n.log2 : Nat) : Int) - -52).toNat = n.log2 := by omega
  have hsum : 52 - n.log2 + n.log2 = 52 := by omega
  rw [decreaseExponent, hshift, Nat.shiftLeft_eq, Nat.mul_assoc, ← Nat.pow_add, hsum]

/-- One is taken off a whole number without rounding. -/
theorem sub_one_ofWhole {n : Nat} (hn : 0 < n) (hlt : n < 2 ^ 53) :
    sub Format.binary64 (ofWhole n hn) (ofWhole 1 Nat.one_pos) =
      if h : n = 1 then .zero .positive else ofWhole (n - 1) (by omega) := by
  have hone : Nat.log2 1 = 0 := by decide
  have hmin : min (-((52 - n.log2 : Nat) : Int)) (-((52 - Nat.log2 1 : Nat) : Int)) = -52 := by
    rw [hone]
    omega
  have hmantissa : ((n * 2 ^ 52 : Nat) : Int) - (1 * 2 ^ 52 : Nat) = ((n - 1) * 2 ^ 52 : Nat) := by
    omega
  change UnpackedFloat.normalize Format.binary64
    (((decreaseExponent (n * 2 ^ (52 - n.log2)) (-((52 - n.log2 : Nat) : Int)) _).1 : Int) -
      ((decreaseExponent (1 * 2 ^ (52 - Nat.log2 1)) (-((52 - Nat.log2 1 : Nat) : Int)) _).1 : Int))
    (min (-((52 - n.log2 : Nat) : Int)) (-((52 - Nat.log2 1 : Nat) : Int))) .positive = _
  rw [hmin, decreaseExponent_ofWhole hn hlt, decreaseExponent_ofWhole Nat.one_pos (by decide),
    hmantissa, UnpackedFloat.normalize]
  by_cases h : n = 1
  · subst h
    rfl
  · have hpos : 0 < n - 1 := by omega
    have hcompare : compare (((n - 1) * 2 ^ 52 : Nat) : Int) 0 = .gt := by
      rw [Int.compare_eq_gt]
      exact Int.natCast_pos.mpr (Nat.mul_pos hpos (Nat.two_pow_pos _))
    rw [hcompare, dif_neg h]
    exact round_whole hpos (by omega) 52 (Nat.le_add_left 52 _)

theorem unpack_one : (1 : Float).toModel.unpack = ofWhole 1 Nat.one_pos := by
  rfl

theorem whole?_zero (h : x.toModel.unpack = .zero s) : whole? x = some 0 := by
  obtain ⟨j, hparts⟩ : ∃ j : Nat, parts x = .finite (s == .negative) 0 (-(j : Int)) :=
    ⟨1074, (parts_eq x).trans (h ▸ rfl)⟩
  rw [whole?_eq_some_iff hparts, Int.zero_mul]
  cases s <;> rfl

/-- **One less than a whole number is computed exactly.** -/
theorem whole?_sub_one {n : Nat} (h : whole? x = some (n : Int)) (hn : 0 < n) (hlt : n < 2 ^ 53) :
    whole? (x - 1) = some ((n - 1 : Nat) : Int) := by
  have hsub := sub_one_ofWhole hn hlt
  rw [← unpack_eq_ofWhole h hn hlt, ← unpack_one] at hsub
  by_cases hone : n = 1
  · subst hone
    exact whole?_zero ((unpack_pack (hsub ▸ .zero .positive)).trans hsub)
  · rw [dif_neg hone] at hsub
    have hpos : 0 < n - 1 := by omega
    have hcanonical := canonical_ofWhole hpos (by omega)
    exact whole?_of_unpack hpos ((unpack_pack (hsub ▸ hcanonical)).trans hsub)

/-! ## Comparison with zero -/

theorem lt_iff (x y : Float) :
    x < y ↔ UnpackedFloat.lt x.toModel.unpack y.toModel.unpack = true := by
  change decide (x.toModel < y.toModel) = true ↔ _
  rw [decide_eq_true_iff]
  rfl

theorem unpack_zero : (0 : Float).toModel.unpack = .zero .positive := by
  rfl

theorem pos_of_whole? {n : Nat} (h : whole? x = some (n : Int)) (hn : 0 < n) (hlt : n < 2 ^ 53) :
    0 < x := by
  rw [lt_iff, unpack_zero, unpack_eq_ofWhole h hn hlt]
  rfl

theorem whole?_ne_zero (h : parts x = .finite negative m e) (hm : 0 < m) : whole? x ≠ some 0 := by
  intro hwhole
  cases e with
  | ofNat k =>
    have hfloor := floor?_of_whole? hwhole
    have hpos : 0 < m * 2 ^ k := Nat.mul_pos hm (Nat.two_pow_pos k)
    rw [floor?, h] at hfloor
    have hvalue : (if negative then -((m * 2 ^ k : Nat) : Int) else (m * 2 ^ k : Nat)) = 0 :=
      Option.some.inj hfloor
    split at hvalue <;> omega
  | negSucc k =>
    have hvalue := (whole?_eq_some_iff (j := k + 1) h).mp hwhole
    rw [Int.zero_mul] at hvalue
    split at hvalue <;> omega

theorem not_pos_of_whole? (h : whole? x = some 0) : ¬ 0 < x := by
  have hparts := parts_eq x
  rw [lt_iff, unpack_zero]
  cases hx : x.toModel.unpack with
  | notANumber => exact Bool.false_ne_true
  | infinity s =>
    have hfloor := floor?_of_whole? h
    rw [floor?, hparts, hx] at hfloor
    exact nomatch hfloor
  | zero s => cases s <;> exact Bool.false_ne_true
  | finite s m e hm =>
    rw [hx] at hparts
    exact absurd h (whole?_ne_zero hparts hm)

end BoxScript.Number
