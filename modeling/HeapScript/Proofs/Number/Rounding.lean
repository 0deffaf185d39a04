import Mathlib
import HeapScript.Number.Binary64

/-!
# Float operations that do not round

A product or quotient with one, and a difference with zero, give the other operand back, bit for
bit; a product with two is a sum of the other operand with itself. The one exception is the
difference of two negative zeros, which is the positive zero.

Floats are the numbers `±m · 2 ^ e` of `Float.Model`, with a mantissa and an exponent in canonical
form. The operations round a mantissa that may be too long; all that is needed here is that a
mantissa with zeros behind it rounds as it does without them.
-/

namespace HeapScript.Binary64

open Float.Model Float.Model.UnpackedFloat

/-! ## Canonical form -/

/-- The mantissa and the exponent of a float that is not zero. -/
structure Canonical (m : Nat) (e : Int) : Prop where
  pos : 0 < m
  lt : m < 2 ^ 53
  least : -1074 ≤ e
  full : m.log2 = 52 ∨ e = -1074

theorem targetExponent_eq (t : Int) : Format.binary64.targetExponent t = max (t - 53) (-1074) := rfl

theorem Canonical.target {m : Nat} {e : Int} (h : Canonical m e) :
    Format.binary64.targetExponent (totalExponent m e) = e := by
  have hlog : m.log2 < 53 := (Nat.log2_lt h.pos.ne').2 h.lt
  have hleast := h.least
  rw [targetExponent_eq, totalExponent]
  rcases h.full with hfull | hfull <;> omega

theorem Canonical.target_double {m : Nat} {e : Int} (h : Canonical m e) :
    e ≤ Format.binary64.targetExponent (totalExponent (m * 2) e) := by
  have hlog : (m * 2).log2 = m.log2 + 1 := by rw [Nat.mul_comm, Nat.log2_two_mul h.pos.ne']
  have hleast := h.least
  rw [targetExponent_eq, totalExponent, hlog]
  rcases h.full with hfull | hfull <;> omega

/-- The mantissa and the exponent of a float are in canonical form. -/
theorem canonical_of_unpack {x : Float.Model} {s : Sign} {m : Nat} {e : Int} {hm : 0 < m}
    (h : x.unpack = .finite s m e hm) : Canonical m e := by
  obtain ⟨⟨b⟩, hb⟩ := x
  have hmant := (@unpackMantissa Format.binary64 b).isLt
  simp only [Float.Model.unpack, UnpackedFloat.unpack] at h
  split at h
  · split at h <;> cases h
  rename_i hfinite
  split at h
  · -- too small for a leading one
    rename_i hzero
    split at h
    · cases h
    · rename_i hne
      obtain ⟨rfl, rfl, rfl⟩ := h
      rw [hzero]
      exact ⟨hm, hmant.trans (by decide), by decide, .inr (by decide)⟩
  · rename_i hne
    injection h with hs hmant' he
    have hsum : m = 2 ^ 52 + (@unpackMantissa Format.binary64 b).toNat := by
      rw [← hmant', BitVec.toNat_append, ← Nat.shiftLeft_add_eq_or_of_lt hmant]
      rfl
    have hpos : (@unpackExponent Format.binary64 b).toNat ≠ 0 := fun h0 =>
      hne (BitVec.eq_of_toNat_eq h0)
    have hbias : (Format.binary64.exponentBias : Int) + Format.binary64.mantissaBitsWithoutImplicit =
        1075 := by decide
    rw [hbias] at he
    change (@unpackMantissa Format.binary64 b).toNat < 2 ^ 52 at hmant
    exact ⟨hm, by omega, by omega, .inl ((Nat.log2_eq_iff hm.ne').2 (by omega))⟩

/-! ## Rounding -/

theorem log2_scaled {m : Nat} (hm : m ≠ 0) (k : Nat) : (m * 2 ^ k).log2 = m.log2 + k := by
  induction k with
  | zero => rw [pow_zero, mul_one, add_zero]
  | succ k ih =>
    have hne : m * 2 ^ k ≠ 0 := Nat.mul_ne_zero hm (Nat.two_pow_pos k).ne'
    rw [pow_succ, ← mul_assoc, mul_comm, Nat.log2_two_mul hne, ih, add_assoc]

theorem totalExponent_scaled {m : Nat} (hm : m ≠ 0) (k : Nat) (e : Int) :
    totalExponent (m * 2 ^ k) (e - k) = totalExponent m e := by
  rw [totalExponent, totalExponent, log2_scaled hm]
  omega

/-- A mantissa with nothing behind it. -/
def whole (m : Nat) : ExtendedMantissa := ⟨m, false, false⟩

theorem shiftRight_succ (x : ExtendedMantissa) (k : Nat) : x >>> (k + 1) = (x >>> k).shiftRightOne := rfl

theorem shiftRight_scaled (m k : Nat) : whole (m * 2 ^ k) >>> k = whole m := by
  induction k generalizing m with
  | zero => rw [pow_zero, mul_one]; rfl
  | succ k ih =>
    rw [shiftRight_succ, pow_succ', ← mul_assoc, ih, whole, ExtendedMantissa.shiftRightOne]
    simp [whole]

theorem shiftRight_scaled_add (m k j : Nat) : whole (m * 2 ^ k) >>> (k + j) = whole m >>> j := by
  induction j with
  | zero => exact shiftRight_scaled m k
  | succ j ih => rw [← add_assoc, shiftRight_succ, shiftRight_succ, ih]

/-- Zeros behind a mantissa do not matter. -/
theorem round_scaled {m : Nat} {e : Int} (hm : m ≠ 0)
    (he : e ≤ Format.binary64.targetExponent (totalExponent m e)) (s : Sign) (k : Nat) :
    roundWithAccuracy .binary64 s (m * 2 ^ k) (e - k) .exact =
      roundWithAccuracy .binary64 s m e .exact := by
  have hshift : shiftToTargetExponent .binary64 (m * 2 ^ k) (e - k) .exact =
      shiftToTargetExponent .binary64 m e .exact := by
    rw [shiftToTargetExponent, shiftToTargetExponent, totalExponent_scaled hm]
    generalize Format.binary64.targetExponent (totalExponent m e) = t at he
    have hamount : (t - (e - k)).toNat = k + (t - e).toNat := by omega
    have hexp : e - k + ((k + (t - e).toNat : Nat) : Int) = e + (t - e).toNat := by omega
    rw [shiftToExponent, shiftToExponent, hamount, hexp]
    exact congrArg (·, _) (shiftRight_scaled_add m k _)
  rw [roundWithAccuracy, roundWithAccuracy, hshift]

theorem Canonical.shift {m : Nat} {e : Int} (h : Canonical m e) :
    shiftToTargetExponent .binary64 m e .exact = (whole m, e) := by
  rw [shiftToTargetExponent, h.target, shiftToExponent, sub_self]
  exact congrArg (whole m, ·) (add_zero e)

/-- What is canonical does not round. -/
theorem Canonical.round {m : Nat} {e : Int} (h : Canonical m e) (s : Sign) :
    roundWithAccuracy .binary64 s m e .exact = .finite s m e h.pos := by
  have hrounded : (whole m).roundedMantissa = m := rfl
  have hmant : (whole m).mantissa = m := rfl
  simp only [roundWithAccuracy, h.shift, hrounded, hmant, dif_neg h.pos.ne']

/-! ## Laws -/

theorem eq_of_unpack {x : Float} {u : UnpackedFloat} (h : u = x.toModel.unpack) :
    (⟨Float.Model.pack u⟩ : Float) = x := by
  subst h
  exact x.ofBits_toBits

theorem one_unpack : (1 : Float).toModel.unpack = .finite .positive (2 ^ 52) (-52) (by decide) :=
  rfl

theorem two_unpack : (2 : Float).toModel.unpack = .finite .positive (2 ^ 52) (-51) (by decide) :=
  rfl

theorem zero_unpack : (0 : Float).toModel.unpack = .zero .positive :=
  rfl

theorem negZero_unpack : (-0 : Float).toModel.unpack = .zero .negative :=
  rfl

theorem sign_mul_positive (s : Sign) : s * .positive = s := by cases s <;> rfl

theorem sign_div_positive (s : Sign) : s / .positive = s := by cases s <;> rfl

theorem mul_comm (x y : Float) : x * y = y * x := by
  refine congrArg (fun u => (⟨Float.Model.pack u⟩ : Float)) ?_
  have hsign (s s' : Sign) : s * s' = s' * s := by cases s <;> cases s' <;> rfl
  rcases x.toModel.unpack with s | _ | s | ⟨s, m, e⟩ <;>
    rcases y.toModel.unpack with s' | _ | s' | ⟨s', m', e'⟩ <;>
    first
      | rfl
      | exact congrArg _ (hsign s s')
      | skip
  rw [UnpackedFloat.mul, UnpackedFloat.mul, hsign, Nat.mul_comm, Int.add_comm]

theorem mul_one (x : Float) : x * 1 = x := by
  refine eq_of_unpack ?_
  rw [one_unpack]
  cases h : x.toModel.unpack with
  | notANumber => rfl
  | infinity s => exact congrArg _ (sign_mul_positive s)
  | zero s => exact congrArg _ (sign_mul_positive s)
  | finite s m e hm =>
    have hc := canonical_of_unpack h
    exact ((round_scaled hm.ne' hc.target.ge _ 52).trans (hc.round _)).trans
      (by rw [sign_mul_positive])

theorem sub_zero (x : Float) : x - 0 = x := by
  refine eq_of_unpack ?_
  rw [zero_unpack]
  cases h : x.toModel.unpack with
  | notANumber | infinity | finite => rfl
  | zero s => cases s <;> rfl

/-- Floats with the same sign, mantissa and exponent are the same. -/
theorem unpack_inj {x y : Float} (h : x.toModel.unpack = y.toModel.unpack) : x = y :=
  (eq_of_unpack rfl).symm.trans (eq_of_unpack h)

theorem sub_negZero {x : Float} (hx : x ≠ -0) : x - -0 = x := by
  refine eq_of_unpack ?_
  rw [negZero_unpack]
  cases h : x.toModel.unpack with
  | notANumber | infinity | finite => rfl
  | zero s =>
    cases s with
    | positive => rfl
    | negative => exact absurd (unpack_inj (h.trans negZero_unpack.symm)) hx

theorem negZero_sub_negZero : (-0 : Float) - -0 = 0 :=
  unpack_inj rfl

/-- A quotient with one has the mantissa of the dividend, with zeros behind it. -/
theorem divCore_one {m : Nat} {e : Int} (hc : Canonical m e) :
    ∃ k : Nat, divCore .binary64 m e (2 ^ 52) (-52) = (m * 2 ^ k, e - k, .exact) := by
  have hone : totalExponent (2 ^ 52) (-52) = 1 := rfl
  have htarget : min (e - -52) (Format.binary64.targetExponent (totalExponent m e - 1)) ≤ e := by
    have hlog : m.log2 < 53 := (Nat.log2_lt hc.pos.ne').2 hc.lt
    have hleast := hc.least
    rw [targetExponent_eq, totalExponent]
    rcases hc.full with hfull | hfull <;> omega
  simp only [divCore, hone]
  generalize min (e - -52) (Format.binary64.targetExponent (totalExponent m e - 1)) = t at htarget
  obtain ⟨k, rfl⟩ : ∃ k : Nat, t = e - k := ⟨(e - t).toNat, by omega⟩
  have hamount : (e - -52 - (e - k)).toNat = k + 52 := by omega
  rw [hamount, Nat.shiftLeft_eq, pow_add, ← mul_assoc, Nat.mul_mod_left,
    Nat.mul_div_cancel _ (Nat.two_pow_pos 52)]
  exact ⟨k, rfl⟩

theorem div_one (x : Float) : x / 1 = x := by
  refine eq_of_unpack ?_
  rw [one_unpack]
  cases h : x.toModel.unpack with
  | notANumber => rfl
  | infinity s => exact congrArg _ (sign_div_positive s)
  | zero s => exact congrArg _ (sign_div_positive s)
  | finite s m e hm =>
    have hc := canonical_of_unpack h
    obtain ⟨k, hk⟩ := divCore_one hc
    rw [UnpackedFloat.div, hk, sign_div_positive]
    exact (round_scaled hm.ne' hc.target.ge s k).trans (hc.round s)

/-- A sum of a number with itself rounds the doubled mantissa. -/
theorem add_self {s : Sign} {m : Nat} {e : Int} (hc : Canonical m e) :
    UnpackedFloat.add .binary64 (.finite s m e hc.pos) (.finite s m e hc.pos) =
      roundWithAccuracy .binary64 s (m * 2) e .exact := by
  have hround : UnpackedFloat.round .binary64 s (m * 2) e =
      roundWithAccuracy .binary64 s (m * 2) e .exact := by
    have hamount : (e - Format.binary64.targetExponent (totalExponent (m * 2) e)).toNat = 0 := by
      have := hc.target_double
      omega
    rw [UnpackedFloat.round, decreaseExponent, hamount]
    exact congrArg (roundWithAccuracy .binary64 s (m * 2) · .exact) (Int.sub_zero e)
  have hdecrease : decreaseExponent m e e = (m, e) := by
    rw [decreaseExponent, sub_self]
    exact congrArg (m, ·) (Int.sub_zero e)
  rw [UnpackedFloat.add, min_self, hdecrease, ← hround]
  have hpos := hc.pos
  cases s with
  | positive =>
    have hsum : Sign.positive.apply m + Sign.positive.apply m = ((m * 2 : Nat) : Int) := by
      simp only [Sign.apply]
      omega
    have hlt : compare ((m * 2 : Nat) : Int) 0 = .gt := Int.compare_eq_gt.2 (by omega)
    simp only [hsum, UnpackedFloat.normalize, hlt, Int.toNat_natCast]
  | negative =>
    have hsum : Sign.negative.apply m + Sign.negative.apply m = -((m * 2 : Nat) : Int) := by
      simp only [Sign.apply]
      omega
    have hlt : compare (-((m * 2 : Nat) : Int)) 0 = .lt := Int.compare_eq_lt.2 (by omega)
    simp only [hsum, UnpackedFloat.normalize, hlt, neg_neg, Int.toNat_natCast]

theorem mul_two (x : Float) : x * 2 = x + x := by
  refine congrArg (fun u => (⟨Float.Model.pack u⟩ : Float)) ?_
  rw [two_unpack]
  cases h : x.toModel.unpack with
  | notANumber => rfl
  | infinity s => cases s <;> rfl
  | zero s => cases s <;> rfl
  | finite s m e hm =>
    have hc := canonical_of_unpack h
    rw [add_self hc, UnpackedFloat.mul, sign_mul_positive]
    have hround := round_scaled (Nat.mul_ne_zero hm.ne' two_ne_zero) hc.target_double s 51
    rwa [mul_assoc] at hround

theorem eq_one_of_beq {x : Float} (h : (x == 1) = true) : x = 1 := by
  obtain ⟨-, -, rfl | ⟨-, hone⟩ | ⟨-, hone⟩⟩ := Float.beq_iff_ne_nan_and_eq.1 h
  · rfl
  · exact absurd (congrArg Float.toBits hone) (by decide)
  · exact absurd (congrArg Float.toBits hone) (by decide)

theorem eq_zero_of_beq {x : Float} (h : (x == 0) = true) : x = 0 ∨ x = -0 := by
  obtain ⟨-, -, rfl | ⟨rfl, -⟩ | ⟨rfl, -⟩⟩ := Float.beq_iff_ne_nan_and_eq.1 h
  · exact .inl rfl
  · exact .inl rfl
  · exact .inr rfl

/-! ## Integers -/

/-- A mantissa with a leading one is kept. -/
theorem unpack_pack {m : Nat} {e : Int} (hc : Canonical m e) (hfull : m.log2 = 52) (he : e ≤ 971)
    (s : Sign) : (Float.Model.pack (.finite s m e hc.pos)).unpack = .finite s m e hc.pos := by
  have hleast := hc.least
  obtain ⟨b, hb⟩ : ∃ b : Nat, e = b - 1075 := ⟨(e + 1075).toNat, by omega⟩
  have hbits : (BitVec.ofNat 11 b).toNat = b := by
    rw [BitVec.toNat_ofNat, Nat.mod_eq_of_lt (by omega)]
  have hpack : UnpackedFloat.pack .binary64 (.finite s m e hc.pos) =
      packComponents .binary64 s (BitVec.ofNat 11 b) (BitVec.ofNat 52 m) := by
    have hbiased : (e + Format.binary64.exponentBias +
        Format.binary64.mantissaBitsWithoutImplicit).toNat = b := by
      change (e + 1023 + 52).toNat = b
      omega
    simp only [UnpackedFloat.pack, hbiased]
    rw [if_neg (by omega), if_pos (by rw [hfull]; rfl)]
  change UnpackedFloat.unpack .binary64 (UnpackedFloat.pack .binary64 _) = _
  simp only [hpack, UnpackedFloat.unpack, unpackMantissa_packComponents,
    unpackExponent_packComponents, unpackSign_packComponents, Sign.ofBitVec_toBitVec]
  have hinfinite : BitVec.ofNat 11 b ≠ -1#11 := fun h => by
    have := congrArg BitVec.toNat h
    rw [hbits] at this
    change b = 2047 at this
    omega
  have hsmall : BitVec.ofNat 11 b ≠ 0#11 := fun h => by
    have := congrArg BitVec.toNat h
    rw [hbits] at this
    change b = 0 at this
    omega
  have hmant : (1#1 ++ BitVec.ofNat 52 m).toNat = m := by
    have hrange := (Nat.log2_eq_iff hc.pos.ne').1 hfull
    rw [BitVec.toNat_append, ← Nat.shiftLeft_add_eq_or_of_lt (BitVec.isLt _), BitVec.toNat_ofNat]
    change 1 <<< 52 + m % 2 ^ 52 = m
    omega
  have hexp : ((BitVec.ofNat 11 b).toNat : Int) -
      (Format.binary64.exponentBias + Format.binary64.mantissaBitsWithoutImplicit) = e := by
    rw [hbits]
    change (b : Int) - 1075 = e
    exact hb.symm
  rw [if_neg hinfinite, if_neg hsmall]
  congr 1

/-- How a positive integer is stored: a short one with zeros behind it. -/
def Stored (n m : Nat) (e : Int) : Prop :=
  if n < 2 ^ 53 then m = n * 2 ^ (52 - n.log2) ∧ e = n.log2 - 52 else 0 < e

theorem shiftRight_mantissa (x : ExtendedMantissa) (k : Nat) :
    (x >>> k).mantissa = x.mantissa / 2 ^ k := by
  induction k with
  | zero => exact (Nat.div_one _).symm
  | succ k ih =>
    rw [shiftRight_succ, pow_succ, ← Nat.div_div_eq_div_mul, ← ih]
    rfl

theorem roundedMantissa_bounds (x : ExtendedMantissa) :
    x.mantissa ≤ x.roundedMantissa ∧ x.roundedMantissa ≤ x.mantissa + 1 := by
  obtain ⟨m, r, s⟩ := x
  cases r <;> cases s <;>
    simp only [ExtendedMantissa.roundedMantissa, ExtendedMantissa.accuracy,
      Accuracy.roundToNearestEven] <;>
    omega

/-- A mantissa that has just been rounded is shifted by one at most. -/
theorem shift_rounded {r : Nat} {e : Int} (hr : 2 ^ 52 ≤ r) (hr' : r ≤ 2 ^ 53) (he : -1074 ≤ e) :
    ∃ m e', Canonical m e' ∧ m.log2 = 52 ∧ e ≤ e' ∧ e' ≤ e + 1 ∧
      shiftToTargetExponent .binary64 r e .exact = (whole m, e') := by
  rcases hr'.lt_or_eq with hlt | rfl
  · have hfull : r.log2 = 52 := (Nat.log2_eq_iff (by omega)).2 ⟨hr, hlt⟩
    have hc : Canonical r e := ⟨by omega, hlt, he, .inl hfull⟩
    exact ⟨r, e, hc, hfull, le_rfl, by omega, hc.shift⟩
  · have htarget : Format.binary64.targetExponent (totalExponent (2 ^ 53) e) = e + 1 := by
      rw [targetExponent_eq, totalExponent, Nat.log2_two_pow]
      omega
    have hamount : (e + 1 - e).toNat = 1 := by omega
    have hc : Canonical (2 ^ 52) (e + 1) := ⟨by decide, by decide, by omega, .inl rfl⟩
    refine ⟨2 ^ 52, e + 1, hc, rfl, by omega, le_rfl, ?_⟩
    rw [shiftToTargetExponent, htarget, shiftToExponent, hamount]
    rfl

theorem round_nat {n : Nat} (hn : n ≠ 0) (hlt : n < 2 ^ 64) :
    ∃ m e, ∃ hc : Canonical m e, UnpackedFloat.round .binary64 .positive n 0 =
      .finite .positive m e hc.pos ∧ m.log2 = 52 ∧ e ≤ 971 ∧ Stored n m e := by
  have hlog : n.log2 < 64 := (Nat.log2_lt hn).2 hlt
  have htarget : Format.binary64.targetExponent (totalExponent n 0) = n.log2 - 52 := by
    rw [targetExponent_eq, totalExponent]
    omega
  rw [UnpackedFloat.round, htarget, decreaseExponent, Nat.shiftLeft_eq]
  by_cases hshort : n < 2 ^ 53
  · have hle : n.log2 < 53 := (Nat.log2_lt hn).2 hshort
    obtain ⟨k, hk⟩ : ∃ k : Nat, n.log2 + k = 52 := ⟨52 - n.log2, by omega⟩
    have hamount : (0 - ((n.log2 : Int) - 52)).toNat = k := by omega
    have hfull : (n * 2 ^ k).log2 = 52 := by rw [log2_scaled hn, hk]
    have hne : n * 2 ^ k ≠ 0 := Nat.mul_ne_zero hn (Nat.two_pow_pos k).ne'
    have hc : Canonical (n * 2 ^ k) (0 - k) :=
      ⟨Nat.pos_of_ne_zero hne, (Nat.log2_lt hne).1 (by omega), by omega, .inl hfull⟩
    rw [hamount]
    refine ⟨_, _, hc, hc.round _, hfull, by omega, ?_⟩
    rw [Stored, if_pos hshort]
    exact ⟨by congr 2; omega, by omega⟩
  · have hge : 53 ≤ n.log2 := Nat.le_log2 hn |>.2 (by omega)
    obtain ⟨t, ht⟩ : ∃ t : Nat, n.log2 = t + 52 := ⟨n.log2 - 52, by omega⟩
    have hamount : (0 - ((n.log2 : Int) - 52)).toNat = 0 := by omega
    have hshift : shiftToTargetExponent .binary64 n 0 .exact = (whole n >>> t, (t : Int)) := by
      have hsteps : ((n.log2 : Int) - 52 - 0).toNat = t := by omega
      rw [shiftToTargetExponent, htarget, shiftToExponent, hsteps, zero_add]
      rfl
    have hrange := (Nat.log2_eq_iff hn).1 ht
    have hbounds := roundedMantissa_bounds (whole n >>> t)
    rw [shiftRight_mantissa] at hbounds
    have hlow : 2 ^ 52 ≤ n / 2 ^ t := by
      rw [Nat.le_div_iff_mul_le (Nat.two_pow_pos t), ← pow_add, add_comm]
      exact hrange.1
    have hhigh : n / 2 ^ t < 2 ^ 53 := by
      rw [Nat.div_lt_iff_lt_mul (Nat.two_pow_pos t), ← pow_add, add_comm]
      exact hrange.2
    obtain ⟨m, e, hc, hfull, he, he', hcarry⟩ := shift_rounded (e := t)
      (hlow.trans hbounds.1) (hbounds.2.trans hhigh) (by omega)
    refine ⟨m, e, hc, ?_, hfull, by omega, ?_⟩
    · rw [hamount, pow_zero, Nat.mul_one, Nat.cast_zero, Int.sub_zero]
      simp only [roundWithAccuracy, hshift, hcarry]
      exact dif_neg hc.pos.ne'
    · rw [Stored, if_neg hshort]
      omega

theorem toFloat_unpack {n : UInt64} (hn : n ≠ 0) :
    ∃ m e, ∃ hc : Canonical m e, n.toFloat.toModel.unpack = .finite .positive m e hc.pos ∧
      m.log2 = 52 ∧ e ≤ 971 ∧ Stored n.toNat m e := by
  have hpos : n.toNat ≠ 0 := fun h => hn (UInt64.toNat_inj.1 h)
  obtain ⟨m, e, hc, hround, hfull, he, hstored⟩ := round_nat hpos n.toNat_lt
  refine ⟨m, e, hc, ?_, hfull, he, hstored⟩
  have hgt : compare (n.toNat : Int) 0 = .gt := Int.compare_eq_gt.2 (by omega)
  have hpack : n.toFloat.toModel = Float.Model.pack (.finite .positive m e hc.pos) := by
    rw [UInt64.toFloat, Float.Model.ofUInt64, UnpackedFloat.ofUInt64, UnpackedFloat.ofNat,
      UnpackedFloat.ofInt, UnpackedFloat.normalize, hgt, Int.toNat_natCast, hround]
  rw [hpack, unpack_pack hc hfull he]

/-- The absolute value of an integer. -/
def magnitude (i : Int64) : UInt64 := if i < 0 then (0 - i).toUInt64 else i.toUInt64

def signOf (i : Int64) : Sign := if i < 0 then .negative else .positive

theorem toUInt64_inj {i j : Int64} (h : i.toUInt64 = j.toUInt64) : i = j := by
  rw [← i.toInt64_toUInt64, h, j.toInt64_toUInt64]

theorem magnitude_inj {i j : Int64} (hs : signOf i = signOf j) (h : magnitude i = magnitude j) :
    i = j := by
  unfold signOf at hs
  unfold magnitude at h
  by_cases hi : i < 0 <;> by_cases hj : j < 0
  · rw [if_pos hi, if_pos hj] at h
    simpa using toUInt64_inj h
  · rw [if_pos hi, if_neg hj] at hs
    cases hs
  · rw [if_neg hi, if_pos hj] at hs
    cases hs
  · rw [if_neg hi, if_neg hj] at h
    exact toUInt64_inj h

theorem magnitude_ne_zero {i : Int64} (hi : i ≠ 0) : magnitude i ≠ 0 := by
  intro h
  unfold magnitude at h
  split at h
  · have hneg : 0 - i = 0 := toUInt64_inj h
    rw [Int64.zero_sub] at hneg
    exact hi (by rw [← @Int64.neg_neg i, hneg, Int64.neg_zero])
  · exact hi (toUInt64_inj h)

theorem nearestFloat_unpack {i : Int64} (hi : i ≠ 0) :
    ∃ m e, ∃ hm : 0 < m, (Int64.nearestFloat i).toModel.unpack = .finite (signOf i) m e hm ∧
      Stored (magnitude i).toNat m e := by
  obtain ⟨m, e, hc, hunpack, hfull, he, hstored⟩ := toFloat_unpack (magnitude_ne_zero hi)
  refine ⟨m, e, hc.pos, ?_, hstored⟩
  unfold magnitude at hunpack
  rw [Int64.nearestFloat, signOf]
  by_cases hneg : i < 0
  · rw [if_pos hneg] at hunpack ⊢
    rw [if_pos hneg]
    change (Float.Model.pack (UnpackedFloat.neg (Float.Model.unpack _))).unpack = _
    rw [hunpack]
    exact unpack_pack hc hfull he _
  · rw [if_neg hneg] at hunpack ⊢
    rw [if_neg hneg, hunpack]

theorem nearestFloat_inj {i j : Int64} (hj : (magnitude j).toNat < 2 ^ 53)
    (h : (Int64.nearestFloat i == Int64.nearestFloat j) = true) : i = j := by
  have hzero : (Int64.nearestFloat 0).toModel.unpack = .zero .positive := rfl
  obtain ⟨-, -, heq⟩ := (beq_iff_ne_notANumber_and_eq _ _).1 h
  by_cases hi : i = 0 <;> by_cases hj0 : j = 0
  · rw [hi, hj0]
  · obtain ⟨m, e, hm, hu, -⟩ := nearestFloat_unpack hj0
    rw [hi, hzero, hu] at heq
    simp at heq
  · obtain ⟨m, e, hm, hu, -⟩ := nearestFloat_unpack hi
    rw [hj0, hzero, hu] at heq
    simp at heq
  · obtain ⟨m, e, hm, hu, hstored⟩ := nearestFloat_unpack hi
    obtain ⟨m', e', hm', hu', hstored'⟩ := nearestFloat_unpack hj0
    rw [hu, hu'] at heq
    simp only [finite.injEq, reduceCtorEq, false_and, or_false] at heq
    obtain ⟨hs, rfl, rfl⟩ := heq
    refine magnitude_inj hs (UInt64.toNat_inj.1 ?_)
    have hlog : (magnitude j).toNat.log2 < 53 :=
      (Nat.log2_lt fun h0 => magnitude_ne_zero hj0 (UInt64.toNat_inj.1 h0)).2 hj
    rw [Stored, if_pos hj] at hstored'
    unfold Stored at hstored
    split at hstored
    · have hsame : (magnitude i).toNat.log2 = (magnitude j).toNat.log2 := by omega
      rw [hstored'.1, hsame] at hstored
      exact (Nat.mul_right_cancel (Nat.two_pow_pos _) hstored.1).symm
    · omega

end HeapScript.Binary64
