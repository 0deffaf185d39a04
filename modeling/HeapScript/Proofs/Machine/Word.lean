import Mathlib
import HeapScript.Machine.Arithmetic

/-!
# Small numbers in machine words

Counters and positions are natural numbers below the sign bit; there the operations of the machine
are those of the natural numbers.
-/

namespace HeapScript.Machine

/-- A number as a 32-bit integer. -/
def num (n : Nat) : Int32 := Int32.ofNat n

@[simp] theorem num_zero : num 0 = 0 := rfl

@[simp] theorem toNat_toUInt32_zero : (Int32.toUInt32 0).toNat = 0 := rfl

@[simp] theorem num_add_one (n : Nat) : num n + 1 = num (n + 1) := (Int32.ofNat_add n 1).symm

theorem num_add (a b : Nat) : num a + num b = num (a + b) := (Int32.ofNat_add a b).symm

theorem num_sub {a b : Nat} (h : b ≤ a) : num a - num b = num (a - b) :=
  (Int32.ofNat_sub a b h).symm

@[simp] theorem ofInt_natCast (n : Nat) : Int32.ofInt n = num n := Int32.ofInt_eq_ofNat

theorem toInt_num {n : Nat} (h : n < 2 ^ 31) : (num n).toInt = n := Int32.toInt_ofNat_of_lt h

theorem toNatClampNeg_num {n : Nat} (h : n < 2 ^ 31) : (num n).toNatClampNeg = n := by
  rw [Int32.toNatClampNeg, toInt_num h, Int.toNat_natCast]

theorem num_le_num {a b : Nat} (ha : a < 2 ^ 31) (hb : b < 2 ^ 31) : num a ≤ num b ↔ a ≤ b :=
  Int32.ofNat_le_iff_le ha hb

theorem num_lt_num {a b : Nat} (ha : a < 2 ^ 31) (hb : b < 2 ^ 31) : num a < num b ↔ a < b :=
  Int32.ofNat_lt_iff_lt ha hb

theorem toNat_num {n : Nat} (h : n < 2 ^ 32) : (num n).toUInt32.toNat = n := by
  simp [num, UInt32.toNat_ofNat_of_lt' h]

theorem num_inj {a b : Nat} (ha : a < 2 ^ 31) (hb : b < 2 ^ 31) : num a = num b ↔ a = b := by
  constructor
  · intro h
    have := congrArg Int32.toInt h
    rw [toInt_num ha, toInt_num hb] at this
    omega
  · rintro rfl
    rfl

theorem not_num_lt_zero {n : Nat} (h : n < 2 ^ 31) : ¬ num n < 0 := by
  have := num_lt_num (b := 0) h (by decide)
  simpa using this

theorem num_lt_zero {n : Nat} (hl : 2 ^ 31 ≤ n) (hu : n < 2 ^ 32) : num n < 0 := by
  rw [Int32.lt_iff_toInt_lt, num, Int32.toInt_ofNat', Int32.toInt_zero, Int.bmod_def]
  simp only [Int32.size]
  omega

theorem num_eq_zero {n : Nat} (h : n < 2 ^ 31) : num n = 0 ↔ n = 0 := num_inj (b := 0) h (by decide)

/-- A 32-bit integer without a sign in 64 bits. -/
def extendU (x : Int32) : Int64 := x.toUInt32.toUInt64.toInt64

theorem extendU_num {n : Nat} (h : n < 2 ^ 32) : extendU (num n) = Int64.ofNat n := by
  have hn : (UInt32.ofNat n).toUInt64 = UInt64.ofNat n := by
    apply UInt64.toNat_inj.mp
    simp only [UInt32.toNat_toUInt64, UInt32.toNat_ofNat', UInt64.toNat_ofNat']
    omega
  simp [extendU, num, hn]

end HeapScript.Machine
