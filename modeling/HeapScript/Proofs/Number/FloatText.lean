import Mathlib
import HeapScript.Number.FloatText
import HeapScript.Text.Bytes

/-!
# The size of printed floats

The bytes of a text, and a bound on the bytes of the text that a program prints for a float: the
digits are those of a number below a fixed power of ten, and the exponent has at most four.
-/

namespace HeapScript

/-! ## Bytes of texts -/

theorem toList_byteArray_loop (bs : ByteArray) (i : Nat) (r : List UInt8) :
    ByteArray.toList.loop bs i r = r.reverse ++ bs.data.toList.drop i := by
  fun_induction ByteArray.toList.loop bs i r with
  | case1 i r hi ih =>
    have hg : bs.get! i = bs.data.toList.get ⟨i, hi⟩ := by
      simp [ByteArray.get!, getElem!_pos bs.data i hi]
    rw [ih, List.drop_eq_getElem_cons (i := i) hi, hg]
    simp
  | case2 i r hi =>
    rw [List.drop_eq_nil_of_le (Nat.le_of_not_lt hi), List.append_nil]

theorem textBytes_eq (s : String) : textBytes s = s.toByteArray.data.toList := by
  simp [textBytes, ByteArray.toList, toList_byteArray_loop]

theorem textBytes_append (s t : String) : textBytes (s ++ t) = textBytes s ++ textBytes t := by
  simp [textBytes_eq]

theorem textBytes_ofList (cs : List Char) :
    textBytes (String.ofList cs) = cs.flatMap String.utf8EncodeChar := by
  simp [textBytes_eq, List.utf8Encode]

@[simp] theorem textBytes_empty : textBytes "" = [] := by
  rw [textBytes_eq]
  rfl

theorem length_textBytes_ofList (cs : List Char) :
    (textBytes (String.ofList cs)).length ≤ 4 * cs.length := by
  rw [textBytes_ofList]
  induction cs with
  | nil => rfl
  | cons c cs ih =>
    have hc : (String.utf8EncodeChar c).length ≤ 4 := by
      rw [String.length_utf8EncodeChar]
      exact c.utf8Size_le_four
    rw [List.flatMap_cons, List.length_append, List.length_cons]
    omega

/-! ## Digits -/

namespace Decimal

theorem length_digitText (ds : List Nat) : (textBytes (digitText ds)).length ≤ 4 * ds.length := by
  simpa [digitText] using length_textBytes_ofList (ds.map fun d => Char.ofNat (48 + d))

theorem length_digitsOf {n k : Nat} (hk : 0 < k) (hn : n < 10 ^ k) : (digitsOf n).length ≤ k := by
  rw [digitsOf, List.length_map]
  exact (Nat.length_toDigits_le_iff (by decide) hk).mpr hn

theorem length_trim (ds : List Nat) : (trim ds).length ≤ ds.length := by
  rw [trim, List.length_reverse]
  exact (List.length_dropWhile_le _ _).trans (by rw [List.length_reverse])

theorem length_significand (d : Decimal) :
    (textBytes d.significand).length ≤ 4 * d.digits.length + 1 := by
  have hdot : (textBytes ".").length = 1 := by rw [textBytes_eq]; rfl
  have hzero : (textBytes "0").length = 1 := by rw [textBytes_eq]; rfl
  unfold significand
  split <;> rename_i hd
  · rw [hd, hzero]
    simp
  · rename_i a
    have := length_digitText [a]
    rw [hd]
    omega
  · rename_i a rest _
    have ha := length_digitText [a]
    have hr := length_digitText rest
    rw [hd, textBytes_append, textBytes_append, List.length_append, List.length_append, hdot]
    simp only [List.length_cons, List.length_nil] at *
    omega

theorem length_positional (d : Decimal) (hlow : -4 ≤ d.exponent) (hhigh : d.exponent < 14) :
    (textBytes d.positional).length ≤ 8 * d.digits.length + 70 := by
  have hdot : (textBytes ".").length = 1 := by rw [textBytes_eq]; rfl
  have hzero : (textBytes "0").length = 1 := by rw [textBytes_eq]; rfl
  unfold exponent at hlow hhigh
  have hwhole : (textBytes (if d.point ≤ 0 then "0" else digitText
      (d.digits.take d.point.toNat ++ List.replicate (d.point.toNat - d.digits.length) 0))).length ≤
      4 * d.digits.length + 56 := by
    split
    · rw [hzero]
      omega
    · refine (length_digitText _).trans ?_
      rw [List.length_append, List.length_take, List.length_replicate]
      omega
  have hpart : (if d.point < 0 then List.replicate (-d.point).toNat 0 ++ d.digits
      else d.digits.drop d.point.toNat).length ≤ d.digits.length + 3 := by
    split
    · rw [List.length_append, List.length_replicate]
      omega
    · rw [List.length_drop]
      omega
  simp only [positional]
  generalize (if d.point ≤ 0 then "0" else _) = whole at hwhole
  generalize (if d.point < 0 then _ else d.digits.drop d.point.toNat) = part at hpart
  split
  · omega
  · rw [textBytes_append, textBytes_append, List.length_append, List.length_append, hdot]
    have := length_digitText part
    omega

theorem roundDiv_le (num den : Nat) : roundDiv num den ≤ num + 1 := by
  have := Nat.div_le_self num den
  unfold roundDiv
  simp only
  split <;> omega

theorem powPos_le {base : Nat} (hb : 0 < base) {e : Int} {k : Nat} (he : e ≤ k) :
    powPos base e ≤ base ^ k :=
  Nat.pow_le_pow_right hb (by omega)

theorem leading_bounds {m : Nat} {q : Int} (hm : m < 2 ^ 53) (hq : q ≤ 972) :
    -400 ≤ leading m q ∧ leading m q ≤ 400 := by
  have hle : m * powPos 10 400 * powPos 2 q / powPos 2 (-q) < 10 ^ 801 := by
    refine Nat.lt_of_le_of_lt (Nat.div_le_self _ _) ?_
    calc m * powPos 10 400 * powPos 2 q
        ≤ 2 ^ 53 * 10 ^ 400 * 2 ^ 972 :=
          Nat.mul_le_mul (Nat.mul_le_mul hm.le (powPos_le (by decide) (by decide)))
            (powPos_le (by decide) hq)
      _ < 10 ^ 801 := by decide +kernel
  have hlen := length_digitsOf (by decide) hle
  have hpos : 0 < (digitsOf (m * powPos 10 400 * powPos 2 q / powPos 2 (-q))).length := by
    rw [digitsOf, List.length_map]
    exact Nat.length_toDigits_pos
  simp only [leading]
  change -400 ≤ ((digitsOf (m * powPos 10 400 * powPos 2 q / powPos 2 (-q))).length : Int) - 1 - 400 ∧
    ((digitsOf (m * powPos 10 400 * powPos 2 q / powPos 2 (-q))).length : Int) - 1 - 400 ≤ 400
  omega

theorem rounded_bounds {m : Nat} {q : Int} (hm : m < 2 ^ 53) (hq : q ≤ 972) :
    (rounded displayDigits m q).digits.length ≤ 800 ∧
      (rounded displayDigits m q).exponent.natAbs < 10 ^ 4 := by
  unfold rounded
  split
  · simp [exponent]
  · obtain ⟨hlow, hhigh⟩ := leading_bounds hm hq
    generalize leading m q = lead at hlow hhigh
    simp only [displayDigits]
    generalize hu : lead - (14 : Nat) + 1 = unit
    have hlt : roundDiv (m * powPos 2 q * powPos 10 (-unit)) (powPos 2 (-q) * powPos 10 unit) <
        10 ^ 800 := by
      refine Nat.lt_of_le_of_lt (roundDiv_le _ _) ?_
      have : m * powPos 2 q * powPos 10 (-unit) ≤ 2 ^ 53 * 2 ^ 972 * 10 ^ 413 :=
        Nat.mul_le_mul (Nat.mul_le_mul hm.le (powPos_le (by decide) hq))
          (powPos_le (by decide) (by omega))
      exact Nat.lt_of_le_of_lt (Nat.succ_le_succ this) (by decide +kernel)
    have hlen := length_digitsOf (by decide) hlt
    have htrim := length_trim
      (digitsOf (roundDiv (m * powPos 2 q * powPos 10 (-unit)) (powPos 2 (-q) * powPos 10 unit)))
    simp only [ofScaled, exponent]
    omega

end Decimal

theorem scaled_bounds (f : Float) :
    (Float.scaled f).mantissa < 2 ^ 53 ∧ (Float.scaled f).exponent ≤ 972 := by
  have hfrac : (f.toBits &&& 0x000fffffffffffff).toNat < 2 ^ 52 := by
    rw [UInt64.toNat_and]
    exact Nat.and_lt_two_pow _ (by decide)
  have hexp : (f.toBits >>> 52 &&& 0x7ff).toNat < 2 ^ 11 := by
    rw [UInt64.toNat_and]
    exact Nat.and_lt_two_pow _ (by decide)
  unfold Float.scaled
  simp only
  split <;> simp only <;> omega

theorem length_exponentText {e : Int} (he : e.natAbs < 10 ^ 4) :
    (textBytes (exponentText 1 e)).length ≤ 17 := by
  have hdigits : (Nat.toDigits 10 e.natAbs).length ≤ 4 :=
    (Nat.length_toDigits_le_iff (by decide) (by decide)).mpr he
  have hpos : 0 < (Nat.toDigits 10 e.natAbs).length := Nat.length_toDigits_pos
  have hsign : (textBytes (if e < 0 then "-" else "+")).length = 1 := by
    split <;> (rw [textBytes_eq]; rfl)
  have hpad : 1 - (toString e.natAbs).length = 0 := by
    rw [Nat.toString_eq_ofList_toDigits, String.length_ofList]
    omega
  have hpush : textBytes ("".pushn '0' 0) = [] := by
    rw [textBytes_eq]
    rfl
  simp only [exponentText]
  rw [hpad, textBytes_append, textBytes_append, hpush, List.length_append, List.length_append,
    hsign, Nat.toString_eq_ofList_toDigits]
  have := length_textBytes_ofList (Nat.toDigits 10 e.natAbs)
  simp only [List.length_nil]
  omega

theorem length_displayFloat (f : Float) : (textBytes (displayFloat f)).length < 2 ^ 13 := by
  have hexp : (textBytes "E").length = 1 := by rw [textBytes_eq]; rfl
  have htail : (textBytes ".0").length = 2 := by rw [textBytes_eq]; rfl
  have hsign : (textBytes (if (Float.scaled f).negative = true then "-" else "")).length ≤ 1 := by
    split <;> (rw [textBytes_eq]; decide)
  obtain ⟨hm, hq⟩ := scaled_bounds f
  obtain ⟨hdigits, hexponent⟩ := Decimal.rounded_bounds hm hq
  unfold displayFloat
  split
  · rw [textBytes_eq]
    decide
  split
  · split <;> (rw [textBytes_eq]; decide)
  simp only
  generalize Decimal.rounded displayDigits (Float.scaled f).mantissa (Float.scaled f).exponent = d
    at hdigits hexponent
  generalize (if (Float.scaled f).negative = true then "-" else "") = sign at hsign
  have hsig := d.length_significand
  split <;> rename_i he
  · have := length_exponentText hexponent
    rw [textBytes_append, textBytes_append, textBytes_append, List.length_append,
      List.length_append, List.length_append, hexp]
    split
    · rw [textBytes_append, List.length_append, htail]
      omega
    · omega
  · simp only [displayDigits, Bool.or_eq_true, decide_eq_true_eq, not_or, not_lt, not_le, ge_iff_le]
      at he
    have := d.length_positional he.1 he.2
    rw [textBytes_append, List.length_append]
    omega

end HeapScript
