import HeapScript.Proofs.Library.Boxed
import HeapScript.Proofs.Machine.Cells
import HeapScript.Proofs.Number.FloatText

/-!
# Decimal digits

The routine that spells an integer writes the digits of its magnitude into a buffer from the back
and copies out what it has written.
-/

namespace HeapScript.Library

open Machine Machine.Processor Code Execution

/-! ## Digits as text -/

/-- The decimal digits of a number, the highest first. -/
def decimal (n : Nat) : Bytes := (Nat.toDigits 10 n).map Char.toUInt8

theorem digitChar_toUInt8 {d : Nat} (h : d < 10) :
    (Nat.digitChar d).toUInt8 = UInt8.ofNat (48 + d) := by
  interval_cases d <;> rfl

theorem decimal_eq (n : Nat) :
    decimal n = (if n < 10 then [] else decimal (n / 10)) ++ [UInt8.ofNat (48 + n % 10)] := by
  unfold decimal
  rw [Nat.toDigits_eq_if (by decide)]
  split <;> rename_i hn
  · simp [digitChar_toUInt8 hn, Nat.mod_eq_of_lt hn]
  · simp [digitChar_toUInt8 (Nat.mod_lt n (by decide))]

theorem length_decimal_le {n k : Nat} (hk : 0 < k) (hn : n < 10 ^ k) : (decimal n).length ≤ k := by
  rw [decimal, List.length_map]
  exact (Nat.length_toDigits_le_iff (by decide) hk).mpr hn

theorem length_decimal_pos (n : Nat) : 0 < (decimal n).length := by
  rw [decimal, List.length_map]
  exact Nat.length_toDigits_pos

theorem flatMap_utf8_digits {cs : List Char} (h : ∀ c ∈ cs, c.isDigit = true) :
    cs.flatMap String.utf8EncodeChar = cs.map Char.toUInt8 := by
  induction cs with
  | nil => rfl
  | cons c cs ih =>
    have hc : c.utf8Size = 1 := by
      have hd := h c (List.mem_cons_self ..)
      simp only [Char.isDigit, Bool.and_eq_true, decide_eq_true_eq] at hd
      rw [Char.utf8Size_eq_one_iff]
      exact UInt32.le_trans hd.2 (by decide)
    rw [List.flatMap_cons, String.utf8EncodeChar_eq_singleton hc, List.map_cons,
      ih fun c' hc' => h c' (List.mem_cons_of_mem c hc')]
    rfl

theorem textBytes_toDigits (n : Nat) :
    textBytes (String.ofList (Nat.toDigits 10 n)) = decimal n := by
  rw [textBytes_ofList, flatMap_utf8_digits, decimal]
  intro c hc
  exact Nat.isDigit_of_mem_toDigits (b := 10) (by decide) (by decide) hc

/-- The text of an integer: a minus if it is negative, then the digits of its magnitude. -/
theorem intBytes_eq (i : Int64) :
    Value.intBytes i =
      (if i < 0 then [Bytes.ascii '-'] else []) ++ decimal i.toInt.natAbs := by
  have hneg : i < 0 ↔ ¬ 0 ≤ i.toInt := by
    rw [Int64.lt_iff_toInt_lt, Int64.toInt_zero, Int.not_le]
  rw [Value.intBytes, Int.toString_eq_repr, Int.repr_eq_if]
  by_cases h : 0 ≤ i.toInt
  · have ha : i.toInt.toNat = i.toInt.natAbs := by omega
    rw [if_pos h, if_neg (by rw [hneg]; exact not_not_intro h), Nat.repr_eq_ofList_toDigits,
      textBytes_toDigits, ha]
    rfl
  · have ha : (-i.toInt).toNat = i.toInt.natAbs := by omega
    rw [if_neg h, if_pos (hneg.mpr h), textBytes_append, Nat.repr_eq_ofList_toDigits,
      textBytes_toDigits, ha]
    congr 1
    rw [textBytes_eq]
    rfl

theorem length_decimal_natAbs (i : Int64) : (decimal i.toInt.natAbs).length ≤ 19 := by
  refine length_decimal_le (by decide) ?_
  have := i.toInt_lt
  have := i.le_toInt
  omega

theorem length_intBytes (i : Int64) : (Value.intBytes i).length ≤ 20 := by
  have := length_decimal_natAbs i
  rw [intBytes_eq, List.length_append]
  split <;> simp only [List.length_cons, List.length_nil] <;> omega

/-! ## The loop -/

section Loop

variable {m : Processor Output} {l : Links} {d k : Nat} {h : Heap} {w : Output} {Q : Post Output}
  {f : String} {tail : Code}

@[simp] theorem nests_writeDigit {u buf pos : Nat} : Nests (writeDigit u buf pos) [] := by
  simp [writeDigit]

theorem exists_snoc {vs : List Val} (h : 0 < vs.length) : ∃ us v, vs = us ++ [v] :=
  ⟨_, _, (List.dropLast_append_getLast (List.ne_nil_of_length_pos h)).symm⟩

theorem toUInt64_ten : Int64.toUInt64 10 = 10 := rfl

theorem stored_digit (u : UInt64) {b : UInt8} (hb : b = UInt8.ofNat (48 + u.toNat % 10)) :
    stored? (.array ⟨.i8, true⟩) (.i32 ((u % 10).toInt64.toInt32 + 48)) =
      some (.i32 b.toUInt32.toInt32) := by
  have hu : u % 10 = UInt64.ofNat (u.toNat % 10) := by
    apply UInt64.toNat_inj.mp
    rw [UInt64.toNat_mod, UInt64.toNat_ofNat_of_lt' (Nat.lt_trans (Nat.mod_lt _ (by decide)) (by decide : 10 < _))]
    rfl
  rw [hu, hb]
  have hr : u.toNat % 10 < 10 := Nat.mod_lt _ (by decide)
  interval_cases u.toNat % 10 <;> rfl

/-- The loop puts the digits of the number in front of what is written already. -/
theorem writeDigit_round (hi : Installed m l) {u : UInt64} (front back : List Val)
    {v₀ v₂ v₅ : Val} {K : List Cont}
    (hK : K = [.loop (writeDigit 1 3 4 ++ [.brIf 0]) tail 0])
    (hlen : front.length < 2 ^ 31) (hroom : (decimal u.toNat).length ≤ front.length)
    (hq : ∀ free : List Val, free.length + (decimal u.toNat).length = front.length →
      m.wp ⟨f, 1, d⟩ tail [] Q
        ⟨h.push (.array Shape.bytes
            (free ++ (decimal u.toNat).map (fun b => Val.i32 b.toUInt32.toInt32) ++ back).toArray), w,
          [v₀, .i64 0, v₂, .ref h.size, .i32 (num free.length), v₅], []⟩) :
    m.wp ⟨f, 1, d⟩ (writeDigit 1 3 4 ++ [.brIf 0]) K Q
      ⟨h.push (.array Shape.bytes (front ++ back).toArray), w,
        [v₀, .i64 u.toInt64, v₂, .ref h.size, .i32 (num front.length), v₅], []⟩ := by
  induction hn : u.toNat using Nat.strongRecOn generalizing u front back with
  | ind n ih =>
    subst hn
    obtain ⟨free, old, rfl⟩ := exists_snoc (Nat.lt_of_lt_of_le (length_decimal_pos _) hroom)
    rw [List.length_append, List.length_singleton] at hlen hroom
    have hpos : num (free.length + 1) - 1 = num free.length := by
      rw [← num_add_one, Int32.add_sub_cancel]
    have haddr : (num free.length).toUInt32.toNat = free.length := toNat_num (by omega)
    have hdiv : (u / 10).toNat = u.toNat / 10 := UInt64.toNat_div u 10
    have hzero : (u / 10).toInt64 = 0 ↔ u.toNat < 10 := by
      constructor
      · intro h0
        have := congrArg (fun i : Int64 => i.toUInt64.toNat) h0
        simp only [UInt64.toUInt64_toInt64, hdiv] at this
        exact Nat.lt_of_div_eq_zero (by decide) this
      · intro hlt
        have : u / 10 = 0 := UInt64.toNat_inj.mp (hdiv.trans (Nat.div_eq_of_lt hlt))
        rw [this]
        rfl
    obtain ⟨b, hb⟩ : ∃ b, b = UInt8.ofNat (48 + u.toNat % 10) := ⟨_, rfl⟩
    have hdec := decimal_eq u.toNat
    rw [← hb] at hdec
    by_cases hlt : u.toNat < 10
    · subst hK
      simp [writeDigit, hi.bytes, hpos, haddr, toUInt64_ten, stored_digit u hb, hzero.mpr hlt]
      rw [if_pos hlt, List.nil_append] at hdec
      simpa [hdec] using hq free (by simp [hdec])
    · simp [writeDigit, hi.bytes, hpos, haddr, toUInt64_ten, stored_digit u hb,
        mt hzero.mp hlt]
      rw [if_neg hlt] at hdec
      rw [hdec, List.length_append, List.length_singleton] at hroom
      rw [hK]
      refine jumps_loop (Nat.le_refl _) ?_
      rw [← hK]
      refine ih (u.toNat / 10) (by omega) free _ (by omega) (by rw [hdiv]; omega) ?_ hdiv
      intro free' hfree
      rw [hdiv] at hfree ⊢
      simpa [hdec] using hq free' (by simp [hdec]; omega)

@[simp] theorem nests_writeMinus {buf pos : Nat} : Nests (writeMinus buf pos) [] := by
  simp [writeMinus]

theorem toNat_magnitude (i : Int64) :
    (if i < 0 then -i else i).toUInt64.toNat = i.toInt.natAbs := by
  have hlt := i.toInt_lt
  have hle := i.le_toInt
  have hneg : i < 0 ↔ i.toInt < 0 := by rw [Int64.lt_iff_toInt_lt, Int64.toInt_zero]
  have hnat (j : Int64) : (j.toUInt64.toNat : Int) = j.toInt % 2 ^ 64 := by
    have hj : j.toInt = (j.toUInt64.toNat : Int).bmod (2 ^ 64) := BitVec.toInt_eq_toNat_bmod _
    have := j.toUInt64.toNat_lt
    rw [hj]
    exact (Int.bmod_emod.trans (Int.emod_eq_of_lt (by omega) (by omega))).symm
  split <;> rename_i hi
  · have hi' := hneg.mp hi
    have := hnat (-i)
    rw [Int64.toInt_neg] at this
    have hb : (-i.toInt).bmod (2 ^ 64) % 2 ^ 64 = -i.toInt % 2 ^ 64 := Int.bmod_emod
    omega
  · have hi' := mt hneg.mpr hi
    have := hnat i
    omega

theorem writeMinus_wp (hi : Installed m l) {free back : List Val} {old v₀ v₁ v₂ v₅ : Val}
    {K : List Cont} (hlen : free.length < 2 ^ 31)
    (hq : m.wp ⟨f, 1, d⟩ [] K Q
      ⟨h.push (.array Shape.bytes
          (free ++ .i32 (Bytes.ascii '-').toUInt32.toInt32 :: back).toArray), w,
        [v₀, v₁, v₂, .ref h.size, .i32 (num free.length), v₅], []⟩) :
    m.wp ⟨f, 1, d⟩ (writeMinus 3 4) K Q
      ⟨h.push (.array Shape.bytes (free ++ old :: back).toArray), w,
        [v₀, v₁, v₂, .ref h.size, .i32 (num (free.length + 1)), v₅], []⟩ := by
  have hpos : num (free.length + 1) - 1 = num free.length := by
    rw [← num_add_one, Int32.add_sub_cancel]
  have haddr : (num free.length).toUInt32.toNat = free.length := toNat_num (by omega)
  have hstored : stored? (.array ⟨.i8, true⟩) (.i32 45) =
      some (.i32 (Bytes.ascii '-').toUInt32.toInt32) := rfl
  simpa [writeMinus, hpos, haddr, hi.bytes, hstored] using hq

theorem copyWritten_wp (hi : Installed m l) {x : Nat} {free : List Val} (bs : Bytes)
    {v₀ v₁ v₂ v₅ : Val}
    (hx : h[x]? = some (.array Shape.bytes
      (free ++ bs.map fun b => Val.i32 b.toUInt32.toInt32).toArray))
    (hlen : free.length + bs.length = 20)
    (hq : Q.returned [.ref h.size] (h.push (.array Shape.bytes (byteVals bs))) w) :
    m.wp ⟨f, 1, d⟩ (copyWritten 3 4 5) [] Q
      ⟨h, w, [v₀, v₁, v₂, .ref x, .i32 (num free.length), v₅], []⟩ := by
  have hrest : (20 : Int32) - num free.length = num bs.length := by
    have := num_sub (a := 20) (b := free.length) (by omega)
    rwa [← hlen, Nat.add_sub_cancel_left, hlen] at this
  have hfree : free.length < 2 ^ 31 := by omega
  have hbs : bs.length < 2 ^ 31 := by omega
  have hx' (c : Cell) := Extends.push h c _ _ hx
  have hw := Heap.write_replicate (.i32 0) (bs.map fun b => Val.i32 b.toUInt32.toInt32)
  rw [List.length_map] at hw
  simp [copyWritten, hrest, hi.bytes, hx', not_num_lt_zero hbs, toInt_num hbs, toInt_num hfree]
  rw [List.take_of_length_le (by simp), hw]
  exact hq

theorem intToString_calls (hi : Installed m l) (hr : Room m d (k + 1)) {i : Int64}
    (hq : ∀ r h', Extends h h' → IsBytes h' r (Value.intBytes i) → Q.returned [r] h' w) :
    m.Calls d (l.index .intToString) [.i64 i] h w Q := by
  refine calls_routine hi hr ?_
  have hdigits := length_decimal_natAbs i
  obtain ⟨u, hu⟩ : ∃ u : UInt64, (if i < 0 then -i else i) = u.toInt64 :=
    ⟨_, (Int64.toInt64_toUInt64 _).symm⟩
  have hmag := toNat_magnitude i
  rw [hu, UInt64.toUInt64_toInt64] at hmag
  rw [← hmag] at hdigits
  rw [intBytes_eq, ← hmag] at hq
  have hend (c : Cell) {bs : Bytes}
      (hq : ∀ r h', Extends h h' → IsBytes h' r bs → Q.returned [r] h' w) :
      Q.later.returned [.ref (h.push c).size]
        ((h.push c).push (.array Shape.bytes (byteVals bs))) w :=
    hq _ _ ((Extends.push h c).trans (.push _ _)) ⟨_, rfl, getElem?_push_size _ _⟩
  by_cases hneg : i < 0
  · rw [if_pos hneg] at hu hq
    simp [Routine.body, intToString, Routine.results, hi.bytes, hneg]
    rw [hu]
    refine writeDigit_round hi (List.replicate 20 (.i32 0)) [] rfl (by decide)
      (Nat.le_trans hdigits (by decide)) ?_
    intro free hfree
    rw [List.length_replicate] at hfree
    obtain ⟨free, old, rfl⟩ := exists_snoc (by omega : 0 < free.length)
    rw [List.length_append, List.length_singleton] at hfree
    simp
    refine writeMinus_wp hi (by omega) ?_
    simp
    refine copyWritten_wp hi (Bytes.ascii '-' :: decimal u.toNat) (getElem?_push_size _ _)
      (by simp; omega) (hend _ hq)
  · rw [if_neg hneg] at hu hq
    simp [Routine.body, intToString, Routine.results, hi.bytes, hneg]
    rw [hu]
    refine writeDigit_round hi (List.replicate 20 (.i32 0)) [] rfl (by decide)
      (Nat.le_trans hdigits (by decide)) ?_
    intro free hfree
    rw [List.length_replicate] at hfree
    simp
    exact copyWritten_wp hi _ (getElem?_push_size _ _) hfree (hend _ hq)

end Loop

end HeapScript.Library
