import HeapScript.Proofs.Library.Operators

/-!
# Keys

The routines for array keys: the key that a value stands for, the hash of a key and the comparison
of keys. A key is an integer or a string.
-/

namespace HeapScript.Library

open Machine Machine.Processor Code Execution

variable {m : Processor Output} {l : Links} {d k : Nat} {h : Heap} {w : Output} {Q : Post Output}
  {u v : Val} {x y : Value}

/-! ## Normal keys -/

def IsKey : Value → Prop
  | .int _ | .str _ => True
  | _ => False

def HasKey : Value → Prop
  | .array .. | .object .. => False
  | _ => True

theorem all_of_canonicalDigits {negative : Bool} {bs : Bytes}
    (hc : canonicalDigits negative bs = true) : ∀ b ∈ bs, Bytes.isDigit b = true := by
  cases bs with
  | nil => cases hc
  | cons c more =>
    simp only [canonicalDigits, Bool.and_eq_true] at hc
    exact List.all_eq_true.mp hc.1.2

/-- An integer key has digits only behind its sign; a plus is none of them. -/
theorem digits_of_canonical {bs : Bytes} (hc : Bytes.isCanonicalInt bs = true) :
    ∀ b ∈ (Bytes.unsigned bs).2, Bytes.isDigit b = true := by
  cases bs with
  | nil => cases hc
  | cons b rest =>
    rw [isCanonicalInt_cons] at hc
    split at hc <;> rename_i hb
    · simpa [Bytes.unsigned, hb] using all_of_canonicalDigits hc
    · have hall := all_of_canonicalDigits hc
      have hplus : b ≠ Bytes.ascii '+' := by
        rintro rfl
        exact absurd (hall _ (List.mem_cons_self ..)) (by decide)
      simpa [Bytes.unsigned, hb, hplus] using hall

theorem illegalOffset_calls (hi : Installed m l) (hr : Room m d (k + 1)) 
    (hq : Q.trapped "rt.illegal_offset" .unreachable h w) :
    m.Calls d (l.index .illegalOffset) [] h w Q := by
  refine calls_routine hi hr ?_
  simp [Routine.body, illegalOffset]
  exact hq

theorem normalizeKey_calls (hi : Installed m l) (hr : Room m d (k + 2)) (hv : Boxed h v x)
    (hq : HasKey x → ∀ r h', Extends h h' → Boxed h' r x.normalizeKey → Q.returned [r] h' w)
    (ht : ¬ HasKey x → Q.trapped "rt.illegal_offset" .unreachable h w) :
    m.Calls d (l.index .normalizeKey) [v] h w Q := by
  have hr' := hr.inner
  refine calls_routine hi hr ?_
  cases hv with
  | null ha =>
    simp [Routine.body, normalizeKey, Routine.results, ha, valueCell, wp_call_routine hi,
      wp_ownString hi 0 rfl]
    refine newString_calls hi hr' ?_
    simp
    refine hq trivial _ _ ((Extends.push _ _).trans (.push _ _)) ?_
    exact .str (getElem?_push_at (by simp) _) (IsBytes.push ⟨_, rfl, getElem?_push_size _ _⟩)
      (by decide)
  | bool ha | float ha =>
    simp [Routine.body, normalizeKey, Routine.results, ha, valueCell, wp_call_routine hi]
    refine newInt_calls hi hr' ?_
    simpa using hq trivial _ _ (.push h _) (.int (getElem?_push_size h _))
  | int ha =>
    simp [Routine.body, normalizeKey, Routine.results, ha, valueCell]
    exact hq trivial _ _ (.refl h) (.int ha)
  | @str _ _ bs ha hs hl =>
    simp only [Value.normalizeKey] at hq
    simp [Routine.body, normalizeKey, Routine.results, ha, valueCell, wp_call_routine hi]
    refine strIsCanonicalInt_calls hi hr' hs hl ?_
    simp [ha, valueCell, wp_call_routine hi]
    split <;> rename_i hc
    · refine strParseInt_calls hi hr' hs hl (digits_of_canonical hc) ?_
      simp [wp_call_routine hi]
      refine newInt_calls hi hr' ?_
      rw [if_pos hc] at hq
      simpa using hq trivial _ _ (.push h _) (.int (getElem?_push_size h _))
    · rw [if_neg hc] at hq
      exact hq trivial _ _ (.refl h) (.str ha hs hl)
  | array ha | object ha =>
    simp [Routine.body, normalizeKey, Routine.results, ha, valueCell, wp_call_routine hi]
    exact illegalOffset_calls hi hr' (ht id)

theorem HasKey.isKey_normalizeKey {x : Value} (hx : HasKey x) : IsKey x.normalizeKey := by
  cases x with
  | null | bool | int | float => trivial
  | str bs =>
    simp only [Value.normalizeKey]
    split <;> trivial
  | array | object => exact hx.elim

/-! ## Hashes -/

section Hashes

variable {f : String} {tail : Code} {z : Nat} {bs : Bytes}

theorem ofInt_hashFactor : Int32.ofInt hashFactor = 16777619 := rfl

theorem ofInt_hashOffset : Int32.ofInt hashOffset = UInt32.toInt32 2166136261 := rfl

@[simp] theorem nests_hashByteStep {hv i n : Nat} : Nests (hashByteStep hv i n) [] := by
  simp [hashByteStep]

theorem hashByteStep_round (hx : h[z]? = some (.array Shape.bytes (byteVals bs)))
    (hlen : bs.length < 2 ^ 31) {pre rest : Bytes} (hbs : bs = pre ++ rest) {hv : UInt32}
    (hq : m.wp ⟨f, 1, d⟩ tail [] Q ⟨h, w, [.ref z, .i32 (rest.foldl Value.hashByte hv).toInt32,
      .i32 (num bs.length), .i32 (num bs.length)], []⟩) :
    Round m ⟨f, 1, d⟩ (hashByteStep 1 2 3) tail [] Q [] ⟨h, w,
      [.ref z, .i32 hv.toInt32, .i32 (num pre.length), .i32 (num bs.length)], []⟩ := by
  induction rest generalizing pre hv with
  | nil =>
    rw [List.append_nil] at hbs
    subst hbs
    intro K hK
    simpa [hashByteStep, round_leave hK] using hq
  | cons b rest ih =>
    obtain ⟨hb, hi, hle⟩ := next_byte hlen hbs
    have hnext : bs = (pre ++ [b]) ++ rest := by simp [hbs]
    intro K hK
    simp [hashByteStep, hx, hi, hb, hle]
    simpa [Value.hashByte, ofInt_hashFactor] using round_again hK (ih hnext hq)

theorem hashBytes_calls (hi : Installed m l) (hr : Room m d (k + 1)) (hv : IsBytes h v bs)
    (hlen : bs.length < 2 ^ 31) (hq : Q.returned [.i32 (Value.hashBytes bs).toInt32] h w) :
    m.Calls d (l.index .hashBytes) [v] h w Q := by
  obtain ⟨z, rfl, hz⟩ := hv
  refine calls_routine hi hr ?_
  simp [Routine.body, hashBytes, Routine.results, hz, ofInt_hashOffset]
  refine hashByteStep_round hz hlen (List.nil_append bs).symm ?_
  simpa [Value.hashBytes] using hq

@[simp] theorem nests_hashShiftStep {hv shift : Nat} : Nests (hashShiftStep hv shift) [] := by
  simp [hashShiftStep]

theorem lowByte (x : UInt64) : x.toInt64.toInt32 &&& 255 = x.toUInt8.toUInt32.toInt32 := by
  have hx : x.toUInt32 &&& 255 = x.toUInt8.toUInt32 := by
    apply UInt32.toNat_inj.mp
    rw [UInt32.toNat_and, UInt64.toNat_toUInt32, UInt8.toNat_toUInt32, UInt64.toNat_toUInt8]
    exact (Nat.and_two_pow_sub_one_eq_mod _ 8).trans (Nat.mod_mod_of_dvd _ (by decide))
  have hw : x.toInt64.toInt32 = x.toUInt32.toInt32 := by
    apply Int32.toBitVec_inj.mp
    simpa using BitVec.signExtend_eq_setWidth_of_le x.toBitVec (by decide)
  rw [← hx, UInt32.toInt32_and, hw]
  rfl

theorem hashShiftStep_round {i s : Int64} {j n : Nat} (hj : j + n = 8)
    (hs : s = Int64.ofNat (8 * j)) {hv : UInt32}
    (hq : m.wp ⟨f, 1, d⟩ tail [] Q ⟨h, w, [.i64 i,
      .i32 (((List.range' j n).map fun k => (i.toUInt64 >>> (8 * k).toUInt64).toUInt8).foldl
        Value.hashByte hv).toInt32, .i64 64], []⟩) :
    Round m ⟨f, 1, d⟩ (hashShiftStep 1 2) tail [] Q [] ⟨h, w,
      [.i64 i, .i32 hv.toInt32, .i64 s], []⟩ := by
  induction n generalizing j hv s with
  | zero =>
    obtain rfl : j = 8 := hj
    obtain rfl : s = 64 := hs
    intro K hK
    simpa [hashShiftStep, round_leave hK] using hq
  | succ n ih =>
    intro K hK
    have hlt : ¬ 64 ≤ s := by
      obtain hj : j < 8 := by omega
      subst hs
      interval_cases j <;> decide
    have hshift : s.toUInt64 % 64 = (8 * j).toUInt64 := by
      obtain hj : j < 8 := by omega
      subst hs
      interval_cases j <;> rfl
    have hnext : s + 8 = Int64.ofNat (8 * (j + 1)) := by
      rw [hs, Nat.mul_succ, Int64.ofNat_add]
      rfl
    simp only [List.range'_succ, List.map_cons, List.foldl_cons] at hq
    obtain ⟨b, hb⟩ : ∃ b, b = (i.toUInt64 >>> (8 * j).toUInt64).toUInt8 := ⟨_, rfl⟩
    rw [← hb] at hq
    have hbyte : (i.toUInt64 >>> (s.toUInt64 % 64)).toInt64.toInt32 &&& 255 =
        b.toUInt32.toInt32 := by
      rw [lowByte, hshift, hb]
    simp [hashShiftStep, hlt, hbyte]
    simpa [Value.hashByte, ofInt_hashFactor] using round_again hK (ih (by omega) hnext hq)

theorem hashInt_calls (hi : Installed m l) (hr : Room m d (k + 1)) {i : Int64}
    (hq : Q.returned [.i32 (Value.hashBytes (Value.littleEndian i)).toInt32] h w) :
    m.Calls d (l.index .hashInt) [.i64 i] h w Q := by
  refine calls_routine hi hr ?_
  simp [Routine.body, hashInt, Routine.results, ofInt_hashOffset]
  refine hashShiftStep_round (j := 0) (n := 8) rfl rfl ?_
  rw [← List.range_eq_range']
  simpa [Value.hashBytes, Value.littleEndian] using hq

theorem hashKey_calls (hi : Installed m l) (hr : Room m d (k + 2)) (hv : Boxed h v x)
    (hx : IsKey x) (hq : Q.returned [.i32 x.hashKey.toInt32] h w) :
    m.Calls d (l.index .hashKey) [v] h w Q := by
  have hr' := hr.inner
  refine calls_routine hi hr ?_
  cases hv with
  | int ha =>
    simp [Routine.body, hashKey, Routine.results, ha, valueCell, wp_call_routine hi]
    refine hashInt_calls hi hr' ?_
    simpa [Value.hashKey] using hq
  | str ha hs hl =>
    simp [Routine.body, hashKey, Routine.results, ha, valueCell, wp_call_routine hi]
    refine hashBytes_calls hi hr' hs hl ?_
    simpa [Value.hashKey] using hq
  | null | bool | float | array | object => exact hx.elim

end Hashes

theorem keyEq_calls (hi : Installed m l) (hr : Room m d (k + 2)) (hu : Boxed h u x)
    (hv : Boxed h v y) (hx : IsKey x) (hy : IsKey y)
    (hq : Q.returned [.i32 (flag (x.strictEq y))] h w) :
    m.Calls d (l.index .keyEq) [u, v] h w Q := by
  have hr' := hr.inner
  refine calls_routine hi hr ?_
  cases hu with
  | int ha =>
    cases hv with
    | int ha' =>
      simp [Routine.body, keyEq, Routine.results, ha, ha', valueCell]
      exact hq
    | str ha' =>
      simp [Routine.body, keyEq, Routine.results, ha, ha', valueCell]
      exact hq
    | null | bool | float | array | object => exact hy.elim
  | str ha hs hl =>
    cases hv with
    | int ha' =>
      simp [Routine.body, keyEq, Routine.results, ha, ha', valueCell]
      exact hq
    | str ha' hs' hl' =>
      simp [Routine.body, keyEq, Routine.results, ha, ha', valueCell, wp_call_routine hi]
      refine bytesEq_calls hi hr' hs hs' hl hl' ?_
      simpa [Value.strictEq] using hq
    | null | bool | float | array | object => exact hy.elim
  | null | bool | float | array | object => exact hx.elim

end HeapScript.Library
