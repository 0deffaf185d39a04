import HeapScript.Proofs.Compile.Assembly

/-!
# Numerals

The decimal writing of integers. What the library writes for an integer is read back as the same
integer, by its own routines and by the coercions. The strings that count as integer keys are the
writings of the integers below `10 ^ 18` in magnitude, so keys coincide only where they should.
-/

namespace HeapScript.Library

open Machine Machine.Processor Execution Compile
open Bytes (ascii isDigit digitValue)

/-! ## Digits -/

/-- Reads further digits behind a number. -/
def readDigits (n : Nat) (ds : Bytes) : Nat := ds.foldl (fun n b => n * 10 + digitValue b) n

/-- Digits without a leading zero that spell a number. -/
structure Spells (ds : Bytes) (n : Nat) : Prop where
  digits : ∀ b ∈ ds, isDigit b = true
  nonempty : ds ≠ []
  leading : ds.head? = some (ascii '0') → ds = [ascii '0']
  number : readDigits 0 ds = n

/-- A string is the writing of an integer: a minus if it is negative, then its magnitude. -/
def IsNumeral (s : Bytes) (i : Int) : Prop :=
  ∃ ds, s = (if i < 0 then [ascii '-'] else []) ++ ds ∧ Spells ds i.natAbs

theorem digit_eq {b : UInt8} (hb : isDigit b = true) :
    b = UInt8.ofNat (48 + digitValue b) ∧ digitValue b < 10 := by
  simp only [isDigit, Bool.and_eq_true, decide_eq_true_eq, UInt8.le_iff_toNat_le] at hb
  have h₁ : 48 ≤ b.toNat := hb.1
  have h₂ : b.toNat ≤ 57 := hb.2
  refine ⟨?_, by rw [digitValue]; omega⟩
  rw [digitValue, Nat.add_sub_cancel' h₁, UInt8.ofNat_toNat]

theorem isDigit_ofNat {d : Nat} (hd : d < 10) :
    isDigit (UInt8.ofNat (48 + d)) = true ∧ digitValue (UInt8.ofNat (48 + d)) = d := by
  interval_cases d <;> exact ⟨rfl, rfl⟩

/-- A further digit behind a number that is not zero. -/
theorem decimal_digit {n d : Nat} (hn : 0 < n) (hd : d < 10) :
    decimal (n * 10 + d) = decimal n ++ [UInt8.ofNat (48 + d)] := by
  rw [decimal_eq (n * 10 + d), if_neg (by omega), show (n * 10 + d) / 10 = n by omega,
    show (n * 10 + d) % 10 = d by omega]

theorem decimal_readDigits {n : Nat} (hn : 0 < n) {ds : Bytes} (hd : ∀ b ∈ ds, isDigit b = true) :
    decimal (readDigits n ds) = decimal n ++ ds := by
  induction ds generalizing n with
  | nil => simp [readDigits]
  | cons b ds ih =>
    obtain ⟨hb, hlt⟩ := digit_eq (hd b (by simp))
    have hnext := ih (n := n * 10 + digitValue b) (by omega) fun c hc => hd c (by simp [hc])
    rw [decimal_digit hn hlt, ← hb, List.append_assoc] at hnext
    exact hnext

/-- The digits of a number spell it. -/
theorem spells_decimal (n : Nat) : Spells (decimal n) n := by
  induction n using Nat.strongRecOn with
  | ind n ih =>
    obtain ⟨hdigit, hvalue⟩ := isDigit_ofNat (Nat.mod_lt n (by decide : 0 < 10))
    rw [decimal_eq]
    split
    · rename_i hn
      rw [Nat.mod_eq_of_lt hn] at hdigit hvalue ⊢
      exact ⟨by simpa using hdigit, by simp, by simp, by simpa [readDigits] using hvalue⟩
    · rename_i hn
      have hrest := ih (n / 10) (by omega)
      refine ⟨fun b hb => ?_, by simp, fun hz => ?_, ?_⟩
      · rcases List.mem_append.1 hb with hb | hb
        · exact hrest.digits b hb
        · rw [List.mem_singleton.1 hb]
          exact hdigit
      · -- a zero in front would be all of the higher digits
        rw [List.head?_append_of_ne_nil _ hrest.nonempty] at hz
        have hzero := hrest.number
        rw [hrest.leading hz] at hzero
        have : n / 10 = 0 := hzero.symm.trans rfl
        omega
      · have hnumber := hrest.number
        simp only [readDigits] at hnumber ⊢
        rw [List.foldl_append, hnumber, List.foldl_cons, List.foldl_nil, hvalue]
        omega

theorem spells_iff {ds : Bytes} {n : Nat} : Spells ds n ↔ ds = decimal n := by
  refine ⟨fun h => ?_, fun h => h ▸ spells_decimal n⟩
  obtain ⟨hdigits, hne, hleading, rfl⟩ := h
  cases ds with
  | nil => exact absurd rfl hne
  | cons b ds =>
    obtain ⟨hb, hlt⟩ := digit_eq (hdigits b (by simp))
    by_cases hz : b = ascii '0'
    · rw [hleading (by rw [hz]; rfl)]
      rfl
    · have hpos : 0 < digitValue b := by
        refine Nat.pos_of_ne_zero fun h0 => hz ?_
        rw [hb, h0]
        rfl
      have hone : decimal (digitValue b) = [b] := by
        rw [decimal_eq, if_pos hlt, Nat.mod_eq_of_lt hlt, ← hb, List.nil_append]
      have hread : readDigits 0 (b :: ds) = readDigits (digitValue b) ds := by simp [readDigits]
      rw [hread, decimal_readDigits hpos fun c hc => hdigits c (by simp [hc]), hone]
      rfl

/-! ## Integers -/

variable {s : Bytes} {i : Int64}

theorem lt_zero_iff : i < 0 ↔ i.toInt < 0 := by
  rw [Int64.lt_iff_toInt_lt, Int64.toInt_zero]

/-- What is printed for an integer is its one writing. -/
theorem isNumeral_iff : IsNumeral s i.toInt ↔ s = Value.intBytes i := by
  rw [intBytes_eq]
  simp only [IsNumeral, spells_iff, exists_eq_right, lt_zero_iff]

theorem decimal_cons (n : Nat) :
    ∃ b ds, decimal n = b :: ds ∧ isDigit b = true ∧ (b = ascii '0' ↔ n = 0) ∧
      (n = 0 → ds = []) := by
  have h := spells_decimal n
  cases hd : decimal n with
  | nil => exact absurd hd h.nonempty
  | cons b ds =>
    rw [hd] at h
    refine ⟨b, ds, rfl, h.digits b (by simp), ⟨fun hb => ?_, ?_⟩, ?_⟩
    · have hnumber := h.number
      rw [h.leading (by rw [hb]; rfl)] at hnumber
      exact hnumber.symm.trans rfl
    · rintro rfl
      cases hd
      rfl
    · rintro rfl
      cases hd
      rfl

theorem ne_sign {b : UInt8} (hb : isDigit b = true) : b ≠ ascii '-' ∧ b ≠ ascii '+' := by
  constructor <;> rintro rfl <;> exact absurd hb (by decide)

theorem unsigned_intBytes (i : Int64) :
    Bytes.unsigned (Value.intBytes i) = (decide (i < 0), decimal i.toInt.natAbs) := by
  rw [intBytes_eq]
  by_cases hi : i < 0
  · simp [hi, Bytes.unsigned]
  · obtain ⟨b, ds, hd, hb, -⟩ := decimal_cons i.toInt.natAbs
    simp [hi, hd, Bytes.unsigned, ne_sign hb]

theorem foldl_digitsToInt (ds : Bytes) (n : Nat) :
    ds.foldl (fun acc b => acc * 10 + Int64.ofNat (digitValue b)) (Int64.ofNat n) =
      Int64.ofNat (readDigits n ds) := by
  induction ds generalizing n with
  | nil => rfl
  | cons b ds ih =>
    have hstep : Int64.ofNat n * 10 + Int64.ofNat (digitValue b) =
        Int64.ofNat (n * 10 + digitValue b) := by
      rw [Int64.ofNat_add, Int64.ofNat_mul]
      rfl
    rw [List.foldl_cons, hstep, ih]
    rfl

/-- Reading undoes writing. The magnitude of the least integer wraps around to that integer, and so
does its negation. -/
theorem toInt_intBytes (i : Int64) : Bytes.toInt (Value.intBytes i) = i := by
  have hnumber : Bytes.digitsToInt (decimal i.toInt.natAbs) = Int64.ofInt i.toInt.natAbs := by
    have h := foldl_digitsToInt (decimal i.toInt.natAbs) 0
    rw [(spells_decimal _).number] at h
    exact h
  rw [Bytes.toInt, unsigned_intBytes]
  dsimp only
  rw [hnumber]
  by_cases hi : i < 0
  · have hneg : (i.toInt.natAbs : Int) = -i.toInt := by
      have := lt_zero_iff.1 hi
      omega
    rw [decide_eq_true hi, if_pos rfl, hneg, Int64.ofInt_neg, Int64.ofInt_toInt]
    simp
  · have hpos : (i.toInt.natAbs : Int) = i.toInt := by
      have := lt_zero_iff.not.1 hi
      omega
    rw [decide_eq_false hi, if_neg (by decide), hpos, Int64.ofInt_toInt]

theorem numericForm?_intBytes (i : Int64) :
    Bytes.numericForm? (Value.intBytes i) = some .int := by
  obtain ⟨b, ds, hd, hb, -⟩ := decimal_cons i.toInt.natAbs
  have hdigits := (spells_decimal i.toInt.natAbs).digits
  have hpoint : (decimal i.toInt.natAbs).count (ascii '.') = 0 :=
    List.count_eq_zero.2 fun hp => absurd (hdigits _ hp) (by decide)
  have hall : ((decimal i.toInt.natAbs).all fun b => isDigit b || b == ascii '.') = true :=
    List.all_eq_true.2 fun b hb => by simp [hdigits b hb]
  have hany : (decimal i.toInt.natAbs).any isDigit = true := by simp [hd, hb]
  simp [Bytes.numericForm?, unsigned_intBytes, hall, hany, hpoint]

/-! ## Keys -/

theorem length_decimal_iff {n : Nat} : (decimal n).length ≤ Bytes.keyDigits ↔ n < 10 ^ 18 := by
  rw [decimal, List.length_map]
  exact Nat.length_toDigits_le_iff (by decide) (by decide)

/-- Which digits count as the magnitude of an integer key. -/
theorem canonicalDigits_iff {negative : Bool} {ds : Bytes} :
    canonicalDigits negative ds = true ↔
      ∃ n, ds = decimal n ∧ n < 10 ^ 18 ∧ (negative = true → n ≠ 0) := by
  constructor
  · intro h
    cases ds with
    | nil => cases h
    | cons c more =>
      simp only [canonicalDigits, Bool.and_eq_true, decide_eq_true_eq, Bool.not_eq_true',
        Bool.and_eq_false_iff, beq_eq_false_iff_ne, Bool.or_eq_false_iff, Bool.not_eq_false'] at h
      obtain ⟨⟨hlen, hall⟩, hzero⟩ := h
      have hspells : Spells (c :: more) (readDigits 0 (c :: more)) :=
        ⟨List.all_eq_true.1 hall, by simp, fun hc => by
          have hc : c = ascii '0' := Option.some.inj hc
          have hmore := (hzero.resolve_left fun hne => hne hc).1
          rw [hc, List.isEmpty_iff.1 hmore], rfl⟩
      have heq := spells_iff.1 hspells
      refine ⟨_, heq, length_decimal_iff.1 (heq ▸ hlen), fun hneg h0 => ?_⟩
      have hc : c = ascii '0' := by
        rw [h0] at heq
        exact (List.cons.inj heq).1
      have := (hzero.resolve_left fun hne => hne hc).2
      rw [hneg] at this
      cases this
  · rintro ⟨n, rfl, hn, hneg⟩
    obtain ⟨b, ds, hd, hb, hzero, hnil⟩ := decimal_cons n
    have hlen := length_decimal_iff.2 hn
    have hdigits := (spells_decimal n).digits
    rw [hd] at hlen hdigits ⊢
    simp only [canonicalDigits, Bool.and_eq_true, decide_eq_true_eq]
    refine ⟨⟨hlen, List.all_eq_true.2 hdigits⟩, ?_⟩
    by_cases h0 : n = 0
    · have hpos : negative = false := by simpa [h0] using hneg
      simp [hnil h0, hpos]
    · have hne : b ≠ ascii '0' := fun hb => h0 (hzero.1 hb)
      simp [hne]

/-- The strings that count as integer keys. -/
theorem isCanonicalInt_iff :
    Bytes.isCanonicalInt s = true ↔ ∃ i : Int64, s = Value.intBytes i ∧ i.toInt.natAbs < 10 ^ 18 := by
  constructor
  · intro h
    cases s with
    | nil => cases h
    | cons b rest =>
      -- an integer below `10 ^ 18` in magnitude is no wider than a word
      have key (z : Int) (hz : z.natAbs < 10 ^ 18) : (Int64.ofInt z).toInt = z :=
        Int64.toInt_ofInt_of_le (by omega) (by omega)
      rw [isCanonicalInt_cons] at h
      split at h <;> rename_i hb
      · obtain ⟨n, rfl, hn, h0⟩ := canonicalDigits_iff.1 h
        have hz := key (-n) (by omega)
        have hlt : Int64.ofInt (-(n : Int)) < 0 := by
          have := h0 rfl
          rw [lt_zero_iff, hz]
          omega
        refine ⟨Int64.ofInt (-n), ?_, by rw [hz]; omega⟩
        rw [intBytes_eq, if_pos hlt, hz, Int.natAbs_neg, Int.natAbs_natCast, hb]
        rfl
      · obtain ⟨n, hn', hn, -⟩ := canonicalDigits_iff.1 h
        have hz := key n (by omega)
        have hge : ¬ Int64.ofInt (n : Int) < 0 := by
          rw [lt_zero_iff, hz]
          omega
        refine ⟨Int64.ofInt n, ?_, by rw [hz]; omega⟩
        rw [intBytes_eq, if_neg hge, hz, Int.natAbs_natCast, ← hn']
        rfl
  · rintro ⟨i, rfl, hi⟩
    rw [intBytes_eq]
    by_cases hneg : i < 0
    · rw [if_pos hneg, List.singleton_append, isCanonicalInt_cons, if_pos rfl]
      have hne := lt_zero_iff.1 hneg
      exact canonicalDigits_iff.2 ⟨_, rfl, hi, fun _ => by omega⟩
    · obtain ⟨b, ds, hd, hb, -⟩ := decimal_cons i.toInt.natAbs
      rw [if_neg hneg, List.nil_append, hd, isCanonicalInt_cons, if_neg (ne_sign hb).1, ← hd]
      exact canonicalDigits_iff.2 ⟨_, rfl, hi, nofun⟩

theorem normalizeKey_str (s : Bytes) :
    (∃ i : Int64, s = Value.intBytes i ∧ i.toInt.natAbs < 10 ^ 18 ∧
      (Value.str s).normalizeKey = .int i) ∨
    ((¬ ∃ i : Int64, s = Value.intBytes i ∧ i.toInt.natAbs < 10 ^ 18) ∧
      (Value.str s).normalizeKey = .str s) := by
  rw [Value.normalizeKey, ← isCanonicalInt_iff]
  split
  · rename_i hc
    obtain ⟨i, rfl, hi⟩ := isCanonicalInt_iff.1 hc
    exact .inl ⟨i, rfl, hi, by rw [toInt_intBytes]⟩
  · exact .inr ⟨‹_›, rfl⟩

theorem normalizeKey_str_eq_int :
    (Value.str s).normalizeKey = .int i ↔ s = Value.intBytes i ∧ i.toInt.natAbs < 10 ^ 18 := by
  rcases normalizeKey_str s with ⟨j, rfl, hj, hkey⟩ | ⟨hno, hkey⟩
  · rw [hkey, Value.int.injEq]
    refine ⟨fun h => h ▸ ⟨rfl, hj⟩, fun h => ?_⟩
    rw [← toInt_intBytes j, h.1, toInt_intBytes]
  · rw [hkey]
    exact ⟨nofun, fun h => absurd ⟨i, h⟩ hno⟩

/-- A string stands for an integer key if it is the writing of one below `10 ^ 18`, else for itself.
So no two strings stand for one key, a string and an integer do only if the one is the writing of
the other, and a key stands for itself. -/
theorem normalizeKey_identifies_numerals :
    (∀ (s : Bytes) (i : Int64), (Value.str s).normalizeKey = .int i ↔
      IsNumeral s i.toInt ∧ i.toInt.natAbs < 10 ^ 18) ∧
    (∀ s : Bytes, (Value.str s).normalizeKey = .str s ↔
      ¬ ∃ i : Int64, IsNumeral s i.toInt ∧ i.toInt.natAbs < 10 ^ 18) ∧
    (∀ s t : Bytes, (Value.str s).normalizeKey = (Value.str t).normalizeKey ↔ s = t) ∧
    (∀ (s : Bytes) (i : Int64), (Value.str s).normalizeKey = (Value.int i).normalizeKey ↔
      IsNumeral s i.toInt ∧ i.toInt.natAbs < 10 ^ 18) ∧
    ∀ v : Value, v.normalizeKey.normalizeKey = v.normalizeKey := by
  simp only [isNumeral_iff]
  refine ⟨fun s i => normalizeKey_str_eq_int, fun s => ?_, fun s t => ⟨fun h => ?_, fun h => h ▸ rfl⟩,
    fun s i => normalizeKey_str_eq_int, fun v => ?_⟩
  · rcases normalizeKey_str s with ⟨i, hs, hi, hkey⟩ | ⟨hno, hkey⟩
    · rw [hkey]
      exact ⟨nofun, fun h => absurd ⟨i, hs, hi⟩ h⟩
    · exact ⟨fun _ => hno, fun _ => hkey⟩
  · rcases normalizeKey_str t with ⟨i, rfl, hi, hkey⟩ | ⟨hno, hkey⟩
    · exact (normalizeKey_str_eq_int.1 (h.trans hkey)).1
    · rcases normalizeKey_str s with ⟨i, -, -, hs⟩ | ⟨-, hs⟩
      · rw [hs, hkey] at h
        cases h
      · rw [hs, hkey] at h
        exact Value.str.inj h
  · cases v with
    | str s =>
      rcases normalizeKey_str s with ⟨i, -, -, hkey⟩ | ⟨-, hkey⟩
      · rw [hkey]
        rfl
      · rw [hkey, hkey]
    | null =>
      rcases normalizeKey_str [] with ⟨i, hs, -⟩ | ⟨-, hkey⟩
      · rw [intBytes_eq] at hs
        obtain ⟨b, ds, hd, -⟩ := decimal_cons i.toInt.natAbs
        simp [hd] at hs
      · exact hkey
    | _ => rfl

/-! ## Printing and reading -/

section Routines

variable {m : Processor Output} {l : Links}

/-- What the routine for it prints is read back by the routines that read numbers. -/
theorem prints_and_reads (hm : Ready m l) (i : Int64) (w : World Output) :
    ∃ v w', m.Ends w (l.index .intToString) [.i64 i] (.returned [v]) w' ∧
      IsBytes w'.heap v (Value.intBytes i) ∧
      (∃ w₁, m.Ends w' (l.index .strScan) [v] (.returned [.i32 Tag.int.code]) w₁) ∧
      ∃ w₁, m.Ends w' (l.index .strParseInt) [v] (.returned [.i64 i]) w₁ := by
  have hroom : Room m 0 1 := hm.room.mono (by decide)
  have hprints : m.Calls 0 (l.index .intToString) [.i64 i] w.heap w.host (returning w.host
      fun vs h => ∃ v, vs = [v] ∧ IsBytes h v (Value.intBytes i)) :=
    intToString_calls hm.installed hroom fun r h _ hr => ⟨⟨r, rfl, hr⟩, rfl⟩
  obtain ⟨_, w', hprint, ⟨v, rfl, hv⟩, -⟩ := hm.returns rfl hprints
  have hlen : (Value.intBytes i).length < 2 ^ 31 :=
    Nat.lt_of_le_of_lt (length_intBytes i) (by decide)
  have hform := numericForm?_intBytes i
  refine ⟨v, w', hprint, hv, ?_, ?_⟩
  · have hscans : m.Calls 0 (l.index .strScan) [v] w'.heap w'.host (returning w'.host
        fun vs _ => vs = [.i32 (scanTag (Value.intBytes i))]) :=
      strScan_calls hm.installed hroom hv hlen ⟨rfl, rfl⟩
    obtain ⟨_, w₁, hscan, rfl, -⟩ := hm.returns rfl hscans
    rw [scanTag, hform] at hscan
    exact ⟨w₁, hscan⟩
  · have hparses : m.Calls 0 (l.index .strParseInt) [v] w'.heap w'.host (returning w'.host
        fun vs _ => vs = [.i64 (Bytes.toInt (Value.intBytes i))]) :=
      strParseInt_calls hm.installed hroom hv hlen (digits_of_int hform) ⟨rfl, rfl⟩
    obtain ⟨_, w₁, hparse, rfl, -⟩ := hm.returns rfl hparses
    rw [toInt_intBytes] at hparse
    exact ⟨w₁, hparse⟩

end Routines

/-- On the machine of every compiled program, for every integer the routine that prints it returns
the bytes of its writing, the routine that classifies strings says that they are an integer, and the
routine that reads integers gives back the same one. So do the coercions to strings and numbers. -/
theorem integers_print_and_read_back {p : Program} {o : Options} {c : Compiled}
    (hc : (Program.compile p o).outcome = .ok c) :
    ∃ m, machineFor c 0 = .ok m ∧ ∀ (i : Int64) (w : World Output),
      (∃ v s w', m.Ends w (c.links.index .intToString) [.i64 i] (.returned [v]) w' ∧
        IsBytes w'.heap v s ∧ IsNumeral s i.toInt ∧
        (∃ w₁, m.Ends w' (c.links.index .strScan) [v] (.returned [.i32 Tag.int.code]) w₁) ∧
        ∃ w₁, m.Ends w' (c.links.index .strParseInt) [v] (.returned [.i64 i]) w₁) ∧
      (Value.str (Value.int i).toBytes).toNumber = .int i := by
  obtain ⟨m, hm, hready⟩ := ready_of_compiled hc
  refine ⟨m, hm, fun i w => ⟨?_, ?_⟩⟩
  · obtain ⟨v, w', hprint, hv, hreads⟩ := prints_and_reads hready i w
    exact ⟨v, _, w', hprint, hv, isNumeral_iff.2 rfl, hreads⟩
  · rw [Value.toBytes, Value.toNumber, numericForm?_intBytes, toInt_intBytes]

/-- The least integer fills the buffer in which it is written. -/
theorem least_integer_prints_and_reads_back :
    ∃ c m, (Program.compile [] {}).outcome = .ok c ∧ machineFor c 0 = .ok m ∧
      ∃ v s w', m.Ends ⟨#[], #[], 0⟩ (c.links.index .intToString) [.i64 Int64.minValue]
        (.returned [v]) w' ∧ IsBytes w'.heap v s ∧ s.length = 20 ∧
        ∃ w₁, m.Ends w' (c.links.index .strParseInt) [v] (.returned [.i64 Int64.minValue]) w₁ := by
  obtain ⟨c, hc⟩ := compile_nothing
  obtain ⟨m, hm, hall⟩ := integers_print_and_read_back hc
  obtain ⟨⟨v, s, w', hprint, hv, hs, -, hparse⟩, -⟩ := hall Int64.minValue ⟨#[], #[], 0⟩
  refine ⟨c, m, hc, hm, v, s, w', hprint, hv, ?_, hparse⟩
  rw [isNumeral_iff.1 hs, intBytes_eq]
  decide +kernel

end HeapScript.Library
