import HeapScript.Value.Key
import HeapScript.Proofs.Library.Boxed

/-!
# Routines on byte strings

The routines that walk over byte strings compute what the coercions of the language say: the form
of a numeric string, the number it spells, equality, and whether a string is the writing of an
integer key.
-/

namespace HeapScript.Library

open Machine Machine.Processor Code Execution

/-! ## Bytes as operands -/

section Bytes

variable {b c : UInt8}

theorem byteWord_inj : b.toUInt32.toInt32 = c.toUInt32.toInt32 ↔ b = c := by
  constructor
  · intro h
    exact UInt8.toUInt32_inj.mp (by simpa using congrArg Int32.toUInt32 h)
  · rintro rfl
    rfl

theorem byteWord_dot : b.toUInt32.toInt32 = 46 ↔ b = Bytes.ascii '.' := byteWord_inj (c := 46)

theorem byteWord_plus : b.toUInt32.toInt32 = 43 ↔ b = Bytes.ascii '+' := byteWord_inj (c := 43)

theorem byteWord_minus : b.toUInt32.toInt32 = 45 ↔ b = Bytes.ascii '-' := byteWord_inj (c := 45)

theorem byteWord_digit :
    b.toUInt32 - Int32.toUInt32 48 < Int32.toUInt32 10 ↔ Bytes.isDigit b = true := by
  have h₁ : Int32.toUInt32 48 = 48 := rfl
  have h₂ : Int32.toUInt32 10 = 10 := rfl
  have hb := b.toNat_lt
  simp only [Bytes.isDigit, Bool.and_eq_true, decide_eq_true_eq, UInt8.le_iff_toNat_le,
    UInt32.lt_iff_toNat_lt, h₁, h₂]
  simp only [UInt32.toNat_sub, UInt8.toNat_toUInt32, UInt32.reduceToNat]
  change _ ↔ 48 ≤ b.toNat ∧ b.toNat ≤ 57
  omega

end Bytes

variable {m : Processor Output} {l : Links} {f : String} {d k x : Nat} {h : Heap} {w : Output}
  {Q : Post Output} {bs : Bytes} {tail : Code}

/-- Reading the next byte of a byte string that is not at its end. -/
theorem next_byte {pre rest : Bytes} {b : UInt8} (hlen : bs.length < 2 ^ 31)
    (hbs : bs = pre ++ b :: rest) :
    bs[pre.length]? = some b ∧ (num pre.length).toUInt32.toNat = pre.length ∧
      ¬ num bs.length ≤ num pre.length := by
  have hp : pre.length < bs.length := by simp [hbs]
  refine ⟨by simp [hbs], toNat_num (by omega), ?_⟩
  rw [num_le_num hlen (by omega)]
  omega

/-! ## The form of a numeric string -/

/-- Counts the digits and the points of a string that has nothing else. -/
def tally : Bytes → (digits dots : Nat) → Option (Nat × Nat)
  | [], digits, dots => some (digits, dots)
  | b :: rest, digits, dots =>
    if b = Bytes.ascii '.' then tally rest digits (dots + 1)
    else if Bytes.isDigit b then tally rest (digits + 1) dots
    else none

theorem tally_eq (body : Bytes) (digits dots : Nat) :
    tally body digits dots =
      if body.all fun b => Bytes.isDigit b || b == Bytes.ascii '.' then
        some (digits + body.countP Bytes.isDigit, dots + body.count (Bytes.ascii '.'))
      else none := by
  have hdot : Bytes.isDigit (Bytes.ascii '.') = false := rfl
  induction body generalizing digits dots with
  | nil => rfl
  | cons b rest ih =>
    rw [tally]
    split
    · rename_i hb
      subst hb
      rw [ih]
      simp [hdot, Nat.add_assoc, Nat.add_comm 1]
    · rename_i hb
      split
      · rename_i hd
        rw [ih]
        simp [hd, hb, Nat.add_assoc, Nat.add_comm 1]
      · rename_i hd
        simp [hd, hb]

/-- The number that stands for the form of a string: the tag of the number it spells, or 0. -/
def scanTag (bs : Bytes) : Int32 := ((Bytes.numericForm? bs).map (·.tag.code)).getD 0

/-- What the counts say about the form. -/
def tallyTag : Option (Nat × Nat) → Int32
  | some (0, _) => 0
  | some (_, 0) => Tag.int.code
  | some (_, 1) => Tag.float.code
  | _ => 0

theorem scanTag_eq (bs : Bytes) : scanTag bs = tallyTag (tally (Bytes.unsigned bs).2 0 0) := by
  rw [tally_eq]
  simp only [scanTag, Bytes.numericForm?]
  split
  · rename_i hall
    simp only [Nat.zero_add]
    by_cases hany : (Bytes.unsigned bs).2.any Bytes.isDigit
    · obtain ⟨n, hn⟩ : ∃ n, (Bytes.unsigned bs).2.countP Bytes.isDigit = n + 1 :=
        Nat.exists_eq_add_one.2 (List.countP_pos_iff.2 (by simpa using hany))
      rw [if_pos hany, hn]
      rcases (Bytes.unsigned bs).2.count (Bytes.ascii '.') with _ | _ | _ <;> rfl
    · have hz : (Bytes.unsigned bs).2.countP Bytes.isDigit = 0 :=
        List.countP_eq_zero.2 (by simpa using hany)
      rw [if_neg hany, hz]
      rfl
  · rfl

@[simp] theorem nests_scanStep {n i c digits dots : Nat} :
    Nests (scanStep n i c digits dots) [] := by
  simp [scanStep]

theorem scanStep_round (hx : h[x]? = some (.array Shape.bytes (byteVals bs)))
    (hlen : bs.length < 2 ^ 31) {pre rest : Bytes} (hbs : bs = pre ++ rest) {c : Val} {D P : Nat}
    (hq : match tally rest D P with
      | none => Q.returned [.i32 0] h w
      | some (D', P') => ∀ c, m.wp ⟨f, 1, d⟩ tail [] Q
          ⟨h, w, [.ref x, .i32 (num bs.length), .i32 (num bs.length), c, .i32 (num D'),
            .i32 (num P')], []⟩) :
    Round m ⟨f, 1, d⟩ (scanStep 1 2 3 4 5) tail [] Q [] ⟨h, w,
      [.ref x, .i32 (num bs.length), .i32 (num pre.length), c, .i32 (num D), .i32 (num P)], []⟩ := by
  induction rest generalizing pre c D P with
  | nil =>
    rw [List.append_nil] at hbs
    subst hbs
    intro K hK
    simpa [scanStep, round_leave hK] using hq c
  | cons b rest ih =>
    obtain ⟨hb, hi, hle⟩ := next_byte hlen hbs
    have hnext : bs = (pre ++ [b]) ++ rest := by simp [hbs]
    intro K hK
    simp [scanStep, hx, hi, hb, hle, byteWord_dot, byteWord_digit]
    rw [tally] at hq
    split
    · rename_i hdot
      rw [if_pos hdot] at hq
      simpa using round_again hK (ih hnext hq)
    · rename_i hdot
      rw [if_neg hdot] at hq
      split
      · rename_i hd
        rw [if_pos hd] at hq
        simpa using round_again hK (ih hnext hq)
      · rename_i hd
        rw [if_neg hd] at hq
        exact hq

theorem tally_bound {body : Bytes} {D P : Nat} (h : tally body 0 0 = some (D, P)) :
    D ≤ body.length ∧ P ≤ body.length := by
  rw [tally_eq] at h
  split at h
  · simp only [Nat.zero_add, Option.some.injEq, Prod.mk.injEq] at h
    obtain ⟨rfl, rfl⟩ := h
    exact ⟨List.countP_le_length, List.count_le_length⟩
  · cases h

/-- A sign is the first byte or missing. -/
theorem unsigned_split (b : UInt8) (rest : Bytes) :
    (Bytes.unsigned (b :: rest)).2 =
      if b = Bytes.ascii '+' ∨ b = Bytes.ascii '-' then rest else b :: rest := by
  rw [Bytes.unsigned]
  split
  · rename_i hb
    simp [hb]
  · rename_i hb
    split <;> rename_i hp <;> simp [hb, hp]

theorem scanVerdict_wp {D P : Nat} (hD : D < 2 ^ 31) (hP : P < 2 ^ 31) {v₀ v₁ v₂ v₃ : Val}
    (hq : Q.returned [.i32 (tallyTag (some (D, P)))] h w) :
    m.wp ⟨f, 1, d⟩ (scanVerdict 4 5) [] Q
      ⟨h, w, [v₀, v₁, v₂, v₃, .i32 (num D), .i32 (num P)], []⟩ := by
  have h₁ : num P = 1 ↔ P = 1 := num_inj (b := 1) hP (by decide)
  simp [scanVerdict, num_eq_zero hD, num_eq_zero hP, h₁]
  rcases D with _ | D
  · simpa [tallyTag] using hq
  · rcases P with _ | _ | P <;> simpa [tallyTag] using hq

theorem strScan_calls (hi : Installed m l) (hr : Room m d (k + 1)) {v : Val}
    (hv : IsBytes h v bs) (hlen : bs.length < 2 ^ 31)
    (hq : Q.returned [.i32 (scanTag bs)] h w) :
    m.Calls d (l.index .strScan) [v] h w Q := by
  obtain ⟨x, rfl, hx⟩ := hv
  have hstart (pre : Bytes) {body : Bytes} (hbs : bs = pre ++ body)
      (hq : Q.returned [.i32 (tallyTag (tally body 0 0))] h w) {c : Val} :
      Round m ⟨"rt.str_scan", 1, d + 1⟩ (scanStep 1 2 3 4 5) (scanVerdict 4 5) [] Q.later []
        ⟨h, w, [.ref x, .i32 (num bs.length), .i32 (num pre.length), c, .i32 0, .i32 0], []⟩ := by
    refine scanStep_round hx hlen hbs (D := 0) (P := 0) ?_
    cases ht : tally body 0 0 with
    | none => simpa [ht, tallyTag] using hq
    | some p =>
      obtain ⟨hD, hP⟩ := tally_bound ht
      have hbody : body.length ≤ bs.length := by simp [hbs]
      exact fun c => scanVerdict_wp (by omega) (by omega) (by simpa [ht] using hq)
  refine calls_routine hi hr ?_
  rw [scanTag_eq] at hq
  cases bs with
  | nil =>
    have hz : tallyTag (tally (Bytes.unsigned []).2 0 0) = 0 := rfl
    simpa [Routine.body, strScan, Routine.results, hx, hz] using hq
  | cons b rest =>
    have hne : num (rest.length + 1) ≠ 0 := by
      rw [Ne, num_eq_zero (by simpa using hlen)]
      simp
    rw [unsigned_split] at hq
    simp [Routine.body, strScan, Routine.results, hx, hne, byteWord_plus, byteWord_minus,
      ← or_iff_not_imp_left]
    split at hq <;> rename_i hb
    · rw [if_pos hb]
      exact hstart [b] rfl hq
    · rw [if_neg hb]
      exact hstart [] rfl hq

/-! ## The number that a string spells -/

theorem byteWord_eq_num (b : UInt8) : b.toUInt32.toInt32 = num b.toNat := by
  have h : b.toUInt32 = UInt32.ofNat b.toNat := UInt32.toNat_inj.mp (by simp)
  rw [h]
  rfl

theorem extendU_digit {b : UInt8} (hb : Bytes.isDigit b = true) :
    extendU (b.toUInt32.toInt32 - 48) = Int64.ofNat (Bytes.digitValue b) := by
  have h48 : 48 ≤ b.toNat := by
    simp only [Bytes.isDigit, Bool.and_eq_true, decide_eq_true_eq] at hb
    exact UInt8.le_iff_toNat_le.mp hb.1
  have hlt := b.toNat_lt
  rw [byteWord_eq_num, show (48 : Int32) = num 48 from rfl, num_sub h48, extendU_num (by omega)]
  rfl

@[simp] theorem nests_parseIntStep {n i acc : Nat} : Nests (parseIntStep n i acc) [] := by
  simp [parseIntStep]

theorem skipSign_wp {a : Act} {conts : List Cont} {v₁ v₄ : Val} {more : List Val}
    (hx : h[x]? = some (.array Shape.bytes (byteVals bs))) (hlen : bs.length < 2 ^ 31)
    (hq : ∀ c pre, bs = pre ++ (Bytes.unsigned bs).2 → m.wp a tail conts Q ⟨h, w, .ref x ::
      .i32 (num bs.length) :: .i32 (num pre.length) :: .i32 (flag (Bytes.unsigned bs).1) :: c ::
        more, []⟩) :
    m.wp a (skipSign 1 2 3 4 ++ tail) conts Q
      ⟨h, w, .ref x :: v₁ :: .i32 0 :: .i32 0 :: v₄ :: more, []⟩ := by
  cases bs with
  | nil => simpa [skipSign, hx, Bytes.unsigned, flag] using hq v₄ [] rfl
  | cons b rest =>
    have hne : num (rest.length + 1) ≠ 0 := by
      rw [Ne, num_eq_zero (by simpa using hlen)]
      simp
    simp [skipSign, hx, hne, byteWord_plus, byteWord_minus]
    rw [Bytes.unsigned] at hq
    split
    · rename_i hb
      rw [if_pos hb] at hq
      exact hq _ [b] rfl
    · rename_i hb
      rw [if_neg hb] at hq
      split
      · rename_i hp
        rw [if_pos hp] at hq
        exact hq _ [b] rfl
      · rename_i hp
        rw [if_neg hp] at hq
        exact hq _ [] rfl

theorem parseIntStep_round (hx : h[x]? = some (.array Shape.bytes (byteVals bs)))
    (hlen : bs.length < 2 ^ 31) {pre rest : Bytes} (hbs : bs = pre ++ rest)
    (hd : ∀ b ∈ rest, Bytes.isDigit b = true) {v₃ v₄ : Val} {acc : Int64}
    (hq : m.wp ⟨f, 1, d⟩ tail [] Q ⟨h, w, [.ref x, .i32 (num bs.length), .i32 (num bs.length), v₃, v₄,
        .i64 (rest.foldl (fun acc b => acc * 10 + Int64.ofNat (Bytes.digitValue b)) acc)], []⟩) :
    Round m ⟨f, 1, d⟩ (parseIntStep 1 2 5) tail [] Q [] ⟨h, w,
      [.ref x, .i32 (num bs.length), .i32 (num pre.length), v₃, v₄, .i64 acc], []⟩ := by
  induction rest generalizing pre acc with
  | nil =>
    rw [List.append_nil] at hbs
    subst hbs
    intro K hK
    simpa [parseIntStep, round_leave hK] using hq
  | cons b rest ih =>
    obtain ⟨hb, hi, hle⟩ := next_byte hlen hbs
    have hnext : bs = (pre ++ [b]) ++ rest := by simp [hbs]
    intro K hK
    simp [parseIntStep, hx, hi, hb, hle, extendU_digit (hd b (by simp))]
    simpa using round_again hK (ih hnext (fun b hb => hd b (by simp [hb])) hq)

theorem strParseInt_calls (hi : Installed m l) (hr : Room m d (k + 1)) {v : Val}
    (hv : IsBytes h v bs) (hlen : bs.length < 2 ^ 31)
    (hd : ∀ b ∈ (Bytes.unsigned bs).2, Bytes.isDigit b = true)
    (hq : Q.returned [.i64 (Bytes.toInt bs)] h w) :
    m.Calls d (l.index .strParseInt) [v] h w Q := by
  obtain ⟨x, rfl, hx⟩ := hv
  refine calls_routine hi hr ?_
  simp [Routine.body, strParseInt, Routine.results]
  refine skipSign_wp hx hlen fun c pre hbs => ?_
  simp
  refine parseIntStep_round hx hlen hbs hd ?_
  simp only [Bytes.toInt, Bytes.digitsToInt] at hq
  cases hs : (Bytes.unsigned bs).1 <;> simpa [hs] using hq

@[simp] theorem nests_parseFloatStep {n i c dot acc scale : Nat} :
    Nests (parseFloatStep n i c dot acc scale) [] := by
  simp [parseFloatStep]

theorem nearestFloat_ofNat {n : Nat} (h : n < 2 ^ 63) :
    Int64.nearestFloat (Int64.ofNat n) = n.toUInt64.toFloat := by
  have h0 : ¬ Int64.ofNat n < 0 := by
    rw [Int64.lt_iff_toInt_lt, Int64.toInt_ofNat_of_lt h]
    simp
  rw [Int64.nearestFloat, if_neg h0]
  rfl

theorem parseFloatStep_round (hx : h[x]? = some (.array Shape.bytes (byteVals bs)))
    (hlen : bs.length < 2 ^ 31) {pre rest : Bytes} (hbs : bs = pre ++ rest)
    (hd : ∀ b ∈ rest, Bytes.isDigit b = true ∨ b = Bytes.ascii '.') {v₃ c : Val} {p : Bool}
    {acc scale : Float}
    (hq : ∀ c v₅, m.wp ⟨f, 1, d⟩ tail [] Q ⟨h, w, [.ref x, .i32 (num bs.length),
      .i32 (num bs.length), v₃, c, v₅, .f64 (Bytes.scanFloat rest acc scale p).1,
        .f64 (Bytes.scanFloat rest acc scale p).2], []⟩) :
    Round m ⟨f, 1, d⟩ (parseFloatStep 1 2 4 5 6 7) tail [] Q [] ⟨h, w,
      [.ref x, .i32 (num bs.length), .i32 (num pre.length), v₃, c, .i32 (flag p), .f64 acc,
        .f64 scale], []⟩ := by
  induction rest generalizing pre c p acc scale with
  | nil =>
    rw [List.append_nil] at hbs
    subst hbs
    intro K hK
    simpa [parseFloatStep, round_leave hK, Bytes.scanFloat] using hq _ _
  | cons b rest ih =>
    obtain ⟨hb, hi, hle⟩ := next_byte hlen hbs
    have hnext : bs = (pre ++ [b]) ++ rest := by simp [hbs]
    intro K hK
    simp [parseFloatStep, hx, hi, hb, hle, byteWord_dot]
    rw [Bytes.scanFloat] at hq
    split
    · rename_i hdot
      rw [if_pos hdot] at hq
      simpa [flag] using round_again hK (ih hnext (fun b hb => hd b (by simp [hb])) hq)
    · rename_i hdot
      rw [if_neg hdot] at hq
      have hdigit : Bytes.isDigit b = true := (hd b (by simp)).resolve_right hdot
      have hval : Bytes.digitValue b < 2 ^ 63 := by
        have := b.toNat_lt
        simp only [Bytes.digitValue]
        omega
      rw [extendU_digit hdigit, nearestFloat_ofNat hval]
      cases p <;>
        simpa using round_again hK (ih hnext (fun b hb => hd b (by simp [hb])) hq)

theorem strParseFloat_calls (hi : Installed m l) (hr : Room m d (k + 1)) {v : Val}
    (hv : IsBytes h v bs) (hlen : bs.length < 2 ^ 31)
    (hd : ∀ b ∈ (Bytes.unsigned bs).2, Bytes.isDigit b = true ∨ b = Bytes.ascii '.')
    (hq : Q.returned [.f64 (Bytes.toFloat bs)] h w) :
    m.Calls d (l.index .strParseFloat) [v] h w Q := by
  obtain ⟨x, rfl, hx⟩ := hv
  refine calls_routine hi hr ?_
  simp [Routine.body, strParseFloat, Routine.results]
  refine skipSign_wp hx hlen fun c pre hbs => ?_
  simp
  refine parseFloatStep_round hx hlen hbs hd (p := false) fun c v₅ => ?_
  simp only [Bytes.toFloat] at hq
  cases hs : (Bytes.unsigned bs).1 <;> simpa [hs] using hq

/-! ## Equality -/

@[simp] theorem nests_bytesEqStep {n i : Nat} : Nests (bytesEqStep n i) [] := by
  simp [bytesEqStep]

theorem bytesEqStep_round {y : Nat} {cs : Bytes}
    (hx : h[x]? = some (.array Shape.bytes (byteVals bs)))
    (hy : h[y]? = some (.array Shape.bytes (byteVals cs))) (hlen : bs.length < 2 ^ 31)
    {pre rest more : Bytes} (hbs : bs = pre ++ rest) (hcs : cs = pre ++ more)
    (hl : rest.length = more.length)
    (hq : if rest = more then m.wp ⟨f, 1, d⟩ tail [] Q ⟨h, w, [.ref x, .ref y,
        .i32 (num bs.length), .i32 (num bs.length)], []⟩
      else Q.returned [.i32 0] h w) :
    Round m ⟨f, 1, d⟩ (bytesEqStep 2 3) tail [] Q [] ⟨h, w,
      [.ref x, .ref y, .i32 (num bs.length), .i32 (num pre.length)], []⟩ := by
  induction rest generalizing pre more with
  | nil =>
    obtain rfl : more = [] := List.eq_nil_of_length_eq_zero hl.symm
    rw [List.append_nil] at hbs
    subst hbs
    intro K hK
    simpa [bytesEqStep, round_leave hK] using hq
  | cons b rest ih =>
    obtain ⟨c, more, rfl⟩ := List.exists_cons_of_length_eq_add_one hl.symm
    obtain ⟨hb, hi, hle⟩ := next_byte hlen hbs
    have hc : cs[pre.length]? = some c := by simp [hcs]
    intro K hK
    simp [bytesEqStep, hx, hy, hi, hb, hc, hle, byteWord_inj]
    split
    · rename_i hbc
      subst hbc
      have hbs' : bs = (pre ++ [b]) ++ rest := by simp [hbs]
      have hcs' : cs = (pre ++ [b]) ++ more := by simp [hcs]
      simpa using round_again hK (ih hbs' hcs' (by simpa using hl) (by simpa using hq))
    · rename_i hbc
      simpa [hbc] using hq

theorem byteVals_inj {bs cs : Bytes} (h : byteVals bs = byteVals cs) : bs = cs := by
  refine List.map_injective_iff.mpr (fun b c hbc => ?_) (congrArg Array.toList h)
  exact byteWord_inj.mp (Val.i32.inj hbc)

theorem bytesEq_calls (hi : Installed m l) (hr : Room m d (k + 1)) {u v : Val} {cs : Bytes}
    (hu : IsBytes h u bs) (hv : IsBytes h v cs) (hb : bs.length < 2 ^ 31) (hc : cs.length < 2 ^ 31)
    (hq : Q.returned [.i32 (flag (bs == cs))] h w) :
    m.Calls d (l.index .bytesEq) [u, v] h w Q := by
  obtain ⟨x, rfl, hx⟩ := hu
  obtain ⟨y, rfl, hy⟩ := hv
  refine calls_routine hi hr ?_
  simp [Routine.body, bytesEq, Routine.results, hx, hy, num_inj hb hc]
  split
  · rename_i hxy
    subst hxy
    obtain rfl : bs = cs := byteVals_inj (by simpa using hx.symm.trans hy)
    simpa using hq
  · split
    · rename_i hl
      refine bytesEqStep_round hx hy hb (List.nil_append bs).symm (List.nil_append cs).symm hl ?_
      split <;> rename_i hbc
      · simpa [hbc] using hq
      · simpa [beq_false_of_ne hbc] using hq
    · rename_i hl
      have hne : bs ≠ cs := fun e => hl (by rw [e])
      simpa [beq_false_of_ne hne] using hq

/-! ## Integer keys -/

@[simp] theorem nests_digitStep {n i : Nat} : Nests (digitStep n i) [] := by
  simp [digitStep]

theorem digitStep_round (hx : h[x]? = some (.array Shape.bytes (byteVals bs)))
    (hlen : bs.length < 2 ^ 31) {pre rest : Bytes} (hbs : bs = pre ++ rest) {v₃ : Val}
    (hq : if rest.all Bytes.isDigit then m.wp ⟨f, 1, d⟩ tail [] Q ⟨h, w, [.ref x,
        .i32 (num bs.length), .i32 (num bs.length), v₃], []⟩
      else Q.returned [.i32 0] h w) :
    Round m ⟨f, 1, d⟩ (digitStep 1 2) tail [] Q [] ⟨h, w,
      [.ref x, .i32 (num bs.length), .i32 (num pre.length), v₃], []⟩ := by
  induction rest generalizing pre with
  | nil =>
    rw [List.append_nil] at hbs
    subst hbs
    intro K hK
    simpa [digitStep, round_leave hK] using hq
  | cons b rest ih =>
    obtain ⟨hb, hi, hle⟩ := next_byte hlen hbs
    have hnext : bs = (pre ++ [b]) ++ rest := by simp [hbs]
    intro K hK
    have hdigit : Int32.toUInt32 10 ≤ b.toUInt32 - Int32.toUInt32 48 ↔ ¬ Bytes.isDigit b = true := by
      rw [← byteWord_digit, UInt32.not_lt]
    simp [digitStep, hx, hi, hb, hle, hdigit]
    split
    · rename_i hd
      simpa using round_again hK (ih hnext (by simpa [hd] using hq))
    · rename_i hd
      simpa [hd] using hq

/-- Whether digits behind a sign, or behind none, are those of an integer key. -/
def canonicalDigits (negative : Bool) : Bytes → Bool
  | [] => false
  | c :: more =>
    (c :: more).length ≤ Bytes.keyDigits && (c :: more).all Bytes.isDigit &&
      !(c == Bytes.ascii '0' && (!more.isEmpty || negative))

theorem byteWord_zero {b : UInt8} : b.toUInt32.toInt32 = 48 ↔ b = Bytes.ascii '0' :=
  byteWord_inj (c := 48)

theorem isCanonicalInt_cons (b : UInt8) (rest : Bytes) :
    Bytes.isCanonicalInt (b :: rest) =
      if b = Bytes.ascii '-' then canonicalDigits true rest else canonicalDigits false (b :: rest) := by
  by_cases hb : b = Bytes.ascii '-'
  · simp only [Bytes.isCanonicalInt, if_pos hb]
    cases rest <;> rfl
  · simp only [Bytes.isCanonicalInt, if_neg hb]
    rfl

theorem checkDigits_wp (negative : Bool) (pre : Bytes)
    (hx : h[x]? = some (.array Shape.bytes (byteVals bs))) (hlen : bs.length < 2 ^ 31)
    {rest : Bytes} (hbs : bs = pre ++ rest)
    (hpre : pre.length = if negative then 1 else 0) {v₃ : Val}
    (hq : Q.returned [.i32 (flag (canonicalDigits negative rest))] h w) :
    m.wp ⟨f, 1, d⟩ (checkDigits 1 2 3) [] Q
      ⟨h, w, [.ref x, .i32 (num bs.length), .i32 (num pre.length), v₃], []⟩ := by
  have hl : bs.length = pre.length + rest.length := by simp [hbs]
  have hd : num bs.length - num pre.length = num rest.length := by
    rw [num_sub (by omega), hl, Nat.add_sub_cancel_left]
  cases rest with
  | nil => simpa [checkDigits, hd, canonicalDigits] using hq
  | cons c more =>
    obtain ⟨hb, hi, hle⟩ := next_byte hlen hbs
    have hm : more.length + 1 < 2 ^ 31 := by
      rw [List.length_cons] at hl
      omega
    have hne : num (more.length + 1) ≠ 0 := by
      rw [Ne, num_eq_zero hm]
      simp
    have h₁₈ : 18 < num (more.length + 1) ↔ 18 < more.length + 1 :=
      num_lt_num (a := 18) (by decide) hm
    have h₁ : num (more.length + 1) ≤ 1 ↔ more.length + 1 ≤ 1 := num_le_num (b := 1) hm (by decide)
    have h₀ : num pre.length = 0 ↔ pre.length = 0 := num_eq_zero (by omega)
    have hround {v : Val} (hq : Q.returned [.i32 (flag ((c :: more).all Bytes.isDigit))] h w) :
        Round m ⟨f, 1, d⟩ (digitStep 1 2) (seq [[.i32Const 1]]) [] Q []
          ⟨h, w, [.ref x, .i32 (num bs.length), .i32 (num pre.length), v], []⟩ := by
      refine digitStep_round hx hlen hbs ?_
      split <;> rename_i hall
      · simpa [hall] using hq
      · simpa [Bool.eq_false_iff.mpr hall] using hq
    simp [checkDigits, hd, hne, h₁₈, h₁, h₀, hx, hi, hb, byteWord_zero]
    simp only [canonicalDigits, List.length_cons, Bytes.keyDigits] at hq
    split
    · rename_i h18
      have hk : ¬ more.length + 1 ≤ 18 := by omega
      simpa [hk] using hq
    · rename_i h18
      have hk : more.length + 1 ≤ 18 := by omega
      split
      · rename_i hc
        split
        · rename_i hz
          have hbad : (!more.isEmpty || negative) = true := by
            cases negative <;> simp_all
          simpa [hc, hbad] using hq
        · rename_i hz
          have hgood : (!more.isEmpty || negative) = false := by
            cases negative <;> simp_all
          exact hround (by simpa [hk, hgood] using hq)
      · rename_i hc
        exact hround (by simpa [hk, beq_false_of_ne hc] using hq)

theorem strIsCanonicalInt_calls (hi : Installed m l) (hr : Room m d (k + 1)) {v : Val}
    (hv : IsBytes h v bs) (hlen : bs.length < 2 ^ 31)
    (hq : Q.returned [.i32 (flag (Bytes.isCanonicalInt bs))] h w) :
    m.Calls d (l.index .strIsCanonicalInt) [v] h w Q := by
  obtain ⟨x, rfl, hx⟩ := hv
  refine calls_routine hi hr ?_
  cases bs with
  | nil =>
    simp [Routine.body, strIsCanonicalInt, Routine.results, hx]
    exact checkDigits_wp false [] hx hlen rfl rfl hq
  | cons b rest =>
    have hne : num (rest.length + 1) ≠ 0 := by
      rw [Ne, num_eq_zero (by simpa using hlen)]
      simp
    simp [Routine.body, strIsCanonicalInt, Routine.results, hx, hne, byteWord_minus]
    rw [isCanonicalInt_cons] at hq
    split at hq <;> rename_i hb
    · rw [if_pos hb]
      exact checkDigits_wp true [b] hx hlen rfl rfl hq
    · rw [if_neg hb]
      exact checkDigits_wp false [] hx hlen rfl rfl hq

end HeapScript.Library
