import HeapScript.Proofs.Library.Conversions

/-!
# Operators

The routines for the operators compute the operators of the language on values. Division and
remainder stop where the operator has no result, concatenation where no byte string is that long.
-/

namespace HeapScript.Library

open Machine Machine.Processor Code Execution

variable {m : Processor Output} {l : Links} {d k : Nat} {h : Heap} {w : Output} {Q : Post Output}
  {u v : Val} {x y : Value}

/-! ## Equality -/

/-- Two records that refer to the same store are one record. -/
def Apart (h : Heap) (u v : Val) : Prop :=
  ∀ a b t t' i i' x x' s s' r, u = .ref a → v = .ref b →
    h[a]? = some (valueCell t i x s (.ref r)) → h[b]? = some (valueCell t' i' x' s' (.ref r)) → a = b

theorem Boxed.cell (hv : Boxed h v x) :
    ∃ a i f s r, v = .ref a ∧ h[a]? = some (valueCell x.tag i f s r) := by
  cases hv with
  | null ha | bool ha | int ha | float ha | str ha | array ha | object ha =>
    exact ⟨_, _, _, _, _, rfl, ha⟩

theorem code_inj {t t' : Tag} : t.code = t'.code ↔ t = t' := by
  cases t <;> cases t' <;> decide

theorem strictEq_of_tag_ne (hne : x.tag ≠ y.tag) : x.strictEq y = false := by
  cases x <;> cases y <;> first | rfl | exact absurd rfl hne

theorem Apart.same {a b : Nat} (ha : Apart h (.ref a) (.ref b)) {t t' : Tag} {i i' : Int64}
    {f f' : Float} {s s' : Val} {r r' : Nat} (hc : h[a]? = some (valueCell t i f s (.ref r)))
    (hc' : h[b]? = some (valueCell t' i' f' s' (.ref r'))) : (r == r') = (a == b) := by
  rw [Bool.eq_iff_iff, beq_iff_eq, beq_iff_eq]
  constructor
  · rintro rfl
    rw [ha _ _ _ _ _ _ _ _ _ _ _ rfl rfl hc hc']
  · rintro rfl
    rw [hc] at hc'
    simp only [valueCell, Option.some.injEq, Cell.struct.injEq, Array.mk.injEq, List.cons.injEq,
      Val.ref.injEq] at hc'
    exact hc'.2.2.2.2.2.1

theorem strictEq_calls (hi : Installed m l) (hr : Room m d (k + 2)) (hu : Boxed h u x)
    (hv : Boxed h v y) (ha : Apart h u v) (hq : Q.returned [.i32 (flag (x.strictEq y))] h w) :
    m.Calls d (l.index .strictEq) [u, v] h w Q := by
  have hr' := hr.inner
  refine calls_routine hi hr ?_
  by_cases ht : x.tag = y.tag
  · cases hu with
    | null hc | int hc | float hc =>
      cases hv <;> cases ht
      rename_i hc'
      simp [Routine.body, strictEq, Routine.results, hc, hc', valueCell]
      exact hq
    | @bool _ b hc =>
      cases hv <;> cases ht
      rename_i b' hc'
      simp [Routine.body, strictEq, Routine.results, hc, hc', valueCell]
      cases b <;> cases b' <;> exact hq
    | str hc hs hl =>
      cases hv <;> cases ht
      rename_i hc' hs' hl'
      simp [Routine.body, strictEq, Routine.results, hc, hc', valueCell, wp_call_routine hi]
      refine bytesEq_calls hi hr' hs hs' hl hl' ?_
      simpa [Value.strictEq] using hq
    | array hc hs he =>
      cases hv <;> cases ht
      rename_i hc' hs' he'
      obtain ⟨r, rfl⟩ := hs.is_ref
      obtain ⟨r', rfl⟩ := hs'.is_ref
      simp [Routine.body, strictEq, Routine.results, hc, hc', valueCell, ha.same hc hc']
      simpa [Value.strictEq] using hq
    | object hc ho =>
      cases hv <;> cases ht
      rename_i hc' ho'
      simp [Routine.body, strictEq, Routine.results, hc, hc', valueCell, ha.same hc hc']
      simpa [Value.strictEq] using hq
  · rw [strictEq_of_tag_ne ht] at hq
    obtain ⟨a, i, f, s, r, rfl, hc⟩ := hu.cell
    obtain ⟨a', i', f', s', r', rfl, hc'⟩ := hv.cell
    simp [Routine.body, strictEq, Routine.results, hc, hc', valueCell, code_inj, ht, -Tag.code]
    exact hq

theorem looseEq_of_tag_ne (hne : x.tag ≠ y.tag) :
    x.looseEq y = if ((x.tag = .bool ∨ y.tag = .bool) ∨ x.tag = .null) ∨ y.tag = .null then
      x.toBool == y.toBool else x.isNumeric && y.isNumeric && x.toFloat == y.toFloat := by
  cases x <;> cases y <;> first | exact absurd rfl hne | simp [Value.looseEq, Value.tag]

theorem looseEq_calls (hi : Installed m l) (hr : Room m d (k + 4)) (hu : Boxed h u x)
    (hv : Boxed h v y) (ha : Apart h u v) (hq : Q.returned [.i32 (flag (x.looseEq y))] h w) :
    m.Calls d (l.index .looseEq) [u, v] h w Q := by
  have hr' := hr.inner
  refine calls_routine hi hr ?_
  by_cases ht : x.tag = y.tag
  · cases hu with
    | null hc | int hc | float hc =>
      cases hv <;> cases ht
      rename_i hc'
      simp [Routine.body, looseEq, Routine.results, hc, hc', valueCell]
      exact hq
    | @bool _ b hc =>
      cases hv <;> cases ht
      rename_i b' hc'
      simp [Routine.body, looseEq, Routine.results, hc, hc', valueCell]
      cases b <;> cases b' <;> exact hq
    | str hc hs hl =>
      cases hv <;> cases ht
      rename_i hc' hs' hl'
      simp [Routine.body, looseEq, Routine.results, hc, hc', valueCell, wp_call_routine hi]
      refine isNumeric_calls (k := k + 1) hi hr' (.str hc hs hl) ?_
      simp [wp_call_routine hi]
      refine isNumeric_calls (k := k + 1) hi hr' (.str hc' hs' hl') ?_
      simp only [Value.looseEq] at hq
      simp [wp_call_routine hi]
      split <;> rename_i hn
      · refine toFloat_calls (k := k + 1) hi hr' (.str hc hs hl) ?_
        simp [wp_call_routine hi]
        refine toFloat_calls (k := k + 1) hi hr' (.str hc' hs' hl') ?_
        simpa [hn] using hq
      · simp [hc, hc', valueCell]
        refine bytesEq_calls (k := k + 2) hi hr' hs hs' hl hl' ?_
        rw [← Bool.and_eq_true] at hn
        simpa [hn] using hq
    | array hc hs he =>
      cases hv <;> cases ht
      rename_i hc' hs' he'
      obtain ⟨r, rfl⟩ := hs.is_ref
      obtain ⟨r', rfl⟩ := hs'.is_ref
      simp [Routine.body, looseEq, Routine.results, hc, hc', valueCell, ha.same hc hc']
      simpa [Value.looseEq] using hq
    | object hc ho =>
      cases hv <;> cases ht
      rename_i hc' ho'
      simp [Routine.body, looseEq, Routine.results, hc, hc', valueCell, ha.same hc hc']
      simpa [Value.looseEq] using hq
  · rw [looseEq_of_tag_ne ht] at hq
    obtain ⟨a, i, f, s, r, rfl, hc⟩ := hu.cell
    obtain ⟨a', i', f', s', r', rfl, hc'⟩ := hv.cell
    simp [Routine.body, looseEq, Routine.results, hc, hc', valueCell, code_inj, ht,
      wp_call_routine hi, -Tag.code]
    split <;> rename_i hb
    · rw [if_pos (by tauto)] at hq
      refine toBool_calls hi hr' hu ?_
      simp [wp_call_routine hi]
      refine toBool_calls hi hr' hv ?_
      simpa using hq
    · rw [if_neg (by tauto)] at hq
      refine isNumeric_calls (k := k + 1) hi hr' hu ?_
      simp [wp_call_routine hi]
      refine isNumeric_calls (k := k + 1) hi hr' hv ?_
      simp [wp_call_routine hi]
      split <;> rename_i hn
      · refine toFloat_calls (k := k + 1) hi hr' hu ?_
        simp [wp_call_routine hi]
        refine toFloat_calls (k := k + 1) hi hr' hv ?_
        simpa [hn] using hq
      · rw [← Bool.and_eq_true, Bool.not_eq_true] at hn
        simpa [hn] using hq

/-! ## Concatenation -/

theorem Boxed.length_toBytes (hv : Boxed h v x) : x.toBytes.length < 2 ^ 31 := by
  cases hv with
  | null => decide
  | @bool _ b => cases b <;> (simp only [Value.toBytes, textBytes_eq]; decide)
  | int => exact Nat.lt_of_le_of_lt (length_intBytes _) (by decide)
  | float => exact Nat.lt_trans (length_displayFloat _) (by decide)
  | str _ _ hl => exact hl
  | array | object => simp only [Value.toBytes, textBytes_eq]; decide

theorem concat_calls (hi : Installed m l) (hr : Room m d (k + 3)) (hu : Boxed h u x)
    (hv : Boxed h v y)
    (hq : x.toBytes.length + y.toBytes.length < 2 ^ 31 →
      ∀ r h', Extends h h' → Boxed h' r (x.concat y) → Q.returned [r] h' w)
    (ht : 2 ^ 31 ≤ x.toBytes.length + y.toBytes.length →
      ∀ h', Extends h h' → Q.trapped "rt.concat" .negativeLength h' w) :
    m.Calls d (l.index .concat) [u, v] h w Q := by
  have hr' := hr.inner
  have hx := hu.length_toBytes
  have hy := hv.length_toBytes
  refine calls_routine hi hr ?_
  simp [Routine.body, concat, Routine.results, wp_call_routine hi]
  refine toBytes_calls hi hr' hu fun r₁ h₁ he₁ hb₁ => ?_
  obtain ⟨a₁, rfl, ha₁⟩ := hb₁
  simp [ha₁, wp_call_routine hi]
  refine toBytes_calls hi hr' (hv.mono he₁) fun r₂ h₂ he₂ hb₂ => ?_
  obtain ⟨a₂, rfl, ha₂⟩ := hb₂
  replace ha₁ := he₂ _ _ ha₁
  generalize hxs : x.toBytes = xs at *
  generalize hys : y.toBytes = ys at *
  by_cases hlt : xs.length + ys.length < 2 ^ 31
  · have ha₁' (c : Cell) := Extends.push h₂ c _ _ ha₁
    have ha₂' (c : Cell) := Extends.push h₂ c _ _ ha₂
    have hw : Heap.write (Heap.write (Array.replicate (xs.length + ys.length) (.i32 0)) 0
        (byteVals xs)) xs.length (byteVals ys) = byteVals (xs ++ ys) := by
      have := Heap.write_write (.i32 0) (xs.map fun b => Val.i32 b.toUInt32.toInt32)
        (ys.map fun b => Val.i32 b.toUInt32.toInt32)
      simpa [byteVals] using this
    have hnat : ((xs.length : Int) + ys.length).toNat = xs.length + ys.length := by omega
    have hnx : ¬ (xs.length : Int) < 0 := by omega
    have hny : ¬ (ys.length : Int) < 0 := by omega
    simp [ha₂, wp_call_routine hi, hi.bytes, num_add, not_num_lt_zero hlt, toInt_num hx,
      toInt_num hy, toInt_num hlt, ha₁', ha₂', hnat, hnx, hny, hw]
    refine newString_calls (k := k + 1) hi hr' ?_
    simp
    refine hq hlt _ _ ((he₁.trans he₂).trans ((Extends.push _ _).trans (.push _ _))) ?_
    rw [Value.concat, hxs, hys]
    exact .str (getElem?_push_at (by simp) _) (IsBytes.push ⟨_, rfl, getElem?_push_size _ _⟩)
      (by simpa using hlt)
  · have hneg : num (xs.length + ys.length) < 0 := num_lt_zero (by omega) (by omega)
    simp [ha₂, num_add, hneg]
    exact ht (by omega) h₂ (he₁.trans he₂)

/-! ## Arithmetic -/

theorem toNumber_cases (x : Value) :
    (∃ i, x.toNumber = .int i) ∨ ∃ f, x.toNumber = .float f := by
  cases x with
  | float f => exact .inr ⟨f, rfl⟩
  | str s =>
    cases hf : Bytes.numericForm? s with
    | none => exact .inl ⟨0, by simp [Value.toNumber, hf]⟩
    | some form =>
      cases form with
      | int => exact .inl ⟨_, by simp [Value.toNumber, hf]; rfl⟩
      | float => exact .inr ⟨_, by simp [Value.toNumber, hf]; rfl⟩
  | null | bool b | int i | array a es | object a c ps => exact .inl ⟨_, rfl⟩

theorem combineFloats_wp (hi : Installed m l) (hr : Room m d (k + 2)) {f : String} {op : F64Op}
    {onFloat : Float → Float → Float} (hop : ∀ a b, op.eval a b = onFloat a b) {p q : Val}
    (hu : Boxed h u x) (hv : Boxed h v y)
    (hq : Q.returned [.ref h.size]
      (h.push (valueCell .float 0 (onFloat x.toFloat y.toFloat) .null .null)) w) :
    m.Calls d (l.index .toFloat) [u] h w (resume m ⟨f, 1, d⟩
      (seq [load 3, l.call .toFloat, [.f64 op], l.call .newFloat]) [] Q [p, q, u, v] []) := by
  refine toFloat_calls hi hr hu ?_
  simp [wp_call_routine hi]
  refine toFloat_calls hi hr hv ?_
  simp [wp_call_routine hi, hop, -F64Op.eval]
  refine newFloat_calls (k := k + 1) hi hr ?_
  simpa using hq

theorem numericBody_wp (hi : Installed m l) (hr : Room m d (k + 2)) {f : String}
    {int : I64Op} {float : F64Op} {onInt : Int64 → Int64 → Int64} {onFloat : Float → Float → Float}
    (hint : ∀ a b, int.eval a b = .ok (onInt a b)) (hfloat : ∀ a b, float.eval a b = onFloat a b)
    (hu : Boxed h u x) (hv : Boxed h v y)
    (hq : ∀ r h', Extends h h' → Boxed h' r (Value.numeric onInt onFloat x y) →
      Q.returned [r] h' w) :
    m.wp ⟨f, 1, d⟩ (numericBody l int float).code [] Q ⟨h, w, [u, v, .null, .null], []⟩ := by
  simp [numericBody, wp_call_routine hi]
  refine toNumber_calls hi hr hu fun r₁ h₁ he₁ hb₁ => ?_
  simp [wp_call_routine hi]
  refine toNumber_calls hi hr (hv.mono he₁) fun r₂ h₂ he₂ hb₂ => ?_
  replace hb₁ := hb₁.mono he₂
  have hnew {z : Value} {c : Cell} (hz : Value.numeric onInt onFloat x y = z)
      (hb : Boxed (h₂.push c) (.ref h₂.size) z) : Q.returned [.ref h₂.size] (h₂.push c) w :=
    hq _ _ ((he₁.trans he₂).trans (.push _ _)) (hz ▸ hb)
  unfold Value.numeric at hnew
  rcases toNumber_cases x with ⟨i, hx⟩ | ⟨i, hx⟩ <;> rcases toNumber_cases y with ⟨j, hy⟩ | ⟨j, hy⟩ <;>
    rw [hx, hy] at hnew <;> rw [hx] at hb₁ <;> rw [hy] at hb₂
  · obtain ⟨a₁, rfl, ha₁⟩ := hb₁.int_cell
    obtain ⟨a₂, rfl, ha₂⟩ := hb₂.int_cell
    simp [ha₁, ha₂, valueCell, wp_call_routine hi, hint, -I64Op.eval]
    refine newInt_calls (k := k + 1) hi hr ?_
    simpa using hnew rfl (.int (getElem?_push_size _ _))
  · obtain ⟨a₁, rfl, ha₁⟩ := hb₁.int_cell
    obtain ⟨a₂, rfl, ha₂⟩ := hb₂.float_cell
    simp [ha₁, ha₂, valueCell, wp_call_routine hi]
    exact combineFloats_wp hi hr hfloat hb₁ hb₂ (hnew rfl (.float (getElem?_push_size _ _)))
  · obtain ⟨a₁, rfl, ha₁⟩ := hb₁.float_cell
    obtain ⟨a₂, rfl, ha₂⟩ := hb₂.int_cell
    simp [ha₁, ha₂, valueCell, wp_call_routine hi]
    exact combineFloats_wp hi hr hfloat hb₁ hb₂ (hnew rfl (.float (getElem?_push_size _ _)))
  · obtain ⟨a₁, rfl, ha₁⟩ := hb₁.float_cell
    obtain ⟨a₂, rfl, ha₂⟩ := hb₂.float_cell
    simp [ha₁, ha₂, valueCell, wp_call_routine hi]
    exact combineFloats_wp hi hr hfloat hb₁ hb₂ (hnew rfl (.float (getElem?_push_size _ _)))

theorem arith_calls (hi : Installed m l) (hr : Room m d (k + 3)) (op : ArithOp) (hu : Boxed h u x)
    (hv : Boxed h v y)
    (hq : ∀ z, x.arith op y = .ok z →
      ∀ r h', Extends h h' → Boxed h' r z → Q.returned [r] h' w)
    (ht : x.arith op y = .error .divisionByZero →
      ∀ h', Extends h h' → Q.trapped ("rt." ++ (Routine.arith op).name) .unreachable h' w) :
    m.Calls d (l.index (.arith op)) [u, v] h w Q := by
  have hr' := hr.inner
  refine calls_routine hi hr ?_
  cases op with
  | add =>
    exact numericBody_wp hi hr' (fun _ _ => rfl) (fun _ _ => rfl) hu hv (hq _ rfl)
  | sub =>
    exact numericBody_wp hi hr' (fun _ _ => rfl) (fun _ _ => rfl) hu hv (hq _ rfl)
  | mul =>
    exact numericBody_wp hi hr' (fun _ _ => rfl) (fun _ _ => rfl) hu hv (hq _ rfl)
  | div =>
    simp only [Value.arith] at hq ht
    simp [Routine.body, arithBody, divBody, Routine.results, wp_call_routine hi]
    refine toFloat_calls hi hr' hv ?_
    simp [wp_call_routine hi]
    split <;> rename_i hz
    · exact ht (if_pos hz) h (.refl h)
    · refine toFloat_calls hi hr' hu ?_
      simp [wp_call_routine hi]
      refine newFloat_calls (k := k + 1) hi hr' ?_
      simpa using hq _ (if_neg hz) _ _ (.push h _) (.float (getElem?_push_size h _))
  | mod =>
    simp only [Value.arith] at hq ht
    simp [Routine.body, arithBody, modBody, Routine.results, wp_call_routine hi]
    refine toInt_calls hi hr' hv ?_
    simp [wp_call_routine hi]
    split <;> rename_i hz
    · exact ht (if_pos hz) h (.refl h)
    · refine toInt_calls hi hr' hu ?_
      simp [wp_call_routine hi, hz]
      refine newInt_calls (k := k + 1) hi hr' ?_
      simpa [Value.remainder] using hq _ (if_neg hz) _ _ (.push h _) (.int (getElem?_push_size h _))

theorem negate_calls (hi : Installed m l) (hr : Room m d (k + 3)) (hu : Boxed h u x)
    (hq : ∀ r h', Extends h h' → Boxed h' r x.negate → Q.returned [r] h' w) :
    m.Calls d (l.index .negate) [u] h w Q := by
  have hr' := hr.inner
  refine calls_routine hi hr ?_
  simp [Routine.body, negate, Routine.results, wp_call_routine hi]
  refine toNumber_calls hi hr' hu fun r₁ h₁ he₁ hb₁ => ?_
  unfold Value.negate at hq
  rcases toNumber_cases x with ⟨i, hx⟩ | ⟨i, hx⟩ <;> rw [hx] at hq hb₁
  · obtain ⟨a₁, rfl, ha₁⟩ := hb₁.int_cell
    simp [ha₁, valueCell, wp_call_routine hi]
    refine newInt_calls (k := k + 1) hi hr' ?_
    simpa using hq _ _ (he₁.trans (.push _ _)) (.int (getElem?_push_size _ _))
  · obtain ⟨a₁, rfl, ha₁⟩ := hb₁.float_cell
    simp [ha₁, valueCell, wp_call_routine hi]
    refine newFloat_calls (k := k + 1) hi hr' ?_
    simpa using hq _ _ (he₁.trans (.push _ _)) (.float (getElem?_push_size _ _))

theorem order_calls (hi : Installed m l) (hr : Room m d (k + 3)) (op : OrderOp) (hu : Boxed h u x)
    (hv : Boxed h v y) (hq : Q.returned [.i32 (flag (x.compare op y))] h w) :
    m.Calls d (l.index (.order op)) [u, v] h w Q := by
  have hr' := hr.inner
  refine calls_routine hi hr ?_
  simp [Routine.body, orderBody, Routine.results, wp_call_routine hi]
  refine toFloat_calls hi hr' hu ?_
  simp [wp_call_routine hi]
  refine toFloat_calls hi hr' hv ?_
  cases op <;> simpa [orderInstr, Value.compare] using hq

end HeapScript.Library
