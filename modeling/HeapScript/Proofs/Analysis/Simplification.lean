import HeapScript.Analysis.Fold
import HeapScript.Proofs.Number.Rounding

/-!
# Simplification keeps the value of an operation

Operators are evaluated from left to right on the value model; what variables hold, and what every
other expression does, is left open. Whatever it is, as long as it agrees with the static types, a
simplified operation has the same result, the same effects and the same faults as the operation
itself. There is one exception: `x - -0.0` is simplified to `x`, also where `x` is `-0.0` and the
difference is `0.0`.
-/

namespace HeapScript

/-! ## Evaluation -/

abbrev Effect (σ ε : Type) := ExceptT ε (StateM σ)

/-- What variables hold, what an operator without a result does, and what every expression does
that is no operator, variable or literal. -/
structure Meaning (σ ε : Type) where
  read : σ → String → Value
  fault : Value.OperatorError → ε
  other : Expr → Effect σ ε Value

variable {σ ε : Type}

def Meaning.apply (M : Meaning σ ε) (op : BinaryOp) (a b : Value) : Effect σ ε Value :=
  match op with
  | .arith op =>
    match Value.arith op a b with
    | .ok v => pure v
    | .error e => throw (M.fault e)
  | .order op => pure (.bool (Value.compare op a b))
  | .eq => pure (.bool (a.looseEq b))
  | .ne => pure (.bool !(a.looseEq b))
  | .identical => pure (.bool (a.strictEq b))
  | .notIdentical => pure (.bool !(a.strictEq b))
  | .concat => pure (a.concat b)
  | .and => pure (.bool (a.toBool && b.toBool))
  | .or => pure (.bool (a.toBool || b.toBool))

/-- Evaluates an expression. The second operand of a conjunction or disjunction is evaluated only
if the first one leaves the result open. -/
def Expr.eval (M : Meaning σ ε) : Expr → Effect σ ε Value
  | lit _ v => pure v
  | var _ name => do return M.read (← get) name
  | unary _ op e => do return op.fold (← e.eval M)
  | binary _ op l r => do
    let a ← l.eval M
    match op, a.toBool with
    | .and, false => return .bool false
    | .or, true => return .bool true
    | op, _ => M.apply op a (← r.eval M)
  | e => M.other e

/-! ## Static types -/

def StaticType.Admits (t : StaticType) (v : Value) : Prop := t = .unknown ∨ .ofValue v = t

namespace Meaning

/-- The variables hold what their static types say. -/
def Fits (M : Meaning σ ε) (vars : String → StaticType) (s : σ) : Prop :=
  ∀ name, (vars name).Admits (M.read s name)

/-- Expressions that are no operators agree with the static types, and so do the variables behind
them. -/
def Respects (M : Meaning σ ε) (vars : String → StaticType) : Prop :=
  ∀ e s, M.Fits vars s → M.Fits vars (M.other e s).2 ∧
    ∀ v, (M.other e s).1 = .ok v → (e.staticType vars).Admits v

end Meaning

theorem StaticType.Admits.int {v : Value} (h : StaticType.int.Admits v) : ∃ i, v = .int i := by
  rcases h with h | h
  · cases h
  · cases v <;> cases h
    exact ⟨_, rfl⟩

theorem StaticType.Admits.float {v : Value} (h : StaticType.float.Admits v) : ∃ f, v = .float f := by
  rcases h with h | h
  · cases h
  · cases v <;> cases h
    exact ⟨_, rfl⟩

/-- A value of a numeric type is an integer or a float, as the type says. -/
theorem StaticType.Admits.number {t : StaticType} {v : Value} (h : t.Admits v)
    (hn : t.isNumeric = true) : (t = .int ∧ ∃ i, v = .int i) ∨ (t = .float ∧ ∃ f, v = .float f) := by
  cases t with
  | unknown => cases hn
  | int => exact .inl ⟨rfl, h.int⟩
  | float => exact .inr ⟨rfl, h.float⟩

theorem combine_admits {onInt : Int64 → Int64 → Int64} {onFloat : Float → Float → Float}
    {lt rt : StaticType} {a b : Value} (ha : lt.Admits a) (hb : rt.Admits b) :
    (lt.combine rt).Admits (Value.numeric onInt onFloat a b) := by
  cases lt with
  | unknown => exact .inl rfl
  | int =>
    obtain ⟨i, rfl⟩ := ha.int
    cases rt with
    | unknown => exact .inl rfl
    | int =>
      obtain ⟨j, rfl⟩ := hb.int
      exact .inr rfl
    | float =>
      obtain ⟨g, rfl⟩ := hb.float
      exact .inr rfl
  | float =>
    obtain ⟨f, rfl⟩ := ha.float
    cases rt with
    | unknown => exact .inl rfl
    | int =>
      obtain ⟨j, rfl⟩ := hb.int
      exact .inr rfl
    | float =>
      obtain ⟨g, rfl⟩ := hb.float
      exact .inr rfl

theorem ofBinary_admits {op : ArithOp} {lt rt : StaticType} {a b v : Value} (ha : lt.Admits a)
    (hb : rt.Admits b) (h : Value.arith op a b = .ok v) :
    (StaticType.ofBinary (.arith op) lt rt).Admits v := by
  cases op with
  | add | sub | mul =>
    cases h
    exact combine_admits ha hb
  | div =>
    simp only [Value.arith] at h
    split at h
    · cases h
    · cases h
      rw [StaticType.ofBinary]
      split
      · exact .inr rfl
      · exact .inl rfl
  | mod =>
    simp only [Value.arith] at h
    split at h
    · cases h
    · cases h
      rw [StaticType.ofBinary]
      split
      · exact .inr rfl
      · exact .inl rfl

theorem ofUnary_admits {t : StaticType} {v : Value} (h : t.Admits v) :
    t.Admits v.negate ∧ t.Admits v.toNumber := by
  cases t with
  | unknown => exact ⟨.inl rfl, .inl rfl⟩
  | int =>
    obtain ⟨i, rfl⟩ := h.int
    exact ⟨.inr rfl, .inr rfl⟩
  | float =>
    obtain ⟨f, rfl⟩ := h.float
    exact ⟨.inr rfl, .inr rfl⟩

section Evaluation

variable {M : Meaning σ ε} {vars : String → StaticType} {s s' : σ} {e l r : Expr} {v : Value}

theorem Effect.bind_ok {α β : Type} {x : Effect σ ε α} {f : α → Effect σ ε β} {a : α}
    (h : x s = (.ok a, s')) : (x >>= f) s = f a s' := by
  simp only [bind, ExceptT.bind, ExceptT.mk, StateT.bind, h]
  rfl

theorem Effect.bind_error {α β : Type} {x : Effect σ ε α} {f : α → Effect σ ε β} {a : ε}
    (h : x s = (.error a, s')) : (x >>= f) s = (.error a, s') := by
  simp only [bind, ExceptT.bind, ExceptT.mk, StateT.bind, h]
  rfl

/-- An effect that keeps the variables to their types and gives a value of a type. -/
def Yields (M : Meaning σ ε) (vars : String → StaticType) (t : StaticType) (x : Effect σ ε Value)
    (s : σ) : Prop :=
  M.Fits vars (x s).2 ∧ ∀ v, (x s).1 = .ok v → t.Admits v

theorem yields_pure {t : StaticType} (hs : M.Fits vars s) (hv : t.Admits v) :
    Yields M vars t (pure v) s := by
  refine ⟨hs, fun w hw => ?_⟩
  cases hw
  exact hv

theorem yields_bind {t t' : StaticType} {x : Effect σ ε Value} {f : Value → Effect σ ε Value}
    (hx : Yields M vars t x s)
    (hf : ∀ a s', M.Fits vars s' → t.Admits a → Yields M vars t' (f a) s') :
    Yields M vars t' (x >>= f) s := by
  rcases hrun : x s with ⟨_ | a, s'⟩
  · rw [Yields, Effect.bind_error hrun]
    refine ⟨?_, fun v hv => nomatch hv⟩
    have := hx.1
    rwa [hrun] at this
  · rw [Yields, Effect.bind_ok hrun]
    rw [Yields, hrun] at hx
    exact hf a s' hx.1 (hx.2 a rfl)

theorem yields_apply {op : BinaryOp} {lt rt : StaticType} {a b : Value} (hs : M.Fits vars s)
    (ha : lt.Admits a) (hb : rt.Admits b) :
    Yields M vars (.ofBinary op lt rt) (M.apply op a b) s := by
  cases op with
  | arith op =>
    rw [Meaning.apply]
    split
    · rename_i v hv
      exact yields_pure hs (ofBinary_admits ha hb hv)
    · exact ⟨hs, fun v hv => nomatch hv⟩
  | _ => exact yields_pure hs (.inl rfl)

/-- Evaluation agrees with the static types. -/
theorem eval_admits (hM : M.Respects vars) (e : Expr) {s : σ} (hs : M.Fits vars s) :
    Yields M vars (e.staticType vars) (e.eval M) s := by
  fun_induction Expr.eval M e generalizing s with
  | case1 loc v => exact yields_pure hs (.inr rfl)
  | case2 loc name => exact yields_pure hs (hs name)
  | case3 loc op e ih =>
    refine yields_bind (ih hs) fun a s' hs' ha => yields_pure hs' ?_
    cases op with
    | minus => exact (ofUnary_admits ha).1
    | plus => exact (ofUnary_admits ha).2
    | not => exact .inl rfl
  | case4 loc op l r ihl ihr =>
    refine yields_bind (ihl hs) fun a s' hs' ha => ?_
    split
    · exact yields_pure hs' (.inl rfl)
    · exact yields_pure hs' (.inl rfl)
    · exact yields_bind (ihr hs') fun b s'' hs'' hb => yields_apply hs'' ha hb
  | case5 e => exact hM e s hs

/-- What an operator gives on constants is what it gives at run time. -/
theorem apply_fold {op : BinaryOp} {a b : Value} (h : op.fold a b = some v) :
    M.apply op a b = pure v := by
  cases op with
  | arith op =>
    rw [BinaryOp.fold] at h
    rw [Meaning.apply]
    cases hv : Value.arith op a b with
    | ok w =>
      rw [hv] at h
      cases h
      rfl
    | error =>
      rw [hv] at h
      cases h
  | _ =>
    cases h
    rfl

/-- A constant evaluates to its value and does nothing else. -/
theorem eval_constant (h : e.constant? = some v) : e.eval M = pure v := by
  fun_induction Expr.constant? e generalizing v with
  | case1 loc w =>
    cases h
    rfl
  | case2 loc op e ih =>
    obtain ⟨w, hw, rfl⟩ := Option.map_eq_some_iff.1 h
    rw [Expr.eval, ih hw, pure_bind]
  | case3 loc op l r a b hb ha ihl ihr =>
    rw [Expr.eval, ihl ha, pure_bind]
    split
    · rename_i hfalse
      cases h
      rw [hfalse, Bool.false_and]
    · rename_i htrue
      cases h
      rw [htrue, Bool.true_or]
    · rw [ihr hb, pure_bind]
      exact apply_fold h
  | case4 => cases h
  | case5 => cases h

/-! ## Operands -/

theorem eval_pure (h : e.isPure = true) (s : σ) : ∃ v, e.eval M s = (.ok v, s) := by
  cases e with
  | lit loc v => exact ⟨v, rfl⟩
  | var loc name => exact ⟨M.read s name, rfl⟩
  | _ => cases h

theorem eval_arith {loc : Location} {op : ArithOp} :
    (Expr.binary loc (.arith op) l r).eval M =
      l.eval M >>= fun a => r.eval M >>= fun b => M.apply (.arith op) a b := by
  rw [Expr.eval]

/-- An operation gives its left operand back. -/
theorem eval_left {loc : Location} {op : ArithOp} {c : Value} (hr : r.constant? = some c)
    (h : ∀ v s', l.eval M s = (.ok v, s') → Value.arith op v c = .ok v) :
    (Expr.binary loc (.arith op) l r).eval M s = l.eval M s := by
  rw [eval_arith, eval_constant hr]
  rcases hrun : l.eval M s with ⟨_ | v, s'⟩
  · rw [Effect.bind_error hrun]
  · rw [Effect.bind_ok hrun, pure_bind, Meaning.apply, h v s' hrun]
    rfl

/-- An operation gives its right operand back. -/
theorem eval_right {loc : Location} {op : ArithOp} {c : Value} (hl : l.constant? = some c)
    (h : ∀ v s', r.eval M s = (.ok v, s') → Value.arith op c v = .ok v) :
    (Expr.binary loc (.arith op) l r).eval M s = r.eval M s := by
  rw [eval_arith, eval_constant hl, pure_bind]
  rcases hrun : r.eval M s with ⟨_ | v, s'⟩
  · rw [Effect.bind_error hrun]
  · rw [Effect.bind_ok hrun, Meaning.apply, h v s' hrun]
    rfl

/-- An operation on operands without effects. -/
theorem eval_plain {loc : Location} {op : ArithOp} {a b v : Value} (hl : l.eval M s = (.ok a, s))
    (hr : r.eval M s = (.ok b, s)) (h : Value.arith op a b = .ok v) :
    (Expr.binary loc (.arith op) l r).eval M s = (.ok v, s) := by
  rw [eval_arith, Effect.bind_ok hl, Effect.bind_ok hr, Meaning.apply, h]
  rfl

end Evaluation

/-! ## Constants -/

section Constants

variable {M : Meaning σ ε} {vars : String → StaticType} {s : σ} {e : Expr}

theorem constant_admits (hM : M.Respects vars) (hs : M.Fits vars s) {v : Value}
    (h : e.constant? = some v) : (e.staticType vars).Admits v := by
  have hyields := (eval_admits hM e hs).2
  rw [eval_constant h] at hyields
  exact hyields v rfl

/-- A constant of static type Int that equals a small number is that number. -/
theorem constant_int (hM : M.Respects vars) (hs : M.Fits vars s) (ht : e.staticType vars = .int)
    {i : Int64} (hi : (Binary64.magnitude i).toNat < 2 ^ 53)
    (h : e.isConstant (Int64.nearestFloat i) = true) : e.constant? = some (.int i) := by
  unfold Expr.isConstant at h
  split at h
  · rename_i j hj
    rw [hj, Binary64.nearestFloat_inj hi h]
  · rename_i f hf
    have := constant_admits hM hs hf
    rw [ht] at this
    obtain ⟨i, hi⟩ := this.int
    cases hi
  · cases h

theorem constant_float (hM : M.Respects vars) (hs : M.Fits vars s)
    (ht : e.staticType vars = .float) {g : Float} (h : e.isConstant g = true) :
    ∃ f, e.constant? = some (.float f) ∧ (f == g) = true := by
  unfold Expr.isConstant at h
  split at h
  · rename_i j hj
    have := constant_admits hM hs hj
    rw [ht] at this
    obtain ⟨f, hf⟩ := this.float
    cases hf
  · rename_i f hf
    exact ⟨f, hf, h⟩
  · cases h

/-- A number of a static type that equals an integer. -/
def IsNumber (t : StaticType) (i : Int64) (c : Value) : Prop :=
  match t with
  | .unknown => False
  | .int => c = .int i
  | .float => ∃ f, c = .float f ∧ (f == Int64.nearestFloat i) = true

theorem constant_number (hM : M.Respects vars) (hs : M.Fits vars s)
    (ht : (e.staticType vars).isNumeric = true) {i : Int64}
    (hi : (Binary64.magnitude i).toNat < 2 ^ 53)
    (h : e.isConstant (Int64.nearestFloat i) = true) :
    ∃ c, e.constant? = some c ∧ IsNumber (e.staticType vars) i c := by
  cases hty : e.staticType vars with
  | unknown =>
    rw [hty] at ht
    cases ht
  | int => exact ⟨_, constant_int hM hs hty hi h, rfl⟩
  | float =>
    obtain ⟨f, hf, hbeq⟩ := constant_float hM hs hty h
    exact ⟨_, hf, f, rfl, hbeq⟩

end Constants

/-! ## Identities -/

section Identities

variable {t : StaticType} {c v : Value}

theorem arith_mul_one (hv : t.Admits v) (hc : IsNumber t 1 c) : Value.arith .mul v c = .ok v := by
  cases t with
  | unknown => exact hc.elim
  | int =>
    obtain ⟨i, rfl⟩ := hv.int
    obtain rfl : c = .int 1 := hc
    exact congrArg (fun j => Except.ok (Value.int j)) (Int64.mul_one i)
  | float =>
    obtain ⟨x, rfl⟩ := hv.float
    obtain ⟨f, rfl, hf⟩ := hc
    obtain rfl := Binary64.eq_one_of_beq hf
    exact congrArg (fun y => Except.ok (Value.float y)) (Binary64.mul_one x)

theorem arith_one_mul (hv : t.Admits v) (hc : IsNumber t 1 c) : Value.arith .mul c v = .ok v := by
  cases t with
  | unknown => exact hc.elim
  | int =>
    obtain ⟨i, rfl⟩ := hv.int
    obtain rfl : c = .int 1 := hc
    exact congrArg (fun j => Except.ok (Value.int j)) (Int64.one_mul i)
  | float =>
    obtain ⟨x, rfl⟩ := hv.float
    obtain ⟨f, rfl, hf⟩ := hc
    obtain rfl := Binary64.eq_one_of_beq hf
    exact congrArg (fun y => Except.ok (Value.float y))
      ((Binary64.mul_comm 1 x).trans (Binary64.mul_one x))

/-- A difference with zero is the other operand, but for that of two negative zeros. -/
theorem arith_sub_zero (hv : t.Admits v) (hc : IsNumber t 0 c) :
    Value.arith .sub v c = .ok v ∨
      c = .float (-0) ∧ v = .float (-0) ∧ Value.arith .sub v c = .ok (.float 0) := by
  cases t with
  | unknown => exact hc.elim
  | int =>
    obtain ⟨i, rfl⟩ := hv.int
    obtain rfl : c = .int 0 := hc
    exact .inl (congrArg (fun j => Except.ok (Value.int j)) (Int64.sub_zero i))
  | float =>
    obtain ⟨x, rfl⟩ := hv.float
    obtain ⟨f, rfl, hf⟩ := hc
    rcases Binary64.eq_zero_of_beq hf with rfl | rfl
    · exact .inl (congrArg (fun y => Except.ok (Value.float y)) (Binary64.sub_zero x))
    · by_cases hx : x = -0
      · subst hx
        exact .inr ⟨rfl, rfl, congrArg (fun y => Except.ok (Value.float y))
          Binary64.negZero_sub_negZero⟩
      · exact .inl (congrArg (fun y => Except.ok (Value.float y)) (Binary64.sub_negZero hx))

theorem arith_div_one {x f : Float} (hf : (f == 1) = true) :
    Value.arith .div (.float x) (.float f) = .ok (.float x) := by
  obtain rfl := Binary64.eq_one_of_beq hf
  exact congrArg (fun y => Except.ok (Value.float y)) (Binary64.div_one x)

/-- A product with the integer two is a sum. -/
theorem arith_mul_two (ht : t.isNumeric = true) (hv : t.Admits v) :
    Value.arith .mul v (.int 2) = Value.arith .add v v ∧
      Value.arith .mul (.int 2) v = Value.arith .add v v := by
  cases t with
  | unknown => cases ht
  | int =>
    obtain ⟨i, rfl⟩ := hv.int
    have hsum : i * 2 = i + i := by grind
    exact ⟨congrArg (fun j => Except.ok (Value.int j)) hsum,
      congrArg (fun j => Except.ok (Value.int j)) ((Int64.mul_comm 2 i).trans hsum)⟩
  | float =>
    obtain ⟨x, rfl⟩ := hv.float
    have hsum := Binary64.mul_two x
    exact ⟨congrArg (fun y => Except.ok (Value.float y)) hsum,
      congrArg (fun y => Except.ok (Value.float y)) ((Binary64.mul_comm 2 x).trans hsum)⟩

end Identities

/-! ## Simplification -/

section Simplified

variable {M : Meaning σ ε} {vars : String → StaticType} {s : σ} {l r : Expr} {how : Simplification}

theorem admits_of_eval (hM : M.Respects vars) (hs : M.Fits vars s) {e : Expr} {v : Value} {s' : σ}
    (h : e.eval M s = (.ok v, s')) : (e.staticType vars).Admits v :=
  (eval_admits hM e hs).2 v (by rw [h])

theorem int_of_eval (hM : M.Respects vars) (hs : M.Fits vars s) {e : Expr} {v : Value} {s' : σ}
    (ht : e.staticType vars = .int) (h : e.eval M s = (.ok v, s')) : ∃ i, v = .int i :=
  StaticType.Admits.int (ht ▸ admits_of_eval hM hs h)

theorem product_exact (hM : M.Respects vars) (hs : M.Fits vars s)
    (h : simplifyProduct (l.staticType vars) (r.staticType vars) l r = some how)
    (loc loc' : Location) : (how.expr loc' l r).eval M s =
      (Expr.binary loc (.arith .mul) l r).eval M s := by
  unfold simplifyProduct at h
  split_ifs at h with h₁ h₂ h₃ h₄ h₅ h₆ <;> cases h
  · -- one on the right
    obtain ⟨ht, hsame, hone⟩ := h₁
    obtain ⟨c, hc, hnum⟩ := constant_number hM hs (hsame ▸ ht) (i := 1) (by decide) hone
    rw [hsame] at hnum
    exact (eval_left hc fun v s' hv => arith_mul_one (admits_of_eval hM hs hv) hnum).symm
  · -- one on the left
    obtain ⟨ht, hone, hsame⟩ := h₂
    obtain ⟨c, hc, hnum⟩ := constant_number hM hs (hsame ▸ ht) (i := 1) (by decide) hone
    rw [hsame] at hnum
    exact (eval_right hc fun v s' hv => arith_one_mul (admits_of_eval hM hs hv) hnum).symm
  · -- zero on the right
    obtain ⟨hl, hr, hzero, hpure⟩ := h₃
    obtain ⟨v, hv⟩ := eval_pure (M := M) hpure s
    obtain ⟨i, rfl⟩ := int_of_eval hM hs hl hv
    have hc := constant_int hM hs hr (i := 0) (by decide) hzero
    refine (eval_plain hv (congrFun (eval_constant hc) s) ?_).symm
    exact congrArg (fun j => Except.ok (Value.int j)) (@Int64.mul_zero i)
  · -- zero on the left
    obtain ⟨hl, hr, hzero, hpure⟩ := h₄
    obtain ⟨v, hv⟩ := eval_pure (M := M) hpure s
    obtain ⟨i, rfl⟩ := int_of_eval hM hs hr hv
    have hc := constant_int hM hs hl (i := 0) (by decide) hzero
    refine (eval_plain (congrFun (eval_constant hc) s) hv ?_).symm
    exact congrArg (fun j => Except.ok (Value.int j)) (@Int64.zero_mul i)
  · -- two on the right
    obtain ⟨ht, hr, htwo, hpure⟩ := h₅
    obtain ⟨v, hv⟩ := eval_pure (M := M) hpure s
    have hc := constant_int hM hs hr (i := 2) (by decide) htwo
    have hsum := (arith_mul_two ht (admits_of_eval hM hs hv)).1
    exact (eval_plain hv hv rfl).trans (eval_plain hv (congrFun (eval_constant hc) s) hsum).symm
  · -- two on the left
    obtain ⟨ht, hl, htwo, hpure⟩ := h₆
    obtain ⟨v, hv⟩ := eval_pure (M := M) hpure s
    have hc := constant_int hM hs hl (i := 2) (by decide) htwo
    have hsum := (arith_mul_two ht (admits_of_eval hM hs hv)).2
    exact (eval_plain hv hv rfl).trans (eval_plain (congrFun (eval_constant hc) s) hv hsum).symm

theorem sum_exact (hM : M.Respects vars) (hs : M.Fits vars s)
    (h : simplify? vars (.arith .add) l r = some how) (loc loc' : Location) :
    (how.expr loc' l r).eval M s = (Expr.binary loc (.arith .add) l r).eval M s := by
  simp only [simplify?] at h
  split_ifs at h with h₁ h₂ <;> cases h
  · obtain ⟨hl, hr, hzero⟩ := h₁
    have hc := constant_int hM hs hr (i := 0) (by decide) hzero
    refine (eval_left hc fun v s' hv => ?_).symm
    obtain ⟨i, rfl⟩ := int_of_eval hM hs hl hv
    exact congrArg (fun j => Except.ok (Value.int j)) (Int64.add_zero i)
  · obtain ⟨hl, hr, hzero⟩ := h₂
    have hc := constant_int hM hs hl (i := 0) (by decide) hzero
    refine (eval_right hc fun v s' hv => ?_).symm
    obtain ⟨i, rfl⟩ := int_of_eval hM hs hr hv
    exact congrArg (fun j => Except.ok (Value.int j)) (Int64.zero_add i)

theorem quotient_exact (hM : M.Respects vars) (hs : M.Fits vars s)
    (h : simplify? vars (.arith .div) l r = some how) (loc loc' : Location) :
    (how.expr loc' l r).eval M s = (Expr.binary loc (.arith .div) l r).eval M s := by
  simp only [simplify?] at h
  split_ifs at h with h₁
  cases h
  obtain ⟨hl, hr, hone⟩ := h₁
  obtain ⟨f, hc, hf⟩ := constant_float hM hs hr hone
  refine (eval_left hc fun v s' hv => ?_).symm
  obtain ⟨x, rfl⟩ := StaticType.Admits.float (hl ▸ admits_of_eval hM hs hv)
  exact arith_div_one hf

/-- A simplified difference: of two negative zeros it has the other sign. -/
theorem difference_exact (hM : M.Respects vars) (hs : M.Fits vars s)
    (h : simplify? vars (.arith .sub) l r = some how) (loc loc' : Location) :
    (how.expr loc' l r).eval M s = (Expr.binary loc (.arith .sub) l r).eval M s ∨
      r.constant? = some (.float (-0)) ∧ ∃ s',
        (how.expr loc' l r).eval M s = (.ok (.float (-0)), s') ∧
          (Expr.binary loc (.arith .sub) l r).eval M s = (.ok (.float 0), s') := by
  simp only [simplify?] at h
  split_ifs at h with h₁
  cases h
  obtain ⟨ht, hsame, hzero⟩ := h₁
  obtain ⟨c, hc, hnum⟩ := constant_number hM hs (hsame ▸ ht) (i := 0) (by decide) hzero
  rw [hsame] at hnum
  by_cases hkeeps : ∀ v s', l.eval M s = (.ok v, s') → Value.arith .sub v c = .ok v
  · exact .inl (eval_left hc hkeeps).symm
  · simp only [not_forall] at hkeeps
    obtain ⟨v, s', hv, hne⟩ := hkeeps
    obtain ⟨rfl, rfl, hdiff⟩ := (arith_sub_zero (admits_of_eval hM hs hv) hnum).resolve_left hne
    refine .inr ⟨hc, s', hv, ?_⟩
    rw [eval_arith, eval_constant hc, Effect.bind_ok hv, pure_bind, Meaning.apply, hdiff]
    rfl

/-- **Simplification is exact, but for one sign.** Where an identity applies to an operation, what
takes its place has the same result, the same effects and the same faults; the only exception is a
negative zero from which the constant `-0.0` is subtracted. -/
theorem simplify?_exact (hM : M.Respects vars) (hs : M.Fits vars s) {op : BinaryOp}
    (h : simplify? vars op l r = some how) (loc loc' : Location) :
    (how.expr loc' l r).eval M s = (Expr.binary loc op l r).eval M s ∨
      op = .arith .sub ∧ r.constant? = some (.float (-0)) ∧ ∃ s',
        (how.expr loc' l r).eval M s = (.ok (.float (-0)), s') ∧
          (Expr.binary loc op l r).eval M s = (.ok (.float 0), s') := by
  cases op with
  | arith op =>
    cases op with
    | mul => exact .inl (product_exact hM hs h loc loc')
    | add => exact .inl (sum_exact hM hs h loc loc')
    | div => exact .inl (quotient_exact hM hs h loc loc')
    | sub => exact (difference_exact hM hs h loc loc').imp_right fun h => ⟨rfl, h⟩
    | mod => cases h
  | _ => cases h

end Simplified

/-- Every variable holds one value, and nothing but operators has a value. -/
def constantly (v : Value) : Meaning Unit Value.OperatorError where
  read _ _ := v
  fault := id
  other _ := throw .divisionByZero

theorem constantly_respects {vars : String → StaticType} (v : Value) (h : ∀ x, (vars x).Admits v) :
    (constantly v).Respects vars :=
  fun _ _ _ => ⟨h, fun _ hv => nomatch hv⟩

theorem simplify?_exact_double :
    (Simplification.doubleLeft.expr default (.var default "x") (.lit default (.int 2))).eval
        (constantly (.float 1.5)) () =
      (Expr.binary default (.arith .mul) (.var default "x") (.lit default (.int 2))).eval
        (constantly (.float 1.5)) () := by
  have hfits : ∀ x : String, ((fun _ => .float : String → StaticType) x).Admits (.float 1.5) :=
    fun _ => .inr rfl
  have h : simplify? (fun _ => .float) (.arith .mul) (.var default "x") (.lit default (.int 2)) =
      some .doubleLeft := rfl
  exact (simplify?_exact (constantly_respects _ hfits) hfits h default default).resolve_right
    fun hsub => nomatch hsub.1

/-- A negative zero from which `-0.0` is subtracted. -/
theorem simplify?_changes_sign :
    simplify? (fun _ => .float) (.arith .sub) (.var default "x") (.lit default (.float (-0))) =
        some .left ∧
      (Simplification.left.expr default (.var default "x") (.lit default (.float (-0)))).eval
          (constantly (.float (-0))) () ≠
        (Expr.binary default (.arith .sub) (.var default "x") (.lit default (.float (-0)))).eval
          (constantly (.float (-0))) () := by
  refine ⟨rfl, fun h => ?_⟩
  have hok := congrArg Prod.fst h
  have hsame : (-0 : Float) = -0 - -0 := Value.float.inj (Except.ok.inj hok)
  exact absurd (congrArg Float.toBits hsame) (by decide)

end HeapScript
