import HeapScript.Proofs.Compile.Computation
import HeapScript.Proofs.Library.ValueModel
import HeapScript.Proofs.Memory.Programs

/-!
# Folding is running

An expression whose leaves are literals has a value that the compiler can find, and it has code
that finds the value when it runs. Both are the same: the code of such an expression, folded or
not, leaves the record of the folded value and changes no variable.
-/

namespace HeapScript

open Library

/-- A scalar that the machine can hold. -/
def Value.Storable : Value → Prop
  | .str s => s.length < 2 ^ 31
  | .array .. | .object .. => False
  | _ => True

theorem Value.Storable.hasKey {v : Value} (h : v.Storable) : HasKey v := by
  cases v with
  | array | object => exact h.elim
  | _ => trivial

theorem UnaryOp.storable_fold (op : UnaryOp) (v : Value) : (op.fold v).Storable := by
  cases op with
  | not => trivial
  | plus =>
    unfold UnaryOp.fold
    rcases toNumber_cases v with ⟨i, hv⟩ | ⟨x, hv⟩ <;> simp [hv, Value.Storable]
  | minus =>
    unfold UnaryOp.fold Value.negate
    rcases toNumber_cases v with ⟨i, hv⟩ | ⟨x, hv⟩ <;> simp [hv, Value.Storable]

/-- The literals of an expression are scalars, and the strings that folding makes of them can be
held by the machine. -/
def Expr.Storable : Expr → Prop
  | .lit _ v => v.Storable
  | .unary _ _ e => e.Storable
  | .binary loc op l r =>
    l.Storable ∧ r.Storable ∧ ∀ v, (Expr.binary loc op l r).constant? = some v → v.Storable
  | _ => True

theorem Expr.Storable.value {e : Expr} {v : Value} (h : e.Storable) (hv : e.constant? = some v) :
    v.Storable := by
  cases e with
  | lit loc u =>
    cases hv
    exact h
  | unary loc op e =>
    obtain ⟨u, -, rfl⟩ := Option.map_eq_some_iff.1 hv
    exact op.storable_fold u
  | binary loc op l r => exact h.2.2 v hv
  | _ => cases hv

end HeapScript

namespace HeapScript.Compile

open Machine Machine.Processor Library Execution Gen
open Code (const32 const64 constF)

/-! ## Pieces of code -/

/-- How a value lies on the operand stack in a representation. -/
inductive Shows : Rep → Value → Trait → Prop
  | boxed (v : Value) : Shows .boxed v (.boxed v)
  | int (i : Int64) : Shows .int (.int i) (.exactly (.i64 i))
  | float (f : Float) : Shows .float (.float f) (.exactly (.f64 f))
  | bool (b : Bool) : Shows .bool (.bool b) (.truth b)

/-- A piece of code leaves a value in its representation. -/
def Piece.Leaves (l : Links) (D : Draft) (p : Piece) (v : Value) : Prop :=
  ∃ t, Shows p.rep v t ∧ Computes l D p.code [] [t]

section Pieces

variable {l : Links} {D : Draft}

theorem Stand.eq {h : Heap} {us vs : List Val} (hs : Stand h (us.map .exactly) vs) : vs = us := by
  unfold Stand at hs
  rw [List.forall₂_map_left_iff] at hs
  induction hs with
  | nil => rfl
  | cons hu _ ih => rw [hu, ih]

/-- Code that works on numbers only. -/
theorem computes_exactly {code : Code} (us : List Val) {v : Val}
    (hr : ∀ (m : Processor Output) a h w ls st rest conts Q,
      m.wp a rest conts Q ⟨h, w, ls, v :: st⟩ → m.wp a (code ++ rest) conts Q ⟨h, w, ls, us ++ st⟩) :
    Computes l D code (us.map .exactly) [.exactly v] := by
  refine computes_of_wp fun m a _ h w ls vs st hs => ⟨h, v, .refl h, rfl, ?_⟩
  obtain rfl := hs.eq
  exact hr m a h w ls st

theorem computes_const32 (b : Bool) : Computes l D (const32 (if b then 1 else 0)) [] [.truth b] := by
  refine computes_exactly [] fun m a h w ls st rest conts Q hq => ?_
  cases b <;> simpa using hq

theorem computes_const64 (i : Int64) : Computes l D (const64 i) [] [.exactly (.i64 i)] :=
  computes_exactly [] fun m a h w ls st rest conts Q hq => by simpa using hq

theorem computes_constF (x : Float) : Computes l D (constF x) [] [.exactly (.f64 x)] :=
  computes_exactly [] fun m a h w ls st rest conts Q hq => by simpa using hq

theorem computes_i32Eqz (b : Bool) : Computes l D [.i32Eqz] [.truth b] [.truth !b] :=
  computes_exactly [_] fun m a h w ls st rest conts Q hq => by simpa using hq

theorem computes_nonzeroInt (i : Int64) :
    Computes l D (const64 0 ++ [.i64Rel .ne]) [.exactly (.i64 i)] [.truth (Value.int i).toBool] :=
  computes_exactly [_] fun m a h w ls st rest conts Q hq => by simpa [Value.toBool] using hq

theorem computes_nonzeroFloat (x : Float) :
    Computes l D (constF 0 ++ [.f64Rel .ne]) [.exactly (.f64 x)] [.truth (Value.float x).toBool] :=
  computes_exactly [_] fun m a h w ls st rest conts Q hq => by simpa [Value.toBool] using hq

theorem extendU_flag (b : Bool) : extendU (flag b) = if b then 1 else 0 := by cases b <;> rfl

/-- Boxing makes the record of a number or truth value. -/
theorem computes_box {r : Rep} {v : Value} {t : Trait} (hs : Shows r v t) (hr : r ≠ .boxed)
    {slot : Nat} {k : SlotKind} (hslot : slot < D.layout.size)
    (hk : D.layout.kindOf? slot = some k) :
    Computes l D (Code.store slot ++ Code.boxLocal (boxTag r) slot r.valType) [t] [.boxed v] := by
  intro m a hm h w ls vs st hls hv
  have hlt : slot < ls.length := Nat.lt_of_lt_of_le hslot hls
  cases hs with
  | boxed => exact absurd rfl hr
  | int i =>
    obtain ⟨u, rfl, rfl⟩ := hv.one
    refine ⟨h.push (valueCell .int i 0 .null .null), ls.set slot (.i64 i), [.ref h.size], .push h _,
      .set hk ls _, .cons (.int (getElem?_push_size h _)) .nil, fun rest conts Q hq => ?_⟩
    simpa [Rep.valType, boxTag, hlt, hm.installed.value, valueCell] using hq
  | float x =>
    obtain ⟨u, rfl, rfl⟩ := hv.one
    refine ⟨h.push (valueCell .float 0 x .null .null), ls.set slot (.f64 x), [.ref h.size], .push h _,
      .set hk ls _, .cons (.float (getElem?_push_size h _)) .nil, fun rest conts Q hq => ?_⟩
    simpa [Rep.valType, boxTag, hlt, hm.installed.value, valueCell] using hq
  | bool b =>
    obtain ⟨u, rfl, rfl⟩ := hv.one
    refine ⟨h.push (valueCell .bool (if b then 1 else 0) 0 .null .null), ls.set slot _,
      [.ref h.size], .push h _, .set hk ls (.i32 (flag b)), .cons (.bool (getElem?_push_size h _)) .nil,
      fun rest conts Q hq => ?_⟩
    simpa [Rep.valType, boxTag, hlt, hm.installed.value, valueCell, extendU_flag] using hq

end Pieces

/-! ## Literals -/

section Literals

variable {l : Links} {D : Draft} {v : Value}

/-- A record made in place. -/
theorem computes_newValue {g : Tag} {i : Int64} {x : Float}
    (hv : ∀ h a, h[a]? = some (valueCell g i x .null .null) → Boxed h (.ref a) v) :
    Computes l D (Code.newValue g (const64 i) (constF x) Code.noBytes Code.noRef) [] [.boxed v] := by
  refine computes_of_wp fun m a hm h w ls vs st hs => ?_
  cases hs
  refine ⟨h.push (valueCell g i x .null .null), .ref h.size, .push h _,
    hv _ _ (getElem?_push_size h _), fun rest conts Q hq => ?_⟩
  have htag : Int32.ofInt g.code.toInt = g.code := Int32.ofInt_toInt _
  simpa [hm.installed.value, valueCell, htag] using hq

theorem computes_newNull : Computes l D (l.call .newNull) [] [.boxed .null] := by
  refine computes_call rfl fun m a hm h w vs Q hs hq => ?_
  cases hs
  exact newNull_calls hm.installed (hm.room.mono (Nat.le_refl _))
    (hq _ _ (.push h _) (.null (getElem?_push_size h _)))

/-- The record of a string constant. -/
theorem computes_string {s : Bytes} (hs : s.length < 2 ^ 31) {i : Nat}
    (hi : D.pool.strings[i]? = some s) :
    Computes l D (Code.bytesLiteral s.length i ++ l.call .newString) [] [.boxed (.str s)] := by
  have hbytes : Computes l D (Code.bytesLiteral s.length i) [] [.bytes s] := by
    refine computes_of_wp fun m a hm h w ls vs st hvs => ?_
    cases hvs
    obtain ⟨data, hdata, rfl⟩ := hm.strings i s hi
    exact ⟨_, .ref h.size, .push h _, ⟨_, rfl, getElem?_push_size h _⟩,
      fun rest conts Q hq => (wp_bytesLiteral hdata hs).2 hq⟩
  refine hbytes.trans (computes_call rfl fun m a hm h w vs Q hvs hq => ?_)
  obtain ⟨u, rfl, hu⟩ := hvs.one
  exact newString_calls hm.installed (hm.room.mono (Nat.le_refl _))
    (hq _ _ (.push h _) (.str (getElem?_push_size h _) (IsBytes.mono (.push h _) hu) hs))

theorem literal_leaves (c : Context) (hv : v.Storable) {best : Rep}
    (hb : best = .boxed ∨ best = .bool) :
    Makes (literal c v best) fun D p => p.Leaves c.links D v := by
  have hstr {s : Bytes} (hs : s.length < 2 ^ 31) : Makes (do
      return (⟨(← bytes s) ++ c.links.call .newString, .boxed⟩ : Piece))
      fun D p => p.Leaves c.links D (.str s) := by
    refine makes_bind (makes_bytes s) fun code d _ => makes_pure fun D hD => ?_
    obtain ⟨i, hi, rfl⟩ := hD
    exact ⟨_, .boxed _, computes_string hs hi⟩
  rcases hb with rfl | rfl
  · cases v with
    | null => exact makes_pure fun D => ⟨_, .boxed _, computes_newNull⟩
    | bool b => exact makes_pure fun D => ⟨_, .boxed _, computes_newValue fun _ _ => .bool⟩
    | int i => exact makes_pure fun D => ⟨_, .boxed _, computes_newValue fun _ _ => .int⟩
    | float x => exact makes_pure fun D => ⟨_, .boxed _, computes_newValue fun _ _ => .float⟩
    | str s => exact hstr hv
    | array | object => exact hv.elim
  · cases v with
    | null => exact makes_pure fun D => ⟨_, .boxed _, computes_newNull⟩
    | bool b => exact makes_pure fun D => ⟨_, .bool b, computes_const32 b⟩
    | int i => exact makes_pure fun D => ⟨_, .int i, computes_const64 i⟩
    | float x => exact makes_pure fun D => ⟨_, .float x, computes_constF x⟩
    | str s => exact hstr hv
    | array | object => exact hv.elim

end Literals

/-! ## Operands -/

section Operands

variable {c : Context} {o l r : Operand} {u v : Value}

/-- The code of an operand leaves a value, boxed or as a truth value. -/
structure Operand.Leaves (c : Context) (o : Operand) (v : Value) : Prop where
  nested : o.Restores false c o
  leaves : ∀ best, best = .boxed ∨ best = .bool →
    Makes (o.emit (.value best)) fun D p => p.Leaves c.links D v

/-- The record of a value. -/
theorem boxed_computes (ho : o.Leaves c v) :
    Makes (value c o .boxed) fun D code => Computes c.links D code [] [.boxed v] := by
  refine makes_bind (ho.leaves .boxed (.inl rfl)) fun p d hp => ?_
  obtain ⟨code, rep⟩ := p
  obtain ⟨t, ht, -⟩ := hp
  have hbox (hr : rep ≠ .boxed) : Makes (do return code ++ (← box rep)) fun D code' =>
      Piece.Leaves c.links D ⟨code, rep⟩ v → Computes c.links D code' [] [.boxed v] := by
    refine makes_bind (makes_box rep) fun made d _ => makes_pure fun D hD hp => ?_
    obtain ⟨slot, k, hslot, hk, rfl⟩ := hD
    obtain ⟨t, ht, hcode⟩ := hp
    exact hcode.trans (computes_box ht hr hslot hk)
  cases ht with
  | boxed =>
    refine makes_pure fun D hp => ?_
    obtain ⟨t, ht, hcode⟩ := hp
    cases ht
    exact hcode.trans (computes_nil _)
  | int | float | bool => exact hbox (by decide)

theorem computes_toBool {l : Links} {D : Draft} (v : Value) :
    Computes l D (l.call .toBool) [.boxed v] [.truth v.toBool] :=
  computes_unary rfl fun _ _ hm h _ _ _ hu hq =>
    toBool_calls hm.installed (hm.room.mono (Nat.le_refl _)) hu (hq _ h (.refl h) rfl)

theorem truth_computes (ho : o.Leaves c v) :
    Makes (value c o .bool) fun D code => Computes c.links D code [] [.truth v.toBool] := by
  refine makes_bind (ho.leaves .bool (.inr rfl)) fun p d hp => ?_
  obtain ⟨code, rep⟩ := p
  obtain ⟨t, ht, -⟩ := hp
  cases ht with
  | boxed | int | float | bool =>
    refine makes_pure fun D hp => ?_
    obtain ⟨t, ht, hcode⟩ := hp
    cases ht
    first
    | exact hcode.trans (computes_toBool v)
    | exact hcode.trans (computes_nonzeroInt _)
    | exact hcode.trans (computes_nonzeroFloat _)
    | exact hcode.trans (computes_nil _)

/-- The records of two values. -/
theorem both_computes (hl : l.Leaves c u) (hr : r.Leaves c v) :
    Makes (both c l r .boxed) fun D code => Computes c.links D code [] [.boxed v, .boxed u] :=
  makes_bind (boxed_computes hl) fun _ _ _ => makes_bind (boxed_computes hr) fun _ _ _ =>
    makes_pure fun _ hr hl => hl.trans (hr.above [.boxed u])

end Operands

/-! ## Operators -/

section Operators

variable {c : Context} {o l r : Operand} {u v : Value}

/-- An operator that asks for types learns nothing without optimization. -/
theorem makes_untyped {β : Type} (hc : c.optimize = false) {e e' : Expr}
    {f : StaticType → StaticType → Gen β} {P : Draft → β → Prop} (hf : Makes (f .unknown .unknown) P) :
    Makes (do let lt ← typeFor c e; let rt ← typeFor c e'; f lt rt) P := by
  refine makes_bind (makes_typeFor hc e) fun lt d hlt => makes_bind (makes_typeFor hc e')
    fun rt d' hrt => ?_
  subst hlt hrt
  exact makes_mono hf fun _ _ h _ _ => h

/-- An operator that calls a routine on the records of its operands. -/
theorem byRoutine_leaves (hl : l.Leaves c u) (hr : r.Leaves c v) {q : Routine} {rep : Rep}
    {z : Value} {t : Trait} (ht : Shows rep z t)
    (hq : ∀ D, Computes c.links D (c.links.call q) [.boxed v, .boxed u] [t]) :
    Makes (byRoutine c q rep l r) fun D p => p.Leaves c.links D z :=
  makes_bind (both_computes hl hr) fun _ _ _ => makes_pure fun D hD => ⟨t, ht, hD.trans (hq D)⟩

theorem computes_negatedIf {l : Links} {D : Draft} (negated b : Bool) :
    Computes l D (negatedIf negated) [.truth b] [.truth (bif negated then !b else b)] := by
  cases negated with
  | false => exact computes_nil _
  | true => exact computes_i32Eqz b

theorem arith_leaves (hc : c.optimize = false) (hl : l.Leaves c u) (hr : r.Leaves c v) {op : ArithOp}
    {z : Value} (hz : u.arith op v = .ok z) :
    Makes (combined c (.arith op) l r) fun D p => p.Leaves c.links D z := by
  have hroutine := byRoutine_leaves hl hr (.boxed z) fun D =>
    computes_binary (r := .arith op) rfl fun _ _ hm _ _ _ _ Q hu hv hq =>
      arith_calls hm.installed (hm.room.mono (Nat.le_refl _)) op hu hv
        (fun z' hz' => by cases hz.symm.trans hz'; exact hq)
        (fun he => by cases hz.symm.trans he)
  cases op with
  | add | sub | mul =>
    refine makes_untyped hc ?_
    rw [if_neg (by decide), if_neg (by decide)]
    exact hroutine
  | div | mod =>
    refine makes_untyped hc ?_
    rw [if_neg (by decide)]
    exact hroutine

theorem concat_leaves (hl : l.Leaves c u) (hr : r.Leaves c v) (hz : (u.concat v).Storable) :
    Makes (combined c .concat l r) fun D p => p.Leaves c.links D (u.concat v) :=
  byRoutine_leaves hl hr (.boxed _) fun _ => computes_binary rfl fun _ _ hm _ _ _ _ _ hu hv hq =>
    concat_calls hm.installed (hm.room.mono (Nat.le_refl _)) hu hv (fun _ => hq)
      fun hlong => by
        have hlen : (u.toBytes ++ v.toBytes).length < 2 ^ 31 := hz
        rw [List.length_append] at hlen
        omega

theorem order_leaves (hc : c.optimize = false) (hl : l.Leaves c u) (hr : r.Leaves c v) (op : OrderOp) :
    Makes (combined c (.order op) l r) fun D p => p.Leaves c.links D (.bool (u.compare op v)) := by
  refine makes_untyped hc ?_
  rw [if_neg (by decide)]
  exact byRoutine_leaves hl hr (.bool _) fun _ => computes_binary rfl fun _ _ hm h _ _ _ _ hu hv hq =>
    order_calls hm.installed (hm.room.mono (Nat.le_refl _)) op hu hv (hq _ h (.refl h) rfl)

theorem looseEquality_leaves (hc : c.optimize = false) (hl : l.Leaves c u) (hr : r.Leaves c v)
    (hu : u.Storable) (negated : Bool) : Makes (looseEquality c negated l r) fun D p =>
      p.Leaves c.links D (.bool (bif negated then !u.looseEq v else u.looseEq v)) := by
  refine makes_untyped hc ?_
  rw [if_neg (by decide), if_neg (by decide)]
  refine makes_bind (both_computes hl hr) fun _ _ _ => makes_pure fun D hD => ⟨_, .bool _, ?_⟩
  refine (hD.trans (computes_binary rfl fun _ _ hm h _ _ _ _ hu' hv hq => ?_)).trans
    (computes_negatedIf negated _)
  exact looseEq_calls hm.installed hm.room hu' hv (hu.hasKey.apart hu') (hq _ h (.refl h) rfl)

theorem strictEquality_leaves (hc : c.optimize = false) (hl : l.Leaves c u) (hr : r.Leaves c v)
    (hu : u.Storable) (negated : Bool) : Makes (strictEquality c negated l r) fun D p =>
      p.Leaves c.links D (.bool (bif negated then !u.strictEq v else u.strictEq v)) := by
  have hid : Makes (identity c l r) fun D code =>
      Computes c.links D code [] [.truth (u.strictEq v)] := by
    refine makes_untyped hc ?_
    rw [if_neg (by decide), if_neg (by decide), if_neg (by decide)]
    refine makes_bind (both_computes hl hr) fun _ _ _ => makes_pure fun D hD => hD.trans ?_
    refine computes_binary rfl fun _ _ hm h _ _ _ _ hu' hv hq => ?_
    exact strictEq_calls hm.installed (hm.room.mono (Nat.le_refl _)) hu' hv (hu.hasKey.apart hu')
      (hq _ h (.refl h) rfl)
  exact makes_bind hid fun _ _ _ => makes_pure fun D hD =>
    ⟨_, .bool _, hD.trans (computes_negatedIf negated _)⟩

/-- The right side of a conjunction runs only if the left one holds. -/
theorem conjunction_leaves (hl : l.Leaves c u) (hr : r.Leaves c v) :
    Makes (conjunction c l r) fun D p => p.Leaves c.links D (.bool (u.toBool && v.toBool)) := by
  refine makes_bind (truth_computes hl) fun left _ _ => makes_bind
    (makes_gives (truth_computes hr) (value_nests hr.nested _)) fun right _ _ =>
    makes_pure fun D hright hleft => ⟨_, .bool _, hleft.trans ?_⟩
  refine computes_choose hright.1 (by simp) ?_
  cases u.toBool with
  | false => exact computes_const32 false
  | true => exact hright.2

/-- The right side of a disjunction runs only if the left one does not hold. -/
theorem disjunction_leaves (hl : l.Leaves c u) (hr : r.Leaves c v) :
    Makes (disjunction c l r) fun D p => p.Leaves c.links D (.bool (u.toBool || v.toBool)) := by
  refine makes_bind (truth_computes hl) fun left _ _ => makes_bind
    (makes_gives (truth_computes hr) (value_nests hr.nested _)) fun right _ _ =>
    makes_pure fun D hright hleft => ⟨_, .bool _, hleft.trans ?_⟩
  refine computes_choose (by simp) hright.1 ?_
  cases u.toBool with
  | false => exact hright.2
  | true => exact computes_const32 true

/-- The code of a binary operator runs it. -/
theorem combined_leaves (hc : c.optimize = false) (hl : l.Leaves c u) (hr : r.Leaves c v)
    (hu : u.Storable) {op : BinaryOp} {z : Value} (hz : op.fold u v = some z) (hs : z.Storable) :
    Makes (combined c op l r) fun D p => p.Leaves c.links D z := by
  cases op with
  | arith op =>
    refine arith_leaves hc hl hr ?_
    change (u.arith op v).toOption = some z at hz
    cases h : u.arith op v with
    | ok z' =>
      rw [h] at hz
      exact congrArg Except.ok (Option.some.inj hz)
    | error =>
      rw [h] at hz
      cases hz
  | concat =>
    cases hz
    exact concat_leaves hl hr hs
  | order op =>
    cases hz
    exact order_leaves hc hl hr op
  | eq =>
    cases hz
    exact looseEquality_leaves hc hl hr hu false
  | ne =>
    cases hz
    exact looseEquality_leaves hc hl hr hu true
  | identical =>
    cases hz
    exact strictEquality_leaves hc hl hr hu false
  | notIdentical =>
    cases hz
    exact strictEquality_leaves hc hl hr hu true
  | and =>
    cases hz
    exact conjunction_leaves hl hr
  | or =>
    cases hz
    exact disjunction_leaves hl hr

/-- The code of a unary operator runs it. -/
theorem applied_leaves (hc : c.optimize = false) (ho : o.Leaves c v) (op : UnaryOp) :
    Makes (applied c op o) fun D p => p.Leaves c.links D (op.fold v) := by
  refine makes_bind (makes_typeFor hc o.expr) fun t d ht => ?_
  subst ht
  cases op with
  | not =>
    exact makes_bind (truth_computes ho) fun _ _ _ => makes_pure fun _ hD _ =>
      ⟨_, .bool _, hD.trans (computes_i32Eqz _)⟩
  | minus =>
    exact makes_bind (boxed_computes ho) fun _ _ _ => makes_pure fun _ hD _ =>
      ⟨_, .boxed _, hD.trans (computes_unary rfl fun _ _ hm _ _ _ _ hu hq =>
        negate_calls hm.installed (hm.room.mono (Nat.le_refl _)) hu hq)⟩
  | plus =>
    exact makes_bind (boxed_computes ho) fun _ _ _ => makes_pure fun _ hD _ =>
      ⟨_, .boxed _, hD.trans (computes_unary rfl fun _ _ hm _ _ _ _ hu hq =>
        toNumber_calls hm.installed (hm.room.mono (Nat.le_refl _)) hu hq)⟩

end Operators

/-! ## Expressions -/

section Expressions

variable {c : Context}

theorem constant_binary {loc : Location} {op : BinaryOp} {l r : Expr} {v : Value}
    (hv : (Expr.binary loc op l r).constant? = some v) :
    ∃ a b, l.constant? = some a ∧ r.constant? = some b ∧ op.fold a b = some v := by
  rw [Expr.constant?] at hv
  cases hl : l.constant? with
  | none =>
    rw [hl] at hv
    cases hv
  | some a =>
    cases hr : r.constant? with
    | none =>
      rw [hl, hr] at hv
      cases hv
    | some b =>
      rw [hl, hr] at hv
      exact ⟨a, b, rfl, rfl, hv⟩

/-- The code of an expression without variables runs its operators. -/
theorem emit_leaves (hc : c.optimize = false) :
    (e : Expr) → ∀ {v : Value}, e.constant? = some v → e.Storable → (operand c e).Leaves c v
  | .lit loc u, v, hv, he => by
    cases hv
    refine ⟨operand_restores c _, fun best hbest => ?_⟩
    rw [operand_emit, emit]
    exact literal_leaves c he hbest
  | .unary loc op e, v, hv, he => by
    obtain ⟨u, hu, rfl⟩ := Option.map_eq_some_iff.1 hv
    refine ⟨operand_restores c _, fun best hbest => ?_⟩
    rw [operand_emit, emit, unary, hc]
    exact applied_leaves hc (emit_leaves hc e hu he) op
  | .binary loc op l r, v, hv, he => by
    obtain ⟨a, b, ha, hb, hz⟩ := constant_binary hv
    refine ⟨operand_restores c _, fun best hbest => ?_⟩
    rw [operand_emit, emit, binary, hc]
    exact combined_leaves hc (emit_leaves hc l ha he.1) (emit_leaves hc r hb he.2.1)
      (he.1.value ha) hz (he.2.2 v hv)
  | .var .., _, hv, _ | .assign .., _, hv, _ | .incDec .., _, hv, _ | .ternary .., _, hv, _
  | .array .., _, hv, _ | .index .., _, hv, _ | .call .., _, hv, _ | .method .., _, hv, _
  | .create .., _, hv, _ | .prop .., _, hv, _ => nomatch hv

theorem fold_leaves (hc : c.optimize = true) {e : Expr} {v : Value} (hv : e.constant? = some v)
    (he : e.Storable) : (operand c e).Leaves c v := by
  refine ⟨operand_restores c e, fun best hbest => ?_⟩
  have hlit := literal_leaves c (he.value hv) hbest
  rw [operand_emit]
  cases e with
  | lit loc u =>
    cases hv
    rwa [emit]
  | unary loc op e =>
    rw [emit, unary, hc, if_pos rfl, hv]
    exact hlit
  | binary loc op l r =>
    rw [emit, binary, hc, if_pos rfl, hv]
    exact makes_bind (makes_note _) fun _ _ _ => makes_mono hlit fun _ _ h _ => h
  | _ => cases hv

/-- The code of an expression without variables leaves the record of its value. -/
theorem constant_computes (c : Context) {e : Expr} {v : Value} (hv : e.constant? = some v)
    (he : e.Storable) : Makes (value c (operand c e) .boxed) fun D code =>
      Computes c.links D code [] [.boxed v] := by
  refine boxed_computes ?_
  cases hc : c.optimize with
  | false => exact emit_leaves hc e hv he
  | true => exact fold_leaves hc hv he

/-- An expression that can be folded has code, with or without optimization, and in every function
that the draft becomes part of the code runs without a trap from every state. It leaves the record
of the folded value, and all variables as they are. -/
theorem constant_runs {c : Context} {e : Expr} {v : Value} (hv : e.constant? = some v)
    (he : e.Storable) {d : Draft} (hd : d.Proper) :
    ∃ code d', Runs (value c (operand c e) .boxed) d code d' ∧ d'.Proper ∧ d.Before d' ∧
      ∀ D m a, d'.Before D → D.Proper → D.Hosted c.links m a →
        ∀ h w ls st, D.layout.size ≤ ls.length →
          ∃ h' ls' r, m.Reaches a code ⟨h, w, ls, st⟩ ⟨h', w, ls', r :: st⟩ ∧ Extends h h' ∧
            Boxed h' r v ∧ ls'.length = ls.length ∧
            ∀ n y, D.vars.lookup n = some y → ls'[y.slot]? = ls[y.slot]? := by
  obtain ⟨code, d', hr, hd', hb, hcode⟩ := constant_computes c hv he d hd
  refine ⟨code, d', hr, hd', hb, fun D m a hD hproper hm h w ls st hls => ?_⟩
  obtain ⟨h', ls', vs, hext, hkeeps, hvs, hreach⟩ := hcode D hD m a hm h w ls [] st hls .nil
  obtain ⟨r, rfl, hbox⟩ := hvs.one
  exact ⟨h', ls', r, hreach, hext, hbox, hkeeps.length,
    fun n y hy => hkeeps.same _ (hproper.apart n y hy)⟩

end Expressions

/-! ## Compiled programs -/

/-- The strings of a session are the data segments of its module, with the same numbers. -/
theorem segments_of_compiled {p : Program} {o : Options} {c : Compiled}
    (hc : (Program.compile p o).outcome = .ok c) :
    (Program.session p o).pool.segments =
      (Program.session p o).pool.strings.toList.map (DataSegment.mk 0) := by
  have hown : ownStrings.map textBytes <+: (Program.session p o).pool.strings.toList := by
    refine List.prefix_iff_getElem?.2 fun i hi => ?_
    rw [Array.getElem?_toList]
    refine (session_checks hc).1.strings i _ ?_
    change (ownStrings.map textBytes).toArray[i]? = _
    rw [List.getElem?_toArray, List.getElem?_eq_getElem hi]
  obtain ⟨more, hmore⟩ := hown
  rw [Pool.segments, ← hmore, List.drop_left' (by rw [List.length_map])]

/-- The machine of a compiled program has what the code of its functions relies on. -/
theorem hosted_of_compiled {p : Program} {o : Options} {c : Compiled}
    (hc : (Program.compile p o).outcome = .ok c) : ∃ m, machineFor c 0 = .ok m ∧
      ∀ (D : Draft) (a : Act), D.pool.Within (Program.session p o).pool → a.depth ≤ 1996 →
        D.Hosted c.links m a := by
  obtain ⟨links, -, hm, hi⟩ := machine_of_compiled hc 0
  obtain ⟨-, -, -, ha⟩ := Program.compile_inv hc
  refine ⟨_, hm, fun D a hD hdepth => ⟨hi, .inr ?_, fun i s hs => ?_⟩⟩
  · change ((a.depth + 4 : Nat) : Int) ≤ 2000
    omega
  · refine ⟨⟨0, s⟩, ?_, rfl⟩
    change c.program.data[i]? = _
    rw [ha.data, segments_of_compiled hc, List.getElem?_toArray, List.getElem?_map,
      Array.getElem?_toList, hD.strings i s hs]
    rfl

/-- The remainder of the string `1`, written twice in a row, by -2. -/
def oddNumber : Expr :=
  .binary {} (.arith .mod) (.binary {} .concat (.lit {} (.str [49])) (.lit {} (.str [49])))
    (.unary {} .minus (.lit {} (.int 2)))

theorem oddNumber_storable : oddNumber.Storable := by
  have hone : Value.Storable (.str [49]) := show [49].length < 2 ^ 31 by decide
  refine ⟨⟨hone, hone, fun v hv => ?_⟩, trivial, fun v hv => ?_⟩
  · cases hv
    exact show [49, 49].length < 2 ^ 31 by decide
  · cases hv
    trivial

/-- A function without parameters of the program without statements. -/
def plainDraft : Draft := .start (Program.opening [] {}).pool #[] 0

/-- A context without optimization in that program. -/
def plainContext : Context where
  decls := Program.decls []
  links := Program.links []
  name := "f"
  optimize := false
  unroll := 0

/-- Without optimization the code of the expression finds its value when it runs. -/
theorem oddNumber_runs : oddNumber.constant? = some (.int 1) ∧
    ∃ c m code d, (Program.compile [] {}).outcome = .ok c ∧ machineFor c 0 = .ok m ∧
      Runs (value plainContext (operand plainContext oddNumber) .boxed) plainDraft code d ∧
      ∃ h ls r, m.Reaches ⟨"f", 0, 1⟩ code ⟨#[], #[], .replicate d.layout.size .null, []⟩
        ⟨h, #[], ls, [r]⟩ ∧ Boxed h r (.int 1) := by
  have hval : oddNumber.constant? = some (.int 1) := rfl
  obtain ⟨c, hc⟩ := compile_nothing
  obtain ⟨m, hm, hhost⟩ := hosted_of_compiled hc
  obtain ⟨-, -, -, ha⟩ := Program.compile_inv hc
  obtain ⟨code, d, hr, hd, hb, hall⟩ := constant_runs (c := plainContext) hval oddNumber_storable
    (d := plainDraft) (proper_start _ _ _)
  have hstrings : (step (value plainContext (operand plainContext oddNumber) .boxed)
      plainDraft).2.pool.strings = plainDraft.pool.strings := by decide +kernel
  have hhelpers : (step (value plainContext (operand plainContext oddNumber) .boxed)
      plainDraft).2.pool.helpers = plainDraft.pool.helpers := by decide +kernel
  have hlinks : plainContext.links = c.links := ha.base.symm
  have hhosted : d.Hosted plainContext.links m ⟨"f", 0, 1⟩ := by
    rw [hlinks]
    rw [hr] at hstrings hhelpers
    obtain ⟨hh, hs⟩ := (session_checks hc).1
    exact hhost d _ ⟨hhelpers ▸ hh, hstrings ▸ hs⟩ (by decide)
  obtain ⟨h, ls, r, hreach, -, hbox, -⟩ := hall d m _ (.refl d) hd hhosted #[] #[]
    (.replicate d.layout.size .null) [] (by simp)
  exact ⟨hval, c, m, code, d, hc, hm, hr, h, ls, r, hreach, hbox⟩

end HeapScript.Compile
