import HeapScript.Proofs.Analysis.Simplification
import HeapScript.Proofs.Compile.Constants

/-!
# Operators on numbers of known types

An operator on operands whose types are known to be numeric becomes a few instructions. Every other
operator calls a routine of the library on the records of its operands. Both ways give the same:
the instructions leave the value that the routine returns, and they stop the run where it does.
-/

namespace HeapScript.Machine.Processor

open Library

variable {ω : Type} {m : Processor ω} {a : Act} {code code' : List Instr} {c c' : Cfg ω}
  {heap : Heap} {host : ω}

/-- Code stops the run, whatever comes behind it. The heap may have grown by then. -/
def Stops (m : Processor ω) (a : Act) (code : List Instr) (c : Cfg ω) (heap : Heap) (host : ω) :
    Prop :=
  ∀ rest conts (Q : Post ω),
    (∀ f heap', Extends heap heap' → Q.trapped f .unreachable heap' host) →
      m.wp a (code ++ rest) conts Q c

theorem Reaches.stops (h : m.Reaches a code c c') (h' : m.Stops a code' c' heap host) :
    m.Stops a (code ++ code') c heap host := by
  intro rest conts Q hq
  rw [List.append_assoc]
  exact h _ _ _ (h' _ _ _ hq)

theorem Stops.append (h : m.Stops a code c heap host) (code' : List Instr) :
    m.Stops a (code ++ code') c heap host := by
  intro rest conts Q hq
  rw [List.append_assoc]
  exact h _ _ _ hq

end HeapScript.Machine.Processor

namespace HeapScript.Compile

open Machine Machine.Processor Library Execution Gen
open Code (load keep const32 const64 constF)

/-! ## Operations -/

inductive Operation where
  | binary (op : BinaryOp) (l r : Expr)
  | unary (op : UnaryOp) (e : Expr)

/-- A call of a routine on boxed operands, and what is done with its result. -/
structure Fallback where
  routine : Routine
  result : Rep
  negated : Bool

/-- The code of a call, behind that of the operands. -/
def Fallback.code (f : Fallback) (l : Links) : Code := l.call f.routine ++ negatedIf f.negated

theorem Fallback.code_plain (q : Routine) (r : Rep) (l : Links) :
    Fallback.code ⟨q, r, false⟩ l = l.call q := List.append_nil _

namespace Operation

/-- The operands, from left to right. -/
def operands : Operation → List Expr
  | binary _ l r => [l, r]
  | unary _ e => [e]

/-- The code of an operation as it stands. -/
def draft (c : Context) : Operation → Gen Piece
  | binary op l r => combined c op (operand c l) (operand c r)
  | unary op e => applied c op (operand c e)

/-- What an operation gives on the values of its operands, if it gives anything. -/
def result : Operation → List Value → Option Value
  | binary op _ _, [x, y] => op.fold x y
  | unary op _, [x] => some (op.fold x)
  | _, _ => none

/-- The library's way to run an operation on values of any kind. -/
def fallback? : Operation → Option Fallback
  | binary (.arith op) _ _ => some ⟨.arith op, .boxed, false⟩
  | binary (.order op) _ _ => some ⟨.order op, .bool, false⟩
  | binary .eq _ _ => some ⟨.looseEq, .bool, false⟩
  | binary .ne _ _ => some ⟨.looseEq, .bool, true⟩
  | binary .identical _ _ => some ⟨.strictEq, .bool, false⟩
  | binary .notIdentical _ _ => some ⟨.strictEq, .bool, true⟩
  | unary .minus _ => some ⟨.negate, .boxed, false⟩
  | unary .plus _ => some ⟨.toNumber, .boxed, false⟩
  | _ => none

/-- The types of operands for which the library is not called: numbers, and for a remainder only
integers. -/
def Native : Operation → List StaticType → Prop
  | binary (.arith .mod) _ _, ts => ∀ t ∈ ts, t = .int
  | _, ts => ∀ t ∈ ts, t.isNumeric = true

/-- The representation in which the instructions for an operation take their operands. An integer
is never identical to a float, so both are dropped then. -/
def takes : Operation → List StaticType → Rep
  | binary (.arith .div) _ _, _ | binary (.order _) _ _, _ => .float
  | binary .identical _ _, [lt, rt] | binary .notIdentical _ _, [lt, rt] =>
    if lt = rt then .ofType lt else .void
  | _, ts => if ts.all (· = .int) then .int else .float

end Operation

/-! ## Results -/

/-- What code works on, apart from the operand stack. -/
structure Scene where
  heap : Heap
  host : Output
  locals : List Val

/-- A configuration with an operand stack. -/
def Scene.cfg (s : Scene) (st : List Val) : Cfg Output := ⟨s.heap, s.host, s.locals, st⟩

/-- Code that is run in one scene leaves a result and another scene, or it stops the run if there is
no result. Only temporaries and new cells may differ from that scene. -/
def Delivers (D : Draft) (m : Processor Output) (a : Act) (code : Code) (rep : Rep)
    (z : Option Value) (s s' : Scene) (taken : List Val) : Prop :=
  ∀ st, match z with
  | some z => ∃ t h ls v, Shows rep z t ∧ t.holds h v ∧ Extends s'.heap h ∧ D.Keeps s'.locals ls ∧
      m.Reaches a code (s.cfg (taken ++ st)) ⟨h, s'.host, ls, v :: st⟩
  | none => m.Stops a code (s.cfg (taken ++ st)) s'.heap s'.host

section Results

variable {D : Draft} {m : Processor Output} {a : Act} {code code' : Code} {rep : Rep} {z : Value}
  {o : Option Value} {s s₁ s' : Scene} {taken taken' : List Val}

/-- Code that leads to where a result is delivered. -/
theorem Delivers.after (h : Delivers D m a code rep o s₁ s' taken')
    (hr : ∀ st, m.Reaches a code' (s.cfg (taken ++ st)) (s₁.cfg (taken' ++ st))) :
    Delivers D m a (code' ++ code) rep o s s' taken := by
  intro st
  have h := h st
  cases o with
  | none => exact (hr st).stops h
  | some z =>
    obtain ⟨t, H, ls, v, ht, hv, he, hk, hrun⟩ := h
    exact ⟨t, H, ls, v, ht, hv, he, hk, (hr st).trans hrun⟩

theorem Computes.delivers {l : Links} {ts : List Trait} {t : Trait} (hc : Computes l D code ts [t])
    (hm : D.Hosted l m a) (ht : Shows rep z t) (hls : D.layout.size ≤ s.locals.length)
    (hs : Stand s.heap ts taken) : Delivers D m a code rep (some z) s s taken := by
  intro st
  obtain ⟨h, ls, vs, he, hk, hvs, hr⟩ := hc m a hm s.heap s.host s.locals taken st hls hs
  obtain ⟨v, rfl, hv⟩ := hvs.one
  exact ⟨t, h, ls, v, ht, hv, he, hk, hr⟩

/-- Instructions that work on numbers only. -/
theorem delivers_exactly {v : Val} (ht : Shows rep z (.exactly v))
    (hr : ∀ (m : Processor Output) a h w ls st rest conts Q,
      m.wp a rest conts Q ⟨h, w, ls, v :: st⟩ →
        m.wp a (code ++ rest) conts Q ⟨h, w, ls, taken ++ st⟩) :
    Delivers D m a code rep (some z) s s taken :=
  fun st => ⟨_, s.heap, s.locals, v, ht, rfl, .refl _, .refl D _, hr m a s.heap s.host s.locals st⟩

end Results

/-! ## Calls of the library -/

section Calls

variable {c : Context} {D : Draft} {m : Processor Output} {a : Act} {s : Scene} {x y : Value}
  {u v : Val}

/-- The routine of an arithmetic operator returns the result, or it stops the run. -/
theorem arith_delivers (hm : D.Hosted c.links m a) (hls : D.layout.size ≤ s.locals.length)
    (op : ArithOp) (hu : Boxed s.heap u x) (hv : Boxed s.heap v y) :
    Delivers D m a (c.links.call (.arith op)) .boxed ((x.arith op y).toOption) s s [v, u] := by
  cases hz : x.arith op y with
  | ok z =>
    have hc : Computes c.links D (c.links.call (.arith op)) [.boxed y, .boxed x] [.boxed z] :=
      computes_binary rfl fun _ _ hm _ _ _ _ _ hu hv hq =>
        arith_calls hm.installed (hm.room.mono (Nat.le_refl _)) op hu hv
          (fun z' hz' => by cases hz.symm.trans hz'; exact hq) (fun he => by cases hz.symm.trans he)
    exact hc.delivers hm (.boxed z) hls (.cons hv (.cons hu .nil))
  | error e =>
    intro st rest conts Q hq
    refine (wp_call_routine hm.installed).2 ?_
    refine arith_calls hm.installed (hm.room.mono (Nat.le_refl _)) op hu hv
      (fun z hz' => by cases hz.symm.trans hz') fun _ h' he => hq _ h' he

/-- A comparison by a routine, negated or not. -/
theorem truth_delivers {q : Routine} {b : Bool} (hm : D.Hosted c.links m a)
    (hls : D.layout.size ≤ s.locals.length) (negated : Bool)
    (hq : Computes c.links D (c.links.call q) [.boxed y, .boxed x] [.truth b])
    (hu : Boxed s.heap u x) (hv : Boxed s.heap v y) :
    Delivers D m a (c.links.call q ++ negatedIf negated) .bool
      (some (.bool (bif negated then !b else b))) s s [v, u] :=
  (hq.trans (computes_negatedIf negated b)).delivers hm (.bool _) hls (.cons hv (.cons hu .nil))

/-- The library gives the result of an operation on records of values without parts. -/
theorem fallback_delivers (hm : D.Hosted c.links m a) (hls : D.layout.size ≤ s.locals.length)
    {o : Operation} {f : Fallback} (hf : o.fallback? = some f) {us : List Val} {xs : List Value}
    (hlen : xs.length = o.operands.length) (hkeys : ∀ x ∈ xs, HasKey x)
    (hus : List.Forall₂ (Boxed s.heap) us xs) :
    Delivers D m a (f.code c.links) f.result (o.result xs) s s us.reverse := by
  cases o with
  | binary op l r =>
    obtain ⟨x, y, rfl⟩ := List.length_eq_two.1 hlen
    obtain ⟨u, vs, hu, hvs, rfl⟩ := List.forall₂_cons_right_iff.1 hus
    obtain ⟨v, ws, hv, hws, rfl⟩ := List.forall₂_cons_right_iff.1 hvs
    obtain rfl := List.forall₂_nil_right_iff.1 hws
    have hx : HasKey x := hkeys x (by simp)
    have hloose : Computes c.links D (c.links.call .looseEq) [.boxed y, .boxed x]
        [.truth (x.looseEq y)] :=
      computes_binary rfl fun _ _ hm h _ _ _ _ hu hv hq =>
        looseEq_calls hm.installed hm.room hu hv (hx.apart hu) (hq _ h (.refl h) rfl)
    have hstrict : Computes c.links D (c.links.call .strictEq) [.boxed y, .boxed x]
        [.truth (x.strictEq y)] :=
      computes_binary rfl fun _ _ hm h _ _ _ _ hu hv hq =>
        strictEq_calls hm.installed (hm.room.mono (Nat.le_refl _)) hu hv (hx.apart hu)
          (hq _ h (.refl h) rfl)
    cases op with
    | arith op =>
      cases hf
      rw [Fallback.code_plain]
      exact arith_delivers hm hls op hu hv
    | order op =>
      cases hf
      refine truth_delivers hm hls false (computes_binary rfl fun _ _ hm h _ _ _ _ hu hv hq => ?_)
        hu hv
      exact order_calls hm.installed (hm.room.mono (Nat.le_refl _)) op hu hv (hq _ h (.refl h) rfl)
    | eq =>
      cases hf
      exact truth_delivers hm hls false hloose hu hv
    | ne =>
      cases hf
      exact truth_delivers hm hls true hloose hu hv
    | identical =>
      cases hf
      exact truth_delivers hm hls false hstrict hu hv
    | notIdentical =>
      cases hf
      exact truth_delivers hm hls true hstrict hu hv
    | concat | and | or => cases hf
  | unary op e =>
    obtain ⟨x, rfl⟩ := List.length_eq_one_iff.1 hlen
    obtain ⟨u, vs, hu, hvs, rfl⟩ := List.forall₂_cons_right_iff.1 hus
    obtain rfl := List.forall₂_nil_right_iff.1 hvs
    have hone {q : Routine} {z : Value}
        (hq : Computes c.links D (c.links.call q) [.boxed x] [.boxed z]) :
        Delivers D m a (c.links.call q) .boxed (some z) s s [u] :=
      hq.delivers hm (.boxed z) hls (.cons hu .nil)
    cases op with
    | minus =>
      cases hf
      rw [Fallback.code_plain]
      exact hone (computes_unary rfl fun _ _ hm _ _ _ _ hu hq =>
        negate_calls hm.installed (hm.room.mono (Nat.le_refl _)) hu hq)
    | plus =>
      cases hf
      rw [Fallback.code_plain]
      exact hone (computes_unary rfl fun _ _ hm _ _ _ _ hu hq =>
        toNumber_calls hm.installed (hm.room.mono (Nat.le_refl _)) hu hq)
    | not => cases hf

end Calls

/-! ## Operands -/

/-- How a number lies on the operand stack in a representation without a record. -/
def Rep.plain : Rep → Value → List Val
  | .int, x => [.i64 x.toInt]
  | .float, x => [.f64 x.toFloat]
  | _, _ => []

@[simp] theorem Rep.plain_int (i : Int64) : Rep.int.plain (.int i) = [.i64 i] := rfl

@[simp] theorem Rep.plain_float (x : Value) : Rep.float.plain x = [.f64 x.toFloat] := rfl

@[simp] theorem Rep.plain_void (x : Value) : Rep.void.plain x = [] := rfl

/-- Numbers on the operand stack, the last one on top. -/
def Rep.stacked (want : Rep) : List Value → List Val
  | [] => []
  | x :: xs => want.stacked xs ++ want.plain x

/-- The code of operands in order. Each runs once and is followed by a conversion. -/
inductive Operands (c : Context) (want : Rep) :
    List Operand → Draft → List Piece → Code → Draft → Prop
  | nil (d : Draft) : Operands c want [] d [] [] d
  | cons {o : Operand} {os : List Operand} {d d₁ d₂ d' : Draft} {p : Piece} {ps : List Piece}
    {conv code : Code} (hp : Runs (o.emit (.value want)) d p d₁)
    (hconv : Runs (convert c p.rep want) d₁ conv d₂) (hrest : Operands c want os d₂ ps code d') :
    Operands c want (o :: os) d (p :: ps) (p.code ++ conv ++ code) d'

/-- The code of an operand leads from one scene to another and leaves a value on whatever stack
there is: in the representation of the piece, or as it was asked for. -/
def Piece.Evaluates (m : Processor Output) (a : Act) (want : Rep) (p : Piece) (x : Value)
    (s s' : Scene) : Prop :=
  ∃ vs, (p.rep = want ∧ vs = want.plain x ∨ ∃ t v, Shows p.rep x t ∧ t.holds s'.heap v ∧ vs = [v]) ∧
    ∀ st, m.Reaches a p.code (s.cfg st) (s'.cfg (vs ++ st))

/-- Operands have values, found one after the other. -/
inductive Evaluated (m : Processor Output) (a : Act) (want : Rep) :
    List Piece → List Value → Scene → Scene → Prop
  | nil (s : Scene) : Evaluated m a want [] [] s s
  | cons {p : Piece} {ps : List Piece} {x : Value} {xs : List Value} {s s₁ s' : Scene}
    (hp : p.Evaluates m a want x s s₁) (hrest : Evaluated m a want ps xs s₁ s') :
    Evaluated m a want (p :: ps) (x :: xs) s s'

section Operands

variable {c : Context} {D d d' : Draft} {m : Processor Output} {a : Act} {want : Rep}
  {code : Code} {s s' : Scene}

/-- A conversion to a number leaves it, and one to nothing drops the operand. -/
theorem convert_reaches (hm : D.Hosted c.links m a)
    (hw : want = .int ∨ want = .float ∨ want = .void) {rep : Rep} {x : Value} {t : Trait} {v : Val}
    (ht : Shows rep x t) (hv : t.holds s.heap v) (hr : Runs (convert c rep want) d code d')
    (st : List Val) : m.Reaches a code (s.cfg (v :: st)) (s.cfg (want.plain x ++ st)) := by
  intro rest conts Q hq
  rcases hw with rfl | rfl | rfl
  · cases ht with
    | boxed =>
      obtain ⟨rfl, rfl⟩ := runs_pure.1 hr
      exact (wp_call_routine hm.installed).2
        (toInt_calls hm.installed (hm.room.mono (Nat.le_refl _)) hv hq)
    | int | float | bool =>
      obtain ⟨rfl, rfl⟩ := runs_pure.1 hr
      obtain rfl := hv
      simpa [Scene.cfg, Rep.plain, Value.toInt, Value.toNumber, extendU_flag] using hq
  · cases ht with
    | boxed =>
      obtain ⟨rfl, rfl⟩ := runs_pure.1 hr
      exact (wp_call_routine hm.installed).2
        (toFloat_calls hm.installed (hm.room.mono (Nat.le_refl _)) hv hq)
    | int | float | bool =>
      obtain ⟨rfl, rfl⟩ := runs_pure.1 hr
      obtain rfl := hv
      simpa [Scene.cfg, Rep.plain, Value.toFloat, Value.toNumber, extendU_flag] using hq
  · cases ht with
    | boxed | int | float | bool =>
      obtain ⟨rfl, rfl⟩ := runs_pure.1 hr
      simpa [Scene.cfg] using hq

/-- The code of operands leaves their values. -/
theorem Operands.reaches (hm : D.Hosted c.links m a)
    (hw : want = .int ∨ want = .float ∨ want = .void) {os : List Operand} {ps : List Piece}
    {xs : List Value} (ho : Operands c want os d ps code d') (he : Evaluated m a want ps xs s s')
    (st : List Val) : m.Reaches a code (s.cfg st) (s'.cfg (want.stacked xs ++ st)) := by
  -- by induction on the operands: each leaves its value on those of the operands before it
  induction ho generalizing xs s st with
  | nil =>
    cases he
    exact .refl _
  | @cons o os d d₁ d₂ d' p ps conv code hp hconv hrest ih =>
    cases he with
    | @cons _ _ x xs _ s₁ _ hp hrest =>
      obtain ⟨vs, hvs, hrun⟩ := hp
      have hx : m.Reaches a conv (s₁.cfg (vs ++ st)) (s₁.cfg (want.plain x ++ st)) := by
        rcases hvs with ⟨hrep, rfl⟩ | ⟨t, v, ht, hv, rfl⟩
        · unfold convert at hconv
          rw [if_pos hrep] at hconv
          obtain ⟨rfl, rfl⟩ := runs_pure.1 hconv
          exact .refl _
        · exact convert_reaches hm hw ht hv hconv st
      have hxs := ih hrest (want.plain x ++ st)
      rw [← List.append_assoc] at hxs
      exact ((hrun st).trans hx).trans hxs

theorem value_operands {o : Operand} (hr : Runs (value c o want) d code d') :
    ∃ ps, Operands c want [o] d ps code d' := by
  obtain ⟨p, d₁, hp, hr⟩ := runs_bind.1 hr
  obtain ⟨conv, d₂, hconv, hr⟩ := runs_bind.1 hr
  obtain ⟨rfl, rfl⟩ := runs_pure.1 hr
  exact ⟨[p], List.append_nil (p.code ++ conv) ▸ .cons hp hconv (.nil d₂)⟩

theorem both_operands {l r : Operand} (hr : Runs (both c l r want) d code d') :
    ∃ ps, Operands c want [l, r] d ps code d' := by
  obtain ⟨left, d₁, hleft, hr⟩ := runs_bind.1 hr
  obtain ⟨right, d₂, hright, hr⟩ := runs_bind.1 hr
  obtain ⟨rfl, rfl⟩ := runs_pure.1 hr
  obtain ⟨p, e, hp, hleft⟩ := runs_bind.1 hleft
  obtain ⟨conv, e', hconv, hleft⟩ := runs_bind.1 hleft
  obtain ⟨rfl, rfl⟩ := runs_pure.1 hleft
  obtain ⟨ps, hps⟩ := value_operands hright
  exact ⟨p :: ps, .cons hp hconv hps⟩

end Operands

/-! ## Instructions for numbers -/

def Inline (code : Code) : Prop := ∀ func, Instr.call func ∉ code

/-- The code of an operation runs its operands in the representation that it takes, perhaps above
an operand of its own, and then instructions that give the result. -/
def Applies (c : Context) (D : Draft) (m : Processor Output) (a : Act) (o : Operation)
    (ts : List StaticType) (d : Draft) (p : Piece) : Prop :=
  ∃ ps code d₁ before below after,
    Operands c (o.takes ts) (o.operands.map (operand c)) d ps code d₁ ∧
      p.code = before ++ code ++ after ∧ Inline before ∧ Inline after ∧
      (∀ (s : Scene) st, m.Reaches a before (s.cfg st) (s.cfg (below ++ st))) ∧
      ∀ xs (s : Scene), List.Forall₂ StaticType.Admits ts xs → D.layout.size ≤ s.locals.length →
        Delivers D m a after p.rep (o.result xs) s s ((o.takes ts).stacked xs ++ below)

/-- The code of an operation runs the records of its operands and then calls the library. -/
def Delegates (c : Context) (o : Operation) (d : Draft) (p : Piece) : Prop :=
  ∃ f ps code d₁, o.fallback? = some f ∧
    Operands c .boxed (o.operands.map (operand c)) d ps code d₁ ∧
      p = ⟨code ++ f.code c.links, f.result⟩

/-- The types of the operands decide between instructions and a call of the library. -/
def Drafted (c : Context) (D : Draft) (m : Processor Output) (a : Act) (o : Operation)
    (ts : List StaticType) (d : Draft) (p : Piece) : Prop :=
  o.Native ts ∧ Applies c D m a o ts d p ∨ ¬ o.Native ts ∧ Delegates c o d p

section Instructions

variable {c : Context} {E : Env} {D d d' d₁ : Draft} {m : Processor Output} {a : Act} {l r e : Expr}
  {lt rt t : StaticType} {p : Piece} {x y : Value} {s : Scene}

/-- An operator that asks for types works with those that are found. -/
theorem runs_typed {β : Type} {b : β} {f : StaticType → StaticType → Gen β}
    (hl : Runs (typeFor c l) d lt d) (hr : Runs (typeFor c r) d rt d)
    (h : Runs (do let lt ← typeFor c l; let rt ← typeFor c r; f lt rt) d b d') :
    Runs (f lt rt) d b d' := by
  obtain ⟨lt', d₁, hl', h⟩ := runs_bind.1 h
  cases hl.symm.trans hl'
  obtain ⟨rt', d₁, hr', h⟩ := runs_bind.1 h
  cases hr.symm.trans hr'
  exact h

theorem applies_binary {op : BinaryOp} (want : Rep) {code after : Code} {rep : Rep}
    (hw : (Operation.binary op l r).takes [lt, rt] = want)
    (ho : Runs (both c (operand c l) (operand c r) want) d code d₁) (hafter : Inline after)
    (hrun : ∀ x y (s : Scene), lt.Admits x → rt.Admits y → D.layout.size ≤ s.locals.length →
      Delivers D m a after rep (op.fold x y) s s (want.plain y ++ want.plain x)) :
    Applies c D m a (.binary op l r) [lt, rt] d ⟨code ++ after, rep⟩ := by
  obtain ⟨ps, hps⟩ := both_operands ho
  refine ⟨ps, code, d₁, [], [], after, hw.symm ▸ hps, rfl, by simp [Inline], hafter,
    fun s st => .refl _, fun xs s hxs hls => ?_⟩
  obtain ⟨x, ys, hx, hys, rfl⟩ := List.forall₂_cons_left_iff.1 hxs
  obtain ⟨y, zs, hy, hzs, rfl⟩ := List.forall₂_cons_left_iff.1 hys
  obtain rfl := List.forall₂_nil_left_iff.1 hzs
  rw [hw, List.append_nil]
  exact hrun x y s hx hy hls

theorem applies_unary {op : UnaryOp} (want : Rep) (before : Code) (below : List Val)
    {code after : Code} {rep : Rep} (hw : (Operation.unary op e).takes [t] = want)
    (ho : Runs (value c (operand c e) want) d code d₁) (hbefore : Inline before)
    (hafter : Inline after)
    (hbelow : ∀ (s : Scene) st, m.Reaches a before (s.cfg st) (s.cfg (below ++ st)))
    (hrun : ∀ x (s : Scene), t.Admits x →
      Delivers D m a after rep (some (op.fold x)) s s (want.plain x ++ below)) :
    Applies c D m a (.unary op e) [t] d ⟨before ++ code ++ after, rep⟩ := by
  obtain ⟨ps, hps⟩ := value_operands ho
  refine ⟨ps, code, d₁, before, below, after, hw.symm ▸ hps, rfl, hbefore, hafter, hbelow,
    fun xs s hxs _ => ?_⟩
  obtain ⟨x, ys, hx, hys, rfl⟩ := List.forall₂_cons_left_iff.1 hxs
  obtain rfl := List.forall₂_nil_left_iff.1 hys
  rw [hw]
  exact hrun x s hx

theorem delegates_binary {op : BinaryOp} {f : Fallback} {code : Code}
    (hf : (Operation.binary op l r).fallback? = some f)
    (ho : Runs (both c (operand c l) (operand c r) .boxed) d code d₁) :
    Delegates c (.binary op l r) d ⟨code ++ f.code c.links, f.result⟩ := by
  obtain ⟨ps, hps⟩ := both_operands ho
  exact ⟨f, ps, code, d₁, hf, hps, rfl⟩

theorem delegates_unary {op : UnaryOp} {q : Routine} {rep : Rep} {code : Code}
    (hf : (Operation.unary op e).fallback? = some ⟨q, rep, false⟩)
    (ho : Runs (value c (operand c e) .boxed) d code d₁) :
    Delegates c (.unary op e) d ⟨code ++ c.links.call q, rep⟩ := by
  obtain ⟨ps, hps⟩ := value_operands ho
  refine ⟨_, ps, code, d₁, hf, hps, ?_⟩
  rw [Fallback.code_plain]

theorem byRoutine_delegates {op : BinaryOp} {q : Routine} {rep : Rep}
    (hf : (Operation.binary op l r).fallback? = some ⟨q, rep, false⟩)
    (hr : Runs (byRoutine c q rep (operand c l) (operand c r)) d p d') :
    Delegates c (.binary op l r) d p := by
  obtain ⟨code, d₁, ho, hr⟩ := runs_bind.1 hr
  obtain ⟨rfl, rfl⟩ := runs_pure.1 hr
  have h := delegates_binary hf ho
  rwa [Fallback.code_plain] at h

theorem native_iff {op : BinaryOp} (hop : op ≠ .arith .mod) :
    (Operation.binary op l r).Native [lt, rt] ↔ lt.isNumeric = true ∧ rt.isNumeric = true := by
  unfold Operation.Native
  split
  · rename_i h
    cases h
    exact absurd rfl hop
  · simp

/-- The four kinds of pairs of numbers. -/
theorem numbers_cases (hx : lt.Admits x) (hy : rt.Admits y)
    (hn : lt.isNumeric = true ∧ rt.isNumeric = true) :
    (∃ i j, lt = .int ∧ rt = .int ∧ x = .int i ∧ y = .int j) ∨
      (∃ i g, lt = .int ∧ rt = .float ∧ x = .int i ∧ y = .float g) ∨
      (∃ f j, lt = .float ∧ rt = .int ∧ x = .float f ∧ y = .int j) ∨
      ∃ f g, lt = .float ∧ rt = .float ∧ x = .float f ∧ y = .float g := by
  rcases hx.number hn.1 with ⟨rfl, i, rfl⟩ | ⟨rfl, f, rfl⟩
  · rcases hy.number hn.2 with ⟨rfl, j, rfl⟩ | ⟨rfl, g, rfl⟩
    · exact .inl ⟨i, j, rfl, rfl, rfl, rfl⟩
    · exact .inr (.inl ⟨i, g, rfl, rfl, rfl, rfl⟩)
  · rcases hy.number hn.2 with ⟨rfl, j, rfl⟩ | ⟨rfl, g, rfl⟩
    · exact .inr (.inr (.inl ⟨f, j, rfl, rfl, rfl, rfl⟩))
    · exact .inr (.inr (.inr ⟨f, g, rfl, rfl, rfl, rfl⟩))

/-- Numbers that are not both integers are combined as floats. -/
theorem numeric_eq_float {onInt : Int64 → Int64 → Int64} {onFloat : Float → Float → Float}
    (hx : lt.Admits x) (hy : rt.Admits y) (hn : lt.isNumeric = true ∧ rt.isNumeric = true)
    (hmixed : ¬ (lt = .int ∧ rt = .int)) :
    Value.numeric onInt onFloat x y = .float (onFloat x.toFloat y.toFloat) := by
  rcases numbers_cases hx hy hn with ⟨i, j, rfl, rfl, rfl, rfl⟩ | ⟨i, g, rfl, rfl, rfl, rfl⟩ |
    ⟨f, j, rfl, rfl, rfl, rfl⟩ | ⟨f, g, rfl, rfl, rfl, rfl⟩
  · exact absurd ⟨rfl, rfl⟩ hmixed
  all_goals rfl

/-- Numbers that are not both integers are compared as floats. -/
theorem looseEq_eq_float (hx : lt.Admits x) (hy : rt.Admits y)
    (hn : lt.isNumeric = true ∧ rt.isNumeric = true) (hmixed : ¬ (lt = .int ∧ rt = .int)) :
    x.looseEq y = (x.toFloat == y.toFloat) := by
  rcases numbers_cases hx hy hn with ⟨i, j, rfl, rfl, rfl, rfl⟩ | ⟨i, g, rfl, rfl, rfl, rfl⟩ |
    ⟨f, j, rfl, rfl, rfl, rfl⟩ | ⟨f, g, rfl, rfl, rfl, rfl⟩
  · exact absurd ⟨rfl, rfl⟩ hmixed
  all_goals rfl

/-- Numbers of different types are not identical. -/
theorem strictEq_eq_false (hx : lt.Admits x) (hy : rt.Admits y)
    (hn : lt.isNumeric = true ∧ rt.isNumeric = true) (hmixed : lt ≠ rt) : x.strictEq y = false := by
  rcases numbers_cases hx hy hn with ⟨i, j, rfl, rfl, rfl, rfl⟩ | ⟨i, g, rfl, rfl, rfl, rfl⟩ |
    ⟨f, j, rfl, rfl, rfl, rfl⟩ | ⟨f, g, rfl, rfl, rfl, rfl⟩
  · exact absurd rfl hmixed
  · rfl
  · rfl
  · exact absurd rfl hmixed

/-- A sum, difference or product. -/
theorem numeric_drafted {op : ArithOp} (hop : op ≠ .div ∧ op ≠ .mod)
    (hlt : Runs (typeFor c l) d lt d) (hrt : Runs (typeFor c r) d rt d)
    (hr : Runs (numeric c op (operand c l) (operand c r)) d p d') :
    Drafted c D m a (.binary (.arith op) l r) [lt, rt] d p := by
  have hnative : (Operation.binary (.arith op) l r).Native [lt, rt] ↔ _ :=
    native_iff fun h => hop.2 (BinaryOp.arith.inj h)
  replace hr := runs_typed hlt hrt hr
  split at hr <;> rename_i hint
  · obtain ⟨rfl, rfl⟩ := hint
    obtain ⟨code, d₁, ho, hr⟩ := runs_bind.1 hr
    obtain ⟨rfl, rfl⟩ := runs_pure.1 hr
    refine .inl ⟨hnative.2 ⟨rfl, rfl⟩,
      applies_binary _ ?_ ho (by simp [Inline]) fun x y s hx hy _ => ?_⟩
    · cases op <;> simp_all [Operation.takes]
    · obtain ⟨i, rfl⟩ := hx.int
      obtain ⟨j, rfl⟩ := hy.int
      cases op with
      | add | sub | mul =>
        exact delivers_exactly (.int _) fun m a h w ls st rest conts Q hq => by
          simpa [arithInstr, I64Op.eval] using hq
      | div | mod => simp at hop
  split at hr <;> rename_i hnum
  · obtain ⟨code, d₁, ho, hr⟩ := runs_bind.1 hr
    obtain ⟨rfl, rfl⟩ := runs_pure.1 hr
    refine .inl ⟨hnative.2 hnum, applies_binary _ ?_ ho (by simp [Inline]) fun x y s hx hy _ => ?_⟩
    · cases op <;> simp_all [Operation.takes]
    · have hfold (f : Int64 → Int64 → Int64) (g : Float → Float → Float) :
          some (Value.numeric f g x y) = some (.float (g x.toFloat y.toFloat)) :=
        congrArg some (numeric_eq_float hx hy hnum hint)
      cases op with
      | add | sub | mul =>
        change Delivers D m a _ _ (some (Value.numeric _ _ x y)) s s _
        rw [hfold]
        exact delivers_exactly (.float _) fun m a h w ls st rest conts Q hq => by
          simpa [arithInstr, F64Op.eval] using hq
      | div | mod => simp at hop
  · exact .inr ⟨fun h => hnum (hnative.1 h), byRoutine_delegates rfl hr⟩

/-- A guarded division goes through a temporary. -/
theorem guarded_inv {rep : Rep} {test code : Code} {divide : Instr} (hd : d.Proper)
    (hr : Runs (guarded rep test divide) d code d') (hD : d'.Before D) :
    ∃ slot k, slot < D.layout.size ∧ D.layout.kindOf? slot = some k ∧
      code = keep slot ++ test ++ Code.when [.unreachable] ++ load slot ++ [divide] := by
  obtain ⟨slot, d₁, hslot, hr⟩ := runs_bind.1 hr
  obtain ⟨⟨⟩, d₂, hrelease, hr⟩ := runs_bind.1 hr
  obtain ⟨rfl, rfl⟩ := runs_pure.1 hr
  obtain ⟨rfl, rfl⟩ := runs_temp.1 hslot
  obtain ⟨hd₁, -⟩ := hd.allocate rep.slotKind
  obtain ⟨-, hb, -⟩ := release_types (D := d) _ _ _ _ hrelease hd₁
  have hkind := (allocate_kinds hd.temps rep.slotKind).1
  have htype := (hb.trans hD).slots _ _ (hd₁.temps _ _ hkind)
  exact ⟨_, _, lt_size_of_typeOf htype, (hb.trans hD).temps _ _ hkind, rfl⟩

theorem guarded_inline {rep : Rep} {test code : Code} {divide : Instr} (htest : Inline test)
    (hdivide : Inline [divide]) (hd : d.Proper) (hr : Runs (guarded rep test divide) d code d') :
    Inline code := by
  obtain ⟨slot, k, -, -, rfl⟩ := guarded_inv hd hr (.refl d')
  intro func
  have h := htest func
  have h' := hdivide func
  simp_all [keep, load, Code.when]

/-- A guarded division divides, or stops the run if the divisor is zero. -/
theorem guarded_delivers {rep rep' : Rep} {test code : Code} {divide : Instr} (hd : d.Proper)
    (hr : Runs (guarded rep test divide) d code d') (hD : d'.Before D)
    (hls : D.layout.size ≤ s.locals.length) {u v w : Val} {z : Value} (zero : Bool)
    (htest : ∀ h host ls st, m.Reaches a test ⟨h, host, ls, v :: st⟩
      ⟨h, host, ls, .i32 (flag zero) :: st⟩)
    (hdivide : zero = false → ∀ h host ls st, m.Reaches a [divide] ⟨h, host, ls, v :: u :: st⟩
      ⟨h, host, ls, w :: st⟩) (hz : Shows rep' z (.exactly w)) :
    Delivers D m a code rep' (bif zero then none else some z) s s [v, u] := by
  obtain ⟨slot, k, hslot, hk, rfl⟩ := guarded_inv hd hr hD
  have hlt : slot < s.locals.length := Nat.lt_of_lt_of_le hslot hls
  intro st
  -- the test takes the divisor from the stack, but the temporary still holds it
  have hkeep : m.Reaches a (keep slot ++ test) (s.cfg ([v, u] ++ st))
      ⟨s.heap, s.host, s.locals.set slot v, .i32 (flag zero) :: u :: st⟩ := by
    refine .trans (fun rest conts Q hq => ?_) (htest s.heap s.host (s.locals.set slot v) (u :: st))
    simpa [Scene.cfg, hlt] using hq
  cases zero with
  | true =>
    refine .append (.append (hkeep.stops fun rest conts Q hq => ?_) _) _
    simpa using hq a.func s.heap (.refl _)
  | false =>
    have hload : m.Reaches a (Code.when [.unreachable] ++ load slot)
        ⟨s.heap, s.host, s.locals.set slot v, .i32 (flag false) :: u :: st⟩
        ⟨s.heap, s.host, s.locals.set slot v, v :: u :: st⟩ := by
      intro rest conts Q hq
      simpa [hlt] using hq
    have hrun := (hkeep.trans hload).trans (hdivide rfl s.heap s.host (s.locals.set slot v) st)
    rw [← List.append_assoc] at hrun
    exact ⟨_, s.heap, _, w, hz, rfl, .refl _, .set hk s.locals v, hrun⟩

theorem quotient_drafted (hE : Serves E c D) (hd : d.Proper) (hD : d'.Before D)
    (hlt : Runs (typeFor c l) d lt d) (hrt : Runs (typeFor c r) d rt d)
    (hr : Runs (quotient c (operand c l) (operand c r)) d p d') :
    Drafted c D m a (.binary (.arith .div) l r) [lt, rt] d p := by
  replace hr := runs_typed hlt hrt hr
  split at hr <;> rename_i hnum
  · obtain ⟨code, d₁, ho, hr⟩ := runs_bind.1 hr
    obtain ⟨after, d₂, hafter, hr⟩ := runs_bind.1 hr
    obtain ⟨rfl, rfl⟩ := runs_pure.1 hr
    have hd₁ : d₁.Proper := (both_types hE (emit_types hE l) (emit_types hE r) _ _ _ _ ho hd).1
    refine .inl ⟨(native_iff (by decide)).2 hnum, applies_binary _ rfl ho
      (guarded_inline (by simp [Inline, constF]) (by simp [Inline]) hd₁ hafter)
      fun x y s _ _ hls => ?_⟩
    have hfold : BinaryOp.fold (.arith .div) x y =
        bif y.toFloat == 0 then none else some (.float (x.toFloat / y.toFloat)) := by
      change (if y.toFloat == 0 then _ else _ : Except _ _).toOption = _
      cases y.toFloat == 0 <;> rfl
    rw [hfold]
    refine guarded_delivers hd₁ hafter hD hls _ (fun h host ls st rest conts Q hq => ?_)
      (fun _ h host ls st rest conts Q hq => ?_) (.float _)
    · simpa [F64Rel.eval] using hq
    · simpa [F64Op.eval] using hq
  · exact .inr ⟨fun h => hnum ((native_iff (by decide)).1 h), byRoutine_delegates rfl hr⟩

theorem remainder_drafted (hE : Serves E c D) (hd : d.Proper) (hD : d'.Before D)
    (hlt : Runs (typeFor c l) d lt d) (hrt : Runs (typeFor c r) d rt d)
    (hr : Runs (remainder c (operand c l) (operand c r)) d p d') :
    Drafted c D m a (.binary (.arith .mod) l r) [lt, rt] d p := by
  have hnative : (Operation.binary (.arith .mod) l r).Native [lt, rt] ↔ lt = .int ∧ rt = .int := by
    simp [Operation.Native]
  replace hr := runs_typed hlt hrt hr
  split at hr <;> rename_i hint
  · have hw : (Operation.binary (.arith .mod) l r).takes [lt, rt] = .int := by
      simp [Operation.takes, hint]
    obtain ⟨code, d₁, ho, hr⟩ := runs_bind.1 hr
    obtain ⟨after, d₂, hafter, hr⟩ := runs_bind.1 hr
    obtain ⟨rfl, rfl⟩ := runs_pure.1 hr
    have hd₁ : d₁.Proper := (both_types hE (emit_types hE l) (emit_types hE r) _ _ _ _ ho hd).1
    refine .inl ⟨hnative.2 hint, applies_binary _ hw ho
      (guarded_inline (by simp [Inline]) (by simp [Inline]) hd₁ hafter) fun x y s _ _ hls => ?_⟩
    have hfold : BinaryOp.fold (.arith .mod) x y =
        bif y.toInt == 0 then none else some (.int (Value.remainder x.toInt y.toInt)) := by
      change (if y.toInt = 0 then _ else _ : Except _ _).toOption = _
      by_cases hy : y.toInt = 0 <;> simp [hy, Except.toOption, Bool.cond_eq_ite]
    rw [hfold]
    refine guarded_delivers hd₁ hafter hD hls _ (fun h host ls st rest conts Q hq => ?_)
      (fun hy h host ls st rest conts Q hq => ?_) (.int _)
    · simpa using hq
    · simp only [beq_eq_false_iff_ne] at hy
      simpa [I64Op.eval, hy, Value.remainder] using hq
  · exact .inr ⟨fun h => hint (hnative.1 h), byRoutine_delegates rfl hr⟩

theorem comparison_drafted {op : OrderOp} (hlt : Runs (typeFor c l) d lt d)
    (hrt : Runs (typeFor c r) d rt d)
    (hr : Runs (comparison c op (operand c l) (operand c r)) d p d') :
    Drafted c D m a (.binary (.order op) l r) [lt, rt] d p := by
  replace hr := runs_typed hlt hrt hr
  split at hr <;> rename_i hnum
  · obtain ⟨code, d₁, ho, hr⟩ := runs_bind.1 hr
    obtain ⟨rfl, rfl⟩ := runs_pure.1 hr
    refine .inl ⟨(native_iff (by simp)).2 hnum,
      applies_binary .float rfl ho (by simp [Inline]) fun x y s _ _ _ => ?_⟩
    refine delivers_exactly (.bool (x.compare op y)) fun m a h w ls st rest conts Q hq => ?_
    cases op <;> simpa [orderInstr, Value.compare] using hq
  · exact .inr ⟨fun h => hnum ((native_iff (by simp)).1 h), byRoutine_delegates rfl hr⟩

/-- Equality after conversion, or its negation. -/
theorem looseEquality_drafted {op : BinaryOp} (negated : Bool)
    (hop : op = bif negated then .ne else .eq) (hlt : Runs (typeFor c l) d lt d)
    (hrt : Runs (typeFor c r) d rt d)
    (hr : Runs (looseEquality c negated (operand c l) (operand c r)) d p d') :
    Drafted c D m a (.binary op l r) [lt, rt] d p := by
  have hnative : (Operation.binary op l r).Native [lt, rt] ↔ _ :=
    native_iff (by subst hop; cases negated <;> decide)
  have htakes : (Operation.binary op l r).takes [lt, rt] =
      if [lt, rt].all (· = .int) then .int else .float := by
    subst hop
    cases negated <;> rfl
  have hfold (x y : Value) : op.fold x y =
      some (.bool (bif negated then !x.looseEq y else x.looseEq y)) := by
    subst hop
    cases negated <;> rfl
  replace hr := runs_typed hlt hrt hr
  split at hr <;> rename_i hint
  · obtain ⟨rfl, rfl⟩ := hint
    obtain ⟨code, d₁, ho, hr⟩ := runs_bind.1 hr
    obtain ⟨rfl, rfl⟩ := runs_pure.1 hr
    refine .inl ⟨hnative.2 ⟨rfl, rfl⟩,
      applies_binary _ htakes ho (by simp [Inline]) fun x y s hx hy _ => ?_⟩
    obtain ⟨i, rfl⟩ := hx.int
    obtain ⟨j, rfl⟩ := hy.int
    rw [hfold, show Value.looseEq (.int i) (.int j) = (i == j) from rfl]
    refine delivers_exactly (.bool _) fun m a h w ls st rest conts Q hq => ?_
    cases negated <;> simpa [I64Rel.eval, bne] using hq
  split at hr <;> rename_i hnum
  · obtain ⟨code, d₁, ho, hr⟩ := runs_bind.1 hr
    obtain ⟨rfl, rfl⟩ := runs_pure.1 hr
    refine .inl ⟨hnative.2 hnum, applies_binary _ (htakes.trans (if_neg (by simpa using hint))) ho
      (by simp [Inline]) fun x y s hx hy _ => ?_⟩
    rw [hfold, looseEq_eq_float hx hy hnum hint]
    refine delivers_exactly (.bool _) fun m a h w ls st rest conts Q hq => ?_
    cases negated <;> simpa [F64Rel.eval, bne] using hq
  · obtain ⟨code, d₁, ho, hr⟩ := runs_bind.1 hr
    obtain ⟨rfl, rfl⟩ := runs_pure.1 hr
    rw [List.append_assoc]
    have hf : (Operation.binary op l r).fallback? = some ⟨.looseEq, .bool, negated⟩ := by
      subst hop
      cases negated <;> rfl
    exact .inr ⟨fun h => hnum (hnative.1 h), delegates_binary hf ho⟩

/-- Identity, or its negation. -/
theorem strictEquality_drafted {op : BinaryOp} (negated : Bool)
    (hop : op = bif negated then .notIdentical else .identical) (hlt : Runs (typeFor c l) d lt d)
    (hrt : Runs (typeFor c r) d rt d)
    (hr : Runs (strictEquality c negated (operand c l) (operand c r)) d p d') :
    Drafted c D m a (.binary op l r) [lt, rt] d p := by
  have hnative : (Operation.binary op l r).Native [lt, rt] ↔ _ :=
    native_iff (by subst hop; cases negated <;> decide)
  have hw : (Operation.binary op l r).takes [lt, rt] = if lt = rt then .ofType lt else .void := by
    subst hop
    cases negated <;> rfl
  -- the instructions find the identity of the operands, and it is negated behind them
  have happlies (want : Rep) {code after : Code} {d₁ : Draft} (hnum : lt.isNumeric ∧ rt.isNumeric)
      (hw : (Operation.binary op l r).takes [lt, rt] = want)
      (ho : Runs (both c (operand c l) (operand c r) want) d code d₁) (hafter : Inline after)
      (hrun : ∀ x y, lt.Admits x → rt.Admits y → ∀ (m : Processor Output) a h w ls st rest conts Q,
        m.wp a rest conts Q ⟨h, w, ls, .i32 (flag (x.strictEq y)) :: st⟩ →
          m.wp a (after ++ rest) conts Q ⟨h, w, ls, want.plain y ++ want.plain x ++ st⟩) :
      Drafted c D m a (.binary op l r) [lt, rt] d ⟨code ++ after ++ negatedIf negated, .bool⟩ := by
    refine .inl ⟨hnative.2 hnum, ?_⟩
    rw [List.append_assoc]
    have hinline : Inline (after ++ negatedIf negated) := by
      intro func
      have h := hafter func
      cases negated <;> simp_all [negatedIf]
    refine applies_binary _ hw ho hinline fun x y s hx hy _ => ?_
    have hfold : op.fold x y = some (.bool (bif negated then !x.strictEq y else x.strictEq y)) := by
      subst hop
      cases negated <;> rfl
    rw [hfold]
    refine delivers_exactly (.bool _) fun m a h w ls st rest conts Q hq => ?_
    rw [List.append_assoc]
    refine hrun x y hx hy m a h w ls st _ conts Q ?_
    cases negated <;> simpa [negatedIf] using hq
  obtain ⟨ident, d₀, hident, hr⟩ := runs_bind.1 hr
  obtain ⟨rfl, rfl⟩ := runs_pure.1 hr
  replace hident := runs_typed hlt hrt hident
  split at hident <;> rename_i hint
  · obtain ⟨rfl, rfl⟩ := hint
    obtain ⟨code, d₁, ho, hident⟩ := runs_bind.1 hident
    obtain ⟨rfl, rfl⟩ := runs_pure.1 hident
    refine happlies .int ⟨rfl, rfl⟩ hw ho (by simp [Inline])
      fun x y hx hy m a h w ls st rest conts Q hq => ?_
    obtain ⟨i, rfl⟩ := hx.int
    obtain ⟨j, rfl⟩ := hy.int
    rw [show Value.strictEq (.int i) (.int j) = (i == j) from rfl] at hq
    simpa using hq
  split at hident <;> rename_i hfloat
  · obtain ⟨rfl, rfl⟩ := hfloat
    obtain ⟨code, d₁, ho, hident⟩ := runs_bind.1 hident
    obtain ⟨rfl, rfl⟩ := runs_pure.1 hident
    refine happlies .float ⟨rfl, rfl⟩ hw ho (by simp [Inline])
      fun x y hx hy m a h w ls st rest conts Q hq => ?_
    obtain ⟨f, rfl⟩ := hx.float
    obtain ⟨g, rfl⟩ := hy.float
    rw [show Value.strictEq (.float f) (.float g) = (f == g) from rfl] at hq
    simpa [Value.toFloat, Value.toNumber] using hq
  split at hident <;> rename_i hnum
  · obtain ⟨code, d₁, ho, hident⟩ := runs_bind.1 hident
    obtain ⟨rfl, rfl⟩ := runs_pure.1 hident
    have hmixed : lt ≠ rt := by
      rintro rfl
      cases lt with
      | unknown => cases hnum.1
      | int => exact hint ⟨rfl, rfl⟩
      | float => exact hfloat ⟨rfl, rfl⟩
    refine happlies .void hnum (hw.trans (if_neg hmixed)) ho (by simp [Inline, const32])
      fun x y hx hy m a h w ls st rest conts Q hq => ?_
    rw [strictEq_eq_false hx hy hnum hmixed] at hq
    simpa using hq
  · obtain ⟨code, d₁, ho, hident⟩ := runs_bind.1 hident
    obtain ⟨rfl, rfl⟩ := runs_pure.1 hident
    rw [List.append_assoc]
    have hf : (Operation.binary op l r).fallback? = some ⟨.strictEq, .bool, negated⟩ := by
      subst hop
      cases negated <;> rfl
    exact .inr ⟨fun h => hnum (hnative.1 h), delegates_binary hf ho⟩

/-- A number lies on the stack as its type says, and it is a number already. -/
theorem plain_shows (hn : t.isNumeric = true) (hx : t.Admits x) :
    ∃ v, Shows (.ofType t) x (.exactly v) ∧ (Rep.ofType t).plain x = [v] ∧ x.toNumber = x := by
  rcases hx.number hn with ⟨rfl, i, rfl⟩ | ⟨rfl, f, rfl⟩
  · exact ⟨_, .int i, rfl, rfl⟩
  · exact ⟨_, .float f, rfl, rfl⟩

/-- A unary operator other than negation. -/
theorem applied_drafted {op : UnaryOp} (hop : op ≠ .not) (ht : Runs (typeFor c e) d t d)
    (hr : Runs (applied c op (operand c e)) d p d') : Drafted c D m a (.unary op e) [t] d p := by
  obtain ⟨t', d₁, ht', hr⟩ := runs_bind.1 hr
  cases ht.symm.trans ht'
  have hnative : (Operation.unary op e).Native [t] ↔ t.isNumeric = true := by
    simp [Operation.Native]
  cases op with
  | not => exact absurd rfl hop
  | minus =>
    cases t with
    | unknown =>
      obtain ⟨code, d₁, ho, hr⟩ := runs_bind.1 hr
      obtain ⟨rfl, rfl⟩ := runs_pure.1 hr
      exact .inr ⟨fun h => (by cases hnative.1 h), delegates_unary rfl ho⟩
    | int =>
      obtain ⟨code, d₁, ho, hr⟩ := runs_bind.1 hr
      obtain ⟨rfl, rfl⟩ := runs_pure.1 hr
      refine .inl ⟨hnative.2 rfl, applies_unary .int _ [.i64 0] rfl ho
        (by simp [Inline, const64]) (by simp [Inline]) (fun s st rest conts Q hq => ?_)
        fun x s hx => ?_⟩
      · simpa [Scene.cfg] using hq
      · obtain ⟨i, rfl⟩ := hx.int
        refine delivers_exactly (.int (0 - i)) fun m a h w ls st rest conts Q hq => ?_
        simpa [I64Op.eval] using hq
    | float =>
      obtain ⟨code, d₁, ho, hr⟩ := runs_bind.1 hr
      obtain ⟨rfl, rfl⟩ := runs_pure.1 hr
      refine .inl ⟨hnative.2 rfl, applies_unary .float [] [] rfl ho
        (by simp [Inline]) (by simp [Inline]) (fun s st => .refl _) fun x s hx => ?_⟩
      obtain ⟨f, rfl⟩ := hx.float
      refine delivers_exactly (.float (-f)) fun m a h w ls st rest conts Q hq => ?_
      simpa [Value.toFloat, Value.toNumber] using hq
  | plus =>
    cases t with
    | unknown =>
      obtain ⟨code, d₁, ho, hr⟩ := runs_bind.1 hr
      obtain ⟨rfl, rfl⟩ := runs_pure.1 hr
      exact .inr ⟨fun h => (by cases hnative.1 h), delegates_unary rfl ho⟩
    | int | float =>
      obtain ⟨code, d₁, ho, hr⟩ := runs_bind.1 hr
      obtain ⟨rfl, rfl⟩ := runs_pure.1 hr
      rw [← List.append_nil code]
      refine .inl ⟨hnative.2 rfl, applies_unary (.ofType _) [] [] rfl ho
        (by simp [Inline]) (by simp [Inline]) (fun s st => .refl _) fun x s hx => ?_⟩
      obtain ⟨v, hv, hplain, hnumber⟩ := plain_shows rfl hx
      rw [List.append_nil, hplain, UnaryOp.fold, hnumber]
      exact delivers_exactly hv fun m a h w ls st rest conts Q hq => hq

end Instructions

/-! ## Agreement -/

section Agreement

variable {c : Context} {E : Env} {D d d' : Draft} {m : Processor Output} {a : Act} {o : Operation}
  {ts : List StaticType} {p : Piece}

/-- An operation with a routine of the library becomes instructions or a call. -/
theorem draft_drafted (hE : Serves E c D) (hd : d.Proper) (hD : d'.Before D) {f : Fallback}
    (hf : o.fallback? = some f)
    (hts : List.Forall₂ (fun e t => Runs (typeFor c e) d t d) o.operands ts)
    (hr : Runs (o.draft c) d p d') : Drafted c D m a o ts d p := by
  cases o with
  | binary op l r =>
    obtain ⟨lt, us, hlt, hus, rfl⟩ := List.forall₂_cons_left_iff.1 hts
    obtain ⟨rt, vs, hrt, hvs, rfl⟩ := List.forall₂_cons_left_iff.1 hus
    obtain rfl := List.forall₂_nil_left_iff.1 hvs
    cases op with
    | arith op =>
      cases op with
      | add | sub | mul => exact numeric_drafted (by decide) hlt hrt hr
      | div => exact quotient_drafted hE hd hD hlt hrt hr
      | mod => exact remainder_drafted hE hd hD hlt hrt hr
    | order op => exact comparison_drafted hlt hrt hr
    | eq => exact looseEquality_drafted false rfl hlt hrt hr
    | ne => exact looseEquality_drafted true rfl hlt hrt hr
    | identical => exact strictEquality_drafted false rfl hlt hrt hr
    | notIdentical => exact strictEquality_drafted true rfl hlt hrt hr
    | concat | and | or => cases hf
  | unary op e =>
    obtain ⟨t, us, ht, hus, rfl⟩ := List.forall₂_cons_left_iff.1 hts
    obtain rfl := List.forall₂_nil_left_iff.1 hus
    refine applied_drafted ?_ ht hr
    rintro rfl
    cases hf

theorem Operation.Native.numeric (hn : o.Native ts) : ∀ t ∈ ts, t.isNumeric = true := by
  unfold Operation.Native at hn
  split at hn
  · intro t ht
    rw [hn t ht]
    rfl
  · exact hn

/-- Operands of numeric types are taken as numbers or dropped. -/
theorem Operation.Native.takes (hn : o.Native ts) :
    o.takes ts = .int ∨ o.takes ts = .float ∨ o.takes ts = .void := by
  have hident {lt rt : StaticType} (h : ∀ t ∈ [lt, rt], t.isNumeric = true) {w : Rep}
      (hw : w = if lt = rt then .ofType lt else .void) : w = .int ∨ w = .float ∨ w = .void := by
    have hlt := h lt (by simp)
    subst hw
    split
    · cases lt with
      | unknown => cases hlt
      | int => exact .inl rfl
      | float => exact .inr (.inl rfl)
    · exact .inr (.inr rfl)
  have hnum := hn.numeric
  unfold Operation.takes
  split
  · exact .inr (.inl rfl)
  · exact .inr (.inl rfl)
  · exact hident hnum rfl
  · exact hident hnum rfl
  · split
    · exact .inl rfl
    · exact .inr (.inl rfl)

theorem hasKey_of_admits {xs : List Value} (hn : ∀ t ∈ ts, t.isNumeric = true)
    (hxs : List.Forall₂ StaticType.Admits ts xs) : ∀ x ∈ xs, HasKey x := by
  induction hxs with
  | nil => simp
  | @cons t x ts xs hx _ ih =>
    refine List.forall_mem_cons.2 ⟨?_, ih fun t ht => hn t (List.mem_cons_of_mem _ ht)⟩
    rcases hx.number (hn t List.mem_cons_self) with ⟨-, i, rfl⟩ | ⟨-, f, rfl⟩
    · trivial
    · trivial

/-- An operation whose operands have numeric types becomes instructions that call nothing, around
the code of its operands, which runs once and from left to right. Whatever the operands do and
whichever values of their types they leave, the whole leaves the value that the library gives on
records of the same values, and it stops the run if the library does. For all other types the
library is called on the records of the operands. -/
theorem specialized_operations_agree (hE : Serves E c D) (hm : D.Hosted c.links m a)
    (hd : d.Proper) (hD : d'.Before D) {f : Fallback} (hf : o.fallback? = some f)
    (hts : List.Forall₂ (fun e t => Runs (typeFor c e) d t d) o.operands ts)
    (hr : Runs (o.draft c) d p d') :
    (o.Native ts → ∃ ps code d₁ before after,
      Operands c (o.takes ts) (o.operands.map (operand c)) d ps code d₁ ∧
      p.code = before ++ code ++ after ∧ Inline before ∧ Inline after ∧
      ∀ xs s s', List.Forall₂ StaticType.Admits ts xs → D.layout.size ≤ s'.locals.length →
        Evaluated m a (o.takes ts) ps xs s s' →
          Delivers D m a p.code p.rep (o.result xs) s s' [] ∧
          ∀ us, List.Forall₂ (Boxed s'.heap) us xs →
            Delivers D m a (f.code c.links) f.result (o.result xs) s' s' us.reverse) ∧
    (¬ o.Native ts → ∃ ps code d₁, Operands c .boxed (o.operands.map (operand c)) d ps code d₁ ∧
      p = ⟨code ++ f.code c.links, f.result⟩) := by
  have hdrafted : Drafted c D m a o ts d p := draft_drafted hE hd hD hf hts hr
  constructor
  · intro hn
    obtain ⟨-, ps, code, d₁, before, below, after, ho, hp, hbefore, hafter, hbelow, hrun⟩ :=
      hdrafted.resolve_right fun h => h.1 hn
    refine ⟨ps, code, d₁, before, after, ho, hp, hbefore, hafter, fun xs s s' hxs hls heval =>
      ⟨?_, fun us hus => ?_⟩⟩
    · rw [hp]
      refine (hrun xs s' hxs hls).after fun st => (hbelow s st).trans ?_
      rw [List.append_assoc]
      exact ho.reaches hm hn.takes heval (below ++ st)
    · exact fallback_delivers hm hls hf (hxs.length_eq.symm.trans hts.length_eq.symm)
        (hasKey_of_admits hn.numeric hxs) hus
  · intro hn
    obtain ⟨-, f', ps, code, d₁, hf', ho, hp⟩ := hdrafted.resolve_left fun h => hn h.1
    obtain rfl := Option.some.inj (hf.symm.trans hf')
    exact ⟨ps, code, d₁, ho, hp⟩

end Agreement

/-! ### The lowest integer -/

/-- A context with optimization in the program without statements. -/
def optimizingContext : Context := { plainContext with optimize := true }

/-- The remainder of the lowest integer by -1. -/
def lowestRemainder : Operation :=
  .binary (.arith .mod) (.lit {} (.int Int64.minValue)) (.lit {} (.int (-1)))

/-- Records of the lowest integer and of -1. -/
def lowestRecords : Heap :=
  #[valueCell .int Int64.minValue 0 .null .null, valueCell .int (-1) 0 .null .null]

/-- The code of an integer leaves it. -/
theorem integer_evaluates {c : Context} {loc : Location} {i : Int64} {d d' : Draft} {p : Piece}
    (hr : Runs ((operand c (.lit loc (.int i))).emit (.value .int)) d p d') (m : Processor Output)
    (a : Act) (s : Scene) : p.Evaluates m a .int (.int i) s s := by
  rw [operand_emit, emit] at hr
  obtain ⟨rfl, rfl⟩ := runs_pure.1 hr
  refine ⟨[.i64 i], .inl ⟨rfl, rfl⟩, fun st rest conts Q hq => ?_⟩
  simpa [Scene.cfg] using hq

/-- With optimization the remainder is found by instructions, and both they and the library find
that it is 0. -/
theorem lowest_remainder_agrees : ∃ c m p d, (Program.compile [] {}).outcome = .ok c ∧
    machineFor c 0 = .ok m ∧ Runs (lowestRemainder.draft optimizingContext) plainDraft p d ∧
    (∃ h ls, m.Reaches ⟨"f", 0, 1⟩ p.code ⟨lowestRecords, #[], [.null], []⟩
      ⟨h, #[], ls, [.i64 0]⟩) ∧
    ∃ h ls r, Boxed h r (.int 0) ∧ m.Reaches ⟨"f", 0, 1⟩ (c.links.call (.arith .mod))
      ⟨lowestRecords, #[], [.null], [.ref 1, .ref 0]⟩ ⟨h, #[], ls, [r]⟩ := by
  obtain ⟨c, hc⟩ := compile_nothing
  obtain ⟨m, hm, hhost⟩ := hosted_of_compiled hc
  obtain ⟨-, -, -, ha⟩ := Program.compile_inv hc
  obtain ⟨p, d, hr, hrep, hsize, hpool⟩ : ∃ p d,
      Runs (lowestRemainder.draft optimizingContext) plainDraft p d ∧ p.rep = .int ∧
        d.layout.size = 1 ∧ d.pool = plainDraft.pool := ⟨_, _, rfl, rfl, rfl, rfl⟩
  have hwithin : d.pool.Within (Program.session [] {}).pool := hpool ▸ (session_checks hc).1
  have hlinks : c.links = optimizingContext.links := ha.base
  have hhosted : d.Hosted optimizingContext.links m ⟨"f", 0, 1⟩ := by
    rw [← hlinks]
    exact hhost d _ hwithin (by decide)
  have htypes : List.Forall₂ (fun e t => Runs (typeFor optimizingContext e) plainDraft t plainDraft)
      lowestRemainder.operands [.int, .int] := by
    refine .cons ?_ (.cons ?_ .nil)
    · rfl
    · rfl
  have hnative : lowestRemainder.Native [.int, .int] := by
    simp [Operation.Native, lowestRemainder]
  obtain ⟨ps, code, d₁, before, after, ho, -, -, -, hall⟩ := (specialized_operations_agree
    (serves_of_compiled hc (x := optimizingContext) rfl rfl hwithin rfl) hhosted
    (proper_start _ _ _) (.refl d) rfl htypes hr).1 hnative
  let s : Scene := ⟨lowestRecords, #[], [.null]⟩
  have heval : Evaluated m ⟨"f", 0, 1⟩ .int ps [.int Int64.minValue, .int (-1)] s s := by
    cases ho with
    | cons hp _ hrest =>
      cases hrest with
      | cons hp' _ hrest =>
        cases hrest
        exact .cons (integer_evaluates hp m _ s) (.cons (integer_evaluates hp' m _ s) (.nil s))
  obtain ⟨hinline, hlibrary⟩ := hall _ s s (.cons (.inr rfl) (.cons (.inr rfl) .nil)) hsize.le heval
  refine ⟨c, m, p, d, hc, hm, hr, ?_, ?_⟩
  · obtain ⟨t, h, ls, v, ht, hv, -, -, hreach⟩ := hinline []
    rw [hrep] at ht
    cases ht
    cases hv
    exact ⟨h, ls, hreach⟩
  · obtain ⟨t, h, ls, r, ht, hr, -, -, hreach⟩ :=
      hlibrary [.ref 0, .ref 1] (.cons (.int rfl) (.cons (.int rfl) .nil)) []
    cases ht
    rw [hlinks]
    exact ⟨h, ls, r, hr, hreach⟩

end HeapScript.Compile
