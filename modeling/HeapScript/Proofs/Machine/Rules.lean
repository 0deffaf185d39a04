import HeapScript.Library.Code
import HeapScript.Proofs.Machine.Activation
import HeapScript.Proofs.Machine.Word

/-!
# Rules for the run of an activation

`Processor.wp` says how an activation ends: by a return or a trap, as a postcondition asks. Every
instruction has a rule that says what has to hold before it. The rules are equivalences, so that
they run code forward when they are used for rewriting.

A postcondition may also allow that the run has not ended within some number of rounds. This is
how the same rules say that a run goes on for ever.
-/

namespace HeapScript.Machine

/-- What is asked of the end of an activation. With a number of rounds in `fuel`, the run may also
need more than these. -/
structure Post (ω : Type) where
  returned : List Val → Heap → ω → Prop
  trapped : String → TrapReason → Heap → ω → Prop
  fuel : Option Nat

namespace Post

variable {ω : Type}

/-- Whether an end is as asked. -/
def holds (Q : Post ω) : Final ω → Prop
  | .returned vs heap host => Q.returned vs heap host
  | .trapped func reason heap host => Q.trapped func reason heap host
  | .more => False
  | .stuck => False

theorem ne_more {Q : Post ω} {f : Final ω} (h : Q.holds f) : f ≠ .more := by
  rintro rfl
  exact h

/-- The same demand one round later. -/
def later (Q : Post ω) : Post ω := { Q with fuel := Q.fuel.map (· - 1) }

@[simp] theorem later_returned (Q : Post ω) : Q.later.returned = Q.returned := rfl

@[simp] theorem later_trapped (Q : Post ω) : Q.later.trapped = Q.trapped := rfl

@[simp] theorem later_holds (Q : Post ω) : Q.later.holds = Q.holds := by
  funext f
  cases f <;> rfl

end Post

/-- A local, given by any number. -/
def local? (locals : List Val) : Int → Option Val
  | .ofNat n => locals[n]?
  | .negSucc _ => none

/-- Stores into a local, given by any number. -/
def setLocal? (locals : List Val) (v : Val) : Int → Option (List Val)
  | .ofNat n => if n < locals.length then some (locals.set n v) else none
  | .negSucc _ => none

@[simp] theorem local?_natCast (locals : List Val) (n : Nat) :
    local? locals (n : Int) = locals[n]? := rfl

@[simp] theorem local?_ofNat (locals : List Val) (n : Nat) :
    local? locals (no_index (OfNat.ofNat n)) = locals[(OfNat.ofNat n : Nat)]? := rfl

@[simp] theorem setLocal?_natCast (locals : List Val) (v : Val) (n : Nat) :
    setLocal? locals v (n : Int) = if n < locals.length then some (locals.set n v) else none := rfl

@[simp] theorem setLocal?_ofNat (locals : List Val) (v : Val) (n : Nat) :
    setLocal? locals v (no_index (OfNat.ofNat n)) =
      if (OfNat.ofNat n : Nat) < locals.length then some (locals.set (OfNat.ofNat n) v)
      else none := rfl

@[simp] theorem at?_natCast {α : Type} (xs : Array α) (n : Nat) : at? xs (n : Int) = xs[n]? := rfl

@[simp] theorem at?_ofNat {α : Type} (xs : Array α) (n : Nat) :
    at? xs (no_index (OfNat.ofNat n : Int)) = xs[(OfNat.ofNat n : Nat)]? := rfl

namespace Processor

variable {ω : Type} (m : Processor ω) (a : Act)

/-- The run of an activation ends as a postcondition asks. -/
def wp (code : List Instr) (conts : List Cont) (Q : Post ω) (c : Cfg ω) : Prop :=
  (∃ n, Q.holds (m.run n a code conts c)) ∨ ∃ n, Q.fuel = some n ∧ m.run n a code conts c = .more

/-- A call from an activation at some depth ends as a postcondition asks. -/
def Calls (depth : Nat) (func : Int) (args : List Val) (heap : Heap) (host : ω) (Q : Post ω) :
    Prop :=
  match m.callee? func with
  | some (.host name f) =>
    match f ⟨heap, host, 0⟩ args with
    | .results vs w => Q.returned vs w.heap w.host
    | .failed message => Q.trapped name (.host message) heap host
    | .malformed => False
  | some (.code name results locals body) =>
    if m.full depth then Q.trapped name .callStackExhausted heap host
    else
      Q.fuel = some 0 ∨
        m.wp ⟨name, results, depth + 1⟩ body [] Q.later ⟨heap, host, args ++ locals, []⟩
  | none => False

/-! ## Bounds -/

section Bounds

variable {m} {a} {n : Nat} {code code' rest : List Instr} {conts conts' : List Cont}
  {c c' ci : Cfg ω} {inner : Act} {body : List Instr} {locals stack : List Val}

theorem run_go (h : m.next a code conts c = .go code' conts' c') :
    m.run n a code conts c = m.run n a code' conts' c' := by
  rw [run]
  split <;> rename_i h' <;> rw [h] at h' <;> cases h'
  rfl

theorem run_ends {f : Final ω} (h : m.next a code conts c = .ends f) :
    m.run n a code conts c = f := by
  rw [run]
  split <;> rename_i h' <;> rw [h] at h' <;> cases h'
  rfl

theorem run_again_zero (h : m.next a code conts c = .again code' conts' c') :
    m.run 0 a code conts c = .more := by
  rw [run]
  split <;> rename_i h' <;> rw [h] at h' <;> cases h'

theorem run_again_succ (h : m.next a code conts c = .again code' conts' c') :
    m.run (n + 1) a code conts c = m.run n a code' conts' c' := by
  rw [run]
  split <;> rename_i h' <;> rw [h] at h' <;> cases h'
  rfl

theorem run_enter_zero (h : m.next a code conts c = .enter inner body ci rest locals stack) :
    m.run 0 a code conts c = .more := by
  rw [run]
  split <;> rename_i h' <;> rw [h] at h' <;> cases h'

theorem run_enter_succ (h : m.next a code conts c = .enter inner body ci rest locals stack) :
    m.run (n + 1) a code conts c =
      match m.run n inner body [] ci with
      | .returned vs heap host =>
        m.run (n + 1) a rest conts ⟨heap, host, locals, vs.reverse ++ stack⟩
      | other => other := by
  rw [run]
  split <;> rename_i h' <;> rw [h] at h' <;> cases h'
  rfl

/-- A run that has ended within a bound ends the same way within a larger one. -/
theorem run_mono {k : Nat} (hk : n ≤ k) (h : m.run n a code conts c ≠ .more) :
    m.run k a code conts c = m.run n a code conts c := by
  fun_induction run m n a code conts c generalizing k with
  | case1 n a code conts c code' conts' c' hn ih =>
    rw [run_go hn]
    exact ih hk h
  | case2 a code conts c code' conts' c' hn => exact absurd rfl h
  | case3 a code conts c code' conts' c' hn n ih =>
    obtain ⟨k, rfl⟩ := Nat.exists_eq_add_one_of_ne_zero (n := k) (by omega)
    rw [run_again_succ hn]
    exact ih (by omega) h
  | case4 n a code conts c f hn => exact run_ends hn
  | case5 a code conts c inner body ci rest locals stack hn => exact absurd rfl h
  | case6 a code conts c inner body ci rest locals stack hn n vs heap host hr ihi iho =>
    obtain ⟨k, rfl⟩ := Nat.exists_eq_add_one_of_ne_zero (n := k) (by omega)
    rw [run_enter_succ hn, ihi (by omega) (by rw [hr]; simp), hr]
    exact iho hk h
  | case7 a code conts c inner body ci rest locals stack hn n hr ihi =>
    obtain ⟨k, rfl⟩ := Nat.exists_eq_add_one_of_ne_zero (n := k) (by omega)
    rw [run_enter_succ hn, ihi (by omega) h]
    split
    · rename_i vs heap host hv
      exact absurd hv (hr vs heap host)
    · rfl

theorem run_eq_of_ne_more {k : Nat} (hn : m.run n a code conts c ≠ .more)
    (hk : m.run k a code conts c ≠ .more) : m.run n a code conts c = m.run k a code conts c := by
  rcases Nat.le_total n k with h | h
  · exact (run_mono h hn).symm
  · exact run_mono h hk

theorem run_more_of_le {k : Nat} (hk : k ≤ n) (h : m.run n a code conts c = .more) :
    m.run k a code conts c = .more := by
  by_cases hm : m.run k a code conts c = .more
  · exact hm
  · rw [← run_mono hk hm, h]

end Bounds

/-! ## One step -/

section Steps

variable {m} {a} {Q : Post ω} {code code' rest : List Instr} {conts conts' : List Cont}
  {c c' : Cfg ω}

theorem wp_go (h : m.next a code conts c = .go code' conts' c') :
    m.wp a code conts Q c ↔ m.wp a code' conts' Q c' := by
  simp only [wp, run_go h]

theorem wp_ends {f : Final ω} (h : m.next a code conts c = .ends f) (hf : f ≠ .more) :
    m.wp a code conts Q c ↔ Q.holds f := by
  simp only [wp, run_ends h]
  simp [hf]

/-- A loop that starts over, where the rounds are counted. -/
theorem wp_again_later (h : m.next a code conts c = .again code' conts' c') :
    m.wp a code conts Q c ↔ Q.fuel = some 0 ∨ m.wp a code' conts' Q.later c' := by
  constructor
  · rintro (⟨n, hn⟩ | ⟨n, hf, hn⟩)
    · cases n with
      | zero => exact absurd (run_again_zero h) (Post.ne_more hn)
      | succ n =>
        rw [run_again_succ h] at hn
        exact .inr (.inl ⟨n, by rwa [Post.later_holds]⟩)
    · cases n with
      | zero => exact .inl hf
      | succ n =>
        rw [run_again_succ h] at hn
        exact .inr (.inr ⟨n, by simp [Post.later, hf], hn⟩)
  · rintro (hf | ⟨n, hn⟩ | ⟨n, hf, hn⟩)
    · exact .inr ⟨0, hf, run_again_zero h⟩
    · rw [Post.later_holds] at hn
      exact .inl ⟨n + 1, by rwa [run_again_succ h]⟩
    · obtain ⟨k, hk, rfl⟩ := Option.map_eq_some_iff.1 hf
      cases k with
      | zero => exact .inr ⟨0, hk, run_again_zero h⟩
      | succ k => exact .inr ⟨k + 1, hk, by rwa [run_again_succ h]⟩

theorem wp_later (h : m.wp a code conts Q c) : m.wp a code conts Q.later c := by
  rcases h with ⟨n, hn⟩ | ⟨n, hf, hn⟩
  · exact .inl ⟨n, by rwa [Post.later_holds]⟩
  · exact .inr ⟨n - 1, by simp [Post.later, hf], run_more_of_le (Nat.sub_le n 1) hn⟩

/-- The postcondition of a call: the caller goes on with the results. -/
def resume (m : Processor ω) (a : Act) (rest : List Instr) (conts : List Cont) (Q : Post ω)
    (locals stack : List Val) : Post ω where
  returned vs heap host := m.wp a rest conts Q ⟨heap, host, locals, vs.reverse ++ stack⟩
  trapped := Q.trapped
  fuel := Q.fuel

@[simp] theorem resume_returned {locals stack vs : List Val} {heap : Heap} {host : ω} :
    (resume m a rest conts Q locals stack).returned vs heap host ↔
      m.wp a rest conts Q ⟨heap, host, locals, vs.reverse ++ stack⟩ := Iff.rfl

theorem wp_enter {inner : Act} {body : List Instr} {ci : Cfg ω} {locals stack : List Val}
    (h : m.next a code conts c = .enter inner body ci rest locals stack) :
    m.wp a code conts Q c ↔
      Q.fuel = some 0 ∨ m.wp inner body [] (resume m a rest conts Q locals stack).later ci := by
  constructor
  · rintro (⟨n, hn⟩ | ⟨n, hf, hn⟩)
    · cases n with
      | zero => exact absurd (run_enter_zero h) (Post.ne_more hn)
      | succ n =>
        rw [run_enter_succ h] at hn
        refine .inr (.inl ⟨n, ?_⟩)
        cases hr : m.run n inner body [] ci <;> rw [hr] at hn
        · exact .inl ⟨n + 1, hn⟩
        all_goals exact hn
    · cases n with
      | zero => exact .inl hf
      | succ n =>
        rw [run_enter_succ h] at hn
        cases hr : m.run n inner body [] ci <;> rw [hr] at hn
        · refine .inr (.inl ⟨n, ?_⟩)
          rw [hr]
          exact .inr ⟨n + 1, hf, hn⟩
        · cases hn
        · exact .inr (.inr ⟨n, by simp [Post.later, resume, hf], hr⟩)
        · cases hn
  · rintro (hf | ⟨n, hn⟩ | ⟨n, hf, hn⟩)
    · exact .inr ⟨0, hf, run_enter_zero h⟩
    · have hne := Post.ne_more hn
      cases hr : m.run n inner body [] ci with
      | returned vs heap host =>
        rw [hr] at hn
        rcases hn with ⟨k, hk⟩ | ⟨k, hf, hk⟩
        · refine .inl ⟨max n k + 1, ?_⟩
          rw [run_enter_succ h, run_mono (Nat.le_max_left n k) hne, hr]
          simp only
          rw [run_mono (by omega) (Post.ne_more hk)]
          exact hk
        · refine .inr ⟨k, hf, ?_⟩
          cases k with
          | zero => exact run_enter_zero h
          | succ k =>
            rw [run_enter_succ h]
            by_cases hm : m.run k inner body [] ci = .more
            · rw [hm]
            · rw [run_eq_of_ne_more hm hne, hr]
              exact hk
      | trapped func reason heap host =>
        rw [hr] at hn
        refine .inl ⟨n + 1, ?_⟩
        rw [run_enter_succ h, hr]
        exact hn
      | more => exact absurd hr hne
      | stuck =>
        rw [hr] at hn
        exact hn.elim
    · obtain ⟨k, hk, rfl⟩ := Option.map_eq_some_iff.1 hf
      refine .inr ⟨k, hk, ?_⟩
      cases k with
      | zero => exact run_enter_zero h
      | succ k =>
        rw [Nat.add_sub_cancel] at hn
        rw [run_enter_succ h, hn]

/-- Where the code inside a construct ends, the code behind it follows. -/
@[simp] theorem wp_nil_cons (k : Cont) :
    m.wp a [] (k :: conts) Q c ↔ m.wp a k.rest conts Q c :=
  wp_go rfl

theorem giveBack_ne_more : giveBack a c ≠ .more := by
  unfold giveBack
  split <;> simp

@[simp] theorem wp_nil_nil : m.wp a [] [] Q c ↔ Q.holds (giveBack a c) :=
  wp_ends rfl giveBack_ne_more

@[simp] theorem wp_ret : m.wp a (.ret :: rest) conts Q c ↔ Q.holds (giveBack a c) :=
  wp_ends rfl giveBack_ne_more

theorem wp_next {i : Instr} (hn : m.next a (i :: rest) conts c = afterEffect m a i rest conts c)
    (he : m.effect i c = .next c') : m.wp a (i :: rest) conts Q c ↔ m.wp a rest conts Q c' :=
  wp_go (by rw [hn, afterEffect, he])

theorem wp_trap {i : Instr} {r : TrapReason}
    (hn : m.next a (i :: rest) conts c = afterEffect m a i rest conts c)
    (he : m.effect i c = .trap r) :
    m.wp a (i :: rest) conts Q c ↔ Q.trapped a.func r c.heap c.host :=
  wp_ends (by rw [hn, afterEffect, he]) (by simp)

/-- What has to hold before an instruction, by its effect. -/
theorem wp_effect {i : Instr}
    (hn : m.next a (i :: rest) conts c = afterEffect m a i rest conts c) :
    m.wp a (i :: rest) conts Q c ↔ match m.effect i c with
      | .next c' => m.wp a rest conts Q c'
      | .trap r => Q.trapped a.func r c.heap c.host
      | .stuck => False := by
  cases he : m.effect i c with
  | next c' => exact wp_next hn he
  | trap r => exact wp_trap hn he
  | stuck => exact wp_ends (f := .stuck) (by rw [hn, afterEffect, he]) (by simp)

/-- Only the code and the configuration are rewritten; what comes later is left as it is. -/
@[congr] theorem wp_congr (hcode : code = code') (hc : c = c') :
    m.wp a code conts Q c = m.wp a code' conts Q c' := by
  rw [hcode, hc]

end Steps

/-! ## Truth values -/

@[simp] theorem ofBool_eq_flag (b : Bool) : Val.ofBool b = .i32 (flag b) := rfl

@[simp] theorem flag_true : flag true = 1 := rfl

@[simp] theorem flag_false : flag false = 0 := rfl

@[simp] theorem flag_ne_zero (b : Bool) : flag b ≠ 0 ↔ b = true := by
  cases b <;> decide

@[simp] theorem flag_eq_zero (b : Bool) : flag b = 0 ↔ b = false := by
  cases b <;> decide

@[simp] theorem flag_beq_zero (b : Bool) : (flag b == 0) = !b := by
  cases b <;> rfl

@[simp] theorem flag_beq_flag (b b' : Bool) : (flag b == flag b') = (b == b') := by
  cases b <;> cases b' <;> rfl

@[simp] theorem flag_or_flag (b b' : Bool) : flag b ||| flag b' = flag (b || b') := by
  cases b <;> cases b' <;> rfl

@[simp] theorem flag_and_flag (b b' : Bool) : flag b &&& flag b' = flag (b && b') := by
  cases b <;> cases b' <;> rfl

/-! ## Instructions on operands and locals -/

section Instructions

variable {m} {a} {Q : Post ω} {rest : List Instr} {conts : List Cont}
  {h : Heap} {w : ω} {ls st : List Val}

@[simp] theorem wp_unreachable :
    m.wp a (.unreachable :: rest) conts Q ⟨h, w, ls, st⟩ ↔ Q.trapped a.func .unreachable h w :=
  wp_trap rfl rfl

@[simp] theorem wp_drop {v : Val} :
    m.wp a (.drop :: rest) conts Q ⟨h, w, ls, v :: st⟩ ↔ m.wp a rest conts Q ⟨h, w, ls, st⟩ :=
  wp_next rfl rfl

theorem at?_toArray (ls : List Val) (i : Int) : at? ls.toArray i = local? ls i := by
  cases i <;> simp [at?, local?]

theorem effect_localGet (m : Processor ω) (h : Heap) (w : ω) (ls st : List Val) (i : Int) :
    m.effect (.localGet i) ⟨h, w, ls, st⟩ = match local? ls i with
      | some v => .next ⟨h, w, ls, v :: st⟩
      | none => .stuck := by
  rw [← at?_toArray]
  simp only [effect, exec.eq_def, execLocal.eq_def, Cfg.state]
  cases at? ls.toArray i <;> rfl

theorem effect_localSet (m : Processor ω) (h : Heap) (w : ω) (ls st : List Val) (i : Int) (v : Val) :
    m.effect (.localSet i) ⟨h, w, ls, v :: st⟩ = match setLocal? ls v i with
      | some ls' => .next ⟨h, w, ls', st⟩
      | none => .stuck := by
  simp only [effect, exec.eq_def, execLocal.eq_def, Cfg.state]
  cases i with
  | ofNat n =>
    by_cases hn : n < ls.length <;> simp [setLocal?, hn, State.malformed]
  | negSucc n => simp [setLocal?, State.malformed]

theorem effect_localTee (m : Processor ω) (h : Heap) (w : ω) (ls st : List Val) (i : Int) (v : Val) :
    m.effect (.localTee i) ⟨h, w, ls, v :: st⟩ = match setLocal? ls v i with
      | some ls' => .next ⟨h, w, ls', v :: st⟩
      | none => .stuck := by
  simp only [effect, exec.eq_def, execLocal.eq_def, Cfg.state]
  cases i with
  | ofNat n =>
    by_cases hn : n < ls.length <;> simp [setLocal?, hn, State.malformed]
  | negSucc n => simp [setLocal?, State.malformed]

@[simp] theorem wp_localGet {i : Int} :
    m.wp a (.localGet i :: rest) conts Q ⟨h, w, ls, st⟩ ↔
      ∃ v, local? ls i = some v ∧ m.wp a rest conts Q ⟨h, w, ls, v :: st⟩ := by
  rw [wp_effect rfl, effect_localGet]
  cases local? ls i <;> simp

@[simp] theorem wp_localSet {i : Int} {v : Val} :
    m.wp a (.localSet i :: rest) conts Q ⟨h, w, ls, v :: st⟩ ↔
      ∃ ls', setLocal? ls v i = some ls' ∧ m.wp a rest conts Q ⟨h, w, ls', st⟩ := by
  rw [wp_effect rfl, effect_localSet]
  cases setLocal? ls v i <;> simp

@[simp] theorem wp_localTee {i : Int} {v : Val} :
    m.wp a (.localTee i :: rest) conts Q ⟨h, w, ls, v :: st⟩ ↔
      ∃ ls', setLocal? ls v i = some ls' ∧ m.wp a rest conts Q ⟨h, w, ls', v :: st⟩ := by
  rw [wp_effect rfl, effect_localTee]
  cases setLocal? ls v i <;> simp

/-! ## Numbers -/

@[simp] theorem wp_i32Const {n : Int} :
    m.wp a (.i32Const n :: rest) conts Q ⟨h, w, ls, st⟩ ↔
      m.wp a rest conts Q ⟨h, w, ls, .i32 (Int32.ofInt n) :: st⟩ :=
  wp_next rfl rfl

@[simp] theorem wp_i64Const {n : Int64} :
    m.wp a (.i64Const n :: rest) conts Q ⟨h, w, ls, st⟩ ↔
      m.wp a rest conts Q ⟨h, w, ls, .i64 n :: st⟩ :=
  wp_next rfl rfl

@[simp] theorem wp_f64Const {x : Float} :
    m.wp a (.f64Const x :: rest) conts Q ⟨h, w, ls, st⟩ ↔
      m.wp a rest conts Q ⟨h, w, ls, .f64 x :: st⟩ :=
  wp_next rfl rfl

@[simp] theorem wp_i32 {op : I32Op} {x y : Int32} :
    m.wp a (.i32 op :: rest) conts Q ⟨h, w, ls, .i32 y :: .i32 x :: st⟩ ↔
      match op.eval x y with
      | .ok r => m.wp a rest conts Q ⟨h, w, ls, .i32 r :: st⟩
      | .error r => Q.trapped a.func r h w := by
  rw [wp_effect rfl]
  simp only [effect, exec.eq_def, execNumeric.eq_def, State.combine, Cfg.state]
  cases op.eval x y <;> rfl
@[simp] theorem wp_i64 {op : I64Op} {x y : Int64} :
    m.wp a (.i64 op :: rest) conts Q ⟨h, w, ls, .i64 y :: .i64 x :: st⟩ ↔
      match op.eval x y with
      | .ok r => m.wp a rest conts Q ⟨h, w, ls, .i64 r :: st⟩
      | .error r => Q.trapped a.func r h w := by
  rw [wp_effect rfl]
  simp only [effect, exec.eq_def, execNumeric.eq_def, State.combine, Cfg.state]
  cases op.eval x y <;> rfl
@[simp] theorem wp_i64Rel {op : I64Rel} {x y : Int64} :
    m.wp a (.i64Rel op :: rest) conts Q ⟨h, w, ls, .i64 y :: .i64 x :: st⟩ ↔
      m.wp a rest conts Q ⟨h, w, ls, .i32 (flag (op.eval x y)) :: st⟩ :=
  wp_next rfl rfl

@[simp] theorem wp_f64 {op : F64Op} {x y : Float} :
    m.wp a (.f64 op :: rest) conts Q ⟨h, w, ls, .f64 y :: .f64 x :: st⟩ ↔
      m.wp a rest conts Q ⟨h, w, ls, .f64 (op.eval x y) :: st⟩ :=
  wp_next rfl rfl

@[simp] theorem wp_f64Rel {op : F64Rel} {x y : Float} :
    m.wp a (.f64Rel op :: rest) conts Q ⟨h, w, ls, .f64 y :: .f64 x :: st⟩ ↔
      m.wp a rest conts Q ⟨h, w, ls, .i32 (flag (op.eval x y)) :: st⟩ :=
  wp_next rfl rfl

@[simp] theorem wp_i32Eqz {x : Int32} :
    m.wp a (.i32Eqz :: rest) conts Q ⟨h, w, ls, .i32 x :: st⟩ ↔
      m.wp a rest conts Q ⟨h, w, ls, .i32 (flag (x == 0)) :: st⟩ :=
  wp_next rfl rfl

@[simp] theorem wp_i64Eqz {x : Int64} :
    m.wp a (.i64Eqz :: rest) conts Q ⟨h, w, ls, .i64 x :: st⟩ ↔
      m.wp a rest conts Q ⟨h, w, ls, .i32 (flag (x == 0)) :: st⟩ :=
  wp_next rfl rfl

@[simp] theorem wp_f64Neg {x : Float} :
    m.wp a (.f64Neg :: rest) conts Q ⟨h, w, ls, .f64 x :: st⟩ ↔
      m.wp a rest conts Q ⟨h, w, ls, .f64 (-x) :: st⟩ :=
  wp_next rfl rfl

@[simp] theorem wp_i32WrapI64 {x : Int64} :
    m.wp a (.i32WrapI64 :: rest) conts Q ⟨h, w, ls, .i64 x :: st⟩ ↔
      m.wp a rest conts Q ⟨h, w, ls, .i32 x.toInt32 :: st⟩ :=
  wp_next rfl rfl

@[simp] theorem wp_i64ExtendI32S {x : Int32} :
    m.wp a (.i64ExtendI32S :: rest) conts Q ⟨h, w, ls, .i32 x :: st⟩ ↔
      m.wp a rest conts Q ⟨h, w, ls, .i64 x.toInt64 :: st⟩ :=
  wp_next rfl rfl

@[simp] theorem wp_i64ExtendI32U {x : Int32} :
    m.wp a (.i64ExtendI32U :: rest) conts Q ⟨h, w, ls, .i32 x :: st⟩ ↔
      m.wp a rest conts Q ⟨h, w, ls, .i64 (extendU x) :: st⟩ :=
  wp_next rfl rfl

@[simp] theorem wp_f64ConvertI64S {x : Int64} :
    m.wp a (.f64ConvertI64S :: rest) conts Q ⟨h, w, ls, .i64 x :: st⟩ ↔
      m.wp a rest conts Q ⟨h, w, ls, .f64 (Int64.nearestFloat x) :: st⟩ :=
  wp_next rfl rfl

@[simp] theorem wp_i64TruncSatF64S {x : Float} :
    m.wp a (.i64TruncSatF64S :: rest) conts Q ⟨h, w, ls, .f64 x :: st⟩ ↔
      m.wp a rest conts Q ⟨h, w, ls, .i64 (Float.truncSat x) :: st⟩ :=
  wp_next rfl rfl

/-! ## References and records -/

@[simp] theorem wp_refNull {t : Int} :
    m.wp a (.refNull t :: rest) conts Q ⟨h, w, ls, st⟩ ↔
      m.wp a rest conts Q ⟨h, w, ls, .null :: st⟩ :=
  wp_next rfl rfl

@[simp] theorem wp_refIsNull {v : Val} :
    m.wp a (.refIsNull :: rest) conts Q ⟨h, w, ls, v :: st⟩ ↔
      m.wp a rest conts Q ⟨h, w, ls, .i32 (flag v.isNull) :: st⟩ :=
  wp_next rfl rfl

@[simp] theorem wp_refEq {u v : Val} :
    m.wp a (.refEq :: rest) conts Q ⟨h, w, ls, v :: u :: st⟩ ↔
      m.wp a rest conts Q ⟨h, w, ls, .i32 (flag (u.same v)) :: st⟩ :=
  wp_next rfl rfl

@[simp] theorem wp_refTest {t : Int} {v : Val} :
    m.wp a (.refTest t :: rest) conts Q ⟨h, w, ls, v :: st⟩ ↔
      m.wp a rest conts Q ⟨h, w, ls, .i32 (flag (h.typeOf v == t)) :: st⟩ :=
  wp_next rfl rfl

@[simp] theorem wp_refCast {t : Int} {v : Val} :
    m.wp a (.refCast t :: rest) conts Q ⟨h, w, ls, v :: st⟩ ↔
      if v.isNull || h.typeOf v == t then m.wp a rest conts Q ⟨h, w, ls, v :: st⟩
      else Q.trapped a.func (.castFailed t) h w := by
  rw [wp_effect rfl]
  simp only [effect, exec.eq_def, execRecord.eq_def, Cfg.state]
  cases v.isNull || h.typeOf v == t <;> rfl

@[simp] theorem wp_structNew {t : Int} :
    m.wp a (.structNew t :: rest) conts Q ⟨h, w, ls, st⟩ ↔
      ∃ type, at? m.program.types t = some type ∧
        match Frame.popMany type.fieldCount st [] with
        | some (fields, below) =>
          m.wp a rest conts Q ⟨h.push (.struct t fields.toArray), w, ls, .ref h.size :: below⟩
        | none => False := by
  rw [wp_effect rfl]
  simp only [effect, exec.eq_def, execRecord.eq_def, Cfg.state]
  cases at? m.program.types t with
  | none => simp [State.malformed]
  | some type => cases hp : Frame.popMany type.fieldCount st [] <;> simp [hp, State.malformed]

@[simp] theorem wp_structGet {t field : Int} {r : Val} :
    m.wp a (.structGet t field :: rest) conts Q ⟨h, w, ls, r :: st⟩ ↔
      match h.struct? r with
      | some (_, fields) =>
        ∃ v, at? fields field = some v ∧ m.wp a rest conts Q ⟨h, w, ls, v :: st⟩
      | none => Q.trapped a.func .notStruct h w := by
  rw [wp_effect rfl]
  simp only [effect, exec.eq_def, execRecord.eq_def, Cfg.state]
  cases h.struct? r with
  | none => rfl
  | some p => cases hv : at? p.2 field <;> simp [hv, State.malformed, State.continueWith]

@[simp] theorem wp_structSet {t field : Int} {r v : Val} :
    m.wp a (.structSet t field :: rest) conts Q ⟨h, w, ls, v :: r :: st⟩ ↔
      match h.struct? r with
      | some (addr, fields) =>
        (0 ≤ field ∧ field.toNat < fields.size) ∧
          m.wp a rest conts Q ⟨h.setField addr field.toNat v, w, ls, st⟩
      | none => Q.trapped a.func .notStruct h w := by
  rw [wp_effect rfl]
  simp only [effect, exec.eq_def, execRecord.eq_def, Cfg.state]
  cases h.struct? r with
  | none => rfl
  | some p =>
    by_cases hf : 0 ≤ field ∧ field.toNat < p.2.size <;> simp [hf, State.malformed]

/-! ## Arrays -/

@[simp] theorem wp_arrayNewDefault {t : Int} {n : Int32} :
    m.wp a (.arrayNewDefault t :: rest) conts Q ⟨h, w, ls, .i32 n :: st⟩ ↔
      if n < 0 then Q.trapped a.func .negativeLength h w
      else ∃ type, at? m.program.types t = some type ∧
        m.wp a rest conts Q
          ⟨h.push (.array t (Array.replicate n.toInt.toNat (Val.zero type.elem))), w, ls,
            .ref h.size :: st⟩ := by
  rw [wp_effect rfl]
  simp only [effect, exec.eq_def, execArray.eq_def, Cfg.state]
  by_cases hn : n < 0
  · simp [hn, State.trap]
  · cases at? m.program.types t <;> simp [hn, State.malformed, Heap.alloc, State.continueIn]

@[simp] theorem wp_arrayNewData {t segment : Int} {n off : Int32} :
    m.wp a (.arrayNewData t segment :: rest) conts Q ⟨h, w, ls, .i32 n :: .i32 off :: st⟩ ↔
      ∃ d, at? m.program.data segment = some d ∧
        if off.toInt < 0 ∨ n.toInt < 0 ∨ off.toInt + n.toInt > d.bytes.length then
          Q.trapped a.func .dataOutOfBounds h w
        else
          m.wp a rest conts Q
            ⟨(h.allocBytes t ((d.bytes.drop off.toInt.toNat).take n.toInt.toNat)).2, w, ls,
              .ref h.size :: st⟩ := by
  rw [wp_effect rfl]
  simp only [effect, exec.eq_def, execArray.eq_def, Cfg.state]
  cases at? m.program.data segment with
  | none => simp [State.malformed]
  | some d =>
    by_cases hb : off.toInt < 0 ∨ n.toInt < 0 ∨ off.toInt + n.toInt > d.bytes.length <;>
      simp [hb, State.trap, Heap.allocBytes, Heap.alloc, State.continueIn]

def ReadsElem (m : Processor ω) (a : Act) (rest : List Instr) (conts : List Cont) (Q : Post ω)
    (h : Heap) (w : ω) (ls st : List Val) (r : Val) (i : Int32) : Prop :=
  match h.array? r with
  | some (_, _, elems) =>
    match elems[i.toUInt32.toNat]? with
    | some v => m.wp a rest conts Q ⟨h, w, ls, v :: st⟩
    | none => Q.trapped a.func (.indexOutOfBounds i elems.size) h w
  | none => Q.trapped a.func .notArray h w

@[simp] theorem wp_arrayGet {t : Int} {r : Val} {i : Int32} :
    m.wp a (.arrayGet t :: rest) conts Q ⟨h, w, ls, .i32 i :: r :: st⟩ ↔
      ReadsElem m a rest conts Q h w ls st r i := by
  rw [wp_effect rfl]
  simp only [effect, exec.eq_def, execArray.eq_def, Cfg.state, ReadsElem]
  cases h.array? r with
  | none => rfl
  | some p => cases hv : p.2.2[i.toUInt32.toNat]? <;> simp [hv, State.trap, State.continueWith]

@[simp] theorem wp_arrayGetU {t : Int} {r : Val} {i : Int32} :
    m.wp a (.arrayGetU t :: rest) conts Q ⟨h, w, ls, .i32 i :: r :: st⟩ ↔
      ReadsElem m a rest conts Q h w ls st r i :=
  (wp_effect (i := .arrayGetU t) rfl).trans ((wp_effect (i := .arrayGet t) rfl).symm.trans wp_arrayGet)

@[simp] theorem wp_arrayLen {r : Val} :
    m.wp a (.arrayLen :: rest) conts Q ⟨h, w, ls, r :: st⟩ ↔
      match h.array? r with
      | some (_, _, elems) =>
        m.wp a rest conts Q ⟨h, w, ls, .i32 (Int32.ofInt elems.size) :: st⟩
      | none => Q.trapped a.func .notArray h w := by
  rw [wp_effect rfl]
  simp only [effect, exec.eq_def, execArray.eq_def, Cfg.state]
  cases h.array? r <;> rfl

/-- What is stored for an operand in an array with elements of a type. -/
def stored? (type : TypeDef) (v : Val) : Option Val :=
  if type.elem = .i8 then (Heap.byte? v).map fun b => .i32 b.toUInt32.toInt32 else some v

@[simp] theorem wp_arraySet {t : Int} {r v : Val} {i : Int32} :
    m.wp a (.arraySet t :: rest) conts Q ⟨h, w, ls, v :: .i32 i :: r :: st⟩ ↔
      match h.array? r with
      | some (addr, t, elems) =>
        if i.toUInt32.toNat < elems.size then
          ∃ type, at? m.program.types t = some type ∧ ∃ u, stored? type v = some u ∧
            m.wp a rest conts Q ⟨h.setElem addr i.toUInt32.toNat u, w, ls, st⟩
        else Q.trapped a.func (.indexOutOfBounds i elems.size) h w
      | none => Q.trapped a.func .notArray h w := by
  rw [wp_effect rfl]
  simp only [effect, exec.eq_def, execArray.eq_def, execArraySet.eq_def, Cfg.state, inBounds]
  cases h.array? r with
  | none => rfl
  | some p =>
    by_cases hi : i.toUInt32.toNat < p.2.2.size
    · cases ht : at? m.program.types p.2.1 with
      | none => simp [hi, ht, State.malformed]
      | some type =>
        obtain ⟨u, hu⟩ : ∃ u, stored? type v = u := ⟨_, rfl⟩
        have hif := hu
        unfold stored? at hif
        cases u <;> simp [hi, ht, hif, hu, State.malformed]
    · simp [hi, State.trap]

@[simp] theorem wp_arrayCopy {t t' : Int} {dst src : Val} {n dstOff srcOff : Int32} :
    m.wp a (.arrayCopy t t' :: rest) conts Q
        ⟨h, w, ls, .i32 n :: .i32 srcOff :: src :: .i32 dstOff :: dst :: st⟩ ↔
      match h.array? src, h.array? dst with
      | some (_, _, source), some (addr, _, target) =>
        if n.toInt < 0 ∨ srcOff.toInt < 0 ∨ dstOff.toInt < 0 ∨
            srcOff.toInt + n.toInt > source.size ∨ dstOff.toInt + n.toInt > target.size then
          Q.trapped a.func .copyOutOfBounds h w
        else
          m.wp a rest conts Q
            ⟨h.setElems addr dstOff.toInt.toNat
              (source.extract srcOff.toInt.toNat (srcOff.toInt.toNat + n.toInt.toNat)), w, ls, st⟩
      | _, _ => Q.trapped a.func .notArray h w := by
  rw [wp_effect rfl]
  simp only [effect, exec.eq_def, execArray.eq_def, execArrayCopy.eq_def, Cfg.state]
  cases h.array? src with
  | none => rfl
  | some p =>
    cases h.array? dst with
    | none => rfl
    | some q =>
      by_cases hb : n.toInt < 0 ∨ srcOff.toInt < 0 ∨ dstOff.toInt < 0 ∨
          srcOff.toInt + n.toInt > p.2.2.size ∨ dstOff.toInt + n.toInt > q.2.2.size <;>
        simp [hb, State.trap]

/-! ## Constructs and jumps -/

theorem wp_block {t : ValType} {body : List Instr} (hb : Balanced body) {c : Cfg ω} :
    m.wp a (.block t :: (body ++ .close :: rest)) conts Q c ↔
      m.wp a body (.block rest c.stack.length t.arity :: conts) Q c :=
  wp_go (by simp [next, splitClose_body (hb.bracketed false)])

theorem wp_loop {body : List Instr} (hb : Balanced body) {c : Cfg ω} :
    m.wp a (.loop :: (body ++ .close :: rest)) conts Q c ↔
      m.wp a body (.loop body rest c.stack.length :: conts) Q c :=
  wp_go (by simp [next, splitClose_body (hb.bracketed false)])

theorem wp_choice {t : ValType} {yes no : List Instr} {x : Int32} (hy : Balanced yes)
    (hn : Balanced no) :
    m.wp a (.branchIf t :: (yes ++ .otherwise :: (no ++ .close :: rest))) conts Q
        ⟨h, w, ls, .i32 x :: st⟩ ↔
      if x ≠ 0 then m.wp a yes (.block rest st.length t.arity :: conts) Q ⟨h, w, ls, st⟩
      else m.wp a no (.block rest st.length t.arity :: conts) Q ⟨h, w, ls, st⟩ := by
  split <;> rename_i hx
  · exact wp_go (by simp [next, enterIf, splitClose_choice hy hn, splitElse_choice hy, hx])
  · exact wp_go (by simp [next, enterIf, splitClose_choice hy hn, splitElse_choice hy, hx])

theorem wp_branch {t : ValType} {body : List Instr} {x : Int32} (hb : Balanced body) :
    m.wp a (.branchIf t :: (body ++ .close :: rest)) conts Q ⟨h, w, ls, .i32 x :: st⟩ ↔
      if x ≠ 0 then m.wp a body (.block rest st.length t.arity :: conts) Q ⟨h, w, ls, st⟩
      else m.wp a rest conts Q ⟨h, w, ls, st⟩ := by
  split <;> rename_i hx
  · exact wp_go (by simp [next, enterIf, splitClose_body (hb.bracketed false), splitElse_body hb, hx])
  · exact wp_go (by simp [next, enterIf, splitClose_body (hb.bracketed false), splitElse_body hb, hx])

/-- A jump to an enclosing construct ends as a postcondition asks. -/
def Jumps (m : Processor ω) (a : Act) (d : Int) (conts : List Cont) (Q : Post ω) (c : Cfg ω) :
    Prop :=
  match jump d conts c with
  | .go code conts c => m.wp a code conts Q c
  | .again code conts c => Q.fuel = some 0 ∨ m.wp a code conts Q.later c
  | .ends _ | .enter .. => False

@[congr] theorem jumps_congr {d d' : Int} {c c' : Cfg ω} (hd : d = d') (hc : c = c') :
    Jumps m a d conts Q c = Jumps m a d' conts Q c' := by
  rw [hd, hc]

theorem wp_of_jump {code : List Instr} {d : Int} {c c' : Cfg ω}
    (h : m.next a code conts c = jump d conts c') :
    m.wp a code conts Q c ↔ Jumps m a d conts Q c' := by
  unfold Jumps
  cases hj : jump d conts c' with
  | go code' conts' c'' => exact wp_go (h.trans hj)
  | again code' conts' c'' => exact wp_again_later (h.trans hj)
  | ends f =>
    have hf : f = .stuck := by
      unfold jump at hj
      repeat' split at hj
      all_goals cases hj
      all_goals rfl
    subst hf
    exact wp_ends (h.trans hj) (by simp)
  | enter =>
    unfold jump at hj
    repeat' split at hj
    all_goals cases hj

@[simp] theorem wp_br {d : Int} {c : Cfg ω} :
    m.wp a (.br d :: rest) conts Q c ↔ Jumps m a d conts Q c :=
  wp_of_jump rfl

@[simp] theorem wp_brIf {d : Int} {x : Int32} :
    m.wp a (.brIf d :: rest) conts Q ⟨h, w, ls, .i32 x :: st⟩ ↔
      if x ≠ 0 then Jumps m a d conts Q ⟨h, w, ls, st⟩
      else m.wp a rest conts Q ⟨h, w, ls, st⟩ := by
  split <;> rename_i hx
  · exact wp_of_jump (by simp [next, hx])
  · exact wp_go (by simp [next, hx])

/-- A jump out of more than the innermost construct. -/
theorem jump_succ (d : Nat) (k : Cont) (conts : List Cont) (c : Cfg ω) :
    jump ((d + 1 : Nat) : Int) (k :: conts) c = jump d conts c := by
  unfold jump
  rw [if_neg (by omega), if_neg (by omega)]
  rfl

theorem jumps_succ {n : Nat} {k : Cont} {c : Cfg ω} :
    Jumps m a (n + 1 : Nat) (k :: conts) Q c ↔ Jumps m a n conts Q c := by
  unfold Jumps
  rw [jump_succ]

@[simp] theorem jumps_one {k : Cont} {c : Cfg ω} :
    Jumps m a 1 (k :: conts) Q c ↔ Jumps m a 0 conts Q c := jumps_succ (n := 0)

/-- A jump out of a construct leaves its results on the operands it was entered with. -/
@[simp] theorem jumps_block {height arity : Nat} :
    Jumps m a 0 (.block rest height arity :: conts) Q ⟨h, w, ls, st⟩ ↔
      height + arity ≤ st.length ∧
        m.wp a rest conts Q ⟨h, w, ls, st.take arity ++ Cfg.cut height st⟩ := by
  unfold Jumps
  by_cases hh : height + arity ≤ st.length
  · simp [jump, hh]
  · simp [jump, hh]

/-- A jump to a loop starts it over, where the rounds are counted. -/
theorem jumps_loop_later {body : List Instr} {height : Nat} :
    Jumps m a 0 (.loop body rest height :: conts) Q ⟨h, w, ls, st⟩ ↔
      height ≤ st.length ∧ (Q.fuel = some 0 ∨
        m.wp a body (.loop body rest height :: conts) Q.later ⟨h, w, ls, Cfg.cut height st⟩) := by
  unfold Jumps
  by_cases hh : height ≤ st.length
  · simp [jump, hh]
  · simp [jump, hh]

theorem jumps_loop {body : List Instr} {height : Nat} (hh : height ≤ st.length)
    (hw : m.wp a body (.loop body rest height :: conts) Q ⟨h, w, ls, Cfg.cut height st⟩) :
    Jumps m a 0 (.loop body rest height :: conts) Q ⟨h, w, ls, st⟩ :=
  jumps_loop_later.mpr ⟨hh, .inr (wp_later hw)⟩

/-! ## Calls -/

@[congr] theorem calls_congr {depth : Nat} {func : Int} {args args' : List Val} {h h' : Heap}
    {w w' : ω} (ha : args = args') (hh : h = h') (hw : w = w') :
    m.Calls depth func args h w Q = m.Calls depth func args' h' w' Q := by
  rw [ha, hh, hw]

@[simp] theorem wp_call {func : Int} :
    m.wp a (.call func :: rest) conts Q ⟨h, w, ls, st⟩ ↔
      ∃ type, m.program.signature? func = some type ∧
        match Frame.popMany type.params.length st [] with
        | some (args, below) =>
          m.Calls a.depth func args h w (resume m a rest conts Q ls below)
        | none => False := by
  have hnext : m.next a (.call func :: rest) conts ⟨h, w, ls, st⟩ =
      enterCall m a func rest conts ⟨h, w, ls, st⟩ := rfl
  cases hs : m.program.signature? func with
  | none =>
    have hn : m.next a (.call func :: rest) conts ⟨h, w, ls, st⟩ = .ends .stuck := by
      rw [hnext, enterCall, hs]
    rw [wp_ends hn (by simp)]
    simp [Post.holds]
  | some type =>
    simp only [Option.some.injEq, exists_eq_left']
    cases hp : Frame.popMany type.params.length st [] with
    | none =>
      have hn : m.next a (.call func :: rest) conts ⟨h, w, ls, st⟩ = .ends .stuck := by
        rw [hnext, enterCall, hs]
        simp [hp]
      rw [wp_ends hn (by simp)]
      simp [Post.holds]
    | some p =>
      obtain ⟨args, below⟩ := p
      simp only [Calls]
      have hn := hnext
      rw [enterCall, hs] at hn
      simp only [hp] at hn
      cases hc : m.callee? func with
      | none =>
        rw [hc] at hn
        exact wp_ends hn (by simp)
      | some callee =>
        cases callee with
        | host name f =>
          simp only [hc] at hn ⊢
          cases hf : f ⟨h, w, 0⟩ args with
          | results vs w' =>
            rw [hf] at hn
            exact wp_go hn
          | failed message =>
            rw [hf] at hn
            exact wp_ends hn (by simp)
          | malformed =>
            rw [hf] at hn
            exact wp_ends hn (by simp)
        | code name results locals body =>
          simp only [hc] at hn ⊢
          split <;> rename_i hfull
          · rw [if_pos hfull] at hn
            exact wp_ends hn (by simp)
          · rw [if_neg hfull] at hn
            exact wp_enter hn

end Instructions

end Processor

end HeapScript.Machine
