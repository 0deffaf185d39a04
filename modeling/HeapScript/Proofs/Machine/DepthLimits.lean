import HeapScript.Proofs.Machine.Rules

/-!
# The bound on open activations

A machine looks at its bound on open activations only when a call is about to open one. So its runs
are those of the same machine without a bound, up to a call that the bound refuses.
-/

namespace HeapScript.Machine

variable {ω : Type}

/-- The same demand, or that a call is refused. -/
def Post.orRefused (Q : Post ω) : Post ω :=
  { Q with trapped := fun f t heap host => Q.trapped f t heap host ∨ t = .callStackExhausted }

namespace Processor

variable {m : Processor ω} {a : Act} {code : List Instr} {conts : List Cont} {c : Cfg ω}

/-- The machine without a bound on its open activations. -/
def unbounded (m : Processor ω) : Processor ω := { m with maxDepth := 0 }

/-- A run that ends because a call is refused. -/
def Refused (f : Final ω) : Prop :=
  ∃ func heap host, f = .trapped func .callStackExhausted heap host

theorem unbounded_full (m : Processor ω) (depth : Nat) : m.unbounded.full depth = false := by
  simp [full, unbounded]

theorem enterCall_limited (func : Int) :
    m.enterCall a func code conts c = m.unbounded.enterCall a func code conts c ∨
      ∃ f, m.enterCall a func code conts c = .ends f ∧ Refused f := by
  have hcallee : m.unbounded.callee? func = m.callee? func := rfl
  have hprogram : m.unbounded.program = m.program := rfl
  unfold enterCall
  rw [hcallee, hprogram]
  split
  · exact .inl rfl
  · split
    · exact .inl rfl
    · rw [unbounded_full, if_neg Bool.false_ne_true]
      split
      · exact .inr ⟨_, rfl, _, _, _, rfl⟩
      · exact .inl rfl
    · exact .inl rfl

theorem next_limited (m : Processor ω) (a : Act) (code : List Instr) (conts : List Cont) (c : Cfg ω) :
    m.next a code conts c = m.unbounded.next a code conts c ∨
      ∃ f, m.next a code conts c = .ends f ∧ Refused f := by
  cases code with
  | nil => cases conts <;> exact .inl rfl
  | cons i rest =>
    cases i with
    | call func => exact enterCall_limited func
    | _ => exact .inl rfl

/-- A step that does not end the run is one without the bound. -/
theorem next_unbounded {x : Next ω} (hn : m.next a code conts c = x) (hx : ∀ f, x ≠ .ends f) :
    m.unbounded.next a code conts c = x := by
  rcases next_limited m a code conts c with h | ⟨f, h, -⟩
  · exact h.symm.trans hn
  · exact absurd (hn.symm.trans h) (hx f)

/-- A run is the run without the bound, unless a call is refused. -/
theorem run_limited (n : Nat) (m : Processor ω) (a : Act) (code : List Instr) (conts : List Cont)
    (c : Cfg ω) :
    m.run n a code conts c = m.unbounded.run n a code conts c ∨ Refused (m.run n a code conts c) := by
  fun_induction run m n a code conts c with
  | case1 n a code conts c code' conts' c' hn ih =>
    rw [run_go (next_unbounded hn (by simp))]
    exact ih
  | case2 a code conts c code' conts' c' hn =>
    exact .inl (run_again_zero (next_unbounded hn (by simp))).symm
  | case3 a code conts c code' conts' c' hn n ih =>
    rw [run_again_succ (next_unbounded hn (by simp))]
    exact ih
  | case4 n a code conts c f hn =>
    rcases next_limited m a code conts c with h | ⟨f', h, hf⟩
    · exact .inl (run_ends (h.symm.trans hn)).symm
    · cases hn.symm.trans h
      exact .inr hf
  | case5 a code conts c inner body ci rest locals stack hn =>
    exact .inl (run_enter_zero (next_unbounded hn (by simp))).symm
  | case6 a code conts c inner body ci rest locals stack hn n vs heap host hr ihi iho =>
    rw [run_enter_succ (next_unbounded hn (by simp))]
    rw [hr] at ihi
    rcases ihi with ihi | ⟨_, _, _, hf⟩
    · rw [← ihi]
      exact iho
    · cases hf
  | case7 a code conts c inner body ci rest locals stack hn n hr ihi =>
    rw [run_enter_succ (next_unbounded hn (by simp))]
    rcases ihi with ihi | ihi
    · left
      rw [← ihi]
      split
      · rename_i vs heap host hv
        exact absurd hv (hr vs heap host)
      · rfl
    · exact .inr ihi

/-- What a call does without the bound it does with it, unless it is refused. -/
theorem Calls.limited {depth : Nat} {func : Int} {args : List Val} {heap : Heap} {host : ω}
    {Q : Post ω} (hq : Q.fuel = none) (hc : m.unbounded.Calls depth func args heap host Q) :
    m.Calls depth func args heap host Q.orRefused := by
  have hcallee : m.unbounded.callee? func = m.callee? func := rfl
  unfold Calls at *
  rw [hcallee] at hc
  split at hc
  · split at hc
    · exact hc
    · exact .inl hc
    · exact hc.elim
  · rw [unbounded_full, if_neg Bool.false_ne_true] at hc
    split
    · exact .inr rfl
    · right
      rcases hc with hc | ⟨n, hn⟩ | ⟨n, hn, -⟩
      · cases hq.symm.trans hc
      · refine .inl ⟨n, ?_⟩
        rw [Post.later_holds] at hn ⊢
        rcases run_limited n m _ _ [] _ with hr | ⟨_, _, _, hr⟩
        · rw [hr]
          revert hn
          cases m.unbounded.run n _ _ [] _ with
          | trapped => exact .inl
          | returned | more | stuck => exact id
        · rw [hr]
          exact .inr rfl
      · rw [Post.later, hq] at hn
        cases hn
  · exact hc.elim

end Processor

end HeapScript.Machine
