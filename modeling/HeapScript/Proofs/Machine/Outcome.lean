import HeapScript.Proofs.Machine.Adequacy

/-!
# Outcomes of calls

What the rules for activations say of a call that the host makes.
-/

namespace HeapScript.Machine

variable {ω : Type}

/-- Whether the end of a call is as asked. -/
def Post.accepts (Q : Post ω) (w : World ω) : Ending → Prop
  | .returned vs => Q.returned vs w.heap w.host
  | .trapped t => Q.trapped t.func t.reason w.heap w.host
  | .malformed => False

namespace Processor

variable {m : Processor ω}

/-- A call ends in some way after some number of steps. -/
def Ends (m : Processor ω) (w : World ω) (func : Int) (args : List Val) (ending : Ending)
    (w' : World ω) : Prop :=
  ∃ n, m.callFor n w func args = .ok (.done ending w')

theorem runFor_done {k : Nat} {s s' : State ω} {ending : Ending} {w : World ω}
    (hs : Steps m k s s') (hd : m.step s' = .done ending w) :
    m.runFor (k + 1) s = .done ending w := by
  rw [hs.runFor, runFor, hd]

theorem runFor_running {k j : Nat} {s s' : State ω} (hs : Steps m k s s') (hj : j ≤ k) :
    ∃ t, m.runFor j s = .running t := by
  induction hs generalizing j with
  | refl =>
    obtain rfl := Nat.le_zero.mp hj
    exact ⟨_, rfl⟩
  | step h _ ih =>
    cases j with
    | zero => exact ⟨_, rfl⟩
    | succ j =>
      rw [runFor, h]
      exact ih (Nat.le_of_succ_le_succ hj)

theorem runFor_mono {n k : Nat} {s : State ω} {ending : Ending} {w : World ω} (hn : n ≤ k)
    (h : m.runFor n s = .done ending w) : m.runFor k s = .done ending w := by
  induction n generalizing k s with
  | zero => cases h
  | succ n ih =>
    obtain ⟨k, rfl⟩ := Nat.exists_eq_add_one_of_ne_zero (n := k) (by omega)
    rw [runFor] at h ⊢
    split at h
    · exact ih (by omega) h
    · exact h

theorem start_eq {func : Int} {args : List Val} {type : TypeDef} (w : World ω)
    (hs : m.program.signature? func = some type) (ha : type.params.length = args.length) :
    m.start w func args = .ok (m.enter func args w 0 []) := by
  have hf : ∃ f, at? m.program.funcs func = some f := by
    simp only [Module.signature?, Option.bind_eq_bind, Option.bind_eq_some_iff] at hs
    obtain ⟨f, hf, -⟩ := hs
    exact ⟨f, hf⟩
  obtain ⟨f, hf⟩ := hf
  simp only [start, hf, hs, ha, if_true]

/-- An activation that is entered by a call ends as its run does. -/
theorem Does.callFor {n : Nat} {w : World ω} {func : Int} {args : List Val} {s : State ω}
    {Q : Post ω} {f : Final ω} (hs : m.start w func args = .ok (.next s)) (hc : s.callers = [])
    (hd : Does m n s f) (hf : Q.holds f) :
    ∃ ending w', m.Ends w func args ending w' ∧ Q.accepts w' ending := by
  cases f with
  | returned vs heap host =>
    obtain ⟨k, t, steps, ht, hlast⟩ := hd
    rw [hc] at hlast
    refine ⟨.returned vs, ⟨heap, host, steps⟩, ⟨k + 1, ?_⟩, hf⟩
    simp only [Processor.callFor, hs, runFor_done ht hlast]
  | trapped name reason heap host =>
    obtain ⟨k, t, pc, steps, ht, hlast⟩ := hd
    refine ⟨.trapped ⟨name, pc, reason⟩, ⟨heap, host, steps⟩, ⟨k + 1, ?_⟩, hf⟩
    simp only [Processor.callFor, hs, runFor_done ht hlast]
  | more | stuck => exact hf.elim

/-- A call ends as the rules say, or goes on for as long as they say. -/
theorem Calls.outcome (hl : Linked m) {w : World ω} {func : Int} {args : List Val}
    {type : TypeDef} {Q : Post ω} (hs : m.program.signature? func = some type)
    (ha : type.params.length = args.length) (h : m.Calls 0 func args w.heap w.host Q) :
    (∃ ending w', m.Ends w func args ending w' ∧ Q.accepts w' ending) ∨
      ∃ n s, Q.fuel = some n ∧ m.callFor (n - 1) w func args = .ok (.running s) := by
  have hstart := start_eq w hs ha
  unfold Calls at h
  split at h
  · rename_i name f hc
    rw [enter_host hl hc] at hstart
    refine .inl ?_
    split at h
    · rename_i vs w' hf
      refine ⟨.returned vs, { w' with steps := w.steps }, ⟨0, ?_⟩, h⟩
      simp only [Processor.callFor, hstart, hf, deliver]
    · rename_i message hf
      refine ⟨.trapped ⟨name, 0, .host message⟩, w, ⟨0, ?_⟩, h⟩
      simp only [Processor.callFor, hstart, hf]
    · exact h.elim
  · rename_i name results zeros body hc
    split at h <;> rename_i hfull
    · rw [enter_full hc hfull] at hstart
      refine .inl ⟨.trapped ⟨name, 0, .callStackExhausted⟩, w, ⟨0, ?_⟩, h⟩
      simp only [Processor.callFor, hstart]
    · obtain ⟨s, hs', hold, hcallers⟩ :=
        enter_code (w := w) hl args [] hc (Bool.eq_false_iff.mpr hfull)
      rw [hs'] at hstart
      rcases h with h0 | ⟨n, hn⟩ | ⟨n, hfuel, hn⟩
      · exact .inr ⟨0, s, h0, by simp only [Processor.callFor, hstart]; rfl⟩
      · rw [Post.later_holds] at hn
        exact .inl ((run_does hl n hold).callFor hstart hcallers hn)
      · obtain ⟨k, hk, rfl⟩ := Option.map_eq_some_iff.1 hfuel
        have hdoes := run_does hl (k - 1) hold
        rw [hn] at hdoes
        obtain ⟨j, t, hj, ht⟩ := hdoes
        obtain ⟨t', ht'⟩ := runFor_running ht hj
        exact .inr ⟨k, t', hk, by simp only [Processor.callFor, hstart, ht']⟩
  · exact h.elim

/-- A call ends in one way. -/
theorem Ends.unique {w w₁ w₂ : World ω} {func : Int} {args : List Val} {e₁ e₂ : Ending}
    (h₁ : m.Ends w func args e₁ w₁) (h₂ : m.Ends w func args e₂ w₂) : e₁ = e₂ ∧ w₁ = w₂ := by
  obtain ⟨n₁, h₁⟩ := h₁
  obtain ⟨n₂, h₂⟩ := h₂
  unfold callFor at h₁ h₂
  cases hs : m.start w func args with
  | error e =>
    rw [hs] at h₁
    cases h₁
  | ok step =>
    rw [hs] at h₁ h₂
    cases step with
    | done e w' =>
      cases h₁
      cases h₂
      exact ⟨rfl, rfl⟩
    | next s =>
      have h₁' := runFor_mono (Nat.le_max_left n₁ n₂) (Except.ok.inj h₁)
      have h₂' := runFor_mono (Nat.le_max_right n₁ n₂) (Except.ok.inj h₂)
      rw [h₁'] at h₂'
      cases h₂'
      exact ⟨rfl, rfl⟩

/-- A call that is not allowed to go on ends as the rules say. -/
theorem Calls.ends (hl : Linked m) {w : World ω} {func : Int} {args : List Val}
    {type : TypeDef} {Q : Post ω} (hs : m.program.signature? func = some type)
    (ha : type.params.length = args.length) (hq : Q.fuel = none)
    (h : m.Calls 0 func args w.heap w.host Q) :
    ∃ ending w', m.Ends w func args ending w' ∧ Q.accepts w' ending := by
  rcases h.outcome hl hs ha with hends | ⟨n, s, hfuel, -⟩
  · exact hends
  · rw [hq] at hfuel
    cases hfuel

end Processor

end HeapScript.Machine
