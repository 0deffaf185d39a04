import HeapScript.Proofs.Machine.Outcome

/-!
# The instruction budget

The counter of instructions goes up by one with every instruction, whichever activation executes
it, and a budget is looked at nowhere else. So a run with a budget is the run without one as long as
the counter lets it go on, and is then cut off.
-/

namespace HeapScript.Machine

variable {ω : Type}

/-- A function of the host leaves the instruction counter alone and only adds to what the host has. -/
def HostFunc.Adds (R : ω → ω → Prop) (f : HostFunc ω) : Prop :=
  ∀ (w w' : World ω) (args vs : List Val), f w args = .results vs w' →
    w'.steps = w.steps ∧ R w.host w'.host

/-- The host of a machine only ever adds to what it has. -/
structure Processor.Adds (m : Processor ω) (R : ω → ω → Prop) : Prop where
  refl : ∀ a, R a a
  trans : ∀ a b c, R a b → R b c → R a c
  host : ∀ func run, at? m.links func = some (.host run) → run.Adds R

def Step.world : Step ω → World ω
  | .next t => t.world
  | .done _ w => w

/-- The world after a number of steps. -/
def Progress.world : Progress ω → World ω
  | .running t => t.world
  | .done _ w => w

/-- The number of activations that are open after a step. -/
def Step.active : Step ω → Nat
  | .next t => t.callers.length + 1
  | .done .. => 0

/-- A step leaves the counter alone, and the host only adds to what it has. -/
def Step.Keeps (R : ω → ω → Prop) (w : World ω) (r : Step ω) : Prop :=
  r.world.steps = w.steps ∧ R w.host r.world.host

/-- A step leaves all but the heap and the running activation alone. -/
def Step.Quiet (s : State ω) : Step ω → Prop
  | .next t => t.steps = s.steps ∧ t.host = s.host ∧ t.callers = s.callers
  | .done _ w => w.steps = s.steps ∧ w.host = s.host

namespace Processor

variable {m : Processor ω} {s : State ω}

/-! ## Single instructions -/

/-- An instruction that only computes stays within the running activation. -/
theorem quiet_computes (s : State ω) {i : Instr} (hi : i.computes = true) :
    (m.exec s i).Quiet s := by
  have ha := agrees_exec m s hi
  cases hx : m.exec (cfg s).state i with
  | next t =>
    rw [hx] at ha
    obtain ⟨-, spent, hs⟩ := ha
    rw [hs]
    exact ⟨rfl, rfl, rfl⟩
  | done e w =>
    rw [hx] at ha
    have hs : ∃ e', m.exec s i = .done e' s.world := by
      cases e <;> exact ⟨_, ha⟩
    obtain ⟨e', hs⟩ := hs
    rw [hs]
    exact ⟨rfl, rfl⟩

theorem quiet_branchTo (s : State ω) (depth : Int) (stack spent : List Val) :
    (branchTo s depth stack spent).Quiet s := by
  unfold branchTo
  split
  · exact ⟨rfl, rfl, rfl⟩
  · exact ⟨rfl, rfl⟩

theorem quiet_execControl (s : State ω) (i : Instr) : (execControl s i).Quiet s := by
  simp only [execControl.eq_def]
  repeat' split
  all_goals first | exact quiet_branchTo .. | exact ⟨rfl, rfl, rfl⟩ | exact ⟨rfl, rfl⟩

/-! ## Calls and returns -/

section Keeps

variable {R : ω → ω → Prop}

theorem keeps_of_quiet (hm : m.Adds R) {r : Step ω} (h : r.Quiet s) :
    r.Keeps R s.world ∧ r.active ≤ s.callers.length + 1 := by
  have hhost (w : World ω) (hw : w.host = s.host) : R s.host w.host := by
    rw [hw]
    exact hm.refl _
  cases r with
  | next t => exact ⟨⟨h.1, hhost t.world h.2.1⟩, Nat.le_of_eq (congrArg (·.length + 1) h.2.2)⟩
  | done e w => exact ⟨⟨h.1, hhost w h.2⟩, Nat.zero_le _⟩

theorem deliver_keeps (hm : m.Adds R) (results : List Val) (w : World ω) (depth : Nat)
    (callers : List Frame) :
    (deliver results w depth callers).Keeps R w ∧
      (deliver results w depth callers).active ≤ callers.length := by
  cases callers with
  | nil => exact ⟨⟨rfl, hm.refl _⟩, Nat.zero_le _⟩
  | cons f callers => exact ⟨⟨rfl, hm.refl _⟩, Nat.le_refl _⟩

theorem leave_keeps (hm : m.Adds R) (s : State ω) :
    (leave s).Keeps R s.world ∧ (leave s).active ≤ s.callers.length := by
  unfold leave
  dsimp only
  split
  · exact ⟨⟨rfl, hm.refl _⟩, Nat.zero_le _⟩
  · exact deliver_keeps hm ..

theorem enter_keeps (hm : m.Adds R) (func : Int) (args : List Val) (w : World ω) (depth : Nat)
    (callers : List Frame) :
    (m.enter func args w depth callers).Keeps R w ∧
      (m.enter func args w depth callers).active ≤ callers.length + 1 := by
  have hstop (e : Ending) : (Step.done e w).Keeps R w ∧
      (Step.done e w).active ≤ callers.length + 1 :=
    ⟨⟨rfl, hm.refl _⟩, Nat.zero_le _⟩
  unfold enter
  split
  · exact hstop _
  split
  · exact hstop _
  split
  · exact hstop _
  · split
    · rename_i run hlink
      split
      · rename_i vs w' hrun
        obtain ⟨hsteps, hhost⟩ := hm.host func run hlink _ _ _ _ hrun
        obtain ⟨⟨hsteps', hhost'⟩, hlen⟩ := deliver_keeps hm vs w' depth callers
        exact ⟨⟨hsteps'.trans hsteps, hm.trans _ _ _ hhost hhost'⟩, Nat.le_succ_of_le hlen⟩
      · exact hstop _
      · exact hstop _
    · exact hstop _
  · split
    · exact hstop _
    · split
      · exact ⟨⟨rfl, hm.refl _⟩, Nat.le_refl _⟩
      · exact hstop _

theorem execCall_keeps (hm : m.Adds R) (s : State ω) (func : Int) :
    (m.execCall s func).Keeps R s.world ∧
      (m.execCall s func).active ≤ s.callers.length + 2 := by
  have hstop : s.malformed.Keeps R s.world ∧ s.malformed.active ≤ s.callers.length + 2 :=
    ⟨⟨rfl, hm.refl _⟩, Nat.zero_le _⟩
  unfold execCall
  split
  · exact hstop
  · dsimp only
    split
    · exact hstop
    · exact enter_keeps hm ..

/-- An instruction leaves the counter alone and opens at most one activation. -/
theorem exec_keeps (hm : m.Adds R) (s : State ω) (i : Instr) :
    (m.exec s i).Keeps R s.world ∧ (m.exec s i).active ≤ s.callers.length + 2 := by
  have hquiet {r : Step ω} (h : r.Quiet s) :
      r.Keeps R s.world ∧ r.active ≤ s.callers.length + 2 :=
    (keeps_of_quiet hm h).imp_right Nat.le_succ_of_le
  cases hi : i.computes with
  | true => exact hquiet (quiet_computes s hi)
  | false =>
    cases i with
    | ret =>
      obtain ⟨hk, hlen⟩ := leave_keeps hm s
      exact ⟨hk, hlen.trans (by omega)⟩
    | call func => exact execCall_keeps hm s func
    | block | loop | branchIf | otherwise | close | br | brIf =>
      simp only [exec.eq_def]
      exact hquiet (quiet_execControl s _)
    | _ => cases hi

/-! ## Steps with a budget -/

/-- The machine with another budget, 0 for none. -/
def within (m : Processor ω) (n : Nat) : Processor ω := { m with maxSteps := n }

theorem Adds.within (hm : m.Adds R) (n : Nat) : (m.within n).Adds R := ⟨hm.refl, hm.trans, hm.host⟩

theorem exec_within (n : Nat) (s : State ω) (i : Instr) : (m.within n).exec s i = m.exec s i := by
  cases i <;> rfl

theorem step_end (h : s.frame.code[s.frame.pc]? = none) : m.step s = leave s := by
  rw [step, h]

/-- A budget lets a step be if the counter is below it, and every return at the end of a body. -/
theorem step_within {n : Nat} (h : s.frame.code[s.frame.pc]? = none ∨ s.steps < n) :
    (m.within n).step s = (m.within 0).step s := by
  rcases h with h | h
  · rw [step_end h, step_end h]
  · have hn : (m.within n).exhausted (s.steps + 1) = false := by
      simp [exhausted, within]
      omega
    have h0 : (m.within 0).exhausted (s.steps + 1) = false := by
      simp [exhausted, within]
    cases hi : s.frame.code[s.frame.pc]? with
    | none => rw [step_end hi, step_end hi]
    | some i => simp only [step, hi, hn, h0, exec_within]

theorem step_counts (hm : m.Adds R) {i : Instr} (hi : s.frame.code[s.frame.pc]? = some i) :
    (m.step s).Keeps R (tick s).world ∧ (m.step s).active ≤ s.callers.length + 2 := by
  simp only [step, hi]
  split
  · exact ⟨⟨rfl, hm.refl _⟩, Nat.zero_le _⟩
  · exact exec_keeps hm (tick s) i

/-- A step never sets the counter back, and the host only adds to what it has. -/
theorem step_grows (hm : m.Adds R) (s : State ω) :
    s.steps ≤ (m.step s).world.steps ∧ R s.host (m.step s).world.host := by
  cases hi : s.frame.code[s.frame.pc]? with
  | none =>
    rw [step_end hi]
    obtain ⟨⟨hsteps, hhost⟩, -⟩ := leave_keeps hm s
    exact ⟨Nat.le_of_eq hsteps.symm, hhost⟩
  | some i =>
    obtain ⟨⟨hsteps, hhost⟩, -⟩ := step_counts hm hi
    rw [hsteps]
    exact ⟨Nat.le_succ s.steps, hhost⟩

/-! ## Runs with a budget -/

theorem runFor_grows (hm : m.Adds R) (k : Nat) (s : State ω) :
    s.steps ≤ (m.runFor k s).world.steps ∧ R s.host (m.runFor k s).world.host := by
  induction k generalizing s with
  | zero => exact ⟨Nat.le_refl _, hm.refl _⟩
  | succ k ih =>
    obtain ⟨hsteps, hhost⟩ := step_grows hm s
    rw [runFor]
    cases hstep : m.step s with
    | next t =>
      rw [hstep] at hsteps hhost
      obtain ⟨hsteps', hhost'⟩ := ih t
      exact ⟨hsteps.trans hsteps', hm.trans _ _ _ hhost hhost'⟩
    | done e w =>
      rw [hstep] at hsteps hhost
      exact ⟨hsteps, hhost⟩

theorem Steps.grows (hm : m.Adds R) {j : Nat} {t : State ω} (h : Steps m j s t) :
    s.steps ≤ t.steps := by
  have hrun := runFor_grows hm (j + 0) s
  rw [h.runFor] at hrun
  exact hrun.1

/-- A run that the counter lets go on is the same with a budget. -/
theorem Steps.within (hm : m.Adds R) {j n : Nat} {t : State ω} (h : Steps (m.within 0) j s t)
    (hn : t.steps ≤ n) : Steps (m.within n) j s t := by
  induction h with
  | refl => exact .refl _
  | @step j s s' t hs hrest ih =>
    refine .step ?_ (ih hn)
    rw [step_within, hs]
    cases hi : s.frame.code[s.frame.pc]? with
    | none => exact .inl rfl
    | some i =>
      obtain ⟨⟨hsteps, -⟩, -⟩ := step_counts (hm.within 0) hi
      rw [hs] at hsteps
      have hlast := hrest.grows (hm.within 0)
      refine .inr (Nat.lt_of_lt_of_le ?_ hn)
      exact Nat.lt_of_lt_of_le (Nat.lt_of_succ_le (Nat.le_of_eq hsteps.symm)) hlast

/-- A run with a budget is cut off in front of an instruction that it would reach without one. -/
def Cut (m : Processor ω) (n : Nat) (s : State ω) (e : Ending) (w : World ω) : Prop :=
  ∃ j t i, Steps (m.within 0) j s t ∧ t.steps = n ∧ t.frame.code[t.frame.pc]? = some i ∧
    e = .trapped ⟨t.frame.func, t.frame.pc, .stepLimit⟩ ∧ w = (tick t).world

/-- With a larger budget or none a run that is cut off goes on: it has the same behind it, and ends
only after further instructions. -/
theorem Cut.later (hm : m.Adds R) {n n' : Nat} {e : Ending} {w : World ω} (h : m.Cut n s e w)
    (hn' : n' = 0 ∨ n < n') : ∃ j, (∀ k ≥ j, R w.host ((m.within n').runFor k s).world.host) ∧
      ∀ k e' w', (m.within n').runFor k s = .done e' w' → j ≤ k ∧ n < w'.steps := by
  obtain ⟨j, t, instr, ht, hsteps, hi, -, rfl⟩ := h
  have ht' : Steps (m.within n') j s t := by
    rcases hn' with rfl | hn'
    · exact ht
    · exact ht.within hm (hsteps ▸ Nat.le_of_lt hn')
  refine ⟨j, fun k hk => ?_, fun i e' w' hrun => ?_⟩
  · obtain ⟨k, rfl⟩ := Nat.exists_eq_add_of_le hk
    rw [ht'.runFor]
    exact (runFor_grows (hm.within n') k t).2
  · have hlt : j < i := by
      by_contra hle
      obtain ⟨u, hu⟩ := runFor_running ht' (Nat.le_of_not_lt hle)
      cases hu.symm.trans hrun
    obtain ⟨k, rfl⟩ := Nat.exists_eq_add_of_lt hlt
    rw [Nat.add_assoc, ht'.runFor, runFor] at hrun
    refine ⟨Nat.le_of_lt hlt, ?_⟩
    obtain ⟨⟨hcount, -⟩, -⟩ := step_counts (hm.within n') hi
    replace hcount : ((m.within n').step t).world.steps = n + 1 := hsteps ▸ hcount
    cases hstep : (m.within n').step t with
    | next u =>
      rw [hstep] at hrun hcount
      have hgrows := (runFor_grows (hm.within n') k u).1
      simp only [hrun, Progress.world] at hgrows
      exact Nat.lt_of_lt_of_le (Nat.lt_of_succ_le (Nat.le_of_eq hcount.symm)) hgrows
    | done e₁ w₁ =>
      rw [hstep] at hrun hcount
      cases hrun
      exact Nat.lt_of_succ_le (Nat.le_of_eq hcount.symm)

/-! ## Calls with a budget -/

variable {w : World ω} {func : Int} {args : List Val}

end Keeps

end Processor

end HeapScript.Machine
