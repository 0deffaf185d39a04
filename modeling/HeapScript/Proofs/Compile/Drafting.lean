import HeapScript.Proofs.Library.Installed

/-!
# Steps of drafting a function

A step of drafting either gives a result and a new draft or fails. `Gen.Runs` says the former, and
its rules take a step apart into the steps it is made of. `Gen.Gives` says something of every
result that a step can give.
-/

namespace HeapScript.Compile.Gen

variable {α β : Type}

def step (x : Gen α) (d : Draft) : Except Diagnostic α × Draft := x.run.run d

/-- A step of drafting gives a result and a new draft. -/
def Runs (x : Gen α) (d : Draft) (a : α) (d' : Draft) : Prop := step x d = (.ok a, d')

variable {x : Gen α} {f : α → Gen β} {d d' : Draft} {a : α} {b : β}

theorem step_bind (x : Gen α) (f : α → Gen β) (d : Draft) :
    step (x >>= f) d = match step x d with
      | (.ok a, d') => step (f a) d'
      | (.error e, d') => (.error e, d') := by
  have h : step (x >>= f) d = (match x.run.run d with
      | (.ok a, d') => step (f a) d'
      | (.error e, d') => (.error e, d') : Except Diagnostic β × Draft) := by
    unfold step
    rw [ExceptT.run_bind, StateT.run_bind]
    rcases x.run.run d with ⟨r | a, d'⟩ <;> rfl
  exact h

@[simp] theorem runs_pure {a' : α} : Runs (pure a) d a' d' ↔ a = a' ∧ d = d' := by
  have h : step (pure a : Gen α) d = (.ok a, d) := rfl
  simp [Runs, h]

@[simp] theorem runs_bind :
    Runs (x >>= f) d b d' ↔ ∃ a d₁, Runs x d a d₁ ∧ Runs (f a) d₁ b d' := by
  simp only [Runs, step_bind]
  rcases h : step x d with ⟨r | a, d₁⟩ <;> simp

@[simp] theorem runs_get {s : Draft} : Runs get d s d' ↔ s = d ∧ d' = d := by
  have h : step (get : Gen Draft) d = (.ok d, d) := rfl
  simp [Runs, h, eq_comm]

@[simp] theorem runs_set {s : Draft} {u : Unit} : Runs (set s) d u d' ↔ d' = s := by
  have h : step (set s : Gen Unit) d = (.ok (), s) := rfl
  simp [Runs, h, eq_comm]

@[simp] theorem runs_modify {g : Draft → Draft} {u : Unit} :
    Runs (modify g) d u d' ↔ d' = g d := by
  have h : step (modify g : Gen Unit) d = (.ok (), g d) := rfl
  simp [Runs, h, eq_comm]

@[simp] theorem runs_fail {e : Diagnostic} : ¬ Runs (fail e : Gen α) d a d' := by
  have h : step (fail e : Gen α) d = (.error e, d) := rfl
  simp [Runs, h]

/-! ## Results -/

/-- Every result of a step has a property. -/
def Gives (x : Gen α) (P : α → Prop) : Prop := ∀ d a d', Runs x d a d' → P a

theorem gives_any (x : Gen α) : Gives x fun _ => True := fun _ _ _ _ => trivial

theorem gives_pure {P : α → Prop} (h : P a) : Gives (pure a) P := by
  intro d b d' hr
  rw [runs_pure] at hr
  exact hr.1 ▸ h

theorem gives_bind {P : α → Prop} {Q : β → Prop} (hx : Gives x P)
    (hf : ∀ a, P a → Gives (f a) Q) : Gives (x >>= f) Q := by
  intro d b d' hr
  rw [runs_bind] at hr
  obtain ⟨a, d₁, ha, hb⟩ := hr
  exact hf a (hx d a d₁ ha) d₁ b d' hb

/-- A step whose result does not matter. -/
theorem gives_then {Q : β → Prop} (hf : ∀ a, Gives (f a) Q) : Gives (x >>= f) Q :=
  gives_bind (gives_any x) fun a _ => hf a

end HeapScript.Compile.Gen

namespace HeapScript.Compile

theorem operand_emit (c : Context) (e : Expr) (d : Demand) : (operand c e).emit d = emit c e d := rfl

end HeapScript.Compile
