import HeapScript.Proofs.Machine.Activation

/-!
# Positions

Where the code that an activation still has to execute stands in the body of its function, and
which labels the machine holds there.
-/

namespace HeapScript.Machine

/-! ## Code and labels -/

/-- The end of the code inside a construct: its `end`, or the `else` in front of another part. -/
def Exits (body : List Instr) (q finish : Nat) : Prop :=
  (body[q]? = some .close ∧ q = finish) ∨
    (body[q]? = some .otherwise ∧ body[finish]? = some .close)

/-- Code that stands at a position of a body, inside constructs with these labels. -/
inductive Stands (body : List Instr) (blocks : Array Block) :
    Nat → List Instr → List Cont → List Label → Prop
  | outside {p : Nat} {code : List Instr} (hm : Marked blocks p code) (hd : body.drop p = code) :
    Stands body blocks p code [] []
  | block {p : Nat} {code rest : List Instr} {conts : List Cont} {labels : List Label}
    {start finish height arity : Nat} (hm : Marked blocks p code) (hd : code <+: body.drop p)
    (hx : Exits body (p + code.length) finish) (ha : arity ≤ 1)
    (hr : Stands body blocks (finish + 1) rest conts labels) :
    Stands body blocks p code (.block rest height arity :: conts)
      (⟨false, start, finish, height, arity⟩ :: labels)
  | loop {p : Nat} {code inner rest : List Instr} {conts : List Cont} {labels : List Label}
    {start finish height : Nat} (hm : Marked blocks p code) (hd : code <+: body.drop p)
    (hx : Exits body (p + code.length) finish)
    (hm' : Marked blocks (start + 1) inner) (hd' : inner <+: body.drop (start + 1))
    (hx' : Exits body (start + 1 + inner.length) finish)
    (hr : Stands body blocks (finish + 1) rest conts labels) :
    Stands body blocks p code (.loop inner rest height :: conts)
      (⟨true, start, finish, height, 0⟩ :: labels)

namespace Stands

variable {body : List Instr} {blocks : Array Block} {p : Nat} {i : Instr} {code rest : List Instr}
  {conts : List Cont} {labels : List Label}

theorem marked (h : Stands body blocks p code conts labels) : Marked blocks p code := by
  cases h with
  | outside hm | block hm | loop hm => exact hm

theorem isPrefix (h : Stands body blocks p code conts labels) : code <+: body.drop p := by
  cases h with
  | outside _ hd => exact hd ▸ List.prefix_rfl
  | block _ hd | loop _ hd => exact hd

theorem head (h : Stands body blocks p (i :: rest) conts labels) : body[p]? = some i := by
  obtain ⟨more, hmore⟩ := h.isPrefix
  have := congrArg (·[0]?) hmore
  simpa using this.symm

/-- The code behind a first part of the code stands behind it. -/
theorem advance (front : List Instr) (h : Stands body blocks p (front ++ rest) conts labels)
    (hm : Marked blocks (p + front.length) rest) :
    Stands body blocks (p + front.length) rest conts labels := by
  have hp (hd : front ++ rest <+: body.drop p) :
      rest <+: body.drop (p + front.length) := by
    obtain ⟨more, hmore⟩ := hd
    refine ⟨more, ?_⟩
    rw [← List.drop_drop, ← hmore, List.append_assoc, List.drop_left]
  cases h with
  | outside _ hd =>
    refine .outside hm ?_
    rw [← List.drop_drop, hd, List.drop_left]
  | block _ hd hx ha hr =>
    refine .block hm (hp hd) ?_ ha hr
    rwa [List.length_append, ← Nat.add_assoc] at hx
  | loop _ hd hx hm' hd' hx' hr =>
    refine .loop hm (hp hd) ?_ hm' hd' hx' hr
    rwa [List.length_append, ← Nat.add_assoc] at hx

/-- Behind an instruction that opens no construct. -/
theorem tail (hi : i.isPlain = true) (h : Stands body blocks p (i :: rest) conts labels) :
    Stands body blocks (p + 1) rest conts labels := by
  refine advance [i] h ?_
  cases h.marked with
  | plain _ hr => exact hr
  | block | loop | branch | choice => cases hi

/-- The constructs around the code are those of the labels. -/
theorem drop (h : Stands body blocks p code conts labels) (d : Nat) {k : Cont} {outer : List Cont}
    (hk : conts.drop d = k :: outer) :
    ∃ label outerLabels p' code', labels.drop d = label :: outerLabels ∧
      Stands body blocks p' code' (k :: outer) (label :: outerLabels) := by
  induction d generalizing p code conts labels with
  | zero =>
    rw [List.drop_zero] at hk
    subst hk
    cases h with
    | block hm hd hx ha hr => exact ⟨_, _, _, _, rfl, .block hm hd hx ha hr⟩
    | loop hm hd hx hm' hd' hx' hr => exact ⟨_, _, _, _, rfl, .loop hm hd hx hm' hd' hx' hr⟩
  | succ d ih =>
    cases h with
    | outside => simp at hk
    | block _ _ _ _ hr | loop _ _ _ _ _ _ hr => exact ih hr hk

end Stands

/-! ## Steps -/

/-- Whether an instruction only computes: it neither is control flow nor calls or returns. -/
def Instr.computes : Instr → Bool
  | .block _ | .loop | .branchIf _ | .otherwise | .close | .br _ | .brIf _ | .ret | .call _ => false
  | _ => true

namespace Processor

variable {ω : Type} {m : Processor ω}

/-- A number of steps of the machine. -/
inductive Steps (m : Processor ω) : Nat → State ω → State ω → Prop
  | refl (s : State ω) : Steps m 0 s s
  | step {n : Nat} {s s' s'' : State ω} (h : m.step s = .next s') (hs : Steps m n s' s'') :
    Steps m (n + 1) s s''

theorem Steps.trans {n k : Nat} {s s' s'' : State ω} (h : Steps m n s s') (h' : Steps m k s' s'') :
    Steps m (n + k) s s'' := by
  induction h with
  | refl => rwa [Nat.zero_add]
  | step hs _ ih =>
    rw [Nat.add_right_comm]
    exact .step hs (ih h')

theorem Steps.single {s s' : State ω} (h : m.step s = .next s') : Steps m 1 s s' :=
  .step h (.refl s')

theorem Steps.runFor {n k : Nat} {s s' : State ω} (h : Steps m n s s') :
    m.runFor (n + k) s = m.runFor k s' := by
  induction h with
  | refl => rw [Nat.zero_add]
  | step hs _ ih =>
    rw [Nat.add_right_comm, Processor.runFor, hs]
    exact ih

/-! ## Instructions in an activation -/

/-- What an activation computes with in a state. -/
def cfg (s : State ω) : Cfg ω := ⟨s.heap, s.host, s.frame.locals.toList, s.frame.stack⟩

/-- What an instruction does with the bare operands of a state, carried over to the state. The host
is left alone. -/
def Agrees (s : State ω) : Step ω → Step ω → Prop
  | .next t, real => t.host = s.host ∧ ∃ spent, real = .next { s with
      heap := t.heap
      frame := { s.frame with
        pc := s.frame.pc + 1, locals := t.frame.locals, stack := t.frame.stack, spent := spent } }
  | .done (.trapped t) _, real => real = s.trap t.reason
  | .done _ _, real => real = s.malformed

theorem agrees_push (s : State ω) (v : Val) : Agrees s ((cfg s).state.push v) (s.push v) :=
  ⟨rfl, _, rfl⟩

theorem agrees_replaceTop (s : State ω) (f : Val → Option Val) :
    Agrees s ((cfg s).state.replaceTop f) (s.replaceTop f) := by
  simp only [State.replaceTop, cfg, Cfg.state]
  repeat' split
  all_goals first | trivial | exact ⟨rfl, _, rfl⟩

theorem agrees_combine (s : State ω) (f : Val → Val → Option (Except TrapReason Val)) :
    Agrees s ((cfg s).state.combine f) (s.combine f) := by
  simp only [State.combine, cfg, Cfg.state]
  repeat' split
  all_goals first | trivial | exact ⟨rfl, _, rfl⟩

theorem agrees_execLocal (s : State ω) (i : Instr) :
    Agrees s (execLocal (cfg s).state i) (execLocal s i) := by
  obtain ⟨heap, host, steps, depth, f, callers⟩ := s
  simp only [execLocal.eq_def, cfg, Cfg.state, Array.toArray_toList]
  repeat' split
  all_goals first | trivial | exact ⟨rfl, _, rfl⟩

theorem agrees_execNumeric (s : State ω) (i : Instr) :
    Agrees s (execNumeric (cfg s).state i) (execNumeric s i) := by
  cases i <;> simp only [execNumeric.eq_def] <;>
    first
    | trivial
    | exact agrees_push s _
    | exact agrees_combine s _
    | exact agrees_replaceTop s _

theorem agrees_execRecord (m : Processor ω) (s : State ω) (i : Instr) :
    Agrees s (execRecord m (cfg s).state i) (execRecord m s i) := by
  obtain ⟨heap, host, steps, depth, f, callers⟩ := s
  cases i with
  | refNull => exact agrees_push _ _
  | refIsNull => exact agrees_replaceTop _ fun v => some (.ofBool v.isNull)
  | refEq => exact agrees_combine _ fun a b => some (.ok (.ofBool (a.same b)))
  | refTest | refCast | structNew | structGet | structSet =>
    simp only [execRecord.eq_def, cfg, Cfg.state, Array.toArray_toList]
    repeat' split
    all_goals first | trivial | exact ⟨rfl, _, rfl⟩
  | _ => trivial

theorem agrees_execArray (m : Processor ω) (s : State ω) (i : Instr) :
    Agrees s (execArray m (cfg s).state i) (execArray m s i) := by
  obtain ⟨heap, host, steps, depth, f, callers⟩ := s
  simp only [execArray.eq_def, execArraySet.eq_def, execArrayCopy.eq_def, cfg, Cfg.state,
    Array.toArray_toList]
  repeat' split
  all_goals first | trivial | exact ⟨rfl, _, rfl⟩

theorem agrees_exec (m : Processor ω) (s : State ω) {i : Instr} (hi : i.computes = true) :
    Agrees s (m.exec (cfg s).state i) (m.exec s i) := by
  cases i with
  | block | loop | branchIf | otherwise | close | br | brIf | ret | call => cases hi
  | unreachable | unknown => rfl
  | nop => exact ⟨rfl, _, rfl⟩
  | drop =>
    simp only [exec.eq_def, cfg, Cfg.state]
    split
    · exact ⟨rfl, _, rfl⟩
    · trivial
  | localGet | localSet | localTee =>
    simp only [exec.eq_def]
    exact agrees_execLocal s _
  | refNull | refIsNull | refEq | refTest | refCast | structNew | structGet | structSet =>
    simp only [exec.eq_def]
    exact agrees_execRecord m s _
  | arrayNewDefault | arrayNewData | arrayGet | arrayGetU | arraySet | arrayLen | arrayCopy =>
    simp only [exec.eq_def]
    exact agrees_execArray m s _
  | _ =>
    simp only [exec.eq_def]
    exact agrees_execNumeric s _

/-- An instruction that only computes does in every activation what it does with the bare
operands. -/
theorem exec_next {s : State ω} {i : Instr} (hi : i.computes = true) {c : Cfg ω}
    (h : m.effect i (cfg s) = .next c) :
    ∃ spent, m.exec s i = .next { s with
      heap := c.heap, host := c.host,
      frame := { s.frame with
        pc := s.frame.pc + 1, locals := c.locals.toArray, stack := c.stack, spent := spent } } := by
  have ha := agrees_exec m s hi
  unfold effect at h
  split at h <;> rename_i heq
  · rw [heq] at ha
    obtain ⟨hhost, spent, hs⟩ := ha
    cases h
    exact ⟨spent, by rw [hs, Array.toArray_toList, hhost]⟩
  · cases h
  · cases h

theorem exec_trap {s : State ω} {i : Instr} (hi : i.computes = true) {reason : TrapReason}
    (h : m.effect i (cfg s) = .trap reason) : m.exec s i = s.trap reason := by
  have ha := agrees_exec m s hi
  unfold effect at h
  split at h <;> rename_i heq
  · cases h
  · rw [heq] at ha
    cases h
    exact ha
  · cases h

end Processor

end HeapScript.Machine
