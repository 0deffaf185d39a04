import HeapScript.Proofs.Machine.Positions
import HeapScript.Proofs.Machine.Rules

/-!
# Runs of the machine

The run of an activation is what the machine does: it returns, traps or goes on as the run says.
-/

namespace HeapScript.Machine

namespace Processor

variable {ω : Type}

/-- A function of the host that does not look at the instruction counter and does not change it. -/
def Oblivious (f : HostFunc ω) : Prop :=
  ∀ (w : World ω) (args : List Val), f w args =
    match f { w with steps := 0 } args with
    | .results vs w' => .results vs { w' with steps := w.steps }
    | .failed message => .failed message
    | .malformed => .malformed

/-- The constructs of all code are where the machine expects them, the host is oblivious, and there
is no bound on the number of instructions. -/
structure Linked (m : Processor ω) : Prop where
  marked : ∀ func f locals instrs blocks zeros, at? m.program.funcs func = some f →
    f.body = .code locals instrs → at? m.links func = some (.code blocks zeros) →
    Marked blocks 0 instrs.toList
  oblivious : ∀ func f, at? m.links func = some (.host f) → Oblivious f
  unlimited : m.maxSteps ≤ 0

structure Holds (a : Act) (code : List Instr) (conts : List Cont) (c : Cfg ω) (s : State ω) :
    Prop where
  cfg : cfg s = c
  func : s.frame.func = a.func
  results : s.frame.results = a.results
  depth : s.depth = a.depth
  stands : Stands s.frame.code.toList s.frame.blocks s.frame.pc code conts s.frame.labels

/-! ## Jumps -/

theorem lower_fst (n : Nat) (stack spent : List Val) :
    (Frame.lower n stack spent).1 = stack.drop n := by
  induction n generalizing stack spent with
  | zero => cases stack <;> rfl
  | succ n ih =>
    cases stack with
    | nil => rfl
    | cons v stack => exact ih stack (v :: spent)

/-- A jump goes on where the branch of the machine does, in an activation that is otherwise the
same. -/
structure Lands (f f' : Frame) (code : List Instr) (conts : List Cont) (stack : List Val) :
    Prop where
  stands : Stands f'.code.toList f'.blocks f'.pc code conts f'.labels
  stack : f'.stack = stack
  locals : f'.locals = f.locals
  func : f'.func = f.func
  results : f'.results = f.results

section Jumps

variable {f : Frame} {p : Nat} {code : List Instr} {conts : List Cont}

/-- The branch of the machine does with an activation what a jump says. -/
def Branches (f : Frame) (d : Int) (c : Cfg ω) (spent : List Val) : Next ω → Prop
  | .go code conts c' | .again code conts c' => c' = { c with stack := c'.stack } ∧
    ∃ f', f.branch d c.stack spent = some f' ∧ Lands f f' code conts c'.stack
  | .ends e => e = .stuck
  | .enter .. => False

theorem branches_jump (hs : Stands f.code.toList f.blocks p code conts f.labels) (d : Int)
    (c : Cfg ω) (spent : List Val) : Branches f d c spent (jump d conts c) := by
  unfold jump
  split
  · rfl
  obtain ⟨n, rfl⟩ : ∃ n : Nat, d = n := ⟨d.toNat, by omega⟩
  rw [Int.toNat_natCast]
  split
  · rfl
  · rename_i body rest height outer hk
    split
    · rename_i hle
      obtain ⟨label, outerLabels, p', code', hl, hs'⟩ := hs.drop _ hk
      cases hs' with
      | loop hm hd hx hm' hd' hx' hr =>
        refine ⟨rfl, ?_⟩
        simp only [Frame.branch, hl, if_true, Frame.toHeight, hle]
        exact ⟨_, rfl, .loop hm' hd' hx' hm' hd' hx' hr, lower_fst _ _ _, rfl, rfl, rfl⟩
    · rfl
  · rename_i rest height arity outer hk
    split
    · rename_i hle
      obtain ⟨label, outerLabels, p', code', hl, hs'⟩ := hs.drop _ hk
      cases hs' with
      | block hm hd hx ha hr =>
        have h₁ : ¬ (c.stack.length < height ∨ c.stack.length < arity) := by omega
        have h₂ : ¬ (c.stack.length < height + arity ∧ spent.isEmpty = true ∧
            Frame.fillsRoom c.stack.length = true) := by omega
        refine ⟨rfl, ?_⟩
        simp only [Frame.branch, hl, Bool.false_eq_true, if_false, h₁, h₂]
        obtain rfl | rfl : arity = 0 ∨ arity = 1 := by omega
        · exact ⟨_, rfl, hr, lower_fst _ _ _, rfl, rfl, rfl⟩
        · obtain ⟨v, stack, hv⟩ := List.exists_cons_of_length_pos (l := c.stack) (by omega)
          have h₃ : ¬ c.stack.length = height := by omega
          simp only [Nat.one_ne_zero, if_false, h₃]
          refine ⟨_, rfl, hr, ?_, rfl, rfl, rfl⟩
          simp only [lower_fst, hv, List.headD_cons, List.take_succ_cons, List.take_zero,
            List.cons_append, List.nil_append, Cfg.cut]
    · rfl

end Jumps

/-! ## Steps of an activation -/

section Activations

variable {m : Processor ω} {a : Act} {code code' rest : List Instr} {conts conts' : List Cont}
  {c c' : Cfg ω} {s : State ω} {i : Instr}

/-- A state with one more instruction on its counter. -/
def tick (s : State ω) : State ω := { s with steps := s.steps + 1 }

theorem step_fetch (hl : Linked m) (hi : s.frame.code.toList[s.frame.pc]? = some i) :
    m.step s = m.exec (tick s) i := by
  rw [Array.getElem?_toList] at hi
  have hx : m.exhausted (s.steps + 1) = false := by
    have := hl.unlimited
    simp only [exhausted, decide_eq_false_iff_not]
    omega
  simp only [step, hi, hx, Bool.false_eq_true, if_false]
  rfl

theorem step_at (hl : Linked m) (h : Holds a (i :: rest) conts c s) :
    m.step s = m.exec (tick s) i := step_fetch hl h.stands.head

theorem step_close (hl : Linked m) {label : Label} {labels : List Label}
    (hi : s.frame.code.toList[s.frame.pc]? = some .close) (hs : s.frame.labels = label :: labels) :
    m.step s = .next { tick s with frame := { s.frame with pc := s.frame.pc + 1, labels := labels } } := by
  rw [step_fetch hl hi, exec.eq_def]
  simp only [execControl.eq_def, tick, hs]

theorem step_otherwise (hl : Linked m) {label : Label} {labels : List Label}
    (hi : s.frame.code.toList[s.frame.pc]? = some .otherwise)
    (hs : s.frame.labels = label :: labels) :
    m.step s = .next { tick s with frame := { s.frame with pc := label.finish } } := by
  rw [step_fetch hl hi, exec.eq_def]
  simp only [execControl.eq_def, tick, hs, State.goto]

/-- Out of the innermost construct. -/
theorem exit_steps (hl : Linked m) {label : Label} {labels : List Label}
    (hx : Exits s.frame.code.toList s.frame.pc label.finish) (hs : s.frame.labels = label :: labels) :
    ∃ n s', Steps m n s s' ∧ cfg s' = cfg s ∧ s'.callers = s.callers ∧ s'.depth = s.depth ∧
      s'.frame = { s.frame with pc := label.finish + 1, labels := labels } := by
  rcases hx with ⟨hi, hp⟩ | ⟨hi, hc⟩
  · refine ⟨1, _, .single (step_close hl hi hs), rfl, rfl, rfl, ?_⟩
    rw [hp]
  · have h₁ := step_otherwise hl hi hs
    refine ⟨2, _, .step h₁ (.single (step_close hl hc hs)), rfl, rfl, rfl, rfl⟩

/-- Behind the last instruction inside a construct. -/
theorem Holds.exit {k : Cont} (hl : Linked m) (h : Holds a [] (k :: conts) c s) :
    ∃ n s', Steps m n s s' ∧ Holds a k.rest conts c s' ∧ s'.callers = s.callers := by
  have hs := h.stands
  generalize hlab : s.frame.labels = labels at hs
  cases hs with
  | block _ _ hx _ hr | loop _ _ hx _ _ _ hr =>
    obtain ⟨n, s', hn, hc, hcallers, hdepth, hf⟩ := exit_steps hl hx hlab
    refine ⟨n, s', hn, ⟨hc.trans h.cfg, ?_, ?_, hdepth.trans h.depth, ?_⟩, hcallers⟩ <;> rw [hf]
    · exact h.func
    · exact h.results
    · exact hr

/-- A step after which an activation has some code left. -/
def Goes (m : Processor ω) (a : Act) (s : State ω) (code : List Instr) (conts : List Cont)
    (c : Cfg ω) : Prop :=
  ∃ s', m.step s = .next s' ∧ Holds a code conts c s' ∧ s'.callers = s.callers

theorem Holds.compute (hl : Linked m) (h : Holds a (i :: rest) conts c s) (hi : i.computes = true)
    (he : m.effect i c = .next c') :
    Goes m a s rest conts c' := by
  obtain ⟨spent, hs⟩ := exec_next (s := tick s) hi (h.cfg ▸ he)
  refine ⟨_, (step_at hl h).trans hs, ⟨?_, h.func, h.results, h.depth, ?_⟩, rfl⟩
  · simp [Processor.cfg]
  · refine h.stands.tail ?_
    cases i <;> first | rfl | cases hi

/-- A state after a branch. -/
theorem Lands.holds {f' : Frame} (h : Holds a (i :: rest) conts c s)
    (hc : c' = { c with stack := c'.stack }) (hf : Lands s.frame f' code' conts' c'.stack) :
    Holds a code' conts' c' { tick s with frame := f' } := by
  refine ⟨?_, hf.func.trans h.func, hf.results.trans h.results, h.depth, hf.stands⟩
  have := h.cfg
  simp only [cfg, tick] at this ⊢
  rw [hc, ← this, hf.locals, hf.stack]

theorem Holds.brIf_zero (hl : Linked m) {d : Int} {stack : List Val}
    (h : Holds a (.brIf d :: rest) conts c s) (hstack : c.stack = .i32 0 :: stack) :
    Goes m a s rest conts { c with stack := stack } := by
  have hs : s.frame.stack = .i32 0 :: stack := (congrArg Cfg.stack h.cfg).trans hstack
  refine ⟨{ tick s with frame := { s.frame with
      pc := s.frame.pc + 1, stack := stack, spent := .i32 0 :: s.frame.spent } }, ?_,
    ⟨?_, h.func, h.results, h.depth, h.stands.tail rfl⟩, rfl⟩
  · rw [step_at hl h, exec.eq_def]
    simp only [execControl.eq_def, tick, hs, State.continueWith, ne_eq, not_true_eq_false, if_false]
  · rw [← h.cfg]
    rfl

/-! ## Opening constructs -/

/-- What a machine state is after a construct is opened. -/
def opened (s : State ω) (isLoop : Bool) (finish arity pc : Nat) (stack spent : List Val) :
    State ω :=
  { tick s with
    frame := { s.frame with
      pc := pc, stack := stack, spent := spent,
      labels := ⟨isLoop, s.frame.pc, finish, stack.length, arity⟩ :: s.frame.labels } }

theorem openLabel_eq {isLoop : Bool} {arity pc : Nat} {stack spent : List Val} {b : Block}
    (hb : s.frame.blocks[s.frame.pc]? = some b) :
    openLabel (tick s) isLoop arity pc stack spent =
      .next (opened s isLoop b.endAt arity pc stack spent) := by
  simp only [openLabel, tick, hb, Option.getD_some, opened]

/-- The code inside a construct stands behind its start, and the code behind it behind its end. -/
theorem Stands.inside {body : List Instr} {blocks : Array Block} {p : Nat} {i : Instr}
    {inner : List Instr} {labels : List Label}
    (h : Stands body blocks p (i :: (inner ++ .close :: rest)) conts labels)
    (hr : Marked blocks (p + 1 + inner.length + 1) rest) :
    inner <+: body.drop (p + 1) ∧ Exits body (p + 1 + inner.length) (p + 1 + inner.length) ∧
      Stands body blocks (p + 1 + inner.length + 1) rest conts labels := by
  have heq : i :: (inner ++ .close :: rest) = (i :: (inner ++ [.close])) ++ rest := by simp
  obtain ⟨more, hmore⟩ := h.isPrefix
  have hdrop : body.drop (p + 1) = inner ++ .close :: (rest ++ more) := by
    rw [← List.drop_drop, ← hmore]
    simp
  refine ⟨⟨_, hdrop.symm⟩, .inl ⟨?_, rfl⟩, ?_⟩
  · have := congrArg (·[inner.length]?) hdrop
    simpa [List.getElem?_drop] using this
  · rw [heq] at h
    have hlen : p + (i :: (inner ++ [.close])).length = p + 1 + inner.length + 1 := by
      simp only [List.length_cons, List.length_append, List.length_nil]
      omega
    have := Stands.advance (i :: (inner ++ [.close])) h (hlen ▸ hr)
    rwa [hlen] at this

/-- The two parts of an `if` with an `else`. -/
theorem Stands.parts {body : List Instr} {blocks : Array Block} {p : Nat} {i : Instr}
    {yes no : List Instr} {labels : List Label}
    (h : Stands body blocks p (i :: (yes ++ .otherwise :: (no ++ .close :: rest))) conts labels)
    (hr : Marked blocks (p + 1 + yes.length + 1 + no.length + 1) rest) :
    (yes <+: body.drop (p + 1) ∧
      Exits body (p + 1 + yes.length) (p + 1 + yes.length + 1 + no.length)) ∧
    (no <+: body.drop (p + 1 + yes.length + 1) ∧
      Exits body (p + 1 + yes.length + 1 + no.length) (p + 1 + yes.length + 1 + no.length)) ∧
    Stands body blocks (p + 1 + yes.length + 1 + no.length + 1) rest conts labels := by
  have heq : i :: (yes ++ .otherwise :: (no ++ .close :: rest)) =
      i :: ((yes ++ .otherwise :: no) ++ .close :: rest) := by simp
  have hlen : p + 1 + (yes ++ .otherwise :: no).length = p + 1 + yes.length + 1 + no.length := by
    simp only [List.length_append, List.length_cons]
    omega
  rw [heq] at h
  obtain ⟨⟨more, hmore⟩, hx, hs⟩ := Stands.inside h (hlen ▸ hr)
  rw [hlen] at hx hs
  have hclose : body[p + 1 + yes.length + 1 + no.length]? = some .close := by
    rcases hx with hx | hx
    · exact hx.1
    · exact hx.2
  have hno : body.drop (p + 1 + yes.length + 1) = no ++ more := by
    rw [Nat.add_assoc _ yes.length, ← List.drop_drop, ← hmore]
    simp
  refine ⟨⟨⟨.otherwise :: (no ++ more), ?_⟩, .inr ⟨?_, hclose⟩⟩, ⟨⟨more, hno.symm⟩, hx⟩, hs⟩
  · rw [← hmore]
    simp
  · have := congrArg (·[yes.length]?) hmore
    simpa [List.getElem?_drop] using this.symm

theorem arity_le_one (t : ValType) : t.arity ≤ 1 := by
  cases t <;> simp [ValType.arity]

theorem Holds.block (hl : Linked m) {t : ValType} (h : Holds a (.block t :: rest) conts c s) :
    Goes m a s (splitClose 0 rest).1
      (.block (splitClose 0 rest).2 c.stack.length t.arity :: conts) c := by
  have hs := h.stands
  cases hs.marked with
  | plain hi => cases hi
  | @block _ _ body rest hb he hr =>
    obtain ⟨hd, hx, hrest⟩ := Stands.inside hs hr
    have hstack : s.frame.stack = c.stack := congrArg Cfg.stack h.cfg
    rw [splitClose_body (hb.balanced.bracketed false)]
    refine ⟨opened s false (s.frame.pc + 1 + body.length) t.arity (s.frame.pc + 1) s.frame.stack s.frame.spent, ?_,
      ⟨h.cfg, h.func, h.results, h.depth, ?_⟩, rfl⟩
    · rw [step_at hl h, exec.eq_def]
      simp only [execControl.eq_def]
      exact openLabel_eq he
    · rw [← hstack]
      exact .block hb hd hx (arity_le_one t) hrest

theorem Holds.loop (hl : Linked m) (h : Holds a (.loop :: rest) conts c s) :
    Goes m a s (splitClose 0 rest).1
      (.loop (splitClose 0 rest).1 (splitClose 0 rest).2 c.stack.length :: conts) c := by
  have hs := h.stands
  cases hs.marked with
  | plain hi => cases hi
  | @loop _ body rest hb he hr =>
    obtain ⟨hd, hx, hrest⟩ := Stands.inside hs hr
    have hstack : s.frame.stack = c.stack := congrArg Cfg.stack h.cfg
    rw [splitClose_body (hb.balanced.bracketed false)]
    refine ⟨opened s true (s.frame.pc + 1 + body.length) 0 (s.frame.pc + 1) s.frame.stack s.frame.spent, ?_,
      ⟨h.cfg, h.func, h.results, h.depth, ?_⟩, rfl⟩
    · rw [step_at hl h, exec.eq_def]
      simp only [execControl.eq_def]
      exact openLabel_eq he
    · rw [← hstack]
      exact .loop hb hd hx hb hd hx hrest

section Branches

variable {t : ValType} {x : Int32} {stack : List Val}

theorem cfg_opened (h : Holds a code conts c s) {finish arity pc : Nat} {spent : List Val} :
    cfg (opened s false finish arity pc stack spent) = { c with stack := stack } := by
  rw [← h.cfg]
  rfl

/-- The part of an `if` that its condition tells, or the code behind it. -/
theorem Holds.branchIf (hl : Linked m) (h : Holds a (.branchIf t :: rest) conts c s)
    (hstack : c.stack = .i32 x :: stack) :
    ∃ code' conts' c', enterIf t (x ≠ 0) rest conts { c with stack := stack } =
      .go code' conts' c' ∧ Goes m a s code' conts' c' := by
  have hs := h.stands
  have hstack' : s.frame.stack = .i32 x :: stack := (congrArg Cfg.stack h.cfg).trans hstack
  have hstep (hx : x ≠ 0) (b : Block) (hb : s.frame.blocks[s.frame.pc]? = some b) : m.step s =
      .next (opened s false b.endAt t.arity (s.frame.pc + 1) stack (.i32 x :: s.frame.spent)) := by
    rw [step_at hl h, exec.eq_def]
    simp only [execControl.eq_def, tick, hstack', ne_eq, hx, not_false_eq_true, if_true]
    exact openLabel_eq hb
  unfold enterIf
  cases hs.marked with
  | plain hi => cases hi
  | @branch _ _ body rest hb he hr =>
    obtain ⟨hd, hx', hrest⟩ := Stands.inside hs hr
    rw [splitClose_body (hb.balanced.bracketed false), splitElse_body hb.balanced]
    by_cases hx : x = 0
    · subst hx
      refine ⟨_, _, _, rfl, { tick s with frame := { s.frame with
          pc := s.frame.pc + 1 + body.length + 1, stack := stack,
          spent := .i32 0 :: s.frame.spent } },
        ?_, ⟨?_, h.func, h.results, h.depth, hrest⟩, rfl⟩
      · rw [step_at hl h, exec.eq_def]
        simp only [execControl.eq_def, tick, hstack', ne_eq, not_true_eq_false, if_false, he,
          Option.getD_some, State.goto]
      · rw [← h.cfg]
        rfl
    · simp only [ne_eq, hx, not_false_eq_true, decide_true, if_true]
      exact ⟨_, _, _, rfl, _, hstep hx _ he, ⟨cfg_opened h, h.func, h.results, h.depth,
        .block hb hd hx' (arity_le_one t) hrest⟩, rfl⟩
  | @choice _ _ yes no rest hy hn he hr =>
    obtain ⟨⟨hd, hx'⟩, ⟨hd', hx''⟩, hrest⟩ := Stands.parts hs hr
    rw [splitClose_choice hy.balanced hn.balanced, splitElse_choice hy.balanced]
    by_cases hx : x = 0
    · subst hx
      have hstep' : m.step s = .next (opened s false (s.frame.pc + 1 + yes.length + 1 + no.length)
          t.arity (s.frame.pc + 1 + yes.length + 1) stack (.i32 0 :: s.frame.spent)) := by
        rw [step_at hl h, exec.eq_def]
        simp only [execControl.eq_def, tick, hstack', ne_eq, not_true_eq_false, if_false, he,
          Option.getD_some]
        exact openLabel_eq he
      exact ⟨_, _, _, rfl, _, hstep', ⟨cfg_opened h, h.func, h.results, h.depth,
        .block hn hd' hx'' (arity_le_one t) hrest⟩, rfl⟩
    · simp only [ne_eq, hx, not_false_eq_true, decide_true, if_true]
      exact ⟨_, _, _, rfl, _, hstep hx _ he, ⟨cfg_opened h, h.func, h.results, h.depth,
        .block hy hd hx' (arity_le_one t) hrest⟩, rfl⟩

end Branches

/-! ## Calls -/

theorem callee_host {func : Int} {name : String} {f : HostFunc ω}
    (h : m.callee? func = some (.host name f)) :
    (∃ g type space entry, at? m.program.funcs func = some g ∧
      at? m.program.types g.type = some type ∧ g.body = .host space entry ∧ g.name = name) ∧
    at? m.links func = some (.host f) := by
  unfold callee? at h
  split at h
  · cases h
  rename_i g hg
  split at h
  · cases h
  rename_i type ht
  split at h <;> cases h
  rename_i space entry hb hlink
  exact ⟨⟨g, type, space, entry, hg, ht, hb, rfl⟩, hlink⟩

theorem callee_code {func : Int} {name : String} {results : Nat} {zeros : List Val}
    {body : List Instr} (h : m.callee? func = some (.code name results zeros body)) :
    ∃ g type locals instrs blocks, at? m.program.funcs func = some g ∧
      at? m.program.types g.type = some type ∧ g.body = .code locals instrs ∧ g.name = name ∧
      type.results.length = results ∧ instrs.toList = body ∧
      at? m.links func = some (.code blocks zeros) := by
  unfold callee? at h
  split at h
  · cases h
  rename_i g hg
  split at h
  · cases h
  rename_i type ht
  split at h <;> cases h
  rename_i locals instrs blocks hb hlink
  exact ⟨g, type, locals, instrs, blocks, hg, ht, hb, rfl, rfl, rfl, hlink⟩

theorem pushAll_eq (vs : List Val) (f : Frame) :
    ∃ spent, f.pushAll vs = { f with stack := vs.reverse ++ f.stack, spent := spent } := by
  induction vs generalizing f with
  | nil => exact ⟨f.spent, rfl⟩
  | cons v vs ih =>
    obtain ⟨spent, hs⟩ := ih { f with stack := v :: f.stack, spent := f.spent.tail }
    refine ⟨spent, ?_⟩
    rw [Frame.pushAll, hs]
    simp

/-- An activation that waits behind a call. -/
def waiting (s : State ω) (args stack : List Val) : Frame :=
  { s.frame with pc := s.frame.pc + 1, stack := stack, spent := args ++ s.frame.spent }

/-- The activation goes on with the results of a call. -/
theorem Holds.delivered {func : Int} (args stack vs : List Val) (w : World ω)
    (h : Holds a (.call func :: rest) conts c s) :
    ∃ s', deliver vs w s.depth (waiting s args stack :: s.callers) = .next s' ∧
      Holds a rest conts ⟨w.heap, w.host, c.locals, vs.reverse ++ stack⟩ s' ∧
      s'.callers = s.callers := by
  obtain ⟨spent, hp⟩ := pushAll_eq vs (waiting s args stack)
  refine ⟨_, rfl, ⟨?_, ?_, ?_, h.depth, ?_⟩, rfl⟩
  · rw [← h.cfg, hp]
    rfl
  · rw [hp]
    exact h.func
  · rw [hp]
    exact h.results
  · rw [hp]
    exact h.stands.tail rfl

theorem step_call (hl : Linked m) {func : Int} {type : TypeDef} {args stack : List Val}
    (h : Holds a (.call func :: rest) conts c s) (hsig : m.program.signature? func = some type)
    (hpop : Frame.popMany type.params.length c.stack [] = some (args, stack)) :
    m.step s = m.enter func args ⟨s.heap, s.host, s.steps + 1⟩ s.depth
      (waiting s args stack :: s.callers) := by
  have hstack : s.frame.stack = c.stack := congrArg Cfg.stack h.cfg
  rw [step_at hl h, exec.eq_def]
  simp only [execCall, hsig, tick, hstack, hpop]
  rfl

theorem enter_host (hl : Linked m) {func : Int} {name : String} {f : HostFunc ω} {args : List Val}
    {heap : Heap} {host : ω} {steps depth : Nat} {callers : List Frame}
    (hc : m.callee? func = some (.host name f)) :
    m.enter func args ⟨heap, host, steps⟩ depth callers =
      match f ⟨heap, host, 0⟩ args with
      | .results vs w => deliver vs { w with steps := steps } depth callers
      | .failed message => .done (.trapped ⟨name, 0, .host message⟩) ⟨heap, host, steps⟩
      | .malformed => .done .malformed ⟨heap, host, steps⟩ := by
  obtain ⟨⟨g, type, space, entry, hg, ht, hb, rfl⟩, hlink⟩ := callee_host hc
  simp only [enter, hg, ht, hb, hlink]
  rw [hl.oblivious func f hlink]
  simp only
  cases f ⟨heap, host, 0⟩ args <;> rfl

theorem enter_code (hl : Linked m) {func : Int} {name : String} {results depth : Nat}
    {zeros : List Val} {body : List Instr} {w : World ω} (args : List Val) (callers : List Frame)
    (hc : m.callee? func = some (.code name results zeros body)) (hf : m.full depth = false) :
    ∃ s', m.enter func args w depth callers = .next s' ∧
      Holds ⟨name, results, depth + 1⟩ body [] ⟨w.heap, w.host, args ++ zeros, []⟩ s' ∧
      s'.callers = callers := by
  obtain ⟨g, type, locals, instrs, blocks, hg, ht, hb, rfl, rfl, rfl, hlink⟩ := callee_code hc
  simp only [full, decide_eq_false_iff_not] at hf
  simp only [enter, hg, ht, hb, hlink, hf, if_false]
  refine ⟨_, rfl, ⟨by simp [Processor.cfg], rfl, rfl, rfl, ?_⟩, rfl⟩
  exact .outside (hl.marked _ _ _ _ _ _ hg hb hlink) (by simp)

theorem enter_full {func : Int} {name : String} {results depth : Nat} {zeros args : List Val}
    {body : List Instr} {w : World ω} {callers : List Frame}
    (hc : m.callee? func = some (.code name results zeros body)) (hf : m.full depth = true) :
    m.enter func args w depth callers = .done (.trapped ⟨name, 0, .callStackExhausted⟩) w := by
  obtain ⟨g, type, locals, instrs, blocks, hg, ht, hb, rfl, rfl, rfl, hlink⟩ := callee_code hc
  simp only [full, decide_eq_true_eq] at hf
  simp only [enter, hg, ht, hb, hf, if_true, and_self]

/-! ## Runs -/

/-- The machine does what the run of the running activation says. An activation that needs more
than a number of rounds takes at least that many steps. -/
def Does (m : Processor ω) (n : Nat) (s : State ω) : Final ω → Prop
  | .returned vs heap host => ∃ k s' steps, Steps m k s s' ∧
      m.step s' = deliver vs ⟨heap, host, steps⟩ (s.depth - 1) s.callers
  | .trapped func reason heap host => ∃ k s' pc steps, Steps m k s s' ∧
      m.step s' = .done (.trapped ⟨func, pc, reason⟩) ⟨heap, host, steps⟩
  | .more => ∃ k s', n ≤ k ∧ Steps m k s s'
  | .stuck => True

theorem Does.after {n k : Nat} {s' : State ω} {f : Final ω} (hs : Steps m k s s')
    (hc : s'.callers = s.callers) (hd : s'.depth = s.depth) (h : Does m n s' f) :
    Does m (n + k) s f := by
  cases f with
  | returned vs heap host =>
    obtain ⟨j, t, steps, hj, ht⟩ := h
    exact ⟨_, t, steps, hs.trans hj, by rw [ht, hc, hd]⟩
  | trapped func reason heap host =>
    obtain ⟨j, t, pc, steps, hj, ht⟩ := h
    exact ⟨_, t, pc, steps, hs.trans hj, ht⟩
  | more =>
    obtain ⟨j, t, hn, hj⟩ := h
    exact ⟨_, t, by omega, hs.trans hj⟩
  | stuck => trivial

theorem Does.mono {n n' : Nat} {f : Final ω} (hn : n' ≤ n) (h : Does m n s f) : Does m n' s f := by
  cases f with
  | more =>
    obtain ⟨k, t, hk, ht⟩ := h
    exact ⟨k, t, by omega, ht⟩
  | returned | trapped | stuck => exact h

/-- The return from an activation hands its results over. -/
theorem leave_does {vs : List Val} {heap : Heap} {host : ω} (hcfg : cfg s = c)
    (hr : s.frame.results = a.results) (hg : giveBack a c = .returned vs heap host) :
    leave s = deliver vs ⟨heap, host, s.steps⟩ (s.depth - 1) s.callers := by
  subst hcfg
  unfold giveBack at hg
  split at hg <;> cases hg
  rename_i below hpop
  rw [← hr] at hpop
  simp only [leave]
  have hpop' : Frame.popMany s.frame.results s.frame.stack [] = some (vs, below) := hpop
  rw [hpop']
  rfl

theorem giveBack_does (hcfg : cfg s = c) (hr : s.frame.results = a.results) {s₀ : State ω}
    (hs : m.step s₀ = leave s) (hd : s.depth = s₀.depth) (hc : s.callers = s₀.callers) (n : Nat) :
    Does m n s₀ (giveBack a c) := by
  cases hg : giveBack a c with
  | returned vs heap host =>
    refine ⟨0, s₀, s.steps, .refl _, ?_⟩
    rw [hs, leave_does hcfg hr hg, hd, hc]
  | stuck => trivial
  | trapped | more =>
    unfold giveBack at hg
    split at hg <;> cases hg

/-- The machine does what comes next in the running activation. -/
def Follows (m : Processor ω) (a : Act) (conts : List Cont) (s : State ω) : Next ω → Prop
  | .go code' conts' c' =>
    ∃ k s', Steps m k s s' ∧ Holds a code' conts' c' s' ∧ s'.callers = s.callers
  | .again code' conts' c' => Goes m a s code' conts' c'
  | .ends f => ∀ n, Does m n s f
  | .enter inner body ci rest locals stack =>
    ∃ s', m.step s = .next s' ∧ Holds inner body [] ci s' ∧
      ∀ (vs : List Val) (w : World ω), ∃ s'', deliver vs w (s'.depth - 1) s'.callers = .next s'' ∧
        Holds a rest conts ⟨w.heap, w.host, locals, vs.reverse ++ stack⟩ s'' ∧
        s''.callers = s.callers

theorem Goes.follows (h : Goes m a s code' conts' c') :
    Follows m a conts s (.go code' conts' c') := by
  obtain ⟨s', hs, h', hc⟩ := h
  exact ⟨1, s', .single hs, h', hc⟩

theorem Holds.jump {d : Int} {stack spent : List Val} (h : Holds a (i :: rest) conts c s)
    (hstep : m.step s = branchTo (tick s) d stack spent) :
    Follows m a conts s (jump d conts { c with stack := stack }) := by
  have hb := branches_jump h.stands d { c with stack := stack } spent
  have hgoes {code' conts' c'} (hf : Branches s.frame d { c with stack := stack } spent
      (.again code' conts' c')) : Goes m a s code' conts' c' := by
    obtain ⟨hc, f', hf, hl⟩ := hf
    refine ⟨{ tick s with frame := f' }, ?_, hl.holds h hc, rfl⟩
    rw [hstep]
    simp only [branchTo, tick, hf]
  revert hb
  cases Processor.jump d conts { c with stack := stack } with
  | go => exact fun hb => (hgoes hb).follows
  | again => exact hgoes
  | ends f =>
    rintro rfl
    exact fun _ => trivial
  | enter => exact False.elim

theorem Holds.call (hl : Linked m) {func : Int} (h : Holds a (.call func :: rest) conts c s) :
    Follows m a conts s (enterCall m a func rest conts c) := by
  have hheap : s.heap = c.heap := congrArg Cfg.heap h.cfg
  have hhost : s.host = c.host := congrArg Cfg.host h.cfg
  unfold enterCall
  split
  · exact fun _ => trivial
  rename_i type hsig
  split
  · rename_i args stack name f hpop hcallee
    have hstep := step_call hl h hsig hpop
    rw [enter_host hl hcallee, hheap, hhost] at hstep
    split <;> rename_i hf <;> rw [hf] at hstep
    · rename_i vs w
      obtain ⟨s', hs', h', hc'⟩ := h.delivered args stack vs { w with steps := s.steps + 1 }
      exact Goes.follows ⟨s', hstep.trans hs', h', hc'⟩
    · exact fun n => ⟨0, s, 0, s.steps + 1, .refl _, hstep⟩
    · exact fun _ => trivial
  · rename_i args stack name results zeros body hpop hcallee
    have hstep := step_call hl h hsig hpop
    rw [h.depth] at hstep
    split <;> rename_i hfull
    · rw [enter_full hcallee hfull, hheap, hhost] at hstep
      exact fun n => ⟨0, s, 0, s.steps + 1, .refl _, hstep⟩
    · obtain ⟨s', hs', h', hc'⟩ := enter_code (w := ⟨s.heap, s.host, s.steps + 1⟩) hl args
        (waiting s args stack :: s.callers) hcallee (by simpa using hfull)
      rw [hheap, hhost] at h'
      refine ⟨s', hstep.trans hs', h', fun vs w => ?_⟩
      have hd : s'.depth - 1 = s.depth := by rw [h'.depth, h.depth]; rfl
      rw [hd, hc']
      exact h.delivered args stack vs w
  · exact fun _ => trivial

theorem Holds.effect (hl : Linked m) (h : Holds a (i :: rest) conts c s)
    (hi : i.computes = true) : Follows m a conts s (afterEffect m a i rest conts c) := by
  unfold afterEffect
  split <;> rename_i he
  · exact (h.compute hl hi he).follows
  · refine fun n => ⟨0, s, s.frame.pc, s.steps + 1, .refl _, ?_⟩
    rw [step_at hl h, exec_trap (s := tick s) hi (h.cfg ▸ he), ← h.cfg, ← h.func]
    rfl
  · exact fun _ => trivial

theorem Holds.follows (hl : Linked m) (h : Holds a code conts c s) :
    Follows m a conts s (m.next a code conts c) := by
  have hstack : s.frame.stack = c.stack := congrArg Cfg.stack h.cfg
  unfold next
  split
  · refine giveBack_does h.cfg h.results ?_ rfl rfl
    have hs := h.stands
    generalize s.frame.labels = labels at hs
    cases hs with
    | outside _ hd =>
      have hend : s.frame.code[s.frame.pc]? = none := by
        rw [← Array.getElem?_toList]
        simpa [List.drop_eq_nil_iff] using hd
      rw [step, hend]
  · exact h.exit hl
  · rename_i i rest
    split
    · exact (h.block hl).follows
    · exact (h.loop hl).follows
    · split
      · rename_i x stack hst
        obtain ⟨_, _, _, hgo, h'⟩ := h.branchIf hl hst
        rw [hgo]
        exact h'.follows
      · exact fun _ => trivial
    · rename_i d
      have hstep : m.step s = branchTo (tick s) d c.stack s.frame.spent := by
        rw [step_at hl h, exec.eq_def, ← hstack]
        rfl
      exact h.jump hstep
    · rename_i d
      split
      · rename_i x stack hst
        split <;> rename_i hx
        · have hstep : m.step s = branchTo (tick s) d stack (.i32 x :: s.frame.spent) := by
            rw [step_at hl h, exec.eq_def]
            simp only [execControl.eq_def, tick, hstack, hst, hx, if_true, ne_eq, not_false_eq_true]
          exact h.jump hstep
        · obtain rfl : x = 0 := Decidable.not_not.mp hx
          exact (h.brIf_zero hl hst).follows
      · exact fun _ => trivial
    · exact giveBack_does (s := tick s) h.cfg h.results (step_at hl h) rfl rfl
    · exact h.call hl
    · exact fun _ => trivial
    · exact fun _ => trivial
    · refine h.effect hl ?_
      cases i <;> simp_all [Instr.computes]

/-- The machine does what the run of an activation says. -/
theorem run_does (hl : Linked m) (n : Nat) (h : Holds a code conts c s) :
    Does m n s (m.run n a code conts c) := by
  fun_induction run m n a code conts c generalizing s with
  | case1 n a code conts c code' conts' c' hn ih =>
    obtain ⟨k, s', hs, h', hc⟩ := hn ▸ h.follows hl
    exact ((ih h').after hs hc (h'.depth.trans h.depth.symm)).mono (by omega)
  | case2 => exact ⟨0, s, Nat.le_refl _, .refl _⟩
  | case3 a code conts c code' conts' c' hn n ih =>
    obtain ⟨s', hs, h', hc⟩ := hn ▸ h.follows hl
    exact (ih h').after (.single hs) hc (h'.depth.trans h.depth.symm)
  | case4 n a code conts c f hn => exact (hn ▸ h.follows hl) n
  | case5 => exact ⟨0, s, Nat.le_refl _, .refl _⟩
  | case6 a code conts c inner body ci rest locals stack hn n vs heap host hrun ih ih' =>
    obtain ⟨s₁, hs₁, h₁, hback⟩ := hn ▸ h.follows hl
    have hdoes := ih h₁
    rw [hrun] at hdoes
    obtain ⟨k, s₂, steps, hs₂, hlast⟩ := hdoes
    obtain ⟨s₃, hs₃, h₃, hc₃⟩ := hback vs ⟨heap, host, steps⟩
    have hsteps := ((Steps.single hs₁).trans hs₂).trans (.single (hlast.trans hs₃))
    exact ((ih' h₃).after hsteps hc₃ (h₃.depth.trans h.depth.symm)).mono (by omega)
  | case7 a code conts c inner body ci rest locals stack hn n hrun ih =>
    obtain ⟨s₁, hs₁, h₁, -⟩ := hn ▸ h.follows hl
    have hdoes := ih h₁
    generalize m.run n inner body [] ci = f at hdoes hrun
    cases f with
    | returned vs heap host => exact (hrun _ _ _ rfl).elim
    | trapped func reason heap host =>
      obtain ⟨k, s₂, pc, steps, hs₂, hlast⟩ := hdoes
      exact ⟨_, s₂, pc, steps, (Steps.single hs₁).trans hs₂, hlast⟩
    | more =>
      obtain ⟨k, s₂, hk, hs₂⟩ := hdoes
      exact ⟨_, s₂, by omega, (Steps.single hs₁).trans hs₂⟩
    | stuck => trivial

end Activations

end Processor

end HeapScript.Machine
