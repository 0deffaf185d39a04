import HeapScript.Proofs.Machine.Labels
import HeapScript.Proofs.Memory.Operands

/-!
# Runs of disciplined code

If every function of a module keeps to the discipline, then so does every run: the heap stays sound,
and each step changes it only where stores are meant to go.
-/

namespace HeapScript.Library

open Machine Machine.Processor

/-! ## Constructs -/

section Constructs

variable {E : Env} {p : Phase} {k : Ctrl} {ctrl : List Ctrl} {σ : List Kind}
  {body yes no rest : List Instr}

/-- The code behind a construct. -/
theorem Checks.behind (hb : Balanced body)
    (h : Checks E p (k :: ctrl) σ (body ++ .close :: rest)) :
    (k.construct = .branch → k.results = []) ∧ Checks E p ctrl (k.results ++ k.base) rest := by
  obtain ⟨σ', h'⟩ := h.skip hb
  cases h' with
  | plain hf => cases hf
  | close hk _ hr => exact ⟨hk, hr⟩

/-- The second part of a choice, and the code behind it. -/
theorem Checks.second (hy : Balanced yes) (hn : Balanced no)
    (h : Checks E p (k :: ctrl) σ (yes ++ .otherwise :: (no ++ .close :: rest))) :
    Checks E p ({ k with construct := .block } :: ctrl) k.base (no ++ .close :: rest) ∧
      Checks E p ctrl (k.results ++ k.base) rest := by
  obtain ⟨σ', h'⟩ := h.skip hy
  cases h' with
  | plain hf => cases hf
  | otherwise _ _ hr => exact ⟨hr, (hr.behind hn).2⟩

end Constructs

/-- The constructs around running code: where they end, what is done behind them and, for a loop,
when it starts over. -/
inductive Entered (E : Env) (p : Phase) (code : List Instr) : List Label → List Ctrl → Prop where
  | nil : Entered E p code [] []
  | cons {label : Label} {labels : List Label} {k : Ctrl} {ctrl : List Ctrl}
      (height : label.height = k.base.length) (arity : label.arity = k.results.length)
      (single : k.results.length ≤ 1) (finish : code[label.finish]? = some .close)
      (after : Checks E p ctrl (k.results ++ k.base) (code.drop (label.finish + 1)))
      (again : label.isLoop = true → k.construct = .loop ∧ k.results = [] ∧
        Checks E p (k :: ctrl) k.base (code.drop (label.start + 1)))
      (rest : Entered E p code labels ctrl) : Entered E p code (label :: labels) (k :: ctrl)

theorem Entered.drop {E : Env} {p : Phase} {code : List Instr} {labels : List Label}
    {ctrl : List Ctrl} (h : Entered E p code labels ctrl) {d : Nat} {k : Ctrl}
    (hd : ctrl[d]? = some k) :
    ∃ label outer ctrl', labels.drop d = label :: outer ∧
      Entered E p code (label :: outer) (k :: ctrl') := by
  induction h generalizing d with
  | nil => cases hd
  | cons h₁ h₂ h₃ h₄ h₅ h₆ hr ih =>
    cases d with
    | zero =>
      cases hd
      exact ⟨_, _, _, rfl, .cons h₁ h₂ h₃ h₄ h₅ h₆ hr⟩
    | succ d => exact ih hd

theorem length_resultKinds (t : ValType) : (resultKinds t).length = t.arity := by
  cases t <;> rfl

/-! ## Machines -/

/-- No address. -/
abbrev nowhere : Nat → Prop := fun _ => False

/-- What the code of a function relies on holds in a machine, in all its phases. -/
structure Env.Fits {ω : Type} (m : Processor ω) (E : Env) : Prop where
  sig : ∀ func params results, E.sig func = some (params, results) →
    ∃ type, m.program.signature? func = some type ∧ type.params = params ∧ type.results = results
  fill : E.measured = false → Kind.fitAll false (E.locals .before) (E.locals .filling) = true
  publish : (E.locals .filling).map Kind.published = E.locals .after
  measure : E.measured = true → E.locals .before = E.locals .after

/-- New activations have the locals that the code of a function relies on. -/
def Env.Starts (E : Env) (params locals : List ValType) : Prop :=
  ∀ (h : Heap) (args : List Val), List.Forall₂ (Admits h nowhere) params args →
    ∃ first, AllHold h nowhere nowhere first (E.locals .before) (args ++ locals.map Val.zero)

/-- A function of the host keeps the heap sound and gives what it should. -/
def SoundHost {ω : Type} (run : HostFunc ω) (params results : List ValType) : Prop :=
  ∀ (w w' : World ω) (args vs : List Val), run w args = .results vs w' →
    SoundHeap w.heap nowhere → List.Forall₂ (Admits w.heap nowhere) params args →
    Change nowhere w.heap w'.heap ∧ SoundHeap w'.heap nowhere ∧
      List.Forall₂ (Admits w'.heap nowhere) results vs

/-- All functions of a machine keep to the discipline. -/
structure Disciplined {ω : Type} (m : Processor ω) : Prop where
  shaped : Shaped m
  code : ∀ (func : Int) (f : Func) (type : TypeDef) (locals : List ValType) (instrs : Array Instr)
    (blocks : Array Block) (zeros : List Val), at? m.program.funcs func = some f →
    at? m.program.types f.type = some type → f.body = .code locals instrs →
    at? m.links func = some (.code blocks zeros) →
    Marked blocks 0 instrs.toList ∧ zeros = locals.map Val.zero ∧
      ∃ E : Env, E.Fits m ∧ E.results = type.results ∧ E.Starts type.params locals ∧
        Checks E .before [] [] instrs.toList
  host : ∀ (func : Int) (f : Func) (type : TypeDef) (run : HostFunc ω),
    at? m.program.funcs func = some f → at? m.program.types f.type = some type →
    at? m.links func = some (.host run) → SoundHost run type.params type.results

/-! ## States -/

section States

variable {ω : Type}

/-- The activations that wait for the results of the running one. -/
inductive Waits (m : Processor ω) (h : Heap) (hidden : Nat → Prop) :
    List ValType → List Frame → Prop where
  | nil {results : List ValType} : Waits m h hidden results []
  | cons {results : List ValType} {E : Env} {p : Phase} {ctrl : List Ctrl} {σ : List Kind}
      {first : Val} {f : Frame} {callers : List Frame} (fits : E.Fits m) (phase : p ≠ .filling)
      (marked : Marked f.blocks 0 f.code.toList)
      (entered : Entered E p f.code.toList f.labels ctrl)
      (checks : Checks E p ctrl (results.reverse.map .typed ++ σ) (f.code.toList.drop f.pc))
      (returns : f.results = E.results.length)
      (valid : E.Valid p h hidden nowhere first σ f.locals.toList f.stack)
      (rest : Waits m h hidden E.results callers) : Waits m h hidden results (f :: callers)

theorem Waits.mono {m : Processor ω} {h h' : Heap} {hidden hidden' : Nat → Prop}
    {results : List ValType} {callers : List Frame} (hl : Later h h')
    (hh : Reveals h hidden hidden') (hw : Waits m h hidden results callers) :
    Waits m h' hidden' results callers := by
  induction hw with
  | nil => exact .nil
  | cons fits phase marked entered checks returns valid _ ih =>
    exact .cons fits phase marked entered checks returns (valid.mono hl hh fun _ ha => ha) ih

/-- A state of a run but for the code that is left. -/
structure Settled (m : Processor ω) (hidden : Nat → Prop) (E : Env) (p : Phase) (ctrl : List Ctrl)
    (σ : List Kind) (first : Val) (s : State ω) : Prop where
  fits : E.Fits m
  marked : Marked s.frame.blocks 0 s.frame.code.toList
  entered : Entered E p s.frame.code.toList s.frame.labels ctrl
  returns : s.frame.results = E.results.length
  valid : E.Valid p s.heap hidden hidden first σ s.frame.locals.toList s.frame.stack
  quiet : p ≠ .filling → ∀ a, ¬ hidden a
  callers : Waits m s.heap hidden E.results s.callers
  sound : SoundHeap s.heap hidden

/-- A state of a run, with the buffers that are hidden in it. -/
def Running (m : Processor ω) (hidden : Nat → Prop) (s : State ω) : Prop :=
  ∃ E p ctrl σ first, Settled m hidden E p ctrl σ first s ∧
    Checks E p ctrl σ (s.frame.code.toList.drop s.frame.pc)

/-- What a step may do. -/
def Goes (m : Processor ω) (hidden : Nat → Prop) (s s' : State ω) : Prop :=
  ∃ hidden', Running m hidden' s' ∧ Change hidden s.heap s'.heap ∧ Reveals s.heap hidden hidden'

end States

/-! ## Single steps -/

section Steps

variable {ω : Type} {m : Processor ω} {hidden : Nat → Prop} {E : Env} {p : Phase}
  {ctrl : List Ctrl} {σ σ' : List Kind} {first : Val} {s s' : State ω} {i : Instr}
  {rest : List Instr}

theorem flow_computes (hf : E.flow p i σ = some σ') : i.computes = true := by
  cases i <;> first | rfl | cases hf

/-- An instruction that only computes. -/
theorem goes_plain (hm : Disciplined m) (hs : Settled m hidden E p ctrl σ first s)
    (hcode : s.frame.code.toList.drop s.frame.pc = i :: rest) (hf : E.flow p i σ = some σ')
    (hr : Checks E p ctrl σ' rest) (h : m.step s = .next s') : Goes m hidden s s' := by
  obtain ⟨c, spent, he, rfl⟩ := exec_computes (flow_computes hf) (exec_of_step (drop_next hcode).1 h)
  obtain ⟨hidden', hfl⟩ := flow_sound hm.shaped hs.sound hs.valid hf he
  refine ⟨hidden', ⟨E, p, ctrl, σ', first, ⟨hs.fits, hs.marked, hs.entered, hs.returns, hfl.valid,
    fun hp a ha => hs.quiet hp a (hfl.quiet hp a ha), hs.callers.mono hfl.change.later hfl.reveals,
    hfl.sound⟩, ?_⟩, hfl.change, hfl.reveals⟩
  exact (drop_next hcode).2 ▸ hr

/-- A step that leaves the heap and all but the running activation alone. -/
theorem Settled.goes (hs : Settled m hidden E p ctrl σ first s) (around : List Ctrl)
    (τ : List Kind) {f : Frame} (hcode : f.code = s.frame.code) (hblocks : f.blocks = s.frame.blocks)
    (hlocals : f.locals = s.frame.locals) (hresults : f.results = s.frame.results)
    (he : Entered E p s.frame.code.toList f.labels around)
    (hst : AllHold s.heap hidden hidden first τ f.stack)
    (hr : Checks E p around τ (s.frame.code.toList.drop f.pc)) :
    Goes m hidden s { tick s with frame := f } := by
  refine ⟨hidden, ⟨E, p, around, τ, first, ⟨hs.fits, ?_, ?_, hresults ▸ hs.returns, ?_, hs.quiet,
    hs.callers, hs.sound⟩, ?_⟩, .none, .refl _ _⟩
  · change Marked f.blocks 0 f.code.toList
    rw [hblocks, hcode]
    exact hs.marked
  · change Entered E p f.code.toList f.labels around
    rwa [hcode]
  · change E.Valid p s.heap hidden hidden first τ f.locals.toList f.stack
    rw [hlocals]
    exact hs.valid.restack hst
  · change Checks E p around τ (f.code.toList.drop f.pc)
    rwa [hcode]

/-! ### Jumps -/

theorem goes_branch (hs : Settled m hidden E p ctrl σ' first s) {d : Nat} {k : Ctrl}
    (hd : ctrl[d]? = some k) (hk : k.reached (E.known p) σ = true) {stack spent : List Val}
    (hst : AllHold s.heap hidden hidden first σ stack) {f : Frame}
    (hb : s.frame.branch d stack spent = some f) : Goes m hidden s { tick s with frame := f } := by
  obtain ⟨label, outer, ctrl', hlabels, he⟩ := hs.entered.drop hd
  unfold Ctrl.reached at hk
  simp only [Bool.and_eq_true, decide_eq_true_eq, beq_iff_eq] at hk
  obtain ⟨⟨hlen, hbase⟩, hresults⟩ := hk
  have hn := hst.length_eq
  -- Below the results lie the operands that the construct was entered with.
  have hbelow : AllHold s.heap hidden hidden first k.base
      (stack.drop (stack.length - k.base.length)) := by
    have := List.forall₂_drop (σ.length - k.base.length) hst
    rwa [hbase, hn] at this
  have hcast : (d : Int) = .ofNat d := rfl
  rw [hcast] at hb
  simp only [Frame.branch, hlabels] at hb
  cases he with
  | cons hheight harity hsingle _ hafter hagain hrest =>
  split at hb
  · rename_i hloop
    obtain ⟨hconstruct, hnone, hchecks⟩ := hagain hloop
    cases hb
    have hle : label.height ≤ stack.length := by omega
    refine hs.goes (k :: ctrl') k.base rfl rfl rfl rfl ?_ ?_ hchecks
    · exact .cons hheight harity hsingle ‹_› hafter hagain hrest
    · dsimp only [Frame.toHeight]
      rw [if_pos hle, lower_fst, hheight]
      exact hbelow
  · split at hb
    · cases hb
    · split at hb
      · cases hb
      · split at hb
        · rename_i hzero
          have hnil : k.results = [] := List.eq_nil_of_length_eq_zero (by omega)
          cases hb
          refine hs.goes ctrl' k.base rfl rfl rfl rfl hrest ?_ ?_
          · simp only [lower_fst, hheight]
            exact hbelow
          · rwa [hnil, List.nil_append] at hafter
        · rename_i hone
          obtain ⟨r, hr⟩ : ∃ r, k.results = [r] := List.length_eq_one_iff.1 (by omega)
          cases hb
          refine hs.goes ctrl' (r :: k.base) rfl rfl rfl rfl hrest ?_ ?_
          · have hne : ¬ stack.length = label.height := by
              rw [hr, List.length_singleton] at hlen
              omega
            simp only [lower_fst, hheight] at hne ⊢
            refine .cons ?_ hbelow
            rw [if_neg hne]
            rw [hr] at hresults
            obtain ⟨v, stack, rfl⟩ : ∃ v st, stack = v :: st := by
              cases stack with
              | nil => simp [hr, hn] at hlen
              | cons v st => exact ⟨v, st, rfl⟩
            have htop := AllHold.fit hs.valid.known hresults (List.forall₂_take 1 hst)
            exact (List.forall₂_cons.1 htop).1
          · rwa [hr] at hafter

/-- A jump. -/
theorem goes_br (hs : Settled m hidden E p ctrl σ first s) {d : Nat} {k : Ctrl}
    (hcode : s.frame.code.toList.drop s.frame.pc = .br d :: rest) (hd : ctrl[d]? = some k)
    (hk : k.reached (E.known p) σ = true) (h : m.step s = .next s') : Goes m hidden s s' := by
  have hx := exec_of_step (drop_next hcode).1 h
  simp only [exec.eq_def, execControl.eq_def, branchTo, tick] at hx
  split at hx
  · rename_i f hb
    cases hx
    exact goes_branch hs hd hk hs.valid.stack hb
  · cases hx

/-- A jump that depends on the top operand. -/
theorem goes_brIf (hs : Settled m hidden E p ctrl (c :: σ) first s) {d : Nat} {k : Ctrl}
    (hcode : s.frame.code.toList.drop s.frame.pc = .brIf d :: rest) (hd : ctrl[d]? = some k)
    (hk : k.reached (E.known p) σ = true) (hr : Checks E p ctrl σ rest)
    (h : m.step s = .next s') : Goes m hidden s s' := by
  have hx := exec_of_step (drop_next hcode).1 h
  simp only [exec.eq_def, execControl.eq_def, tick] at hx
  split at hx
  · rename_i x stack hstack
    have hst := (List.forall₂_cons.1 (hstack ▸ hs.valid.stack)).2
    split at hx
    · unfold branchTo at hx
      split at hx
      · rename_i f hb
        cases hx
        exact goes_branch hs hd hk hst hb
      · cases hx
    · cases hx
      exact hs.goes ctrl σ rfl rfl rfl rfl hs.entered hst ((drop_next hcode).2 ▸ hr)
  · cases hx

/-! ### Constructs -/

/-- The constructs around code that stands inside one more. -/
theorem Settled.inside (hs : Settled m hidden E p ctrl τ first s) (k : Ctrl) {front : List Instr}
    {isLoop : Bool} {start finish height arity : Nat}
    (hcode : s.frame.code.toList.drop s.frame.pc = front ++ .close :: rest)
    (hfinish : finish = s.frame.pc + front.length) (hheight : height = k.base.length)
    (harity : arity = k.results.length) (hsingle : k.results.length ≤ 1)
    (hafter : Checks E p ctrl (k.results ++ k.base) rest)
    (hagain : isLoop = true → k.construct = .loop ∧ k.results = [] ∧
      Checks E p (k :: ctrl) k.base (s.frame.code.toList.drop (start + 1))) :
    Entered E p s.frame.code.toList (⟨isLoop, start, finish, height, arity⟩ :: s.frame.labels)
      (k :: ctrl) := by
  obtain ⟨hclose, hbehind⟩ := drop_next (drop_front hcode)
  refine .cons hheight harity hsingle ?_ ?_ hagain hs.entered
  · rw [hfinish]
    exact hclose
  · rw [hfinish, hbehind]
    exact hafter

theorem goes_block (hs : Settled m hidden E p ctrl σ first s) {t : ValType}
    (hcode : s.frame.code.toList.drop s.frame.pc = .block t :: rest)
    (hr : Checks E p (⟨.block, σ, resultKinds t⟩ :: ctrl) σ rest) (h : m.step s = .next s') :
    Goes m hidden s s' := by
  have hx := exec_of_step (drop_next hcode).1 h
  have hlen := length_resultKinds t
  obtain ⟨inner, tail, rfl, hmk⟩ := hs.marked.opening _ _ _ hcode rfl
  rw [Nat.zero_add] at hmk
  cases hmk with
  | plain hi => cases hi
  | @block _ _ body more hb he _ =>
    simp only [exec.eq_def, execControl.eq_def, openLabel, tick, he, Option.getD_some] at hx
    cases hx
    rw [List.append_assoc, List.cons_append] at hr hcode
    refine hs.goes _ σ rfl rfl rfl rfl ?_ hs.valid.stack ((drop_next hcode).2 ▸ hr)
    rw [← List.cons_append] at hcode
    refine hs.inside _ hcode ?_ hs.valid.stack.length_eq.symm hlen.symm (hlen ▸ arity_le_one t)
      (hr.behind hb.balanced).2 (absurd · Bool.false_ne_true)
    simp only [List.length_cons]
    omega

theorem goes_loop (hs : Settled m hidden E p ctrl σ first s)
    (hcode : s.frame.code.toList.drop s.frame.pc = .loop :: rest)
    (hr : Checks E p (⟨.loop, σ, []⟩ :: ctrl) σ rest) (h : m.step s = .next s') :
    Goes m hidden s s' := by
  have hx := exec_of_step (drop_next hcode).1 h
  obtain ⟨inner, tail, rfl, hmk⟩ := hs.marked.opening _ _ _ hcode rfl
  rw [Nat.zero_add] at hmk
  cases hmk with
  | plain hi => cases hi
  | @loop _ body more hb he _ =>
    simp only [exec.eq_def, execControl.eq_def, openLabel, tick, he, Option.getD_some] at hx
    cases hx
    rw [List.append_assoc, List.cons_append] at hr hcode
    have hbody := (drop_next hcode).2 ▸ hr
    refine hs.goes _ σ rfl rfl rfl rfl ?_ hs.valid.stack hbody
    rw [← List.cons_append] at hcode
    refine hs.inside _ hcode ?_ hs.valid.stack.length_eq.symm rfl (Nat.zero_le 1)
      (hr.behind hb.balanced).2 fun _ => ⟨rfl, rfl, hbody⟩
    simp only [List.length_cons]
    omega

theorem goes_branchIf (hs : Settled m hidden E p ctrl (c :: σ) first s) {t : ValType}
    (hcode : s.frame.code.toList.drop s.frame.pc = .branchIf t :: rest)
    (hr : Checks E p (⟨.branch, σ, resultKinds t⟩ :: ctrl) σ rest) (h : m.step s = .next s') :
    Goes m hidden s s' := by
  have hx := exec_of_step (drop_next hcode).1 h
  have hlen := length_resultKinds t
  obtain ⟨inner, tail, rfl, hmk⟩ := hs.marked.opening _ _ _ hcode rfl
  rw [Nat.zero_add] at hmk
  simp only [exec.eq_def, execControl.eq_def, tick] at hx
  split at hx
  · rename_i x stack hstack
    have hst := (List.forall₂_cons.1 (hstack ▸ hs.valid.stack)).2
    cases hmk with
    | plain hi => cases hi
    | @branch _ _ body more hb he _ =>
      simp only [openLabel, he, Option.getD_some] at hx
      rw [List.append_assoc, List.cons_append] at hr hcode
      obtain ⟨hnone, hafter⟩ := hr.behind hb.balanced
      have hfront : s.frame.code.toList.drop s.frame.pc =
          (.branchIf t :: body) ++ .close :: (more ++ tail) := hcode
      split at hx
      · cases hx
        refine hs.goes _ σ rfl rfl rfl rfl ?_ hst ((drop_next hcode).2 ▸ hr)
        refine hs.inside _ hfront ?_ hst.length_eq.symm hlen.symm (hlen ▸ arity_le_one t) hafter
          (absurd · Bool.false_ne_true)
        simp only [List.length_cons]
        omega
      · cases hx
        refine hs.goes ctrl σ rfl rfl rfl rfl hs.entered hst ?_
        -- A construct that may be passed over leaves nothing.
        rw [show resultKinds t = [] from hnone rfl] at hafter
        have hdrop := (drop_next (drop_front hfront)).2
        rw [List.length_cons, ← Nat.add_assoc, Nat.add_right_comm s.frame.pc] at hdrop
        exact hdrop ▸ hafter
    | @choice _ _ yes no more hy hn he _ =>
      simp only [openLabel, he, Option.getD_some] at hx
      simp only [List.append_assoc, List.cons_append] at hr hcode
      obtain ⟨hsecond, hafter⟩ := hr.second hy.balanced hn.balanced
      have hfront : s.frame.code.toList.drop s.frame.pc =
          (.branchIf t :: (yes ++ .otherwise :: no)) ++ .close :: (more ++ tail) := by
        rw [hcode]
        simp
      have hfinish : s.frame.pc + 1 + yes.length + 1 + no.length =
          s.frame.pc + (Instr.branchIf t :: (yes ++ .otherwise :: no)).length := by
        simp only [List.length_cons, List.length_append]
        omega
      split at hx
      · cases hx
        refine hs.goes _ σ rfl rfl rfl rfl ?_ hst ((drop_next hcode).2 ▸ hr)
        exact hs.inside _ hfront hfinish hst.length_eq.symm hlen.symm (hlen ▸ arity_le_one t) hafter
          (absurd · Bool.false_ne_true)
      · cases hx
        refine hs.goes (⟨.block, σ, resultKinds t⟩ :: ctrl) σ rfl rfl rfl rfl ?_ hst ?_
        · exact hs.inside _ hfront hfinish hst.length_eq.symm hlen.symm (hlen ▸ arity_le_one t)
            hafter (absurd · Bool.false_ne_true)
        · have hyes : s.frame.code.toList.drop s.frame.pc =
              (.branchIf t :: yes) ++ .otherwise :: (no ++ .close :: (more ++ tail)) := hcode
          have hdrop := (drop_next (drop_front hyes)).2
          rw [List.length_cons, ← Nat.add_assoc, Nat.add_right_comm s.frame.pc] at hdrop
          exact hdrop ▸ hsecond
  · cases hx

theorem goes_otherwise {k : Ctrl} (hs : Settled m hidden E p (k :: ctrl) σ first s)
    (hcode : s.frame.code.toList.drop s.frame.pc = .otherwise :: rest)
    (hk : k.construct = .branch) (hσ : Kind.fitAll (E.known p) σ (k.results ++ k.base) = true)
    (h : m.step s = .next s') : Goes m hidden s s' := by
  have hx := exec_of_step (drop_next hcode).1 h
  have he := hs.entered
  simp only [exec.eq_def, execControl.eq_def, tick] at hx
  cases hlabels : s.frame.labels with
  | nil =>
    rw [hlabels] at he
    cases he
  | cons label labels =>
    rw [hlabels] at he hx
    cases hx
    cases he with
    | cons height arity single finish after again outer =>
    have hnot : label.isLoop = true → False := fun hloop => by
      cases hk.symm.trans (again hloop).1
    refine hs.goes ({ k with construct := .block } :: ctrl) σ rfl rfl rfl rfl ?_ hs.valid.stack ?_
    · exact hlabels ▸ .cons height arity single finish after (fun hl => (hnot hl).elim) outer
    · dsimp only
      have hlt := (List.getElem?_eq_some_iff.1 finish).1
      rw [List.drop_eq_getElem_cons hlt, (List.getElem?_eq_some_iff.1 finish).2]
      exact .close (fun hb => by cases hb) hσ after

theorem goes_close {k : Ctrl} (hs : Settled m hidden E p (k :: ctrl) σ first s)
    (hcode : s.frame.code.toList.drop s.frame.pc = .close :: rest)
    (hσ : Kind.fitAll (E.known p) σ (k.results ++ k.base) = true)
    (hr : Checks E p ctrl (k.results ++ k.base) rest) (h : m.step s = .next s') :
    Goes m hidden s s' := by
  have hx := exec_of_step (drop_next hcode).1 h
  have he := hs.entered
  simp only [exec.eq_def, execControl.eq_def, tick] at hx
  cases hlabels : s.frame.labels with
  | nil =>
    rw [hlabels] at he
    cases he
  | cons label labels =>
    rw [hlabels] at he hx
    cases hx
    cases he with
    | cons height arity single finish after again outer =>
    exact hs.goes ctrl (k.results ++ k.base) rfl rfl rfl rfl outer
      (AllHold.fit hs.valid.known hσ hs.valid.stack) ((drop_next hcode).2 ▸ hr)

/-! ### Calls and returns -/

theorem Waits.deliver {results : List ValType} {f : Frame} {callers : List Frame} {h : Heap}
    (hw : Waits m h hidden results (f :: callers)) (hq : ∀ a, ¬ hidden a)
    (hs : SoundHeap h hidden) {vs : List Val} (hv : List.Forall₂ (Admits h hidden) results vs)
    (host : ω) (steps depth : Nat) :
    Running m hidden ⟨h, host, steps, depth, f.pushAll vs, callers⟩ := by
  obtain ⟨spent, hpush⟩ := pushAll_eq vs f
  rw [hpush]
  cases hw with
  | @cons _ E p ctrl σ first _ _ fits phase marked entered checks returns valid rest =>
  refine ⟨E, p, ctrl, _, first, ⟨fits, marked, entered, returns, ?_, fun _ => hq, rest, hs⟩, checks⟩
  have hv' := valid.mono (.refl h) (.refl h hidden) fun a (ha : nowhere a) => (ha.elim : hidden a)
  exact hv'.restack (List.rel_append (allHold_typed.2 (List.forall₂_reverse_iff.2 hv)) hv'.stack)

theorem goes_leave (hs : Settled m hidden E p ctrl σ first s) (hr : E.returns p σ = true)
    {t : State ω} (hheap : t.heap = s.heap) (hframe : t.frame = s.frame)
    (hcallers : t.callers = s.callers) (h : leave t = .next s') : Goes m hidden s s' := by
  unfold Env.returns at hr
  rw [Bool.and_eq_true, bne_iff_ne] at hr
  obtain ⟨hp, hfit⟩ := hr
  have hq := hs.quiet hp
  simp only [leave, hframe, hheap, hcallers] at h
  cases hpop : Frame.popMany s.frame.results s.frame.stack [] with
  | none =>
    rw [hpop] at h
    cases h
  | some q =>
    obtain ⟨vs, below⟩ := q
    obtain ⟨rfl, -, -⟩ := popMany_eq hpop
    rw [hpop] at h
    have htop := AllHold.fit hs.valid.known hfit (List.forall₂_take E.results.length hs.valid.stack)
    rw [allHold_typed, ← List.forall₂_reverse_iff, List.reverse_reverse] at htop
    have hcall := hs.callers
    cases hc : s.callers with
    | nil =>
      rw [hc] at h
      cases h
    | cons f callers =>
      rw [hc] at h hcall
      cases h
      refine ⟨hidden, hcall.deliver hq hs.sound ?_ _ _ _, .none, .refl _ _⟩
      rw [hs.returns, List.append_nil]
      exact htop

theorem Change.mono {writable writable' : Nat → Prop} {h h' : Heap}
    (hw : ∀ a, writable a → writable' a) (hc : Change writable h h') : Change writable' h h' := by
  cases hc with
  | none => exact .none
  | made c => exact .made c
  | arrayValue hc ht hf => exact .arrayValue hc ht hf
  | table hc => exact .table hc
  | entry hc hf => exact .entry hc hf
  | elements hc hn ht =>
    exact .elements hc hn (ht.imp_right (Or.imp_right fun ht => ⟨ht.1, hw _ ht.2⟩))

theorem reveals_nowhere (h : Heap) (hidden : Nat → Prop) : Reveals h hidden nowhere :=
  fun _ ha => ha.elim

/-- Nothing need be hidden any more. -/
theorem SoundHeap.reveal {h : Heap} (hs : SoundHeap h hidden) : SoundHeap h nowhere :=
  hs.mono (.refl h) (reveals_nowhere h hidden) nofun fun _ _ hc => .inl hc

/-- A new activation, called with arguments of the right types. -/
theorem goes_enter (hm : Disciplined m) {func : Int} {type : TypeDef} {args : List Val}
    {w : World ω} {depth : Nat} {callers : List Frame}
    (hsig : m.program.signature? func = some type) (hs : SoundHeap w.heap nowhere)
    (ha : List.Forall₂ (Admits w.heap nowhere) type.params args)
    (hw : Waits m w.heap nowhere type.results callers)
    (h : m.enter func args w depth callers = .next s') :
    Running m nowhere s' ∧ Change nowhere w.heap s'.heap := by
  simp only [Module.signature?, Option.bind_eq_bind, Option.bind_eq_some_iff] at hsig
  obtain ⟨f, hf, ht⟩ := hsig
  simp only [enter, hf, ht] at h
  split at h
  · cases h
  · split at h
    · rename_i run hlink
      split at h
      · rename_i vs w' hrun
        obtain ⟨hch, hs', hvs⟩ := hm.host func f type run hf ht hlink w w' args vs hrun hs ha
        have hw' := hw.mono hch.later (.refl _ _)
        cases callers with
        | nil => cases h
        | cons caller callers =>
          cases h
          exact ⟨hw'.deliver (fun _ => id) hs' hvs _ _ _, hch⟩
      · cases h
      · cases h
    · cases h
  · rename_i locals instrs hbody
    split at h
    · cases h
    · split at h
      · rename_i blocks zeros hlink
        obtain ⟨hmarked, rfl, E, hfits, hres, hstarts, hchecks⟩ :=
          hm.code func f type locals instrs blocks zeros hf ht hbody hlink
        obtain ⟨first, hlocals⟩ := hstarts w.heap args ha
        cases h
        refine ⟨⟨E, .before, [], [], first, ⟨hfits, hmarked, .nil, by rw [hres],
          ⟨.nil, hlocals, fun hk => ?_⟩, fun _ _ => id, hres ▸ hw, hs⟩, hchecks⟩, .none⟩
        simp [Env.known] at hk
      · cases h

theorem goes_call (hm : Disciplined m) {ks : List Kind} {func : Int}
    {params results : List ValType} (hs : Settled m hidden E p ctrl (ks ++ σ) first s)
    (hcode : s.frame.code.toList.drop s.frame.pc = .call func :: rest) (hp : p ≠ .filling)
    (hsig : E.sig func = some (params, results))
    (hk : Kind.fitAll (E.known p) ks (params.reverse.map .typed) = true)
    (hr : Checks E p ctrl (results.reverse.map .typed ++ σ) rest) (h : m.step s = .next s') :
    Goes m hidden s s' := by
  have hx := exec_of_step (drop_next hcode).1 h
  obtain ⟨type, htype, rfl, rfl⟩ := hs.fits.sig func params results hsig
  simp only [exec.eq_def, execCall, tick, htype] at hx
  cases hpop : Frame.popMany type.params.length s.frame.stack [] with
  | none =>
    rw [hpop] at hx
    cases hx
  | some q =>
    obtain ⟨args, below⟩ := q
    obtain ⟨rfl, rfl, -⟩ := popMany_eq hpop
    rw [hpop] at hx
    have hlen : ks.length = type.params.length := by simpa using Kind.fitAll_length hk
    have htaken := List.forall₂_take type.params.length hs.valid.stack
    have hleft := List.forall₂_drop type.params.length hs.valid.stack
    rw [← hlen, List.take_left] at htaken
    rw [← hlen, List.drop_left, hlen] at hleft
    -- While a function is called nothing is hidden.
    have hq := hs.quiet hp
    have hh := reveals_nowhere s.heap hidden
    have hargs := allHold_typed.1 (AllHold.fit hs.valid.known hk htaken)
    rw [← List.forall₂_reverse_iff, List.reverse_reverse, hlen] at hargs
    have hvalid := (hs.valid.restack hleft).mono (.refl _) hh fun a ha => (hq a ha : nowhere a)
    have hargs' := hargs.imp fun _ _ hv => hv.mono (.refl _) hh
    dsimp only at hx
    rw [List.append_nil] at hx
    refine ⟨nowhere, ?_⟩
    have hwaits := hs.callers.mono (.refl _) hh
    have hcaller (f : Frame) (hpc : f.pc = s.frame.pc + 1) (hf : f = { s.frame with
        pc := f.pc, stack := s.frame.stack.drop type.params.length, spent := f.spent }) :
        Waits m s.heap nowhere type.results (f :: s.callers) := by
      rw [hf, hpc]
      exact .cons hs.fits hp hs.marked hs.entered ((drop_next hcode).2 ▸ hr) hs.returns hvalid hwaits
    obtain ⟨hrun, hch⟩ := goes_enter hm htype hs.sound.reveal hargs' (hcaller _ rfl rfl) hx
    exact ⟨hrun, hch.mono fun _ ha => ha.elim, hh⟩

/-! ### Phases -/

/-- Outside all constructs the phase of an activation may change. -/
theorem Entered.outside {p' : Phase} {code : List Instr} {labels : List Label}
    (h : Entered E p code labels []) : Entered E p' code labels [] := by
  cases h
  exact .nil

theorem Settled.fill (hs : Settled m hidden E .before [] σ first s) (hm : E.measured = false) :
    Settled m hidden E .filling [] σ first s := by
  refine { hs with
    entered := hs.entered.outside
    valid := ⟨hs.valid.stack, ?_, fun hk => ?_⟩
    quiet := fun hp => absurd rfl hp }
  · exact AllHold.fit (fun hk => absurd hk Bool.false_ne_true) (hs.fits.fill hm) hs.valid.locals
  · simp [Env.known] at hk

theorem Settled.publish (hs : Settled m hidden E .filling [] σ first s) (hm : E.measured = false) :
    Settled m nowhere E .after [] (σ.map Kind.published) first s := by
  refine { hs with
    entered := hs.entered.outside
    valid := ⟨?_, ?_, fun hk => ?_⟩
    quiet := fun _ _ => id
    callers := hs.callers.mono (.refl _) (reveals_nowhere _ _)
    sound := hs.sound.reveal }
  · exact List.forall₂_map_left_iff.2 (hs.valid.stack.imp fun _ _ hv => hv.publish)
  · rw [← hs.fits.publish]
    exact List.forall₂_map_left_iff.2 (hs.valid.locals.imp fun _ _ hv => hv.publish)
  · simp [Env.known, hm] at hk

theorem goes_measure (hs : Settled m hidden E .before [] (.firstDense :: σ) first s)
    (hm : E.measured = true) (hcode : s.frame.code.toList.drop s.frame.pc = .arrayLen :: rest)
    (hr : Checks E .after [] (.typed .i32 :: σ) rest) (h : m.step s = .next s') :
    Goes m hidden s s' := by
  obtain ⟨c, spent, he, rfl⟩ := exec_computes rfl (exec_of_step (drop_next hcode).1 h)
  obtain ⟨a, t, elems, st, x, hstack, -, rfl⟩ := effect_arrayLen he
  have hst := hs.valid.stack
  rw [show s.frame.stack = .ref a :: st from hstack] at hst
  obtain ⟨hdense, hbelow⟩ := List.forall₂_cons.1 hst
  refine ⟨hidden, ⟨E, .after, [], .typed .i32 :: σ, first, { hs with
    entered := hs.entered.outside
    valid := ⟨.cons ⟨x, rfl⟩ hbelow, ?_, fun _ => hdense.2 nofun⟩
    quiet := fun _ => hs.quiet nofun }, ?_⟩, .none, .refl _ _⟩
  · rw [← hs.fits.measure hm]
    exact hs.valid.locals
  · exact (drop_next hcode).2 ▸ hr

/-! ## All steps -/

/-- A step of a run leads to a state of the run and changes the heap only where stores are meant to
go. The induction passes over the changes of phase, which are no steps. -/
theorem step_sound (hm : Disciplined m) (hr : Running m hidden s) (h : m.step s = .next s') :
    Goes m hidden s s' := by
  obtain ⟨E, p, ctrl, σ, first, hs, hc⟩ := hr
  generalize hcode : s.frame.code.toList.drop s.frame.pc = code at hc
  induction hc generalizing hidden with
  | nil hret =>
    have hnone : s.frame.code[s.frame.pc]? = none := by
      rw [← Array.getElem?_toList, List.getElem?_eq_none_iff]
      exact List.drop_eq_nil_iff.1 hcode
    rw [step, hnone] at h
    exact goes_leave hs hret rfl rfl rfl h
  | plain hf hr => exact goes_plain hm hs hcode hf hr h
  | call hp hsig hk hr => exact goes_call hm hs hcode hp hsig hk hr h
  | unreachable => cases exec_of_step (drop_next hcode).1 h
  | ret hret =>
    have hleave : leave (tick s) = .next s' := exec_of_step (drop_next hcode).1 h
    exact goes_leave (t := tick s) hs hret rfl rfl rfl hleave
  | br hd hk => exact goes_br hs hcode hd hk h
  | brIf _ hd hk hr => exact goes_brIf hs hcode hd hk hr h
  | block hr => exact goes_block hs hcode hr h
  | loop hr => exact goes_loop hs hcode hr h
  | branchIf _ hr => exact goes_branchIf hs hcode hr h
  | otherwise hk hσ => exact goes_otherwise hs hcode hk hσ h
  | close _ hσ hr => exact goes_close hs hcode hσ hr h
  | fill hmeas _ ih => exact ih (hs.fill hmeas) hcode
  | publish hmeas _ ih =>
    obtain ⟨hidden', hrun, hch, hh⟩ := ih (hs.publish hmeas) hcode
    refine ⟨hidden', hrun, hch.mono fun _ ha => ha.elim, fun a ha => .inr ?_⟩
    exact (hh a ha).resolve_left id
  | measure hmeas hr => exact goes_measure hs hmeas hcode hr h

theorem steps_sound (hm : Disciplined m) {n : Nat} (hr : Running m hidden s)
    (h : Processor.Steps m n s s') :
    ∃ hidden', Running m hidden' s' ∧ Later s.heap s'.heap ∧ Reveals s.heap hidden hidden' := by
  induction h generalizing hidden with
  | refl => exact ⟨hidden, hr, .refl _, .refl _ _⟩
  | step hstep _ ih =>
    obtain ⟨hidden₁, hr₁, hch, hh₁⟩ := step_sound hm hr hstep
    obtain ⟨hidden₂, hr₂, hl₂, hh₂⟩ := ih hr₁
    refine ⟨hidden₂, hr₂, hch.later.trans hl₂, fun a ha => ?_⟩
    rcases hh₂ a ha with ha | ha
    · exact hh₁ a ha
    · exact .inr (hch.later.size_le.trans ha)

/-! ## Cells that stay as they are -/

/-- A cell that no store is meant for: a value that is no array, or a byte string that is not
hidden. -/
def Fixed (hidden : Nat → Prop) (a : Nat) : Cell → Prop
  | .struct t fields =>
    t = Shape.value ∧ fields[ValueField.tag.index]? ≠ some (.i32 Tag.array.code)
  | .array t _ => t = Shape.bytes ∧ ¬ hidden a

theorem Change.fixed {h h' : Heap} {a : Nat} {c : Cell} (hch : Change hidden h h')
    (hc : h[a]? = some c) (hf : Fixed hidden a c) : h'[a]? = some c := by
  cases hch with
  | none => exact hc
  | made =>
    obtain ⟨hlt, rfl⟩ := Array.getElem?_eq_some_iff.1 hc
    exact Array.getElem?_push_lt hlt
  | arrayValue hc' htag _ =>
    rename_i b fields f v
    rw [Heap.setField_other, hc]
    rintro rfl
    obtain rfl := Option.some.inj (hc.symm.trans hc')
    exact hf.2 htag
  | table hc' =>
    rw [Heap.setField_other, hc]
    rintro rfl
    obtain rfl := Option.some.inj (hc.symm.trans hc')
    exact absurd hf.1 (by decide)
  | entry hc' =>
    rw [Heap.setField_other, hc]
    rintro rfl
    obtain rfl := Option.some.inj (hc.symm.trans hc')
    exact absurd hf.1 (by decide)
  | elements hc' _ ht =>
    rw [Array.getElem?_setIfInBounds_ne, hc]
    rintro rfl
    obtain rfl := Option.some.inj (hc.symm.trans hc')
    obtain ⟨rfl, hn⟩ := hf
    rcases ht with ht | ht | ht
    · exact absurd ht (by decide)
    · exact absurd ht (by decide)
    · exact hn ht.2

theorem steps_fixed (hm : Disciplined m) {n a : Nat} {c : Cell} (hr : Running m hidden s)
    (h : Processor.Steps m n s s') (hc : s.heap[a]? = some c) (hf : Fixed hidden a c) :
    s'.heap[a]? = some c := by
  induction h generalizing hidden with
  | refl => exact hc
  | step hstep _ ih =>
    obtain ⟨hidden₁, hr₁, hch, hh₁⟩ := step_sound hm hr hstep
    refine ih hr₁ (hch.fixed hc hf) ?_
    cases c with
    | struct => exact hf
    | array => exact ⟨hf.1, hh₁.not_hidden hc hf.2⟩

end Steps

end HeapScript.Library
