import HeapScript.Proofs.Machine.Rules

/-!
# Rules for the code builders

Straight-line builders are opened into the instructions they stand for. The builders of constructs
keep their form and have rules of their own; these ask for balanced parts, which counting finds for
every piece of code put together from the builders.
-/

namespace HeapScript.Library

open Machine Machine.Processor Code

/-! ## Nesting

The constructs are opened here, so that counting sees every instruction. -/

section Nesting

variable {code rest : Code} {opened : List Bool}

@[simp] theorem nests_nil : Nests [] opened ↔ opened = [] := by
  simp [Nests]

@[simp] theorem nests_cons {i : Instr} (hi : i.isPlain = true) :
    Nests (i :: code) opened ↔ Nests code opened := by
  cases i <;> first | rfl | cases hi

@[simp] theorem nests_when :
    Nests (when code ++ rest) opened ↔ Nests (code ++ .close :: rest) (true :: opened) := by
  simp [when, Nests]

@[simp] theorem nests_choose {t : ValType} {yes no : Code} :
    Nests (choose t yes no ++ rest) opened ↔
      Nests (yes ++ .otherwise :: (no ++ .close :: rest)) (true :: opened) := by
  simp [choose, Nests]

@[simp] theorem nests_ifElse {yes no : Code} :
    Nests (ifElse yes no ++ rest) opened ↔
      Nests (yes ++ .otherwise :: (no ++ .close :: rest)) (true :: opened) := by
  simp [ifElse, Nests]

@[simp] theorem nests_close {b : Bool} :
    Nests (.close :: code) (b :: opened) ↔ Nests code opened := by
  simp [Nests]

@[simp] theorem nests_otherwise :
    Nests (.otherwise :: code) (true :: opened) ↔ Nests code (false :: opened) := by
  simp [Nests]

@[simp] theorem nests_seq {codes : List Code} :
    Nests (seq (code :: codes)) opened ↔ Nests (code ++ seq codes) opened := by
  simp [seq]

@[simp] theorem nests_when_last :
    Nests (when code) opened ↔ Nests (code ++ [.close]) (true :: opened) := by
  rw [← nests_when, List.append_nil]

@[simp] theorem nests_choose_last {t : ValType} {yes no : Code} :
    Nests (choose t yes no) opened ↔
      Nests (yes ++ .otherwise :: (no ++ [.close])) (true :: opened) := by
  rw [← nests_choose, List.append_nil]

@[simp] theorem nests_ifElse_last {yes no : Code} :
    Nests (ifElse yes no) opened ↔
      Nests (yes ++ .otherwise :: (no ++ [.close])) (true :: opened) := by
  rw [← nests_ifElse, List.append_nil]

/-- Code that is nested on its own does not matter for the code behind it. -/
@[simp] theorem nests_append (h : Nests code []) :
    Nests (code ++ rest) opened ↔ Nests rest opened := by
  suffices hs : ∀ inner, Nests code inner →
      (Nests (code ++ rest) (inner ++ opened) ↔ Nests rest opened) from hs [] h
  clear h
  intro inner h
  fun_induction Nests code inner with
  | case1 inner =>
    subst h
    rfl
  | case2 code inner t ih | case3 code inner ih | case4 code inner t ih =>
    simpa [Nests] using ih h
  | case5 code inner ih => simpa [Nests] using ih h
  | case6 => exact h.elim
  | case7 code b inner ih => simpa [Nests] using ih h
  | case8 => exact h.elim
  | case9 i code inner h₁ h₂ h₃ h₄ h₅ ih =>
    have hi : i.isPlain = true := by
      cases i <;> first | rfl | simp_all
    rw [List.cons_append, nests_cons hi]
    exact ih h

/-- Opened in this form, the side conditions on instructions are found by rewriting. -/
@[simp] theorem isPlain_iff (i : Instr) :
    i.isPlain = true ↔ i.opens = false ∧ i.isOtherwise = false ∧ i.isClose = false := by
  cases i <;> simp [Instr.isPlain, Instr.opens, Instr.isOtherwise, Instr.isClose]

attribute [simp] Instr.opens Instr.isOtherwise Instr.isClose Cont.rest ValType.arity

end Nesting

/-! ## Straight-line builders -/

attribute [simp] load store keep const32 const64 constF char noBytes noRef increment localIs
  localIsChar localIsTag leaveIf give valueField tagIs entryField hashField objectField
  setValueField setEntryField setHashField byteAt firstByte tableOf denseOf propsOf newValue
  boxLocal bytesLiteral

@[simp] theorem seq_nil : seq [] = [] := rfl

@[simp] theorem seq_nil_append (rest : Code) : seq [] ++ rest = rest := rfl

@[simp] theorem seq_cons_append (code : Code) (codes : List Code) (rest : Code) :
    seq (code :: codes) ++ rest = code ++ (seq codes ++ rest) := by
  simp [seq]

/-! ## Instructions on known operands -/

attribute [simp] I32Op.eval I64Op.eval I64Rel.eval F64Op.eval F64Rel.eval ReadsElem Heap.array?
  Heap.struct? Frame.popMany TypeDef.fieldCount TypeDef.elem Val.zero Val.isNull Val.same
  Shape.valueRef Shape.bytesRef Shape.denseRef Shape.entryRef Shape.bucketsRef Shape.hashRef

attribute [simp] ValueField.index EntryField.index HashField.index ObjectField.index

/-! ## Constructs -/

section Constructs

variable {ω : Type} {m : Processor ω} {a : Act} {Q : Post ω} {rest : Code} {conts : List Cont}
  {h : Heap} {w : ω} {ls st : List Val} {x : Int32}

@[simp] theorem wp_seq_cons {code : Code} {codes : List Code} {c : Cfg ω} :
    m.wp a (seq (code :: codes)) conts Q c ↔ m.wp a (code ++ seq codes) conts Q c := Iff.rfl

@[simp] theorem wp_when {body : Code} (hb : Nests body []) :
    m.wp a (when body ++ rest) conts Q ⟨h, w, ls, .i32 x :: st⟩ ↔
      if x ≠ 0 then m.wp a body (.block rest st.length 0 :: conts) Q ⟨h, w, ls, st⟩
      else m.wp a rest conts Q ⟨h, w, ls, st⟩ := by
  simp only [when, List.append_assoc, List.cons_append, List.nil_append]
  exact wp_branch hb.balanced

@[simp] theorem wp_choose {t : ValType} {yes no : Code} (hy : Nests yes []) (hn : Nests no []) :
    m.wp a (choose t yes no ++ rest) conts Q ⟨h, w, ls, .i32 x :: st⟩ ↔
      if x ≠ 0 then m.wp a yes (.block rest st.length t.arity :: conts) Q ⟨h, w, ls, st⟩
      else m.wp a no (.block rest st.length t.arity :: conts) Q ⟨h, w, ls, st⟩ := by
  simp only [choose, List.append_assoc, List.cons_append, List.nil_append]
  exact wp_choice hy.balanced hn.balanced

@[simp] theorem wp_ifElse {yes no : Code} (hy : Nests yes []) (hn : Nests no []) :
    m.wp a (ifElse yes no ++ rest) conts Q ⟨h, w, ls, .i32 x :: st⟩ ↔
      if x ≠ 0 then m.wp a yes (.block rest st.length 0 :: conts) Q ⟨h, w, ls, st⟩
      else m.wp a no (.block rest st.length 0 :: conts) Q ⟨h, w, ls, st⟩ :=
  wp_choose (t := .void) hy hn

/-- What follows the code inside a loop that was entered with some operands. -/
def loopConts (body rest : Code) (conts : List Cont) (st : List Val) : List Cont :=
  .loop (body ++ [.br 0]) [] st.length :: .block rest st.length 0 :: conts

/-- A round of a loop that was entered with some operands. What follows the code inside it is
given by a name, so that it stays out of sight while the code runs. -/
def Round (m : Processor ω) (a : Act) (body rest : Code) (conts : List Cont) (Q : Post ω)
    (st : List Val) (c : Cfg ω) : Prop :=
  ∀ K, K = loopConts body rest conts st → m.wp a (body ++ [.br 0]) K Q c

@[simp] theorem wp_forever {body : Code} (hb : Nests body []) :
    m.wp a (forever body ++ rest) conts Q ⟨h, w, ls, st⟩ ↔
      Round m a body rest conts Q st ⟨h, w, ls, st⟩ := by
  have hi : Balanced (body ++ [.br 0]) := hb.balanced.append (.plain rfl .nil)
  have hl : Balanced (.loop :: ((body ++ [.br 0]) ++ .close :: [])) := .loop hi .nil
  simp only [Round, forall_eq]
  refine Iff.trans ?_ (wp_loop (c := ⟨h, w, ls, st⟩) hi)
  refine Iff.trans ?_ (wp_block (t := .void) (c := ⟨h, w, ls, st⟩) hl)
  simp only [forever, List.append_assoc, List.cons_append, List.nil_append]

section Rounds

variable {body : Code} {K : List Cont}

/-- The end of a round starts the next one. -/
theorem round_again (hK : K = loopConts body rest conts st)
    (hw : Round m a body rest conts Q st ⟨h, w, ls, st⟩) : Jumps m a 0 K Q ⟨h, w, ls, st⟩ := by
  subst hK
  refine jumps_loop (Nat.le_refl _) ?_
  rw [Cfg.cut_self]
  exact hw _ rfl

theorem round_leave (hK : K = loopConts body rest conts st) :
    Jumps m a 1 K Q ⟨h, w, ls, st⟩ ↔ m.wp a rest conts Q ⟨h, w, ls, st⟩ := by
  subst hK
  simp [loopConts]

end Rounds

@[simp] theorem wp_doWhile {body : Code} (hb : Nests body []) :
    m.wp a (doWhile body ++ rest) conts Q ⟨h, w, ls, st⟩ ↔
      m.wp a (body ++ [.brIf 0]) (.loop (body ++ [.brIf 0]) rest st.length :: conts) Q
        ⟨h, w, ls, st⟩ := by
  refine Iff.trans ?_ (wp_loop (c := ⟨h, w, ls, st⟩) (hb.balanced.append (.plain rfl .nil)))
  simp only [doWhile, List.append_assoc, List.cons_append, List.nil_append]

/-- The last construct of a piece of code has nothing behind it. -/
@[simp] theorem wp_when_last {body : Code} (hb : Nests body []) :
    m.wp a (when body) conts Q ⟨h, w, ls, .i32 x :: st⟩ ↔
      if x ≠ 0 then m.wp a body (.block [] st.length 0 :: conts) Q ⟨h, w, ls, st⟩
      else m.wp a [] conts Q ⟨h, w, ls, st⟩ := by
  rw [← wp_when hb, List.append_nil]

@[simp] theorem wp_choose_last {t : ValType} {yes no : Code} (hy : Nests yes [])
    (hn : Nests no []) :
    m.wp a (choose t yes no) conts Q ⟨h, w, ls, .i32 x :: st⟩ ↔
      if x ≠ 0 then m.wp a yes (.block [] st.length t.arity :: conts) Q ⟨h, w, ls, st⟩
      else m.wp a no (.block [] st.length t.arity :: conts) Q ⟨h, w, ls, st⟩ := by
  rw [← wp_choose hy hn, List.append_nil]

@[simp] theorem wp_ifElse_last {yes no : Code} (hy : Nests yes []) (hn : Nests no []) :
    m.wp a (ifElse yes no) conts Q ⟨h, w, ls, .i32 x :: st⟩ ↔
      if x ≠ 0 then m.wp a yes (.block [] st.length 0 :: conts) Q ⟨h, w, ls, st⟩
      else m.wp a no (.block [] st.length 0 :: conts) Q ⟨h, w, ls, st⟩ := by
  rw [← wp_ifElse hy hn, List.append_nil]

/-! ## Returns -/

@[simp] theorem holds_giveBack_zero {f : String} {d : Nat} {c : Cfg ω} :
    Q.holds (giveBack ⟨f, 0, d⟩ c) ↔ Q.returned [] c.heap c.host := Iff.rfl

@[simp] theorem holds_giveBack_one {f : String} {d : Nat} {v : Val} :
    Q.holds (giveBack ⟨f, 1, d⟩ ⟨h, w, ls, v :: st⟩) ↔ Q.returned [v] h w := Iff.rfl

end Constructs

end HeapScript.Library
