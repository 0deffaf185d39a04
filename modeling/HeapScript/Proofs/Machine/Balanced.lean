import Mathlib
import HeapScript.Machine.Blocks

/-!
# Balanced code

Code is balanced if its constructs nest like brackets and every `if` has at most one `else`. All
code that the library and the code generator write is of this form.
-/

namespace HeapScript.Machine

/-- Whether an instruction neither opens nor divides nor closes a construct. -/
def Instr.isPlain : Instr → Bool
  | .block _ | .loop | .branchIf _ | .otherwise | .close => false
  | _ => true

/-- Code whose constructs are all closed. -/
inductive Balanced : List Instr → Prop where
  | nil : Balanced []
  | plain {i : Instr} {rest : List Instr} (hi : i.isPlain = true) (hr : Balanced rest) :
      Balanced (i :: rest)
  | block {t : ValType} {body rest : List Instr} (hb : Balanced body) (hr : Balanced rest) :
      Balanced (.block t :: (body ++ .close :: rest))
  | loop {body rest : List Instr} (hb : Balanced body) (hr : Balanced rest) :
      Balanced (.loop :: (body ++ .close :: rest))
  | branch {t : ValType} {body rest : List Instr} (hb : Balanced body) (hr : Balanced rest) :
      Balanced (.branchIf t :: (body ++ .close :: rest))
  | choice {t : ValType} {yes no rest : List Instr} (hy : Balanced yes) (hn : Balanced no)
      (hr : Balanced rest) :
      Balanced (.branchIf t :: (yes ++ .otherwise :: (no ++ .close :: rest)))

theorem Balanced.append {a b : List Instr} (ha : Balanced a) (hb : Balanced b) :
    Balanced (a ++ b) := by
  induction ha with
  | nil => exact hb
  | plain hi _ ih => exact .plain hi ih
  | block hbody _ _ ih =>
    rw [List.cons_append, List.append_assoc, List.cons_append]
    exact .block hbody ih
  | loop hbody _ _ ih =>
    rw [List.cons_append, List.append_assoc, List.cons_append]
    exact .loop hbody ih
  | branch hbody _ _ ih =>
    rw [List.cons_append, List.append_assoc, List.cons_append]
    exact .branch hbody ih
  | choice hy hn _ _ _ ih =>
    rw [List.cons_append, List.append_assoc, List.cons_append, List.append_assoc, List.cons_append]
    exact .choice hy hn ih

/-- Code whose constructs are all closed. Outside of these an `else` may stand only if the code is
directly inside an `if`. -/
inductive Bracketed : Bool → List Instr → Prop
  | nil {inIf : Bool} : Bracketed inIf []
  | plain {inIf : Bool} {i : Instr} {rest : List Instr} (hi : i.isPlain = true)
    (hr : Bracketed inIf rest) : Bracketed inIf (i :: rest)
  | otherwise {rest : List Instr} (hr : Bracketed true rest) : Bracketed true (.otherwise :: rest)
  | construct {inIf : Bool} {i : Instr} {body rest : List Instr} (hi : i.opens = true)
    (hb : Bracketed i.isBranchIf body) (hr : Bracketed inIf rest) :
    Bracketed inIf (i :: (body ++ .close :: rest))

theorem Bracketed.append {inIf : Bool} {a b : List Instr} (ha : Bracketed inIf a)
    (hb : Bracketed inIf b) : Bracketed inIf (a ++ b) := by
  induction ha with
  | nil => exact hb
  | plain hi _ ih => exact .plain hi (ih hb)
  | otherwise _ ih => exact .otherwise (ih hb)
  | construct hi hbody _ _ ih =>
    rw [List.cons_append, List.append_assoc, List.cons_append]
    exact .construct hi hbody (ih hb)

theorem Balanced.bracketed {code : List Instr} (h : Balanced code) (inIf : Bool) :
    Bracketed inIf code := by
  induction h generalizing inIf with
  | nil => exact .nil
  | plain hi _ ih => exact .plain hi (ih inIf)
  | block _ _ ihb ihr | loop _ _ ihb ihr | branch _ _ ihb ihr =>
    exact .construct rfl (ihb _) (ihr inIf)
  | @choice t yes no rest _ _ _ ihy ihn ihr =>
    have := Bracketed.construct (i := .branchIf t) rfl ((ihy true).append (.otherwise (ihn true)))
      (ihr inIf)
    simpa using this

/-! ## Extents -/

/-- Balanced code at a position of a body, with the extents of its constructs in the table. -/
inductive Marked (blocks : Array Block) : Nat → List Instr → Prop where
  | nil (p : Nat) : Marked blocks p []
  | plain {p : Nat} {i : Instr} {rest : List Instr} (hi : i.isPlain = true)
      (hr : Marked blocks (p + 1) rest) : Marked blocks p (i :: rest)
  | block {p : Nat} {t : ValType} {body rest : List Instr} (hb : Marked blocks (p + 1) body)
      (he : blocks[p]? = some ⟨none, p + 1 + body.length⟩)
      (hr : Marked blocks (p + 1 + body.length + 1) rest) :
      Marked blocks p (.block t :: (body ++ .close :: rest))
  | loop {p : Nat} {body rest : List Instr} (hb : Marked blocks (p + 1) body)
      (he : blocks[p]? = some ⟨none, p + 1 + body.length⟩)
      (hr : Marked blocks (p + 1 + body.length + 1) rest) :
      Marked blocks p (.loop :: (body ++ .close :: rest))
  | branch {p : Nat} {t : ValType} {body rest : List Instr} (hb : Marked blocks (p + 1) body)
      (he : blocks[p]? = some ⟨none, p + 1 + body.length⟩)
      (hr : Marked blocks (p + 1 + body.length + 1) rest) :
      Marked blocks p (.branchIf t :: (body ++ .close :: rest))
  | choice {p : Nat} {t : ValType} {yes no rest : List Instr} (hy : Marked blocks (p + 1) yes)
      (hn : Marked blocks (p + 1 + yes.length + 1) no)
      (he : blocks[p]? =
        some ⟨some (p + 1 + yes.length), p + 1 + yes.length + 1 + no.length⟩)
      (hr : Marked blocks (p + 1 + yes.length + 1 + no.length + 1) rest) :
      Marked blocks p (.branchIf t :: (yes ++ .otherwise :: (no ++ .close :: rest)))

theorem Marked.balanced {blocks : Array Block} {p : Nat} {code : List Instr}
    (h : Marked blocks p code) : Balanced code := by
  induction h with
  | nil => exact .nil
  | plain hi _ ih => exact .plain hi ih
  | block _ _ _ ihb ihr => exact .block ihb ihr
  | loop _ _ _ ihb ihr => exact .loop ihb ihr
  | branch _ _ _ ihb ihr => exact .branch ihb ihr
  | choice _ _ _ _ ihy ihn ihr => exact .choice ihy ihn ihr

/-! ## Parts of a construct -/

/-- Whether an instruction divides an `if`. -/
def Instr.isOtherwise : Instr → Bool
  | .otherwise => true
  | _ => false

/-- Whether an instruction ends a construct. -/
def Instr.isClose : Instr → Bool
  | .close => true
  | _ => false

/-- The code up to the `end` of the construct that is `depth` levels out, and the code behind. -/
def splitClose : Nat → List Instr → List Instr × List Instr
  | _, [] => ([], [])
  | depth, i :: rest =>
    if i.isClose then
      match depth with
      | 0 => ([], rest)
      | depth + 1 => (i :: (splitClose depth rest).1, (splitClose depth rest).2)
    else if i.opens then
      (i :: (splitClose (depth + 1) rest).1, (splitClose (depth + 1) rest).2)
    else (i :: (splitClose depth rest).1, (splitClose depth rest).2)

/-- The code up to the `else` that is `depth` levels out, and the code behind if there is one. -/
def splitElse : Nat → List Instr → List Instr × Option (List Instr)
  | _, [] => ([], none)
  | depth, i :: rest =>
    if i.isOtherwise ∧ depth = 0 then ([], some rest)
    else if i.isClose then (i :: (splitElse (depth - 1) rest).1, (splitElse (depth - 1) rest).2)
    else if i.opens then (i :: (splitElse (depth + 1) rest).1, (splitElse (depth + 1) rest).2)
    else (i :: (splitElse depth rest).1, (splitElse depth rest).2)

theorem splitClose_length (depth : Nat) (code : List Instr) :
    (splitClose depth code).1.length + (splitClose depth code).2.length ≤ code.length := by
  fun_induction splitClose depth code <;> simp <;> omega

theorem splitElse_length (depth : Nat) (code : List Instr) :
    (splitElse depth code).1.length ≤ code.length := by
  fun_induction splitElse depth code <;> simp <;> omega

theorem splitElse_length_some {depth : Nat} {code no : List Instr}
    (h : (splitElse depth code).2 = some no) : no.length ≤ code.length := by
  fun_induction splitElse depth code <;> simp_all <;> omega

theorem Instr.isClose_of_opens {i : Instr} (h : i.opens = true) : i.isClose = false := by
  cases i <;> first | rfl | cases h

theorem Instr.not_opens_of_isPlain {i : Instr} (h : i.isPlain = true) :
    i.opens = false ∧ i.isClose = false ∧ i.isOtherwise = false := by
  cases i <;> first | exact ⟨rfl, rfl, rfl⟩ | cases h

theorem splitClose_append {inIf : Bool} {code : List Instr} (h : Bracketed inIf code) :
    ∀ (d : Nat) (tail : List Instr), splitClose d (code ++ tail) =
      (code ++ (splitClose d tail).1, (splitClose d tail).2) := by
  induction h with
  | nil => exact fun _ _ => rfl
  | plain hi _ ih =>
    intro d tail
    obtain ⟨h₁, h₂, -⟩ := Instr.not_opens_of_isPlain hi
    simp [splitClose, h₁, h₂, ih]
  | otherwise _ ih =>
    intro d tail
    simp [splitClose, Instr.isClose, Instr.opens, ih]
  | construct hi _ _ ihb ihr =>
    intro d tail
    have hclose : Instr.close.isClose = true := rfl
    simp [splitClose, hi, Instr.isClose_of_opens hi, hclose, ihb, ihr]

/-- An `else` of some construct is not found from further out. -/
theorem splitElse_append {inIf : Bool} {code : List Instr} (h : Bracketed inIf code) :
    ∀ (d : Nat) (tail : List Instr), inIf = false ∨ d ≠ 0 → splitElse d (code ++ tail) =
      (code ++ (splitElse d tail).1, (splitElse d tail).2) := by
  induction h with
  | nil => exact fun _ _ _ => rfl
  | plain hi _ ih =>
    intro d tail hd
    obtain ⟨h₁, h₂, h₃⟩ := Instr.not_opens_of_isPlain hi
    simp [splitElse, h₁, h₂, h₃, ih d tail hd]
  | otherwise _ ih =>
    intro d tail hd
    simp [splitElse, hd.resolve_left, Instr.isClose, Instr.opens, ih d tail hd]
  | @construct _ i _ _ hi _ _ ihb ihr =>
    intro d tail hd
    have hi' : i.isOtherwise = false := by cases i <;> first | rfl | cases hi
    have hclose : Instr.close.isClose = true ∧ Instr.close.isOtherwise = false := ⟨rfl, rfl⟩
    simp [splitElse, hi, hi', Instr.isClose_of_opens hi, hclose, ihb, ihr d tail hd]

/-- The body of a construct is found again. -/
theorem splitClose_body {inIf : Bool} {body : List Instr} (h : Bracketed inIf body)
    (rest : List Instr) :
    splitClose 0 (body ++ .close :: rest) = (body, rest) := by
  rw [splitClose_append h]
  simp [splitClose, Instr.isClose]

/-- The two branches of an `if` are found again. -/
theorem splitClose_choice {yes no : List Instr} (hy : Balanced yes) (hn : Balanced no)
    (rest : List Instr) :
    splitClose 0 (yes ++ .otherwise :: (no ++ .close :: rest)) =
      (yes ++ .otherwise :: no, rest) := by
  rw [splitClose_append (hy.bracketed false)]
  simp [splitClose, Instr.isClose, Instr.opens, splitClose_append (hn.bracketed false)]

theorem splitElse_choice {yes : List Instr} (hy : Balanced yes) (no : List Instr) :
    splitElse 0 (yes ++ .otherwise :: no) = (yes, some no) := by
  rw [splitElse_append (hy.bracketed false) _ _ (.inl rfl)]
  simp [splitElse, Instr.isOtherwise]

theorem splitElse_body {body : List Instr} (h : Balanced body) :
    splitElse 0 body = (body, none) := by
  have := splitElse_append (h.bracketed false) 0 [] (.inl rfl)
  simpa [splitElse] using this

/-! ## Balance by counting -/

/-- The code closes the open constructs, the innermost first, and all that it opens itself. A
construct that may still get an `else` is marked. -/
def Nests : List Instr → List Bool → Prop
  | [], opened => opened = []
  | i :: code, opened =>
    match i with
    | .block _ | .loop => Nests code (false :: opened)
    | .branchIf _ => Nests code (true :: opened)
    | .otherwise =>
      match opened with
      | true :: opened => Nests code (false :: opened)
      | _ => False
    | .close =>
      match opened with
      | _ :: opened => Nests code opened
      | [] => False
    | _ => Nests code opened

/-- The code is made of balanced pieces between the ends of the open constructs. -/
inductive Closes : List Bool → List Instr → Prop
  | nil {code : List Instr} (h : Balanced code) : Closes [] code
  | close {b : Bool} {opened : List Bool} {code rest : List Instr} (h : Balanced code)
    (hr : Closes opened rest) : Closes (b :: opened) (code ++ .close :: rest)
  | otherwise {opened : List Bool} {code rest : List Instr} (h : Balanced code)
    (hr : Closes (false :: opened) rest) : Closes (true :: opened) (code ++ .otherwise :: rest)

theorem Closes.append_left {opened : List Bool} {code rest : List Instr} (h : Balanced code)
    (hc : Closes opened rest) : Closes opened (code ++ rest) := by
  cases hc with
  | nil hr => exact .nil (h.append hr)
  | close hr hc =>
    rw [← List.append_assoc]
    exact .close (h.append hr) hc
  | otherwise hr hc =>
    rw [← List.append_assoc]
    exact .otherwise (h.append hr) hc

theorem Closes.construct {opened : List Bool} {i : Instr} {code : List Instr}
    (hi : ∀ {body : List Instr}, Balanced body → Balanced (i :: (body ++ [.close])))
    (hc : Closes (false :: opened) code) : Closes opened (i :: code) := by
  cases hc with
  | @close _ _ body rest hb hr =>
    have := hr.append_left (hi hb)
    simpa using this

theorem Nests.closes {code : List Instr} {opened : List Bool} (h : Nests code opened) :
    Closes opened code := by
  fun_induction Nests code opened with
  | case1 opened =>
    subst h
    exact .nil .nil
  | case2 code opened t ih => exact (ih h).construct fun hb => .block hb .nil
  | case3 code opened ih => exact (ih h).construct fun hb => .loop hb .nil
  | case4 code opened t ih =>
    cases ih h with
    | @close _ _ body rest hb hr =>
      have := hr.append_left (Balanced.branch (t := t) hb .nil)
      simpa using this
    | @otherwise _ yes rest hy hr =>
      cases hr with
      | @close _ _ no rest hn hr =>
        have := hr.append_left (Balanced.choice (t := t) hy hn .nil)
        simpa using this
  | case5 code opened ih => exact .otherwise .nil (ih h)
  | case6 => exact h.elim
  | case7 code b opened ih => exact .close .nil (ih h)
  | case8 => exact h.elim
  | case9 i code opened h₁ h₂ h₃ h₄ h₅ ih =>
    have hi : i.isPlain = true := by
      cases i <;> first | rfl | simp_all
    exact (ih h).append_left (.plain hi .nil)

theorem Nests.balanced {code : List Instr} (h : Nests code []) : Balanced code := by
  cases h.closes with
  | nil hb => exact hb

end HeapScript.Machine
