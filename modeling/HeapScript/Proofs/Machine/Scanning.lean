import HeapScript.Proofs.Machine.Balanced

/-!
# Scanning a body

A body is accepted exactly if its constructs are bracketed and every `else` stands directly inside an
`if`. The table of an accepted body has the `end` of every construct and the last `else` that stands
directly inside it. An `if` may have several of them, so this is more than balance.
-/

namespace HeapScript.Machine

theorem drop_next {code rest : List Instr} {pc : Nat} {i : Instr} (h : code.drop pc = i :: rest) :
    code[pc]? = some i ∧ code.drop (pc + 1) = rest := by
  refine ⟨?_, ?_⟩
  · have := congrArg (·[0]?) h
    simpa using this
  · rw [← List.drop_drop, h, List.drop_one, List.tail_cons]

theorem drop_front {code front back : List Instr} {pc : Nat} (h : code.drop pc = front ++ back) :
    code.drop (pc + front.length) = back := by
  rw [← List.drop_drop, h, List.drop_left]

/-- What is left of a body closes the open constructs, the innermost first. -/
def Remains : List Bool → List Instr → Prop
  | [], code => Bracketed false code
  | inIf :: outer, code => ∃ body rest, code = body ++ .close :: rest ∧ Bracketed inIf body ∧
    Remains outer rest

/-- The last `else` that stands directly in code from a position on. -/
def LastElse (p : Nat) (body : List Instr) : Option Nat → Prop
  | none => Bracketed false body
  | some e => ∃ yes no, body = yes ++ .otherwise :: no ∧ Bracketed true yes ∧ Bracketed false no ∧
    e = p + yes.length

section Pieces

variable {i : Instr} {code body rest : List Instr} {p : Nat}

/-- A construct of which an end is known. -/
theorem Bracketed.closed (hi : i.opens = true) (hb : Bracketed i.isBranchIf body) (inIf : Bool) :
    Bracketed inIf (i :: (body ++ [.close])) := .construct hi hb .nil

/-- Code that may stand anywhere may stand in front of what remains. -/
theorem Remains.prepend {front : List Instr} (hf : ∀ inIf, Bracketed inIf front)
    {opened : List Bool} (h : Remains opened code) : Remains opened (front ++ code) := by
  cases opened with
  | nil => exact (hf false).append h
  | cons inIf outer =>
    obtain ⟨body, rest, rfl, hb, hr⟩ := h
    exact ⟨front ++ body, rest, (List.append_assoc ..).symm, (hf inIf).append hb, hr⟩

theorem LastElse.prepend {front : List Instr} (hf : ∀ inIf, Bracketed inIf front) {x : Option Nat}
    (h : LastElse (p + front.length) body x) : LastElse p (front ++ body) x := by
  cases x with
  | none => exact (hf false).append h
  | some e =>
    obtain ⟨yes, no, rfl, hy, hn, rfl⟩ := h
    refine ⟨front ++ yes, no, (List.append_assoc ..).symm, (hf true).append hy, hn, ?_⟩
    rw [List.length_append, Nat.add_assoc]

/-- An `else` in front of code is the last one if there is none in the code. -/
theorem LastElse.otherwise {x : Option Nat} (h : LastElse (p + 1) body x) :
    LastElse p (.otherwise :: body) (x.or (some p)) := by
  cases x with
  | none => exact ⟨[], body, rfl, .nil, h, rfl⟩
  | some e =>
    obtain ⟨yes, no, rfl, hy, hn, rfl⟩ := h
    refine ⟨.otherwise :: yes, no, rfl, .otherwise hy, hn, ?_⟩
    rw [List.length_cons]
    omega

end Pieces

theorem Instr.plain_or_control (i : Instr) :
    i.isPlain = true ∨ i.opens = true ∨ i = .otherwise ∨ i = .close := by
  cases i <;> simp [Instr.isPlain, Instr.opens]

/-! ## Constructs around a position -/

/-- The constructs that are open behind an instruction, given those in front of it. -/
def Instr.enclose (i : Instr) (p : Nat) (outer : List Nat) : List Nat :=
  match i with
  | .block _ | .loop | .branchIf _ => p :: outer
  | .close => outer.tail
  | _ => outer

/-- The constructs that are open behind code that stands at a position. -/
def encloseAll : List Instr → Nat → List Nat → List Nat
  | [], _, outer => outer
  | i :: rest, p, outer => encloseAll rest (p + 1) (i.enclose p outer)

/-- The constructs around a position of a body, given by where they start, the innermost first. -/
def enclosing (code : List Instr) (p : Nat) : List Nat := encloseAll (code.take p) 0 []

section Enclosing

variable {code front rest : List Instr} {p q o : Nat} {i j : Instr} {outer : List Nat}

theorem encloseAll_append (a b : List Instr) (p : Nat) (outer : List Nat) :
    encloseAll (a ++ b) p outer = encloseAll b (p + a.length) (encloseAll a p outer) := by
  induction a generalizing p outer with
  | nil => rfl
  | cons i a ih =>
    rw [List.cons_append, encloseAll, ih, encloseAll, List.length_cons]
    congr 1
    omega

theorem Instr.enclose_plain (hi : i.isPlain = true) (p : Nat) (outer : List Nat) :
    i.enclose p outer = outer := by
  cases i <;> first | rfl | cases hi

theorem Instr.enclose_opens (hi : i.opens = true) (p : Nat) (outer : List Nat) :
    i.enclose p outer = p :: outer := by
  cases i <;> first | rfl | cases hi

theorem Instr.mem_enclose (h : o ∈ i.enclose p outer) : o = p ∨ o ∈ outer := by
  rcases i.plain_or_control with hi | hi | rfl | rfl
  · exact .inr (enclose_plain hi p outer ▸ h)
  · rw [enclose_opens hi] at h
    exact List.mem_cons.mp h
  · exact .inr h
  · exact .inr (List.mem_of_mem_tail h)

/-- Behind bracketed code the same constructs are open as in front of it. -/
theorem Bracketed.encloseAll {inIf : Bool} (hb : Bracketed inIf code) (p : Nat) (outer : List Nat) :
    encloseAll code p outer = outer := by
  induction hb generalizing p outer with
  | nil => rfl
  | plain hi _ ih => rw [Machine.encloseAll, Instr.enclose_plain hi, ih]
  | otherwise _ ih => exact ih _ _
  | construct hi _ _ ihb ihr =>
    rw [Machine.encloseAll, Instr.enclose_opens hi, encloseAll_append, ihb]
    exact ihr _ _

theorem enclosing_succ (hi : code[p]? = some i) :
    enclosing code (p + 1) = i.enclose p (enclosing code p) := by
  have hlt := (List.getElem?_eq_some_iff.mp hi).1
  rw [enclosing, List.take_add_one, hi, encloseAll_append, List.length_take, Nat.min_eq_left hlt.le,
    Nat.zero_add]
  rfl

/-- Behind an instruction the same constructs are open, or some of them, or one more. -/
theorem enclosing_succ_cases (code : List Instr) (p : Nat) :
    enclosing code (p + 1) <:+ enclosing code p ∨
      enclosing code (p + 1) = p :: enclosing code p ∧ ∃ i, code[p]? = some i ∧ i.opens = true := by
  cases hi : code[p]? with
  | none =>
    have hle := List.getElem?_eq_none_iff.mp hi
    rw [enclosing, enclosing, List.take_of_length_le hle, List.take_of_length_le (by omega)]
    exact .inl List.suffix_rfl
  | some i =>
    rw [enclosing_succ hi]
    rcases i.plain_or_control with hp | ho | rfl | rfl
    · exact .inl (Instr.enclose_plain hp p _ ▸ List.suffix_rfl)
    · exact .inr ⟨Instr.enclose_opens ho p _, i, rfl, ho⟩
    · exact .inl List.suffix_rfl
    · exact .inl (List.tail_suffix _)

/-- A construct around a position stands itself inside those that are further out. -/
theorem enclosing_outer (h : (o :: outer) <:+ enclosing code p) :
    enclosing code o = outer ∧ ∃ i, code[o]? = some i ∧ i.opens = true := by
  induction p with
  | zero => exact absurd (List.eq_nil_of_suffix_nil h) (List.cons_ne_nil o outer)
  | succ p ih =>
    rcases enclosing_succ_cases code p with hs | ⟨heq, hi⟩
    · exact ih (h.trans hs)
    · rw [heq] at h
      rcases List.suffix_cons_iff.mp h with hp | h
      · cases hp
        exact ⟨rfl, hi⟩
      · exact ih h

theorem lt_of_mem_enclosing (h : o ∈ enclosing code p) : o < p := by
  induction p with
  | zero => cases h
  | succ p ih =>
    rcases enclosing_succ_cases code p with hs | ⟨heq, -⟩
    · exact Nat.lt_succ_of_lt (ih (hs.subset h))
    · rcases List.mem_cons.mp (heq ▸ h) with rfl | h
      · exact Nat.lt_succ_self o
      · exact Nat.lt_succ_of_lt (ih h)

/-- A construct around a position is around all positions between its start and this one. -/
theorem mem_enclosing_of_le (hq : p ≤ q) (ho : o < p) (h : o ∈ enclosing code q) :
    o ∈ enclosing code p := by
  induction q, hq using Nat.le_induction with
  | base => exact h
  | succ q hq ih =>
    rcases enclosing_succ_cases code q with hs | ⟨heq, -⟩
    · exact ih (hs.subset h)
    · exact ih ((List.mem_cons.mp (heq ▸ h)).resolve_left (by omega))

/-- The constructs around a position are listed from the last one that was opened on. -/
theorem pairwise_enclosing (code : List Instr) (p : Nat) :
    (enclosing code p).Pairwise fun o o' => o' < o := by
  have key (l : List Nat) (h : l <:+ enclosing code p) : l.Pairwise fun o o' => o' < o := by
    induction l with
    | nil => exact .nil
    | cons o outer ih =>
      refine .cons (fun o' ho' => ?_) (ih ((List.suffix_cons o outer).trans h))
      rw [← (enclosing_outer h).1] at ho'
      exact lt_of_mem_enclosing ho'
  exact key _ List.suffix_rfl

/-- The constructs that are open behind code of a body. -/
theorem enclosing_add (hf : front <+: code.drop p) :
    enclosing code (p + front.length) = encloseAll front p (enclosing code p) := by
  by_cases hp : p ≤ code.length
  · rw [enclosing, List.take_add, ← List.prefix_iff_eq_take.mp hf, encloseAll_append,
      List.length_take, Nat.min_eq_left hp, Nat.zero_add]
    rfl
  · have hnil : front = [] := by
      rw [List.drop_eq_nil_of_le (by omega)] at hf
      exact List.prefix_nil.mp hf
    subst hnil
    rfl

/-- A position inside a construct, behind bracketed code. -/
theorem enclosing_inside {inIf : Bool} (hi : i.opens = true) (hb : Bracketed inIf front)
    (hd : code.drop o = (i :: front) ++ j :: rest) :
    code[o + 1 + front.length]? = some j ∧
      enclosing code (o + 1 + front.length) = o :: enclosing code o := by
  rw [show o + 1 + front.length = o + (i :: front).length by rw [List.length_cons]; omega]
  refine ⟨?_, ?_⟩
  · rw [← List.getElem?_drop, hd, List.getElem?_append_right (Nat.le_refl _), Nat.sub_self]
    rfl
  · rw [enclosing_add ⟨_, hd.symm⟩, encloseAll, hb.encloseAll, Instr.enclose_opens hi]

end Enclosing

/-- A table that is right for a body: a construct ends at an `end` inside itself, and its `else` is
directly inside it. -/
def Extents (code : List Instr) (blocks : Array Block) : Prop :=
  ∀ (o : Nat) (i : Instr), code[o]? = some i → i.opens = true → ∃ b, blocks[o]? = some b ∧
    code[b.endAt]? = some .close ∧ enclosing code b.endAt = o :: enclosing code o ∧
    ∀ e, b.elseAt = some e → code[e]? = some .otherwise ∧ enclosing code e = o :: enclosing code o

/-- A construct is around the positions from behind its start to its end. -/
theorem Extents.mem_enclosing_iff {code : List Instr} {blocks : Array Block}
    (he : Extents code blocks) {o p : Nat} : o ∈ enclosing code p ↔
      (∃ i, code[o]? = some i ∧ i.opens = true) ∧ o < p ∧
        ∃ b, blocks[o]? = some b ∧ p ≤ b.endAt := by
  have hinner {e : Nat} (h : enclosing code e = o :: enclosing code o) : o ∈ enclosing code e := by
    rw [h]
    exact List.mem_cons_self
  constructor
  · intro h
    obtain ⟨front, outer, hmem⟩ := List.append_of_mem h
    have hsuffix : (o :: outer) <:+ enclosing code p := hmem ▸ List.suffix_append ..
    obtain ⟨-, i, hi, hopens⟩ := enclosing_outer hsuffix
    obtain ⟨b, hb, hclose, henc, -⟩ := he o i hi hopens
    refine ⟨⟨i, hi, hopens⟩, lt_of_mem_enclosing h, b, hb, Nat.le_of_not_lt fun hlt => ?_⟩
    -- Behind its end a construct is not open any more.
    have hbehind := mem_enclosing_of_le (Nat.succ_le_of_lt hlt)
      (Nat.lt_succ_of_lt (lt_of_mem_enclosing (hinner henc))) h
    rw [enclosing_succ hclose, henc] at hbehind
    exact Nat.lt_irrefl o (lt_of_mem_enclosing hbehind)
  · rintro ⟨⟨i, hi, hopens⟩, ho, b, hb, hp⟩
    obtain ⟨b', hb', -, henc, -⟩ := he o i hi hopens
    cases hb.symm.trans hb'
    exact mem_enclosing_of_le hp ho (hinner henc)

/-! ## Accepted bodies -/

section Scans

variable {inIf : Bool} {i : Instr} {code front rest : List Instr} {p q o : Nat}
  {opened : List OpenBlock} {blocks result : Array Block}

theorem scanFrom_plain (hi : i.isPlain = true) (rest : List Instr) (p : Nat)
    (opened : List OpenBlock) (blocks : Array Block) :
    scanFrom (i :: rest) p opened blocks = scanFrom rest (p + 1) opened blocks := by
  cases i <;> first | rfl | cases hi

theorem scanFrom_opens (hi : i.opens = true) (rest : List Instr) (p : Nat)
    (opened : List OpenBlock) (blocks : Array Block) :
    scanFrom (i :: rest) p opened blocks =
      scanFrom rest (p + 1) (⟨p, i.isBranchIf⟩ :: opened) blocks := by
  cases i <;> first | rfl | cases hi

/-- What is left of a body that is accepted. -/
theorem remains_of_scan (h : scanFrom code p opened blocks = .ok result) :
    Remains (opened.map OpenBlock.isIf) code := by
  induction code generalizing p opened blocks with
  | nil =>
    cases opened with
    | nil => exact .nil
    | cons => cases h
  | cons i code ih =>
    rcases i.plain_or_control with hi | hi | rfl | rfl
    · rw [scanFrom_plain hi] at h
      have hplain : Remains _ ([i] ++ code) := Remains.prepend (fun _ => .plain hi .nil) (ih h)
      exact hplain
    · rw [scanFrom_opens hi] at h
      obtain ⟨body, rest, rfl, hb, hr⟩ := ih h
      have := Remains.prepend (Bracketed.closed hi hb) hr
      simpa using this
    · rcases opened with _ | ⟨⟨start, _ | _⟩, outer⟩
      · cases h
      · cases h
      · obtain ⟨body, rest, rfl, hb, hr⟩ := ih h
        exact ⟨.otherwise :: body, rest, rfl, .otherwise hb, hr⟩
    · rcases opened with _ | ⟨⟨start, isIf⟩, outer⟩
      · cases h
      · exact ⟨[], code, rfl, .nil, ih h⟩

/-- Bracketed code is passed over. It writes its last `else` to the innermost open construct, and
nothing else that stands in front of it. -/
theorem scan_bracketed (hb : Bracketed inIf code) (p : Nat) (opened : List OpenBlock)
    (blocks : Array Block) (hif : inIf = true → ∃ o outer, opened = ⟨o, true⟩ :: outer) :
    ∃ blocks' x, LastElse p code x ∧
      (∀ rest, scanFrom (code ++ rest) p opened blocks =
        scanFrom rest (p + code.length) opened blocks') ∧
      ∀ q < p, blocks'[q]? = blocks[q]?.map fun b =>
        if opened.head?.map OpenBlock.start = some q then { b with elseAt := x.or b.elseAt } else b := by
  induction hb generalizing p opened blocks with
  | nil => exact ⟨blocks, none, .nil, fun _ => rfl, fun q _ => by simp⟩
  | @plain _ i code hi _ ih =>
    obtain ⟨blocks', x, hx, hscan, hkeep⟩ := ih (p + 1) opened blocks hif
    have hlast : LastElse p ([i] ++ code) x := LastElse.prepend (fun _ => .plain hi .nil) hx
    refine ⟨blocks', x, hlast, fun rest => ?_, fun q hq => hkeep q (Nat.lt_succ_of_lt hq)⟩
    rw [List.cons_append, scanFrom_plain hi, hscan, List.length_cons, Nat.add_right_comm,
      Nat.add_assoc]
  | @otherwise code _ ih =>
    obtain ⟨o, outer, rfl⟩ := hif rfl
    obtain ⟨blocks', x, hx, hscan, hkeep⟩ := ih (p + 1) (⟨o, true⟩ :: outer)
      (blocks.modify o fun b => { b with elseAt := some p }) hif
    refine ⟨blocks', x.or (some p), hx.otherwise, fun rest => ?_, fun q hq => ?_⟩
    · rw [List.cons_append, List.length_cons, Nat.add_comm code.length, ← Nat.add_assoc, ← hscan]
      rfl
    · rw [hkeep q (Nat.lt_succ_of_lt hq), Array.getElem?_modify]
      by_cases hqo : o = q
      · subst hqo
        cases blocks[o]? <;> cases x <;> simp
      · simp [hqo]
  | @construct _ i body code hi _ _ ihb ihr =>
    obtain ⟨b₁, _, -, hscan₁, hkeep₁⟩ := ihb (p + 1) (⟨p, i.isBranchIf⟩ :: opened) blocks
      fun h => ⟨p, opened, by rw [h]⟩
    obtain ⟨b₂, x, hx, hscan₂, hkeep₂⟩ := ihr (p + 1 + body.length + 1) opened
      (b₁.modify p fun b => { b with endAt := p + 1 + body.length }) hif
    have hlen : p + (i :: (body ++ [.close])).length = p + 1 + body.length + 1 := by
      simp only [List.length_cons, List.length_append, List.length_nil]
      omega
    have hlast : LastElse p ((i :: (body ++ [.close])) ++ code) x :=
      LastElse.prepend (Bracketed.closed hi ‹_›) (hlen ▸ hx)
    refine ⟨b₂, x, by simpa using hlast, fun rest => ?_, fun q hq => ?_⟩
    · rw [List.cons_append, scanFrom_opens hi, List.append_assoc, hscan₁, List.cons_append]
      refine (hscan₂ rest).trans ?_
      simp only [List.length_cons, List.length_append]
      congr 1
      omega
    · rw [hkeep₂ q (by omega), Array.getElem?_modify, if_neg (by omega), hkeep₁ q (by omega)]
      simp [show p ≠ q by omega]

/-- One instruction of a body that is accepted. Only the entries of open constructs are written. -/
theorem scan_step (h : scanFrom (i :: rest) p opened blocks = .ok result) :
    ∃ opened' blocks', scanFrom rest (p + 1) opened' blocks' = .ok result ∧
      opened'.map OpenBlock.start = i.enclose p (opened.map OpenBlock.start) ∧
      ∀ q, q ∉ opened.map OpenBlock.start → blocks'[q]? = blocks[q]? := by
  rcases i.plain_or_control with hi | hi | rfl | rfl
  · rw [scanFrom_plain hi] at h
    exact ⟨opened, blocks, h, (Instr.enclose_plain hi p _).symm, fun _ _ => rfl⟩
  · rw [scanFrom_opens hi] at h
    exact ⟨_, blocks, h, (Instr.enclose_opens hi p _).symm, fun _ _ => rfl⟩
  · rcases opened with _ | ⟨⟨start, _ | _⟩, outer⟩
    · cases h
    · cases h
    · refine ⟨_, _, h, rfl, fun q hq => ?_⟩
      rw [Array.getElem?_modify, if_neg]
      rintro rfl
      exact hq (by simp)
  · rcases opened with _ | ⟨⟨start, isIf⟩, outer⟩
    · cases h
    · refine ⟨_, _, h, rfl, fun q hq => ?_⟩
      rw [Array.getElem?_modify, if_neg]
      rintro rfl
      exact hq (by simp)

/-- A position of a body that is accepted, and the constructs that are open there. -/
theorem scan_front (h : scanFrom (front ++ rest) p opened blocks = .ok result)
    (hlt : ∀ o ∈ opened.map OpenBlock.start, o < p) :
    ∃ opened' blocks', scanFrom rest (p + front.length) opened' blocks' = .ok result ∧
      opened'.map OpenBlock.start = encloseAll front p (opened.map OpenBlock.start) ∧
      ∀ q, p + front.length ≤ q → blocks'[q]? = blocks[q]? := by
  induction front generalizing p opened blocks with
  | nil => exact ⟨opened, blocks, h, rfl, fun _ _ => rfl⟩
  | cons i front ih =>
    obtain ⟨opened₁, blocks₁, h₁, hstarts, hkeep⟩ := scan_step h
    obtain ⟨opened', blocks', h', hstarts', hkeep'⟩ := ih h₁ fun o ho => by
      rw [hstarts] at ho
      rcases Instr.mem_enclose ho with rfl | ho
      · exact Nat.lt_succ_self _
      · exact Nat.lt_succ_of_lt (hlt o ho)
    rw [List.length_cons, Nat.add_comm front.length, ← Nat.add_assoc]
    refine ⟨opened', blocks', h', by rw [hstarts', hstarts]; rfl, fun q hq => ?_⟩
    rw [hkeep' q hq, hkeep q fun hmem => ?_]
    have := hlt q hmem
    omega

/-- The entry of a construct that is closed is not written any more. -/
theorem scan_behind (h : scanFrom code p opened blocks = .ok result)
    (ho : o ∉ opened.map OpenBlock.start) (hp : o < p) : result[o]? = blocks[o]? := by
  induction code generalizing p opened blocks with
  | nil =>
    cases opened with
    | nil =>
      cases h
      rfl
    | cons => cases h
  | cons i code ih =>
    obtain ⟨opened', blocks', h', hstarts, hkeep⟩ := scan_step h
    rw [← hkeep o ho]
    refine ih h' (fun hmem => ?_) (Nat.lt_succ_of_lt hp)
    rw [hstarts] at hmem
    rcases Instr.mem_enclose hmem with rfl | hmem
    · exact Nat.lt_irrefl _ hp
    · exact ho hmem

end Scans

section Bodies

variable {code : Array Instr} {blocks : Array Block}

/-- The bodies that are accepted. -/
theorem scanBlocks_ok_iff : (∃ blocks, scanBlocks code = .ok blocks) ↔ Bracketed false code.toList := by
  constructor
  · rintro ⟨blocks, h⟩
    exact remains_of_scan h
  · intro hb
    obtain ⟨blocks, -, -, hscan, -⟩ := scan_bracketed hb 0 [] (Array.replicate code.size {})
      (by simp)
    have := hscan []
    rw [List.append_nil] at this
    exact ⟨blocks, this⟩

/-- At an `else` or an `end` of a body that is accepted some construct is open. -/
theorem enclosing_ne_nil (h : scanBlocks code = .ok blocks) {p : Nat}
    (hp : code.toList[p]? = some .otherwise ∨ code.toList[p]? = some .close) :
    enclosing code.toList p ≠ [] := by
  have hlt : p < code.toList.length := by
    rcases hp with hp | hp <;> exact (List.getElem?_eq_some_iff.mp hp).1
  rw [scanBlocks, ← List.take_append_drop p code.toList] at h
  obtain ⟨opened, blocks', hscan, hstarts, -⟩ := scan_front h (by simp)
  intro hnil
  rw [enclosing] at hnil
  rw [List.map_nil, hnil, List.map_eq_nil_iff] at hstarts
  rw [List.drop_eq_getElem_cons hlt, hstarts] at hscan
  rcases hp with hp | hp
  all_goals
    rw [(List.getElem?_eq_some_iff.mp hp).2] at hscan
    cases hscan

/-- The entry of a construct: its `end` is behind bracketed code, and its `else` is the last one
directly in that code. -/
theorem scanBlocks_entry (h : scanBlocks code = .ok blocks) {o : Nat} {i : Instr}
    (hi : code.toList[o]? = some i) (hopens : i.opens = true) :
    ∃ body rest x, code.toList.drop o = i :: (body ++ .close :: rest) ∧
      Bracketed i.isBranchIf body ∧ blocks[o]? = some ⟨x, o + 1 + body.length⟩ ∧
      LastElse (o + 1) body x := by
  obtain ⟨hlt, hget⟩ := List.getElem?_eq_some_iff.mp hi
  have hlen : (code.toList.take o).length = o := by
    rw [List.length_take]
    omega
  rw [scanBlocks, ← List.take_append_drop o code.toList] at h
  obtain ⟨opened, b₁, h₁, hstarts, hfresh⟩ := scan_front h (by simp)
  rw [hlen, Nat.zero_add] at h₁ hfresh
  have hopened : o ∉ opened.map OpenBlock.start := fun hmem => by
    rw [hstarts] at hmem
    exact Nat.lt_irrefl o (lt_of_mem_enclosing hmem)
  rw [List.drop_eq_getElem_cons hlt, hget, scanFrom_opens hopens] at h₁
  -- What is behind the start closes the construct first.
  obtain ⟨body, rest, htail, hb, -⟩ := remains_of_scan h₁
  obtain ⟨b₂, x, hx, hscan, hkeep⟩ := scan_bracketed hb (o + 1) (⟨o, i.isBranchIf⟩ :: opened) b₁
    fun h => ⟨o, opened, by rw [show i.isBranchIf = true from h]⟩
  refine ⟨body, rest, x, by rw [List.drop_eq_getElem_cons hlt, hget, htail], hb, ?_, hx⟩
  rw [htail, hscan] at h₁
  have hentry : b₂[o]? = some ⟨x, 0⟩ := by
    rw [hkeep o (Nat.lt_succ_self o), hfresh o (Nat.le_refl o), Array.getElem?_replicate,
      if_pos (by simpa using hlt)]
    simp
  have hrest : scanFrom rest (o + 1 + body.length + 1) opened
      (b₂.modify o fun b => { b with endAt := o + 1 + body.length }) = .ok blocks := h₁
  rw [scan_behind hrest hopened (by omega), Array.getElem?_modify, if_pos rfl, hentry]
  rfl

/-- The table of a body that is accepted is right for it. -/
theorem extents_of_scan (h : scanBlocks code = .ok blocks) : Extents code.toList blocks := by
  intro o i hi hopens
  obtain ⟨body, rest, x, hd, hb, hentry, hx⟩ := scanBlocks_entry h hi hopens
  obtain ⟨hclose, henc⟩ := enclosing_inside hopens hb hd
  refine ⟨_, hentry, hclose, henc, ?_⟩
  rintro e rfl
  obtain ⟨yes, no, rfl, hy, -, rfl⟩ := hx
  exact enclosing_inside hopens hy (by simpa using hd)

end Bodies

/-! ## Balanced bodies -/

section Balance

variable {inIf inIf' : Bool} {a b body body' rest rest' yes no : List Instr} {p : Nat} {x : Option Nat}

/-- A construct has one end. -/
theorem Bracketed.body_unique (hb : Bracketed inIf body) (hb' : Bracketed inIf' body')
    (h : body ++ .close :: rest = body' ++ .close :: rest') : body = body' ∧ rest = rest' := by
  have := splitClose_body hb rest
  rw [h, splitClose_body hb'] at this
  cases this
  exact ⟨rfl, rfl⟩

theorem Bracketed.cons_inv {i : Instr} (h : Bracketed inIf (i :: rest)) :
    (i.isPlain = true ∧ Bracketed inIf rest) ∨
    (i = .otherwise ∧ inIf = true ∧ Bracketed true rest) ∨
    (i.opens = true ∧ ∃ body tail, rest = body ++ .close :: tail ∧
      Bracketed i.isBranchIf body ∧ Bracketed inIf tail) := by
  generalize hx : i :: rest = x at h
  cases h with
  | nil => cases hx
  | plain hi hr =>
    cases hx
    exact .inl ⟨hi, hr⟩
  | otherwise hr =>
    cases hx
    exact .inr (.inl ⟨rfl, rfl, hr⟩)
  | construct hi hb hr =>
    obtain ⟨rfl, rfl⟩ := List.cons.inj hx
    exact .inr (.inr ⟨hi, _, _, rfl, hb, hr⟩)

/-- What is behind a bracketed front of bracketed code is bracketed. -/
theorem Bracketed.behind (ha : Bracketed inIf a) (h : Bracketed inIf' (a ++ b)) :
    Bracketed inIf' b := by
  induction ha with
  | nil => exact h
  | plain hi _ ih =>
    rcases h.cons_inv with ⟨-, hr⟩ | ⟨rfl, -⟩ | ⟨hopens, -⟩
    · exact ih hr
    · cases hi
    · rw [(Instr.not_opens_of_isPlain hi).1] at hopens
      cases hopens
  | otherwise _ ih =>
    rcases h.cons_inv with ⟨hi, -⟩ | ⟨-, rfl, hr⟩ | ⟨hopens, -⟩
    · cases hi
    · exact ih hr
    · cases hopens
  | construct hi hb _ _ ih =>
    rw [List.cons_append, List.append_assoc, List.cons_append] at h
    rcases h.cons_inv with ⟨hp, -⟩ | ⟨rfl, -⟩ | ⟨-, body', tail, hx, hb', hr⟩
    · rw [(Instr.not_opens_of_isPlain hp).1] at hi
      cases hi
    · cases hi
    · obtain ⟨-, rfl⟩ := hb.body_unique hb' hx
      exact ih hr

theorem not_bracketed_otherwise : ¬ Bracketed false (.otherwise :: rest) := by
  intro h
  rcases h.cons_inv with ⟨hi, -⟩ | ⟨-, hf, -⟩ | ⟨hi, -⟩
  · cases hi
  · cases hf
  · cases hi

theorem LastElse.eq_none (h : LastElse p body x) (hb : Bracketed false body) : x = none := by
  cases x with
  | none => rfl
  | some e =>
    obtain ⟨yes, no, rfl, hy, -⟩ := h
    exact (not_bracketed_otherwise (hy.behind hb)).elim

theorem LastElse.eq_some (h : LastElse p (yes ++ .otherwise :: no) x) (hy : Bracketed false yes)
    (hn : Bracketed false no) : x = some (p + yes.length) := by
  cases x with
  | none => exact (not_bracketed_otherwise (hy.behind h)).elim
  | some e =>
    obtain ⟨yes', no', heq, hy', hn', rfl⟩ := h
    rcases List.append_eq_append_iff.mp heq with ⟨c, rfl, hc⟩ | ⟨c, rfl, hc⟩
    · cases c with
      | nil => simp
      | cons i c =>
        obtain ⟨rfl, rfl⟩ := List.cons.inj hc
        have hc : Bracketed true c := by
          rcases (hy.behind hy').cons_inv with ⟨hi, -⟩ | ⟨-, -, hc⟩ | ⟨hi, -⟩
          · cases hi
          · exact hc
          · cases hi
        exact (not_bracketed_otherwise (hc.behind hn)).elim
    · cases c with
      | nil => simp
      | cons i c =>
        obtain ⟨rfl, rfl⟩ := List.cons.inj hc
        exact (not_bracketed_otherwise (hy'.behind hy)).elim

variable {code : Array Instr} {blocks : Array Block}

/-- The entry of a construct of which the end is known. -/
theorem entry_of_scan (h : scanBlocks code = .ok blocks) {i : Instr} (hi : i.opens = true)
    (hb : Bracketed i.isBranchIf body) (hd : code.toList.drop p = i :: (body ++ .close :: rest)) :
    ∃ x, blocks[p]? = some ⟨x, p + 1 + body.length⟩ ∧ LastElse (p + 1) body x := by
  obtain ⟨body', rest', x, hd', hb', hentry, hx⟩ := scanBlocks_entry h (drop_next hd).1 hi
  rw [hd] at hd'
  obtain ⟨rfl, -⟩ := hb.body_unique hb' (List.cons.inj hd').2
  exact ⟨x, hentry, hx⟩

/-- The entries of the constructs of balanced code in a body. -/
theorem marked_of_scan (h : scanBlocks code = .ok blocks) (hb : Balanced body)
    (hd : code.toList.drop p = body ++ rest) : Marked blocks p body := by
  -- A construct without an `else`, and the code behind it.
  have hparts {i : Instr} {p : Nat} {body behind rest : List Instr} (hi : i.opens = true)
      (hb : Balanced body) (hd : code.toList.drop p = (i :: (body ++ .close :: behind)) ++ rest) :
      blocks[p]? = some ⟨none, p + 1 + body.length⟩ ∧
        code.toList.drop (p + 1) = body ++ .close :: (behind ++ rest) ∧
        code.toList.drop (p + 1 + body.length + 1) = behind ++ rest := by
    rw [List.cons_append, List.append_assoc, List.cons_append] at hd
    obtain ⟨x, hentry, hx⟩ := entry_of_scan h hi (hb.bracketed _) hd
    rw [hx.eq_none (hb.bracketed false)] at hentry
    have hinside := (drop_next hd).2
    exact ⟨hentry, hinside, (drop_next (drop_front hinside)).2⟩
  induction hb generalizing p rest with
  | nil => exact .nil p
  | plain hi _ ih => exact .plain hi (ih (drop_next hd).2)
  | block hb _ ihb ihr =>
    obtain ⟨hentry, hinside, hbehind⟩ := hparts rfl hb hd
    exact .block (ihb hinside) hentry (ihr hbehind)
  | loop hb _ ihb ihr =>
    obtain ⟨hentry, hinside, hbehind⟩ := hparts rfl hb hd
    exact .loop (ihb hinside) hentry (ihr hbehind)
  | branch hb _ ihb ihr =>
    obtain ⟨hentry, hinside, hbehind⟩ := hparts rfl hb hd
    exact .branch (ihb hinside) hentry (ihr hbehind)
  | @choice t yes no behind hy hn _ ihy ihn ihr =>
    rw [List.cons_append, List.append_assoc, List.cons_append, List.append_assoc,
      List.cons_append] at hd
    have hyes := (drop_next hd).2
    have hno := (drop_next (drop_front hyes)).2
    have hboth := (hy.bracketed true).append (.otherwise (hn.bracketed true))
    have hd' : code.toList.drop p =
        .branchIf t :: ((yes ++ .otherwise :: no) ++ .close :: (behind ++ rest)) := by simpa using hd
    obtain ⟨x, hentry, hx⟩ := entry_of_scan h (i := .branchIf t) rfl hboth hd'
    rw [hx.eq_some (hy.bracketed false) (hn.bracketed false), List.length_append, List.length_cons,
      Nat.add_comm no.length, ← Nat.add_assoc, ← Nat.add_assoc] at hentry
    exact .choice (ihy hyes) (ihn hno) hentry (ihr (drop_next (drop_front hno)).2)

/-- A balanced body is accepted, and the extents found for it are right. -/
theorem scanBlocks_balanced (h : Balanced code.toList) :
    ∃ blocks, scanBlocks code = .ok blocks ∧ Marked blocks 0 code.toList := by
  obtain ⟨blocks, hscan⟩ := scanBlocks_ok_iff.mpr (h.bracketed false)
  exact ⟨blocks, hscan, marked_of_scan hscan h (List.append_nil _).symm⟩

end Balance

end HeapScript.Machine
