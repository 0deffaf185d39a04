import HeapScript.Proofs.Machine.Adequacy
import HeapScript.Proofs.Machine.Scanning

/-!
# Labels

The labels of an activation are the constructs that stand around its next instruction. Every transfer
of control keeps them so: entering a construct, leaving it at its end or by a jump, starting a loop
over and passing from one part of a choice to its end.
-/

namespace HeapScript.Machine

/-! ## Openings -/

/-- A construct is opened at a position of marked code. -/
def Marked.Opens (blocks : Array Block) (p : Nat) (code : List Instr) : Prop :=
  ∀ (q : Nat) (i : Instr) (rest : List Instr), code.drop q = i :: rest → i.opens = true →
    ∃ inner tail, rest = inner ++ tail ∧ Marked blocks (p + q) (i :: inner)

/-- A construct that is opened inside or behind another one. -/
theorem Marked.Opens.inside {blocks : Array Block} {p : Nat} {body more : List Instr} {mark : Instr}
    (hbody : Marked.Opens blocks p body) (hmore : Marked.Opens blocks (p + body.length + 1) more)
    (hmark : mark.opens = false) : Marked.Opens blocks p (body ++ mark :: more) := by
  intro q i rest hd hi
  rcases Nat.lt_trichotomy q body.length with hq | rfl | hq
  · rw [List.drop_append_of_le_length (Nat.le_of_lt hq), List.drop_eq_getElem_cons hq,
      List.cons_append, List.cons.injEq] at hd
    obtain ⟨inner, tail, hinner, hmk⟩ := hbody _ _ _ (List.drop_eq_getElem_cons hq) (hd.1 ▸ hi)
    refine ⟨inner, tail ++ mark :: more, ?_, hd.1 ▸ hmk⟩
    rw [← hd.2, hinner, List.append_assoc]
  · rw [List.drop_left, List.cons.injEq] at hd
    rw [← hd.1, hmark] at hi
    cases hi
  · obtain ⟨n, rfl⟩ : ∃ n, q = body.length + 1 + n := ⟨q - (body.length + 1), by omega⟩
    rw [Nat.add_assoc, ← List.drop_drop, List.drop_left, Nat.add_comm 1, List.drop_succ_cons] at hd
    obtain ⟨inner, tail, hinner, hmk⟩ := hmore _ _ _ hd hi
    refine ⟨inner, tail, hinner, ?_⟩
    rwa [show p + (body.length + 1 + n) = p + body.length + 1 + n by omega]

theorem Marked.Opens.cons {blocks : Array Block} {p : Nat} {j : Instr} {code : List Instr}
    (hm : Marked blocks p (j :: code)) (h : Marked.Opens blocks (p + 1) code) :
    Marked.Opens blocks p (j :: code) := by
  intro q i rest hd hi
  cases q with
  | zero =>
    cases hd
    exact ⟨code, [], by simp, hm⟩
  | succ q =>
    obtain ⟨inner, tail, hinner, hmk⟩ := h _ _ _ hd hi
    exact ⟨inner, tail, hinner, by rwa [show p + (q + 1) = p + 1 + q by omega]⟩

theorem Marked.opening {blocks : Array Block} {p : Nat} {code : List Instr}
    (hm : Marked blocks p code) : Marked.Opens blocks p code := by
  induction hm with
  | nil =>
    intro q i rest hd
    simp at hd
  | plain hj hr ih => exact .cons (.plain hj hr) ih
  | block hb he hr ihb ihr => exact .cons (.block hb he hr) (.inside ihb ihr rfl)
  | loop hb he hr ihb ihr => exact .cons (.loop hb he hr) (.inside ihb ihr rfl)
  | branch hb he hr ihb ihr => exact .cons (.branch hb he hr) (.inside ihb ihr rfl)
  | choice hy hn he hr ihy ihn ihr =>
    exact .cons (.choice hy hn he hr) (.inside ihy (.inside ihn ihr rfl) rfl)

/-! ## Activations -/

def Instr.isLoop : Instr → Bool
  | .loop => true
  | _ => false

/-- Where an entered construct starts and ends, and whether it is a loop. -/
def Label.mark (l : Label) : Bool × Nat × Nat := (l.isLoop, l.start, l.finish)

def markAt (code : List Instr) (blocks : Array Block) (o : Nat) : Bool × Nat × Nat :=
  (code[o]?.any Instr.isLoop, o, ((blocks[o]?).getD {}).endAt)

/-- The labels of an activation are the constructs around its next instruction. -/
structure Frame.Tracks (f : Frame) : Prop where
  scanned : scanBlocks f.code = .ok f.blocks
  labels : f.labels.map Label.mark =
    (enclosing f.code.toList f.pc).map (markAt f.code.toList f.blocks)

section Tracks

variable {f g : Frame} {l : Label} {outer : List Label} {i : Instr} {n : Nat}

theorem Frame.Tracks.starts (h : f.Tracks) :
    f.labels.map Label.start = enclosing f.code.toList f.pc := by
  have := congrArg (List.map fun k : Bool × Nat × Nat => k.2.1) h.labels
  simpa [Function.comp_def, Label.mark, markAt] using this

/-- An activation that goes on at another position of the same body. -/
theorem Frame.Tracks.goto (h : f.Tracks) (hcode : g.code = f.code) (hblocks : g.blocks = f.blocks)
    (hpc : g.labels.map Label.mark =
      (enclosing f.code.toList g.pc).map (markAt f.code.toList f.blocks)) : g.Tracks := by
  refine ⟨?_, ?_⟩
  · rw [hcode, hblocks]
    exact h.scanned
  · rw [hcode, hblocks]
    exact hpc

/-- A construct that has been entered, with those further out. -/
theorem Frame.Tracks.entered (h : f.Tracks) (hl : f.labels.drop n = l :: outer) :
    ∃ o b, (enclosing f.code.toList f.pc)[n]? = some o ∧ f.blocks[o]? = some b ∧
      l.mark = (f.code.toList[o]?.any Instr.isLoop, o, b.endAt) ∧
      outer.map Label.mark = (enclosing f.code.toList o).map (markAt f.code.toList f.blocks) ∧
      enclosing f.code.toList (o + 1) = o :: enclosing f.code.toList o ∧
      enclosing f.code.toList b.endAt = o :: enclosing f.code.toList o ∧
      enclosing f.code.toList (b.endAt + 1) = enclosing f.code.toList o := by
  have hdrop := congrArg (List.drop n) h.labels
  rw [← List.map_drop, ← List.map_drop, hl, List.map_cons, eq_comm, List.map_eq_cons_iff] at hdrop
  obtain ⟨o, rest, ho, hmark, hrest⟩ := hdrop
  obtain ⟨rfl, i, hi, hopens⟩ := enclosing_outer (ho ▸ List.drop_suffix n _)
  obtain ⟨b, hb, hclose, hend, -⟩ := extents_of_scan h.scanned o i hi hopens
  refine ⟨o, b, ?_, hb, ?_, hrest.symm, ?_, hend, ?_⟩
  · have := congrArg (·[0]?) ho
    simpa using this
  · rw [← hmark, markAt, hb]
    rfl
  · rw [enclosing_succ hi, Instr.enclose_opens hopens]
  · rw [enclosing_succ hclose, hend]
    rfl

/-- What a jump does with the position and the labels. -/
theorem branch_eq {d : Int} {stack spent : List Val} (hb : f.branch d stack spent = some g) :
    ∃ (n : Nat) (l : Label) (outer : List Label), d = n ∧ f.labels.drop n = l :: outer ∧
      g.code = f.code ∧ g.blocks = f.blocks ∧
      g.labels = (if l.isLoop then l :: outer else outer) ∧
      g.pc = (if l.isLoop then l.start else l.finish) + 1 := by
  cases d with
  | negSucc n => cases hb
  | ofNat n =>
    simp only [Frame.branch] at hb
    split at hb
    · cases hb
    · rename_i l outer hlabels
      refine ⟨n, l, outer, rfl, hlabels, ?_⟩
      split at hb
      · rename_i hloop
        cases hb
        simp [hloop]
      · rename_i hloop
        repeat' split at hb
        all_goals cases hb
        all_goals simp [hloop]

theorem Frame.Tracks.branch (h : f.Tracks) {d : Int} {stack spent : List Val}
    (hb : f.branch d stack spent = some g) : g.Tracks := by
  obtain ⟨n, l, outer, -, hdrop, hcode, hblocks, hlabels, hpc⟩ := branch_eq hb
  obtain ⟨o, b, -, hblock, hmark, houter, hstart, -, hend⟩ := h.entered hdrop
  simp only [Label.mark, Prod.mk.injEq] at hmark
  refine h.goto hcode hblocks ?_
  cases hloop : l.isLoop with
  | true =>
    rw [hlabels, hpc, hloop, if_pos rfl, if_pos rfl, List.map_cons, houter, hmark.2.1, hstart,
      List.map_cons, Label.mark, hmark.1, hmark.2.1, hmark.2.2, markAt, hblock]
    rfl
  | false =>
    rw [hlabels, hpc, hloop, if_neg Bool.false_ne_true, if_neg Bool.false_ne_true, houter,
      hmark.2.2, hend]

/-- An activation that goes on behind its next instruction. -/
theorem Frame.Tracks.next (h : f.Tracks) (hi : f.code.toList[f.pc]? = some i)
    (hp : i.isPlain = true) (hcode : g.code = f.code) (hblocks : g.blocks = f.blocks)
    (hlabels : g.labels = f.labels) (hpc : g.pc = f.pc + 1) : g.Tracks := by
  refine h.goto hcode hblocks ?_
  rw [hlabels, hpc, enclosing_succ hi, Instr.enclose_plain hp, h.labels]

end Tracks

namespace Processor

variable {ω : Type} {m : Processor ω} {s s' : State ω} {i : Instr}

/-! ## Steps -/

/-- What an instruction that only computes does with a state. -/
theorem exec_computes (hi : i.computes = true) (h : m.exec s i = .next s') :
    ∃ c spent, m.effect i (cfg s) = .next c ∧ s' = { s with
      heap := c.heap, host := c.host,
      frame := { s.frame with
        pc := s.frame.pc + 1, locals := c.locals.toArray, stack := c.stack, spent := spent } } := by
  have ha := agrees_exec m s hi
  rw [h] at ha
  cases hx : m.exec (cfg s).state i with
  | next t =>
    rw [hx] at ha
    obtain ⟨hhost, spent, hs⟩ := ha
    cases hs
    exact ⟨_, spent, by rw [effect, hx], by simp only [hhost]⟩
  | done ending w =>
    rw [hx] at ha
    cases ending <;> cases ha

theorem exec_of_step (hi : s.frame.code.toList[s.frame.pc]? = some i) (h : m.step s = .next s') :
    m.exec (tick s) i = .next s' := by
  rw [Array.getElem?_toList] at hi
  simp only [step, hi] at h
  split at h
  · cases h
  · exact h

/-- The tables of all functions of a machine are those that were scanned. -/
def Scanned (m : Processor ω) : Prop :=
  ∀ (func : Int) (f : Func) (locals : List ValType) (instrs : Array Instr) (blocks : Array Block)
    (zeros : List Val), at? m.program.funcs func = some f → f.body = .code locals instrs →
    at? m.links func = some (.code blocks zeros) → scanBlocks instrs = .ok blocks

/-- In all activations the labels are the constructs around the next instruction. -/
def Tracks (s : State ω) : Prop := s.frame.Tracks ∧ ∀ f ∈ s.callers, f.Tracks

theorem deliver_tracks {vs : List Val} {w : World ω} {depth : Nat} {callers : List Frame}
    (hc : ∀ f ∈ callers, f.Tracks) (h : deliver vs w depth callers = .next s') : Tracks s' := by
  cases callers with
  | nil => cases h
  | cons f callers =>
    cases h
    obtain ⟨spent, hpush⟩ := pushAll_eq vs f
    refine ⟨?_, fun g hg => hc g (by simp [hg])⟩
    rw [hpush]
    exact (hc f (by simp)).goto rfl rfl (hc f (by simp)).labels

theorem leave_tracks (hs : Tracks s) (h : leave s = .next s') : Tracks s' := by
  simp only [leave] at h
  split at h
  · cases h
  · exact deliver_tracks hs.2 h

theorem enter_tracks (hm : m.Scanned) {func : Int} {args : List Val} {w : World ω} {depth : Nat}
    {callers : List Frame} (hc : ∀ f ∈ callers, f.Tracks)
    (h : m.enter func args w depth callers = .next s') : Tracks s' := by
  unfold enter at h
  split at h
  · cases h
  rename_i f hf
  split at h
  · cases h
  split at h
  · cases h
  · split at h
    · split at h
      · exact deliver_tracks hc h
      · cases h
      · cases h
    · cases h
  · rename_i locals instrs hbody
    split at h
    · cases h
    split at h
    · rename_i blocks zeros hlink
      cases h
      exact ⟨⟨hm func f locals instrs blocks zeros hf hbody hlink, rfl⟩, hc⟩
    · cases h

/-- Entering a construct. -/
theorem openLabel_tracks (hs : Tracks s) (hi : s.frame.code.toList[s.frame.pc]? = some i)
    {arity pc : Nat} {stack spent : List Val}
    (hpc : enclosing s.frame.code.toList pc = s.frame.pc :: enclosing s.frame.code.toList s.frame.pc)
    (h : openLabel s i.isLoop arity pc stack spent = .next s') : Tracks s' := by
  obtain ⟨heap, host, steps, depth, f, callers⟩ := s
  cases h
  refine ⟨hs.1.goto rfl rfl ?_, hs.2⟩
  have hlabels := hs.1.labels
  simp only at hi hpc hlabels ⊢
  rw [hpc, List.map_cons, List.map_cons, hlabels, Label.mark, markAt, hi]
  rfl

theorem branchTo_tracks (hs : Tracks s) {d : Int} {stack spent : List Val}
    (h : branchTo s d stack spent = .next s') : Tracks s' := by
  unfold branchTo at h
  split at h
  · rename_i f hb
    cases h
    exact ⟨hs.1.branch hb, hs.2⟩
  · cases h

theorem continueWith_tracks (hs : Tracks s) (hi : s.frame.code.toList[s.frame.pc]? = some i)
    (hp : i.isPlain = true) {stack spent : List Val}
    (h : s.continueWith stack spent = .next s') : Tracks s' := by
  obtain ⟨heap, host, steps, depth, f, callers⟩ := s
  cases h
  exact ⟨hs.1.next hi hp rfl rfl rfl rfl, hs.2⟩

theorem execControl_tracks (hs : Tracks s) (hi : s.frame.code.toList[s.frame.pc]? = some i)
    (hc : i.computes = false) (h : execControl s i = .next s') : Tracks s' := by
  have hinside (hopens : i.opens = true) : enclosing s.frame.code.toList (s.frame.pc + 1) =
      s.frame.pc :: enclosing s.frame.code.toList s.frame.pc := by
    rw [enclosing_succ hi, Instr.enclose_opens hopens]
  cases i with
  | block t => exact openLabel_tracks hs hi (hinside rfl) h
  | loop => exact openLabel_tracks hs hi (hinside rfl) h
  | branchIf t =>
    obtain ⟨b, hb, hclose, hend, helse⟩ := extents_of_scan hs.1.scanned _ _ hi rfl
    simp only [execControl, hb, Option.getD_some] at h
    split at h
    · split at h
      · exact openLabel_tracks hs hi (hinside rfl) h
      split at h
      · rename_i e he
        obtain ⟨hotherwise, henc⟩ := helse e he
        refine openLabel_tracks hs hi ?_ h
        rw [enclosing_succ hotherwise, henc]
        rfl
      · obtain ⟨heap, host, steps, depth, f, callers⟩ := s
        cases h
        refine ⟨hs.1.goto rfl rfl ?_, hs.2⟩
        rw [enclosing_succ hclose, hend]
        exact hs.1.labels
    · cases h
  | otherwise =>
    simp only [execControl] at h
    split at h
    · rename_i l outer hlabels
      obtain ⟨o, b, -, hblock, hmark, houter, -, hend, -⟩ := hs.1.entered (n := 0) hlabels
      obtain ⟨heap, host, steps, depth, f, callers⟩ := s
      cases h
      refine ⟨hs.1.goto rfl rfl ?_, hs.2⟩
      simp only at hlabels hblock hmark houter hend ⊢
      rw [hlabels, List.map_cons, houter, hmark, show l.finish = b.endAt from congrArg (·.2.2) hmark,
        hend, List.map_cons, markAt, hblock]
      rfl
    · cases h
  | close =>
    obtain ⟨heap, host, steps, depth, f, callers⟩ := s
    simp only [execControl] at h
    split at h
    · rename_i l labels hlabels
      cases h
      refine ⟨hs.1.goto rfl rfl ?_, hs.2⟩
      have htail := congrArg List.tail hs.1.labels
      simp only at hi hlabels htail ⊢
      rw [hlabels, List.map_cons, List.tail_cons, ← List.map_tail] at htail
      rw [enclosing_succ hi, htail]
      rfl
    · cases h
  | br d => exact branchTo_tracks hs h
  | brIf d =>
    simp only [execControl] at h
    split at h
    · split at h
      · exact branchTo_tracks hs h
      · exact continueWith_tracks hs hi rfl h
    · cases h
  | ret | call => exact continueWith_tracks hs hi rfl h
  | _ => cases hc

/-- A step keeps the labels what they are. -/
theorem step_tracks (hm : m.Scanned) (hs : Tracks s) (h : m.step s = .next s') : Tracks s' := by
  cases hi : s.frame.code.toList[s.frame.pc]? with
  | none =>
    rw [Array.getElem?_toList] at hi
    simp only [step, hi] at h
    exact leave_tracks hs h
  | some i =>
    have hx := exec_of_step hi h
    have hs' : Tracks (tick s) := hs
    cases hc : i.computes with
    | true =>
      obtain ⟨c, spent, -, rfl⟩ := exec_computes hc hx
      have hp : i.isPlain = true := by cases i <;> first | rfl | cases hc
      exact ⟨hs.1.next hi hp rfl rfl rfl rfl, hs.2⟩
    | false =>
      cases i with
      | ret => exact leave_tracks hs' hx
      | call func =>
        simp only [exec, execCall, tick] at hx
        split at hx
        · cases hx
        split at hx
        · cases hx
        · refine enter_tracks hm (List.forall_mem_cons.mpr ⟨?_, hs.2⟩) hx
          exact hs.1.next hi rfl rfl rfl rfl rfl
      | block | loop | branchIf | otherwise | close | br | brIf =>
        exact execControl_tracks hs' hi rfl hx
      | _ => cases hc

/-- A run keeps the labels what they are. -/
theorem steps_track (hm : m.Scanned) (hs : Tracks s) {n : Nat} (h : Steps m n s s') : Tracks s' := by
  induction h with
  | refl => exact hs
  | step h _ ih => exact ih (step_tracks hm hs h)

/-! ## Linked machines -/

theorem linkFunc_of_linkAll {hosts : List (String × HostFunc ω)} {index k : Nat} {fs : List Func}
    {links : List (Link ω)} (h : linkAll hosts index fs = .ok links) {f : Func} {l : Link ω}
    (hf : fs[k]? = some f) (hl : links[k]? = some l) : ∃ j, linkFunc hosts j f = .ok l := by
  induction fs generalizing index k links with
  | nil => cases hf
  | cons g fs ih =>
    simp only [linkAll] at h
    cases hg : linkFunc hosts index g with
    | error e =>
      rw [hg] at h
      cases h
    | ok l' =>
      cases hrest : linkAll hosts (index + 1) fs with
      | error e =>
        rw [hg, hrest] at h
        cases h
      | ok ls =>
        rw [hg, hrest] at h
        cases h
        cases k with
        | zero =>
          cases hf
          cases hl
          exact ⟨index, hg⟩
        | succ k => exact ih hrest hf hl

/-- Linking scans every function. -/
theorem scanned_of_link {program : Module} {hosts : List (String × HostFunc ω)} {m₀ : Processor ω}
    (h : link program hosts = .ok m₀) (hp : m.program = m₀.program) (hl : m.links = m₀.links) :
    m.Scanned := by
  intro func f locals instrs blocks zeros hf hbody hlink
  unfold link at h
  split at h
  · cases h
  cases hall : linkAll hosts 0 program.funcs.toList with
  | error e =>
    rw [hall] at h
    cases h
  | ok links =>
    rw [hall] at h
    cases h
    rw [hp] at hf
    rw [hl] at hlink
    cases func with
    | negSucc n => cases hf
    | ofNat n =>
      obtain ⟨j, hj⟩ := linkFunc_of_linkAll hall (k := n) (f := f) (l := .code blocks zeros)
        (by simpa [at?] using hf) (by simpa [at?] using hlink)
      simp only [linkFunc, hbody] at hj
      split at hj
      · rename_i b hscan
        cases hj
        exact hscan
      · cases hj

theorem start_tracks (hm : m.Scanned) {w : World ω} {func : Int} {args : List Val}
    (h : m.start w func args = .ok (.next s)) : Tracks s := by
  unfold start at h
  split at h
  · cases h
  split at h
  · cases h
  split at h
  · exact enter_tracks hm (by simp) (Except.ok.inj h)
  · cases h

/-! ## Jumps -/

/-- Where a jump to a construct goes: to the start of a loop, behind the end of any other one. -/
def landing (code : Array Instr) (blocks : Array Block) (o : Nat) : Nat :=
  if code[o]?.any Instr.isLoop then o + 1 else ((blocks[o]?).getD {}).endAt + 1

theorem branch_isSome {f : Frame} {d : Nat} {l : Label} {outer : List Label}
    (hl : f.labels.drop d = l :: outer) (stack spent : List Val)
    (h : l.isLoop = true ∨ l.height + l.arity ≤ stack.length) :
    ∃ g, f.branch d stack spent = some g := by
  simp only [Frame.branch, hl]
  split
  · exact ⟨_, rfl⟩
  · rename_i hloop
    have hlen := h.resolve_left hloop
    rw [if_neg (by omega), if_neg (by omega)]
    split <;> exact ⟨_, rfl⟩

/-- A jump goes where the body says, unless the operands that it should leave are missing. -/
theorem step_br (hs : Tracks s) {d : Nat} (hd : d < s.frame.labels.length)
    (hi : s.frame.code[s.frame.pc]? = some (.br d)) :
    ∃ l, s.frame.labels[d]? = some l ∧
      (∀ s', m.step s = .next s' →
        s'.frame.pc = landing s.frame.code s.frame.blocks l.start) ∧
      (m.exhausted (s.steps + 1) = false →
        s.frame.code[l.start]? = some .loop ∨ l.height + l.arity ≤ s.frame.stack.length →
        ∃ s', m.step s = .next s') := by
  have hdrop := List.drop_eq_getElem_cons hd
  obtain ⟨o, b, -, hblock, hmark, -⟩ := hs.1.entered hdrop
  simp only [Label.mark, Prod.mk.injEq] at hmark
  obtain ⟨hloop, rfl, hend⟩ := hmark
  refine ⟨_, List.getElem?_eq_getElem hd, fun s' h => ?_, fun he hop => ?_⟩
  · have hx := exec_of_step (by rw [Array.getElem?_toList, hi]) h
    simp only [exec, execControl, branchTo, tick] at hx
    split at hx
    · rename_i g hb
      cases hx
      obtain ⟨n, l, outer, hn, hl, -, -, -, hpc⟩ := branch_eq hb
      cases Int.ofNat.inj hn
      rw [hdrop] at hl
      cases hl
      rw [hpc, landing, hblock, hloop, hend, Array.getElem?_toList]
      split <;> rfl
    · cases hx
  · have hstays (hl : s.frame.code[s.frame.labels[d].start]? = some .loop) :
        s.frame.labels[d].isLoop = true := by
      rw [hloop, Array.getElem?_toList, hl]
      rfl
    obtain ⟨g, hg⟩ := branch_isSome hdrop s.frame.stack s.frame.spent (hop.imp_left hstays)
    refine ⟨{ tick s with frame := g }, ?_⟩
    simp only [step, hi, he, exec, execControl, branchTo, hg]
    rfl

end Processor

/-! ## Structured control flow -/

/-- A construct is around a position: the position is behind its start and not behind its end. -/
def Encloses (code : Array Instr) (blocks : Array Block) (o p : Nat) : Prop :=
  (∃ i, code[o]? = some i ∧ i.opens = true) ∧ o < p ∧ ∃ b, blocks[o]? = some b ∧ p ≤ b.endAt

/-- A body is accepted exactly if its constructs are bracketed, with every `else` directly inside an
`if`, and the table that is made of it has the end and the last `else` of every construct. In every
run of a linked machine the labels of an activation are the constructs around its next instruction.
So there is one at every `else` and every `end`, and a jump goes to the start of the loop or behind
the end of the other construct that it names. -/
theorem control_flow_is_structured {ω : Type} :
    (∀ code, (∃ blocks, scanBlocks code = .ok blocks) ↔ Bracketed false code.toList) ∧
    (∀ (code : Array Instr) (blocks : Array Block), scanBlocks code = .ok blocks →
      ∀ (o : Nat) (i : Instr), code[o]? = some i → i.opens = true →
        ∃ body rest x, code.toList.drop o = i :: (body ++ .close :: rest) ∧
          Bracketed i.isBranchIf body ∧ blocks[o]? = some ⟨x, o + 1 + body.length⟩ ∧
          LastElse (o + 1) body x) ∧
    ∀ (program : Module) (hosts : List (String × HostFunc ω)) (m₀ : Processor ω),
      Processor.link program hosts = .ok m₀ →
      ∀ (maxSteps maxDepth : Int) (m : Processor ω), m = { m₀ with maxSteps, maxDepth } →
      ∀ (w : World ω) (func : Int) (args : List Val) (n : Nat) (s₀ s : State ω),
        m.start w func args = .ok (.next s₀) → Processor.Steps m n s₀ s →
        scanBlocks s.frame.code = .ok s.frame.blocks ∧
        ((s.frame.labels.map Label.start).reverse.Pairwise (· < ·) ∧
          ∀ o, o ∈ s.frame.labels.map Label.start ↔
            Encloses s.frame.code s.frame.blocks o s.frame.pc) ∧
        (s.frame.code[s.frame.pc]? = some .otherwise ∨ s.frame.code[s.frame.pc]? = some .close →
          s.frame.labels ≠ []) ∧
        ∀ d : Nat, d < s.frame.labels.length → s.frame.code[s.frame.pc]? = some (.br d) →
          ∃ l, s.frame.labels[d]? = some l ∧
            (∀ s', m.step s = .next s' →
              s'.frame.pc = Processor.landing s.frame.code s.frame.blocks l.start) ∧
            (m.exhausted (s.steps + 1) = false →
              s.frame.code[l.start]? = some .loop ∨ l.height + l.arity ≤ s.frame.stack.length →
              ∃ s', m.step s = .next s') := by
  refine ⟨fun code => scanBlocks_ok_iff, fun code blocks h o i hi hopens => ?_, ?_⟩
  · exact scanBlocks_entry h (by rw [Array.getElem?_toList, hi]) hopens
  · rintro program hosts m₀ hlink maxSteps maxDepth m rfl w func args n s₀ s hstart hsteps
    have hm := Processor.scanned_of_link (m := { m₀ with maxSteps, maxDepth }) hlink rfl rfl
    have hs := Processor.steps_track hm (Processor.start_tracks hm hstart) hsteps
    refine ⟨hs.1.scanned, ⟨?_, fun o => ?_⟩, fun hi hnil => ?_, fun d hd hi => ?_⟩
    · rw [List.pairwise_reverse, hs.1.starts]
      exact pairwise_enclosing _ _
    · rw [hs.1.starts, (extents_of_scan hs.1.scanned).mem_enclosing_iff, Array.getElem?_toList]
      rfl
    · refine enclosing_ne_nil hs.1.scanned (p := s.frame.pc) ?_ ?_
      · simpa only [Array.getElem?_toList] using hi
      · rw [← hs.1.starts, hnil]
        rfl
    · exact Processor.step_br hs hd hi

/-- A module with one function, which jumps to the start of a loop for ever. -/
def idleModule : Module where
  types := #[.func [] []]
  funcs := #[⟨"idle", 0, .code [] #[.loop, .br 0, .close]⟩]

def idleMachine : Processor Unit where
  program := idleModule
  links := #[.code #[⟨none, 2⟩, {}, {}] []]

theorem idle_starts_over : ∃ s₀ s s' l, Processor.link idleModule [] = .ok idleMachine ∧
    idleMachine.start { host := () } 0 [] = .ok (.next s₀) ∧
    Processor.Steps idleMachine 1 s₀ s ∧ s.frame.code[s.frame.pc]? = some (.br 0) ∧
    s.frame.labels[0]? = some l ∧ idleMachine.step s = .next s' ∧
    s'.frame.pc = Processor.landing s.frame.code s.frame.blocks l.start := by
  have hlink : Processor.link idleModule [] = .ok idleMachine := by cbv
  obtain ⟨s₀, s, s', hstart, hsteps, hlabels, hi, hs'⟩ : ∃ s₀ s s',
      idleMachine.start { host := () } 0 [] = .ok (.next s₀) ∧
      Processor.Steps idleMachine 1 s₀ s ∧ 0 < s.frame.labels.length ∧
      s.frame.code[s.frame.pc]? = some (.br (0 : Nat)) ∧ idleMachine.step s = .next s' :=
    ⟨_, _, _, rfl, .step rfl (.refl _), Nat.one_pos, rfl, rfl⟩
  obtain ⟨-, -, -, hjump⟩ := control_flow_is_structured.2.2 idleModule [] idleMachine hlink 0 2000
    idleMachine rfl { host := () } 0 [] 1 s₀ s hstart hsteps
  obtain ⟨l, hl, hgoes, -⟩ := hjump 0 hlabels hi
  exact ⟨s₀, s, s', l, hlink, hstart, hsteps, hi, hl, hs', hgoes s' hs'⟩

end HeapScript.Machine
