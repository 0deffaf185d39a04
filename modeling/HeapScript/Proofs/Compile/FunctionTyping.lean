import HeapScript.Proofs.Compile.Typing

/-!
# Functions keep to the discipline

Between statements there are no operands, so that every jump finds what it needs: none. From this
the code of statements keeps to the discipline inside of any constructs, and so does every function
of a program.
-/

namespace HeapScript.Compile

open Machine Library Gen

/-- The constructs around a statement, and the loops and switches among them. -/
structure Scope.Around (s : Scope) (ctrl : List Ctrl) : Prop where
  depth : ctrl.length = s.depth
  bare : ∀ k ∈ ctrl, Bare k
  exits : ∀ e ∈ s.loops, e.leave < s.depth ∧ e.next < s.depth

/-- Code that can stand where a statement stands. -/
def Scope.Takes (E : Env) (s : Scope) (code : Code) : Prop :=
  ∀ ctrl rest, s.Around ctrl → Checks E .before ctrl [] rest →
    Checks E .before ctrl [] (code ++ rest)

/-- The code of statements can stand in every scope. -/
def Block.Typed (E : Env) (D : Draft) (b : Compile.Block) : Prop :=
  ∀ s, Types D (b s) (s.Takes E)

section Scopes

variable {E : Env} {s : Scope} {ctrl : List Ctrl} {a b rest : Code}

theorem Scope.Around.inside (h : s.Around ctrl) (new : List Ctrl) (hnew : ∀ k ∈ new, Bare k) :
    (s.inside new.length).Around (new ++ ctrl) := by
  refine ⟨?_, fun k hk => ?_, fun e he => ?_⟩
  · rw [List.length_append, h.depth, Nat.add_comm]
    rfl
  · rcases List.mem_append.1 hk with hk | hk
    · exact hnew k hk
    · exact h.bare k hk
  · obtain ⟨hl, hn⟩ := h.exits e he
    exact ⟨Nat.lt_add_right _ hl, Nat.lt_add_right _ hn⟩

theorem Scope.Around.body (h : s.Around ctrl) (new : List Ctrl) (hnew : ∀ k ∈ new, Bare k) {e : Exits}
    (hl : e.leave < s.depth + new.length) (hn : e.next < s.depth + new.length) :
    (s.body new.length e).Around (new ++ ctrl) := by
  obtain ⟨hdepth, hbare, hexits⟩ := h.inside new hnew
  refine ⟨hdepth, hbare, fun e' he' => ?_⟩
  rcases List.mem_cons.1 he' with rfl | he'
  · exact ⟨hl, hn⟩
  · exact hexits e' he'

theorem Scope.takes_idle (h : Turns E a [] []) : s.Takes E a :=
  fun _ _ _ hr => h.idle hr

theorem Scope.Takes.append (ha : s.Takes E a) (hb : s.Takes E b) : s.Takes E (a ++ b) := by
  intro ctrl rest hs hr
  rw [List.append_assoc]
  exact ha ctrl _ hs (hb ctrl rest hs hr)

end Scopes

namespace Gen

variable {D : Draft} {E : Env} {c : Context}

/-! ## Output -/

variable (hE : Serves E c D)
include hE

theorem echo_types {o : Operand} (h : o.Typed E D) :
    Types D (echo c o) fun code => Turns E code [] [] := by
  have bytesOf_types (p : Piece) : Types D (bytesOf c p) fun code =>
      Turns E p.code [] p.rep.types → Turns E code [] [Shape.bytesRef] := by
    unfold bytesOf
    split
    · rename_i hrep
      refine types_pure fun hp => ?_
      rw [hrep] at hp
      exact hp.trans (hE.call .intToString)
    · rename_i hrep
      refine types_pure fun hp => ?_
      rw [hrep] at hp
      exact hp.trans (turns_call hE.render)
    · exact types_bind (asRep_types hE p .boxed) fun _ => types_pure fun hc hp =>
        (hc hp).trans (hE.call .toBytes)
  unfold echo
  split
  · exact types_bind (bytes_types _) fun _ => types_pure fun hb => hb.trans (turns_call hE.echo)
  · exact types_bind (h _) fun p => types_bind (bytesOf_types p) fun _ => types_pure fun hb hp =>
      (hb hp).trans (turns_call hE.echo)

theorem echoes_types {os : List Operand} (h : ∀ o ∈ os, o.Typed E D) :
    Types D (echoes c os) fun code => Turns E code [] [] := by
  induction os with
  | nil => exact types_pure (.refl _ _)
  | cons o os ih =>
    exact types_bind (echo_types hE (h o (by simp))) fun _ =>
      types_bind (ih fun o ho => h o (by simp [ho])) fun _ => types_pure fun hb ha => ha.trans hb

/-! ## Loops -/

/-- Code that leaves a loop under a condition. -/
theorem leaveUnless_types {cond : Option Operand} (h : ∀ o ∈ cond, o.Typed E D) :
    Types D (leaveUnless c cond) fun code => ∀ ctrl rest k, ctrl[1]? = some k → Bare k →
      Checks E .before ctrl [] rest → Checks E .before ctrl [] (code ++ rest) := by
  cases cond with
  | none => exact types_pure fun _ _ _ _ _ hr => hr
  | some o =>
    refine types_bind (value_types hE (h o rfl) .bool) fun test =>
      types_pure fun ht ctrl rest k hk hb hr => ?_
    have hnot : Turns E (test ++ [.i32Eqz]) [] [.i32] := ht.trans (turns_numeric rfl rfl)
    rw [show test ++ [Instr.i32Eqz, .brIf 1] = (test ++ [.i32Eqz]) ++ [.brIf 1] by simp,
      List.append_assoc]
    exact hnot.single fun cond hcond => .jumpsIf hcond hk hb hr

theorem loop_types {cond : Option Operand} {post : List Operand}
    {body : Compile.Block} (hc : ∀ o ∈ cond, o.Typed E D) (hp : ∀ o ∈ post, o.Typed E D)
    (hb : body.Typed E D) (s : Scope) : Types D (loop c cond post body s) (s.Takes E) := by
  refine types_bind (leaveUnless_types hE hc) fun test =>
    types_bind (hb (s.body 3 ⟨s.depth, s.depth + 2⟩)) fun inner =>
    types_bind (effects_types hE hp) fun step =>
    types_pure fun hstep hinner htest ctrl rest hs hr => ?_
  have hinside : (s.body 3 ⟨s.depth, s.depth + 2⟩).Around
      ([bareBlock, bareLoop, bareBlock] ++ ctrl) :=
    hs.body [bareBlock, bareLoop, bareBlock] (by simp [Bare]) (by simp) (by simp)
  simp only [List.append_assoc, List.cons_append, List.nil_append]
  refine .block (.loop (htest _ _ bareBlock rfl ⟨rfl, rfl⟩ (.block (hinner _ _ hinside ?_))))
  refine .closes ⟨rfl, rfl⟩ (hstep.idle (.jumps (d := 0) rfl ⟨rfl, rfl⟩ ?_))
  exact .closes ⟨rfl, rfl⟩ (.closes ⟨rfl, rfl⟩ hr)

theorem loopUntil_types {cond : Operand} {body : Compile.Block}
    (hb : body.Typed E D) (hc : cond.Typed E D) (s : Scope) :
    Types D (loopUntil c body cond s) (s.Takes E) := by
  refine types_bind (hb (s.body 3 ⟨s.depth, s.depth + 2⟩)) fun inner =>
    types_bind (value_types hE hc .bool) fun test =>
    types_pure fun htest hinner ctrl rest hs hr => ?_
  have hinside : (s.body 3 ⟨s.depth, s.depth + 2⟩).Around
      ([bareBlock, bareLoop, bareBlock] ++ ctrl) :=
    hs.body [bareBlock, bareLoop, bareBlock] (by simp [Bare]) (by simp) (by simp)
  simp only [List.append_assoc, List.cons_append, List.nil_append]
  refine .block (.loop (.block (hinner _ _ hinside (.closes ⟨rfl, rfl⟩ ?_))))
  refine htest.single fun k hk => .jumpsIf (d := 0) hk rfl ⟨rfl, rfl⟩ ?_
  exact .closes ⟨rfl, rfl⟩ (.closes ⟨rfl, rfl⟩ hr)

omit hE in
theorem repeated_types {step : Gen Code} {P : Code → Prop} (h : Types D step P) (hnil : P [])
    (happend : ∀ a b, P a → P b → P (a ++ b)) (n : Nat) : Types D (repeated step n) P := by
  induction n with
  | zero => exact types_pure hnil
  | succ n ih =>
    exact types_bind h fun a => types_bind ih fun b => types_pure fun hb ha => happend a b ha hb

theorem unrolled_types {cond : Option Operand} {post : List Operand}
    {body : Compile.Block} (hc : ∀ o ∈ cond, o.Typed E D) (hp : ∀ o ∈ post, o.Typed E D)
    (hb : body.Typed E D) (s : Scope) : Types D (unrolled c cond post body s) (s.Takes E) := by
  -- One copy of the loop keeps to the discipline between the opening and the closing instructions.
  let Copy (code : Code) : Prop := ∀ ctrl rest, s.Around ctrl →
    Checks E .before (bareLoop :: bareBlock :: ctrl) [] rest →
      Checks E .before (bareLoop :: bareBlock :: ctrl) [] (code ++ rest)
  have hcopy : Types D (do
      let test ← leaveUnless c cond
      let inner ← body (s.inside 2)
      return test ++ inner ++ (← effects c post)) Copy := by
    refine types_bind (leaveUnless_types hE hc) fun test => types_bind (hb (s.inside 2)) fun inner =>
      types_bind (effects_types hE hp) fun step =>
      types_pure fun hstep hinner htest ctrl rest hs hr => ?_
    have hinside : (s.inside 2).Around ([bareLoop, bareBlock] ++ ctrl) :=
      hs.inside [bareLoop, bareBlock] (by simp [Bare])
    rw [List.append_assoc, List.append_assoc]
    exact htest _ _ bareBlock rfl ⟨rfl, rfl⟩ (hinner _ _ hinside (hstep.idle hr))
  have hcopies := repeated_types hcopy (fun _ _ _ hr => hr) (fun a b ha hb ctrl rest hs hr => by
    rw [List.append_assoc]
    exact ha ctrl _ hs (hb ctrl rest hs hr)) c.unroll.toNat
  refine types_bind hcopies fun copies => types_pure fun hcs ctrl rest hs hr => ?_
  simp only [List.append_assoc, List.cons_append, List.nil_append]
  refine .block (.loop (hcs ctrl _ hs (.jumps (d := 0) rfl ⟨rfl, rfl⟩ ?_)))
  exact .closes ⟨rfl, rfl⟩ (.closes ⟨rfl, rfl⟩ hr)

theorem counterOf_types (init : List Expr) (cond : Option Expr)
    (post : List Expr) (body : List Stmt) :
    Types D (counterOf? c init cond post body) fun _ => True := by
  have hstorage (name : String) : Types D (storageOf c name) fun _ => True :=
    types_bind (findVar_types hE name) fun _ => types_pure fun _ => trivial
  unfold counterOf?
  refine types_ite (types_pure trivial) ?_
  cases CountedLoop.ofHeader? init cond with
  | none => exact types_pure trivial
  | some l =>
    refine types_bind (hstorage _) fun _ => types_given (types_ite (types_pure trivial) ?_)
    cases l.bound with
    | none => exact types_pure trivial
    | some b =>
      exact types_bind (hstorage _) fun _ => types_given (types_ite (types_pure trivial)
        (types_pure trivial))

theorem forLoop_types {counter : Option String} {cond : Option Operand}
    {post : List Operand} {body : Compile.Block} (hc : ∀ o ∈ cond, o.Typed E D)
    (hp : ∀ o ∈ post, o.Typed E D) (hb : body.Typed E D) (s : Scope) :
    Types D (forLoop c counter cond post body s) (s.Takes E) := by
  cases counter with
  | none => exact loop_types hE hc hp hb s
  | some name =>
    exact types_bind (note_types _) fun _ => types_given (unrolled_types hE hc hp hb s)

theorem boundVar_types (loc : Location) (name : String) :
    Types D (boundVar c loc name) fun slot => E.Slot slot Shape.valueRef := by
  refine types_bind (findVar_types hE name) fun v => types_unless fun hb => types_pure fun hv => ?_
  have hslot := hv.2
  rwa [Variable.rep_boxed (Decidable.not_not.1 hb)] at hslot

theorem turns_atPosition {subj pos : Nat} (hs : E.Slot subj Shape.valueRef)
    (hp : E.Slot pos .i32) {r : Routine} (hr : r.params = [Shape.valueRef, .i32]) :
    Turns E (atPosition c subj pos r) [] r.results := by
  have hcall := hE.call r
  rw [hr] at hcall
  exact ((turns_load hs).trans ((turns_load hp).above [Shape.valueRef])).trans hcall

omit hE in
theorem turns_increment {pos : Nat} (hp : E.Slot pos .i32) : Turns E (Code.increment pos) [] [] :=
  (((turns_load hp).trans ((turns_const32 1).above [.i32])).trans (turns_numeric rfl rfl)).trans
    (turns_store hp)

theorem bindKey_types (loc : Location) (subj pos : Nat) (key : Option String) :
    Types D (bindKey c loc subj pos key) fun code =>
      E.Slot subj Shape.valueRef → E.Slot pos .i32 → Turns E code [] [] := by
  cases key with
  | none => exact types_pure fun _ _ => .refl _ _
  | some k =>
    exact types_bind (boundVar_types hE loc k) fun _ => types_pure fun hv hs hp =>
      (turns_atPosition hE hs hp rfl).trans (turns_store hv)

theorem foreach_types {subject : Operand} {body : Compile.Block}
    (h : subject.Typed E D) (hb : body.Typed E D) (loc : Location) (key : Option String)
    (val : String) (s : Scope) :
    Types D (foreach c loc subject key val body s) (s.Takes E) := by
  refine types_bind (temp_types hE (r := .boxed) nofun) fun subj =>
    types_bind (temp_types hE (r := .bool) nofun) fun len =>
    types_bind (temp_types hE (r := .bool) nofun) fun pos =>
    types_bind (value_types hE h .boxed) fun start =>
    types_bind (bindKey_types hE loc subj pos key) fun keyCode =>
    types_bind (boundVar_types hE loc val) fun valueVar =>
    types_bind (hb (s.body 4 ⟨s.depth, s.depth + 3⟩)) fun inner =>
    types_bind (releaseAll_types _) fun _ =>
    types_pure fun _ hinner hvalue hkey hstart hpos hlen hsubj ctrl rest hs hr => ?_
  have hinside : (s.body 4 ⟨s.depth, s.depth + 3⟩).Around
      ([bareBlock, bareBranch, bareLoop, bareBlock] ++ ctrl) :=
    hs.body [bareBlock, bareBranch, bareLoop, bareBlock] (by simp [Bare]) (by simp) (by simp)
  have hsetup := ((((hstart.trans (turns_store hsubj)).trans (turns_load hsubj)).trans
    (hE.call .arrIterLen)).trans (turns_store hlen)).trans
      ((turns_const32 0).trans (turns_store hpos))
  have hdone : Turns E (Code.load pos ++ Code.load len ++ [.i32 .geS]) [] [.i32] :=
    ((turns_load hpos).trans ((turns_load hlen).above [.i32])).trans (turns_numeric rfl rfl)
  have hhas := turns_atPosition hE hsubj hpos (r := .arrIterHas) rfl
  have hbind := ((hkey hsubj hpos).trans
    (turns_atPosition hE hsubj hpos (r := .arrIterValue) rfl)).trans (turns_store hvalue)
  have hcode : ∀ more, Checks E .before ctrl [] more → Checks E .before ctrl []
      ((start ++ Code.store subj ++ Code.load subj ++ c.links.call .arrIterLen ++ Code.store len ++
        (Code.const32 0 ++ Code.store pos)) ++ .block .void :: .loop ::
        ((Code.load pos ++ Code.load len ++ [.i32 .geS]) ++ .brIf (1 : Nat) ::
        (atPosition c subj pos .arrIterHas ++ .branchIf .void ::
        ((keyCode ++ atPosition c subj pos .arrIterValue ++ Code.store valueVar) ++ .block .void ::
        (inner ++ .close :: .close :: (Code.increment pos ++ .br (0 : Nat) :: .close :: .close ::
          more)))))) := by
    intro more hmore
    refine hsetup.idle (.block (.loop (hdone.single fun k hk => .jumpsIf hk rfl ⟨rfl, rfl⟩ ?_)))
    refine hhas.single fun k hk => .branchIf ?_ (hbind.idle (.block (hinner _ _ hinside ?_)))
    · simp only [Env.words, List.all_cons, List.all_nil, E.known_before, hk, Bool.and_self]
    · refine .closes ⟨rfl, rfl⟩ (.closes ⟨rfl, rfl⟩ ((turns_increment hpos).idle ?_))
      exact .jumps rfl ⟨rfl, rfl⟩ (.closes ⟨rfl, rfl⟩ (.closes ⟨rfl, rfl⟩ hmore))
  simpa using hcode rest hr

/-! ## Switch -/

/-- The search for a case leaves its block when it has found one. -/
theorem findCase_types {cases : List (Option Operand)}
    (h : ∀ k ∈ cases, ∀ o ∈ k, o.Typed E D) (loc : Location) (subject target next : Nat)
    (default : Option Nat) :
    Types D (findCase c loc subject target next default cases) fun code =>
      E.Slot subject Shape.valueRef → E.Slot target .i32 → ∀ ctrl rest,
        Checks E .before (bareBlock :: ctrl) [] rest →
          Checks E .before (bareBlock :: ctrl) [] (code ++ rest) := by
  induction cases generalizing next default with
  | nil =>
    exact types_pure fun _ ht ctrl rest hr => ((turns_const32 _).trans (turns_store ht)).idle hr
  | cons k rest ih =>
    have hrest := ih fun k hk => h k (by simp [hk])
    cases k with
    | none =>
      cases default with
      | some _ => exact types_fail _
      | none => exact hrest _ _
    | some o =>
      refine types_bind (value_types hE (h (some o) (by simp) o rfl) .boxed) fun test =>
        types_bind (hrest (next + 1) default) fun others =>
        types_pure fun hothers htest hs ht ctrl more hr => ?_
      have hcond := ((turns_load hs).trans (htest.above [Shape.valueRef])).trans (hE.call .looseEq)
      rw [List.append_assoc, List.append_assoc]
      refine hcond.single fun k hk => Checks.whenever hk (fun more' hr' => ?_)
        (hothers hs ht ctrl more hr)
      rw [List.append_assoc]
      exact ((turns_const32 _).trans (turns_store ht)).idle
        (.jumps (d := 1) rfl ⟨rfl, rfl⟩ hr')

omit hE in
theorem caseBodies_types {bodies : List Compile.Block} (h : ∀ b ∈ bodies, b.Typed E D)
    (target : Nat) (s : Scope) (next : Nat) :
    Types D (caseBodies target (s.body 2 ⟨s.depth, s.depth⟩) next bodies) fun code =>
      E.Slot target .i32 → ∀ ctrl rest, s.Around ctrl →
        Checks E .before (bareBlock :: ctrl) [] rest →
          Checks E .before (bareBlock :: ctrl) [] (code ++ rest) := by
  induction bodies generalizing next with
  | nil => exact types_pure fun _ _ _ _ hr => hr
  | cons b rest ih =>
    refine types_bind (h b (by simp) _) fun inner =>
      types_bind (ih (fun b hb => h b (by simp [hb])) (next + 1)) fun others =>
      types_pure fun hothers hinner ht ctrl more hs hr => ?_
    have hinside : (s.body 2 ⟨s.depth, s.depth⟩).Around ([bareBranch, bareBlock] ++ ctrl) :=
      hs.body [bareBranch, bareBlock] (by simp [Bare]) (by simp) (by simp)
    have hcond : Turns E (Code.load target ++ Code.const32 next ++ [.i32 .leS]) [] [.i32] :=
      ((turns_load ht).trans ((turns_const32 _).above [.i32])).trans (turns_numeric rfl rfl)
    rw [List.append_assoc, List.append_assoc]
    exact hcond.single fun k hk => Checks.whenever hk (fun more' hr' => hinner _ _ hinside hr')
      (hothers ht ctrl more hs hr)

theorem switch_types {subject : Operand} {cases : List (Option Operand)}
    {bodies : List Compile.Block} (hsub : subject.Typed E D)
    (hc : ∀ k ∈ cases, ∀ o ∈ k, o.Typed E D) (hb : ∀ b ∈ bodies, b.Typed E D) (loc : Location)
    (s : Scope) : Types D (switch c loc subject cases bodies s) (s.Takes E) := by
  refine types_bind (temp_types hE (r := .boxed) nofun) fun subj =>
    types_bind (temp_types hE (r := .bool) nofun) fun target =>
    types_bind (value_types hE hsub .boxed) fun start =>
    types_bind (findCase_types hE hc loc subj target 0 none) fun search =>
    types_bind (caseBodies_types hb target s 0) fun inner => types_bind (releaseAll_types _) fun _ =>
    types_pure fun _ hinner hsearch hstart ht hs ctrl rest hscope hr => ?_
  simp only [List.append_assoc, List.cons_append, List.nil_append]
  rw [← List.append_assoc]
  refine (hstart.trans (turns_store hs)).idle (.block (hsearch hs ht ctrl _ ?_))
  refine .closes ⟨rfl, rfl⟩ (.block (hinner ht ctrl _ hscope ?_))
  exact .closes ⟨rfl, rfl⟩ hr

/-! ## Jumps -/

omit hE in
theorem exits_types (what : String) (loc : Location) (levels : Int) (s : Scope) :
    Types D (exits what loc levels s) fun e => e ∈ s.loops := by
  unfold exits
  dsimp only
  split
  · rename_i e he
    exact types_pure (List.mem_of_getElem? he)
  · exact types_fail _
  · exact types_fail _

omit hE in
theorem takes_jump {s : Scope} {depth : Nat} (h : depth < s.depth) : s.Takes E (s.jump depth) := by
  intro ctrl rest hs hr
  have hlt : s.depth - 1 - depth < ctrl.length := by
    rw [hs.depth]
    omega
  exact .jumps (List.getElem?_eq_getElem hlt) (hs.bare _ (List.getElem_mem hlt)) hr

omit hE in
theorem takes_leave {e : Exits} {s : Scope} (he : e ∈ s.loops) : s.Takes E (s.jump e.leave) :=
  fun ctrl rest hs hr => takes_jump (hs.exits e he).1 ctrl rest hs hr

omit hE in
theorem takes_next {e : Exits} {s : Scope} (he : e ∈ s.loops) : s.Takes E (s.jump e.next) :=
  fun ctrl rest hs hr => takes_jump (hs.exits e he).2 ctrl rest hs hr

/-- What a function leaves when it returns. -/
theorem result_types {val : Option Operand} (h : ∀ o ∈ val, o.Typed E D) :
    Types D (result c val) fun code => Turns E code [] E.results := by
  rw [hE.results]
  cases val with
  | none =>
    refine types_pure ?_
    split
    · exact .refl _ _
    · exact hE.call .newNull
  | some o =>
    unfold result
    dsimp only
    split
    · exact effect_types hE (h o rfl)
    · exact value_types hE (h o rfl) .boxed

omit hE in
theorem returns_results {ks : List Kind}
    (h : Kind.fitAll false ks (E.results.reverse.map .typed) = true) :
    E.returns .before ks = true := by
  have hlen : E.results.length = ks.length := by
    rw [Kind.fitAll_length h, List.length_map, List.length_reverse]
  rw [Env.returns, hlen, List.take_length, E.known_before, h]
  rfl

omit hE in
theorem returns_one {t : ValType} {k : Kind} (hresults : E.results = [t])
    (hk : k.fits false (.typed t) = true) : E.returns .before [k] = true := by
  refine returns_results ?_
  rw [hresults]
  exact Bool.and_eq_true_iff.2 ⟨hk, rfl⟩

theorem ret_types {val : Option Operand} (h : ∀ o ∈ val, o.Typed E D)
    (s : Scope) : Types D (ret c val) (s.Takes E) := by
  refine types_bind (result_types hE h) fun code => types_pure fun hc ctrl rest _ hr => ?_
  rw [List.append_assoc]
  refine hc.checks fun ks hks => ?_
  rw [List.append_nil]
  exact .ret (returns_results hks) hr

theorem branch_types {cond : Operand} {yes : Compile.Block}
    {no : Option Compile.Block} (hc : cond.Typed E D) (hy : yes.Typed E D)
    (hn : ∀ b ∈ no, b.Typed E D) (s : Scope) : Types D (branch c cond yes no s) (s.Takes E) := by
  have hinside {ctrl : List Ctrl} (hs : s.Around ctrl) {k : Ctrl} (hk : Bare k) :
      (s.inside 1).Around ([k] ++ ctrl) := hs.inside [k] (by simpa using hk)
  refine types_bind (value_types hE hc .bool) fun test => types_bind (hy (s.inside 1)) fun yes => ?_
  split
  · refine types_pure fun hyes htest ctrl rest hs hr => ?_
    rw [List.append_assoc]
    exact htest.single fun k hk => Checks.whenever hk
      (fun more hmore => hyes _ _ (hinside hs (k := bareBranch) ⟨rfl, rfl⟩) hmore) hr
  · refine types_bind (hn _ rfl (s.inside 1)) fun no =>
      types_pure fun hno hyes htest ctrl rest hs hr => ?_
    rw [List.append_assoc]
    refine htest.single fun k hk => Checks.either (t := .void) hk (fun more hmore => ?_)
      (fun more hmore => ?_) hr
    · exact hyes _ _ (hinside hs (k := bareBranch) ⟨rfl, rfl⟩) (hmore [] rfl)
    · exact hno _ _ (hinside hs (k := bareBlock) ⟨rfl, rfl⟩) (hmore [] rfl)

end Gen

/-! ## Statements -/

section Statements

variable {D : Draft} {E : Env} {c : Context}

theorem map_operand_types (hE : Serves E c D) (e : Option Expr) :
    ∀ o ∈ e.map (operand c), o.Typed E D := by
  intro o ho
  obtain ⟨e', -, rfl⟩ := Option.map_eq_some_iff.1 ho
  exact emit_types hE e'

mutual

theorem stmt_types (hE : Serves E c D) : (st : Stmt) → (s : Scope) → Types D (stmt c st s) (s.Takes E)
  | .expr _ e, s => by
    rw [stmt]
    exact types_mono (effect_types hE (emit_types hE e)) fun _ h => Scope.takes_idle h
  | .echo _ args, s => by
    rw [stmt]
    exact types_mono (echoes_types hE (operands_types hE args)) fun _ h => Scope.takes_idle h
  | .ifElse _ cond yes no, s => by
    rw [stmt]
    refine branch_types hE (emit_types hE cond) (stmts_types hE yes) (fun b hb => ?_) s
    split at hb
    · cases hb
    · cases hb
      exact stmts_types hE no
  | .whileDo _ cond body, s => by
    rw [stmt]
    refine loop_types hE (fun o ho => ?_) (by simp) (stmts_types hE body) s
    cases ho
    exact emit_types hE cond
  | .doWhile _ body cond, s => by
    rw [stmt]
    exact loopUntil_types hE (stmts_types hE body) (emit_types hE cond) s
  | .forLoop _ init cond post body, s => by
    rw [stmt]
    exact types_bind (effects_types hE (operands_types hE init)) fun _ =>
      types_bind (counterOf_types hE init cond post body) fun _ => types_given <|
      types_bind (forLoop_types hE (map_operand_types hE cond) (operands_types hE post)
        (stmts_types hE body) s) fun _ => types_pure fun hloop hstart =>
          (Scope.takes_idle hstart).append hloop
  | .foreach loc subject key val body, s => by
    rw [stmt]
    exact foreach_types hE (emit_types hE subject) (stmts_types hE body) loc key val s
  | .switch loc subject cases, s => by
    rw [stmt]
    refine switch_types hE (emit_types hE subject) (fun k hk o ho => ?_)
      (caseBlocks_types hE cases) loc s
    obtain ⟨k', -, rfl⟩ := List.mem_map.1 hk
    exact map_operand_types hE k'.1 o ho
  | .leave loc levels, s => by
    rw [stmt]
    exact types_bind (exits_types "break" loc levels s) fun _ => types_pure takes_leave
  | .next loc levels, s => by
    rw [stmt]
    exact types_bind (exits_types "continue" loc levels s) fun _ => types_pure takes_next
  | .ret _ val, s => by
    rw [stmt]
    exact ret_types hE (map_operand_types hE val) s
  | .function decl, s => by
    rw [stmt]
    exact types_fail _
  | .classDecl loc .., s => by
    rw [stmt]
    exact types_fail _

theorem stmts_types (hE : Serves E c D) :
    (body : List Stmt) → Block.Typed E D fun s => stmts c body s
  | [], s => by
    dsimp only
    rw [stmts]
    exact types_pure fun _ _ _ hr => hr
  | st :: rest, s => by
    dsimp only
    rw [stmts]
    exact types_bind (stmt_types hE st s) fun _ => types_bind (stmts_types hE rest s) fun _ =>
      types_pure fun hrest hfirst => hfirst.append hrest

theorem caseBlocks_types (hE : Serves E c D) :
    (cases : List (Option Expr × List Stmt)) → ∀ b ∈ caseBlocks c cases, b.Typed E D
  | [] => by simp [caseBlocks]
  | (_, body) :: rest => by
    rw [caseBlocks, List.forall_mem_cons]
    exact ⟨stmts_types hE body, caseBlocks_types hE rest⟩

end

end Statements

/-! ## Functions -/

section Functions

variable {D : Draft} {E : Env} {c : Context}

/-- The parameters of a function become boxed variables. -/
theorem bindParams_types {f : FunctionInfo} {n slot : Nat} {names : List String} {d d' : Draft}
    {u : Unit} (hr : Runs (bindParams c f slot names) d u d') (hd : d.Proper)
    (hp : d.layout.params = boxedParams n) (hk : d.layout.kinds = [])
    (hn : slot + names.length ≤ n) : d'.Proper ∧ d.Before d' := by
  induction names generalizing slot d with
  | nil =>
    obtain ⟨-, rfl⟩ := runs_pure.1 hr
    exact ⟨hd, .refl _⟩
  | cons name rest ih =>
    rw [List.length_cons] at hn
    obtain ⟨s, d₁, hget, hr₁⟩ := runs_bind.1 hr
    obtain ⟨rfl, rfl⟩ := runs_get.1 hget
    split at hr₁
    · obtain ⟨_, _, hfail, -⟩ := runs_bind.1 hr₁
      exact (runs_fail hfail).elim
    rename_i hnew
    obtain ⟨_, d₂, hset, hr₂⟩ := runs_bind.1 hr₁
    have hd₂ := runs_set.1 hset
    have hslot : d₁.layout.typeOf? slot = some Shape.valueRef := by
      have hlt : slot < d₁.layout.params.length := by
        rw [hp, boxedParams, List.length_replicate]
        omega
      rw [Layout.typeOf?, if_pos hlt, hp, boxedParams, List.getElem?_replicate, if_pos (by omega)]
    have hproper : d₂.Proper := by
      subst hd₂
      refine ⟨hd.refType, hd.temps, fun m v hv => ?_, fun m v hv => ?_⟩ <;>
        rw [List.lookup_cons] at hv <;> split at hv
      · cases hv
        exact hslot
      · exact hd.vars m v hv
      · cases hv
        exact congrArg (List.lookup slot) hk
      · exact hd.apart m v hv
    have hbefore : d₁.Before d₂ := by
      subst hd₂
      refine ⟨rfl, fun _ _ h => h, fun m v hv => ?_, fun _ _ h => h, fun _ _ h => h, fun _ _ h => h⟩
      rw [List.lookup_cons]
      split
      · rename_i hm
        rw [eq_of_beq hm] at hv
        exact absurd (Option.isSome_iff_exists.2 ⟨v, hv⟩) hnew
      · exact hv
    have hk₂ : d₂.layout.kinds = [] := by rw [hd₂, hk]
    obtain ⟨hd', hb'⟩ := ih hr₂ hproper (hbefore.params.trans hp) hk₂ (by omega)
    exact ⟨hd', hbefore.trans hb'⟩

theorem proper_start (pool : Pool) (notes : Array String) (n : Nat) :
    (Draft.start pool notes n).Proper :=
  ⟨rfl, (fun _ _ h => nomatch h), (fun _ _ h => nomatch h), (fun _ _ h => nomatch h)⟩

theorem start_size (pool : Pool) (notes : Array String) (n : Nat) :
    (Draft.start pool notes n).layout.size = n := by
  simp [Layout.size, Draft.start, boxedParams]

/-- The end of the code of a function. -/
theorem Scope.Takes.checks {code last : Code} (h : Scope.Takes E {} code)
    (hlast : Turns E last [] E.results) : Checks E .before [] [] (code ++ last) := by
  refine h [] last ⟨rfl, by simp, by simp⟩ ?_
  rw [← List.append_nil last]
  refine hlast.checks fun ks hks => ?_
  rw [List.append_nil]
  exact .nil (returns_results hks)

/-- A function of the program keeps to the discipline. -/
theorem function_checks {f : FunctionInfo} {names : List String} {pool : Pool}
    {notes : Array String} {b : Body}
    (hr : Runs (Gen.function c f names) (Draft.start pool notes names.length) b D)
    (hE : Serves E c D) :
    (Draft.start pool notes names.length).Before D ∧ b.locals = D.layout.locals.toList ∧
      Checks E .before [] [] b.code := by
  obtain ⟨_, d₁, hparams, hr₁⟩ := runs_bind.1 hr
  obtain ⟨code, d₂, hcode, hr₂⟩ := runs_bind.1 hr₁
  obtain ⟨s, d₃, hget, hr₃⟩ := runs_bind.1 hr₂
  obtain ⟨rfl, rfl⟩ := runs_get.1 hget
  obtain ⟨rfl, rfl⟩ := runs_pure.1 hr₃
  obtain ⟨hproper, hbefore⟩ := bindParams_types hparams (proper_start ..) rfl rfl
    (Nat.le_of_eq (Nat.zero_add _))
  obtain ⟨-, hbefore', htakes⟩ := stmts_types hE f.decl.body {} _ _ _ hcode hproper
  refine ⟨hbefore.trans hbefore', rfl, (htakes (.refl _)).checks ?_⟩
  rw [hE.results]
  split
  · exact .refl _ _
  · exact hE.call .newNull

theorem defaults_types (hE : Serves E c D) (k : ClassInfo) (object : Nat) (ps : List PropertyDecl) :
    Types D (defaults c k object ps) fun code =>
      E.Slot object Shape.valueRef → Turns E code [] [] := by
  induction ps with
  | nil => exact types_pure fun _ => .refl _ _
  | cons p ps ih =>
    have hdefault : Types D (defaultOf c p.default) fun code =>
        Turns E code [] [Shape.valueRef] := by
      unfold defaultOf
      split
      · exact value_types hE (emit_types hE _) .boxed
      · exact types_pure (hE.call .newNull)
    refine types_bind hdefault fun val => types_bind ih fun rest => types_pure fun hrest hval hs => ?_
    exact ((((turns_load hs).trans ((turns_const32 _).above [Shape.valueRef])).trans
      (hval.above [Shape.valueRef, .i32])).trans (hE.call .objSet)).trans (hrest hs)

/-- Reads of the first locals. -/
theorem turns_loads {n : Nat} (h : ∀ i < n, E.Slot i Shape.valueRef) :
    Turns E ((List.range n).flatMap Code.load) [] (boxedParams n) := by
  induction n with
  | zero => exact .refl _ _
  | succ n ih =>
    have hfirst := ih fun i hi => h i (Nat.lt_succ_of_lt hi)
    have hlast := (turns_load (h n (Nat.lt_succ_self n))).above (boxedParams n)
    rw [List.range_succ, List.flatMap_append, List.flatMap_singleton, boxedParams,
      List.replicate_succ']
    exact hfirst.trans hlast

/-- A constructor keeps to the discipline. -/
theorem creator_checks {k : ClassInfo} {pool : Pool} {notes : Array String} {b : Body}
    (hr : Runs (Gen.creator c k) (Draft.start pool notes k.arity) b D) (hE : Serves E c D)
    (hk : k ∈ c.decls.classes) (hmain : c.isMain = false) :
    (Draft.start pool notes k.arity).Before D ∧ b.locals = D.layout.locals.toList ∧
      Checks E .before [] [] b.code := by
  obtain ⟨s, d₁, hget, hr₁⟩ := runs_bind.1 hr
  obtain ⟨rfl, rfl⟩ := runs_get.1 hget
  obtain ⟨_, d₂, hset, hr₂⟩ := runs_bind.1 hr₁
  obtain rfl := runs_set.1 hset
  obtain ⟨fill, d₃, hfill, hr₃⟩ := runs_bind.1 hr₂
  obtain ⟨s, d₄, hget, hr₄⟩ := runs_bind.1 hr₃
  obtain ⟨rfl, rfl⟩ := runs_get.1 hget
  obtain ⟨rfl, rfl⟩ := runs_pure.1 hr₄
  have hstart := (proper_start pool notes k.arity).declare Shape.valueRef
  obtain ⟨-, hbefore, htypes⟩ := defaults_types hE k _ k.defaults _ _ _ hfill hstart
  have hparams : ∀ i < k.arity, E.Slot i Shape.valueRef := by
    intro i hi
    have hi' : i < (boxedParams k.arity).length := by
      rwa [boxedParams, List.length_replicate]
    refine hE.slots _ _ (hbefore.slots i _ (typeOf_declare _ ?_))
    rw [Layout.typeOf?, Draft.start, if_pos hi', boxedParams, List.getElem?_replicate, if_pos hi]
  have hobject : E.Slot (Draft.start pool notes k.arity).layout.size Shape.valueRef :=
    hE.slots _ _ (hbefore.slots _ _ (typeOf_declared _ _))
  have hdeclare : (Draft.start pool notes k.arity).Before { Draft.start pool notes k.arity with
      layout := ((Draft.start pool notes k.arity).layout.declare Shape.valueRef).2 } :=
    ⟨rfl, fun _ _ => typeOf_declare _, fun _ _ h => h, fun _ _ h => h, fun _ _ h => h, fun _ _ h => h⟩
  refine ⟨hdeclare.trans hbefore, rfl, ?_⟩
  have hfill := htypes (.refl _) hobject
  rw [start_size] at hobject
  have hnew := (((turns_const32 k.id).trans ((turns_const32 k.props.length).above [.i32])).trans
    (hE.call .objNew)).trans (turns_store hobject)
  have hlast : Turns E (Code.load k.arity) [] E.results := by
    rw [hE.results, hmain]
    exact turns_load hobject
  simp only [start_size]
  refine (Scope.takes_idle ((hnew.trans hfill).trans ?_)).checks hlast
  -- The initializer runs on the new object and the arguments.
  split
  · rename_i m hm
    have harity : m.arity = k.arity := by
      rw [ClassInfo.arity, hm]
      rfl
    have hcall := turns_call (hE.method k hk m (List.mem_of_find?_eq_some hm))
    rw [harity] at hcall
    have hargs := (turns_load hobject).trans ((turns_loads hparams).above [Shape.valueRef])
    exact hargs.trans (Turns.trans (a := [_]) hcall (turns_drop E _))
  · exact .refl _ _

end Functions

/-! ## Helpers -/

section Helpers

variable {E : Env} {d : Declarations} {l : Links}

theorem dispatchCases_checks (hE : Knows E d l) (hresults : E.results = [Shape.valueRef])
    {args : Nat} (hparams : ∀ i < args + 1, E.Slot i Shape.valueRef)
    (hclass : E.Slot (args + 1) .i32) {found : List (ClassInfo × FunctionInfo)}
    (hfound : ∀ km ∈ found, km.1 ∈ d.classes ∧ km.2 ∈ km.1.methods) {rest : Code}
    (hr : Checks E .before [] [] rest) :
    Checks E .before [] [] (dispatchCases (args + 1) (args + 1) args found ++ rest) := by
  induction found with
  | nil => exact hr
  | cons km found ih =>
    obtain ⟨k, m⟩ := km
    obtain ⟨hk, hm⟩ := hfound (k, m) (by simp)
    have hrest := ih fun km hkm => hfound km (by simp [hkm])
    rw [dispatchCases, List.append_assoc]
    split
    · rename_i harity
      have htest : Turns E (Code.localIs (args + 1) k.id) [] [.i32] :=
        ((turns_load hclass).trans ((turns_const32 _).above [.i32])).trans (turns_numeric rfl rfl)
      have hcall := turns_call (hE.method k hk m hm)
      rw [harity] at hcall
      have hbody := (turns_loads hparams).trans hcall
      rw [List.append_assoc]
      refine htest.single fun cond hcond => Checks.whenever hcond (fun more hmore => ?_) hrest
      rw [show (List.range (args + 1)).flatMap Code.load ++ [Instr.call m.index, .ret] =
          ((List.range (args + 1)).flatMap Code.load ++ [.call m.index]) ++ [.ret] by simp,
        List.append_assoc]
      exact hbody.single fun result hresult =>
        .ret (returns_one hresults hresult) hmore
    · exact hrest

/-- The branches of a search for a slot. -/
theorem slotCases_checks (hresults : E.results = [.i32]) (hclass : E.Slot 0 .i32) {prop : String}
    {ks : List ClassInfo} {rest : Code} (hr : Checks E .before [] [] rest) :
    Checks E .before [] [] (ks.flatMap (fun k =>
      Code.localIs 0 k.id ++ Code.when (Code.const32 ((k.slot? prop).getD 0) ++ [.ret])) ++ rest) := by
  induction ks with
  | nil => exact hr
  | cons k ks ih =>
    have htest : Turns E (Code.localIs 0 k.id) [] [.i32] :=
      ((turns_load hclass).trans ((turns_const32 _).above [.i32])).trans (turns_numeric rfl rfl)
    rw [List.flatMap_cons, List.append_assoc, List.append_assoc]
    refine htest.single fun cond hcond => Checks.whenever hcond (fun more hmore => ?_) ih
    rw [List.append_assoc]
    exact (turns_const32 _).single fun result hresult =>
      .ret (returns_one hresults hresult) hmore

/-- A helper keeps to the discipline. -/
theorem helper_checks (hE : Knows E d l) {h : Helper} {index : Nat}
    (hresults : E.results = h.results)
    (hslots : ∀ (i : Nat) (t : ValType),
      ((h.body d l index).params ++ (h.body d l index).locals)[i]? = some t → E.Slot i t) :
    Checks E .before [] [] (h.body d l index).code := by
  cases h with
  | dispatcher method args =>
    have hparams : ∀ i < args + 1, E.Slot i Shape.valueRef := by
      intro i hi
      refine hslots i _ ?_
      rw [Helper.body, List.getElem?_append_left (by simpa [boxedParams] using hi), boxedParams,
        List.getElem?_replicate, if_pos hi]
    have hclass : E.Slot (args + 1) .i32 := by
      refine hslots _ _ ?_
      rw [Helper.body, List.getElem?_append_right (by simp [boxedParams])]
      simp [boxedParams]
    have hstart := ((turns_load (hparams 0 (Nat.succ_pos _))).trans
      (turns_call (hE.routine .objClass))).trans (turns_store hclass)
    have hfound : ∀ km ∈ d.withMethod method, km.1 ∈ d.classes ∧ km.2 ∈ km.1.methods := by
      intro km hkm
      obtain ⟨k, hk, hm⟩ := List.mem_filterMap.1 hkm
      obtain ⟨m, hfind, rfl⟩ := Option.map_eq_some_iff.1 hm
      exact ⟨hk, List.mem_of_find?_eq_some hfind⟩
    have hend : Checks E .before [] [] [.unreachable] :=
      .unreachable (.nil (returns_results (Kind.fitAll_self _ _)))
    have hcases := dispatchCases_checks hE hresults hparams hclass hfound hend
    simp only [Helper.body]
    rw [List.append_assoc]
    exact hstart.idle hcases
  | slotFinder prop =>
    have hclass : E.Slot 0 .i32 := hslots 0 _ rfl
    refine slotCases_checks hresults hclass ?_
    have hlast : Checks E .before [] [] (Code.const32 (-1) ++ []) :=
      (turns_const32 _).single fun result hresult => .nil (returns_one hresults hresult)
    exact hlast

end Helpers

end HeapScript.Compile
