import HeapScript.Proofs.Compile.Expressions

/-!
# Statements and functions side by side
-/

namespace HeapScript.Compile

open Machine Library Gen

variable {k : Bool} {c : Context} {D : Declarations}

namespace Gen

variable {o o' : Operand} {os os' : List Operand} {cond cond' : Option Operand}
  {b b' : Compile.Block}

/-! ## Statements -/

theorem echo_restores (h : o.Restores k c o') :
    Restores k c (echo c o) (echo (c.knowing D) o') Nested := by
  have bytesOf_restores {p q : Piece} (hpq : p.Matches (Rep.boxed ≠ .void) q) :
      Restores k c (bytesOf c p) (bytesOf (c.knowing D) q) Nested := by
    unfold bytesOf
    rw [← hpq.1]
    split
    · exact restores_pure (by simp [hpq.2.2])
    · exact restores_pure (by simp [hpq.2.2])
    · exact restores_bind (asRep_restores hpq fun _ => by simp) fun _ _ ha =>
        restores_pure (by simp [ha])
  unfold echo
  rw [h.expr, show (c.knowing D).optimize = c.optimize from rfl]
  split
  · exact restores_bind (restores_bytes _) fun _ _ ha => restores_pure (by simp [ha])
  · exact restores_bind (h.emit (.value .boxed)) fun _ _ hpq => restores_bind (bytesOf_restores hpq)
      fun _ _ ha => restores_pure (by simp [ha])

theorem echoes_restores (h : List.Forall₂ (Operand.Restores k c) os os') :
    Restores k c (echoes c os) (echoes (c.knowing D) os') Nested := by
  induction h with
  | nil => exact restores_pure (by simp)
  | cons ho _ ih =>
    exact restores_bind (echo_restores ho) fun _ _ ha => restores_bind ih fun _ _ hb =>
      restores_pure (by simp [ha, hb])

theorem leaveUnless_restores (h : Option.Rel (Operand.Restores k c) cond cond') :
    Restores k c (leaveUnless c cond) (leaveUnless (c.knowing D) cond') Nested := by
  cases h with
  | none => exact restores_pure (by simp)
  | some h => exact restores_bind (value_restores h _) fun _ _ ha => restores_pure (by simp [ha])

theorem loop_restores (hc : Option.Rel (Operand.Restores k c) cond cond')
    (hp : List.Forall₂ (Operand.Restores k c) os os') (hb : b.Restores k c b') (s : Scope) :
    Restores k c (loop c cond os b s) (loop (c.knowing D) cond' os' b' s) Nested :=
  restores_bind (leaveUnless_restores hc) fun _ _ ht => restores_bind (hb _) fun _ _ hi =>
    restores_bind (effects_restores hp) fun _ _ hp => restores_pure (by simp [Nests, ht, hi, hp])

theorem loopUntil_restores (h : o.Restores k c o') (hb : b.Restores k c b') (s : Scope) :
    Restores k c (loopUntil c b o s) (loopUntil (c.knowing D) b' o' s) Nested :=
  restores_bind (hb _) fun _ _ hi => restores_bind (value_restores h _) fun _ _ ht =>
    restores_pure (by simp [Nests, ht, hi])

theorem repeated_restores {x y : Gen Code} (h : Restores k c x y Nested) (n : Nat) :
    Restores k c (repeated x n) (repeated y n) Nested := by
  induction n with
  | zero => exact restores_pure (by simp)
  | succ n ih =>
    exact restores_bind h fun _ _ ha => restores_bind ih fun _ _ hb => restores_pure (by simp [ha, hb])

theorem unrolled_restores (hc : Option.Rel (Operand.Restores k c) cond cond')
    (hp : List.Forall₂ (Operand.Restores k c) os os') (hb : b.Restores k c b') (s : Scope) :
    Restores k c (unrolled c cond os b s) (unrolled (c.knowing D) cond' os' b' s) Nested := by
  refine restores_bind (repeated_restores ?_ _) fun _ _ ha => restores_pure (by simp [Nests, ha])
  exact restores_bind (leaveUnless_restores hc) fun _ _ ht => restores_bind (hb _) fun _ _ hi =>
    restores_bind (effects_restores hp) fun _ _ hp => restores_pure (by simp [ht, hi, hp])

theorem counterOf?_restores (init : List Expr) (cond : Option Expr) (post : List Expr)
    (body : List Stmt) :
    Restores k c (counterOf? c init cond post body) (counterOf? (c.knowing D) init cond post body)
      fun a b => a = b := by
  have storageOf_restores {γ δ : Type} {P : γ → δ → Prop} {f : Storage → Gen γ}
      {g : Storage → Gen δ} (name : String) (hf : ∀ t, Restores k c (f t) (g t) P) :
      Restores k c (storageOf c name >>= f) (storageOf (c.knowing D) name >>= g) P := by
    refine restores_bind (P := fun s t => s = t) (restores_bind (restores_findVar name) ?_) ?_
    · rintro v _ ⟨rfl, -⟩
      exact restores_pure rfl
    · rintro t _ rfl
      exact hf t
  unfold counterOf?
  refine restores_ite (restores_pure rfl) ?_
  cases CountedLoop.ofHeader? init cond with
  | none => exact restores_pure rfl
  | some l =>
    refine storageOf_restores _ fun s => restores_ite (restores_pure rfl) ?_
    cases l.bound with
    | none => exact restores_pure rfl
    | some b => exact storageOf_restores _ fun s => restores_ite (restores_pure rfl) (restores_pure rfl)

theorem forLoop_restores (counter : Option String)
    (hc : Option.Rel (Operand.Restores k c) cond cond')
    (hp : List.Forall₂ (Operand.Restores k c) os os') (hb : b.Restores k c b') (s : Scope) :
    Restores k c (forLoop c counter cond os b s) (forLoop (c.knowing D) counter cond' os' b' s)
      Nested := by
  cases counter with
  | none => exact loop_restores hc hp hb s
  | some name => exact restores_bind (restores_note _ _) fun _ _ _ => unrolled_restores hc hp hb s

/-- A variable that a loop binds is boxed. -/
theorem boundVar_restores {name : String} (h : c.Needs k name) (loc : Location) :
    Restores k c (boundVar c loc name) (boundVar (c.knowing D) loc name) fun v w => v = w := by
  refine restores_bind (restores_findVar name) ?_
  rintro v _ ⟨rfl, hv⟩
  exact fun _ => tidies_unless nofun (fun hne hk => absurd (h.boxed hv hk) hne)
    (tidies_pure ⟨rfl, rfl⟩)

theorem foreach_restores {key : Option String} {val : String} (h : o.Restores k c o')
    (hk : ∀ n ∈ key, c.Needs k n) (hv : c.Needs k val) (hb : b.Restores k c b') (loc : Location)
    (s : Scope) :
    Restores k c (foreach c loc o key val b s) (foreach (c.knowing D) loc o' key val b' s)
      Nested := by
  have bindKey_restores (subj pos : Nat) :
      Restores k c (bindKey c loc subj pos key) (bindKey (c.knowing D) loc subj pos key) Nested := by
    cases key with
    | none => exact restores_pure (by simp)
    | some n =>
      exact restores_bind (boundVar_restores (hk n rfl) loc) fun _ _ _ =>
        restores_pure (by simp [atPosition])
  refine fun W => tidies_temp fun subj => tidies_temp fun len => tidies_temp fun pos => ?_
  refine tidies_after (value_restores h _) fun _ _ ha => ?_
  refine tidies_after (bindKey_restores subj pos) fun _ _ hk => ?_
  refine tidies_after (boundVar_restores hv loc) fun _ _ _ => tidies_after (hb _) fun _ _ hi => ?_
  exact tidies_releaseAll (List.reverse_perm [subj, len, pos] |>.append_right W)
    (tidies_pure ⟨rfl, by simp [Nests, atPosition, ha, hk, hi]⟩)

theorem findCase_restores {cases cases' : List (Option Operand)}
    (h : List.Forall₂ (Option.Rel (Operand.Restores k c)) cases cases') (loc : Location)
    (subject target next : Nat) (default : Option Nat) :
    Restores k c (findCase c loc subject target next default cases)
      (findCase (c.knowing D) loc subject target next default cases') Nested := by
  induction h generalizing next default with
  | nil => exact restores_pure (by simp)
  | cons hk _ ih =>
    cases hk with
    | none =>
      cases default with
      | some _ => exact restores_fail nofun nofun
      | none => exact ih _ _
    | some h =>
      exact restores_bind (value_restores h _) fun _ _ ha => restores_bind (ih _ _) fun _ _ hb =>
        restores_pure (by simp [ha, hb])

theorem caseBodies_restores {bodies bodies' : List Compile.Block}
    (h : List.Forall₂ (Block.Restores k c) bodies bodies') (target : Nat) (s : Scope) (next : Nat) :
    Restores k c (caseBodies target s next bodies) (caseBodies target s next bodies') Nested := by
  induction h generalizing next with
  | nil => exact restores_pure (by simp)
  | cons hb _ ih =>
    exact restores_bind (hb s) fun _ _ ha => restores_bind (ih _) fun _ _ hb =>
      restores_pure (by simp [ha, hb])

theorem switch_restores {cases cases' : List (Option Operand)}
    {bodies bodies' : List Compile.Block} (h : o.Restores k c o')
    (hc : List.Forall₂ (Option.Rel (Operand.Restores k c)) cases cases')
    (hb : List.Forall₂ (Block.Restores k c) bodies bodies') (loc : Location) (s : Scope) :
    Restores k c (switch c loc o cases bodies s) (switch (c.knowing D) loc o' cases' bodies' s)
      Nested := by
  refine fun W => tidies_temp fun subj => tidies_temp fun target => ?_
  refine tidies_after (value_restores h _) fun _ _ ha => ?_
  refine tidies_after (findCase_restores hc loc subj target 0 none) fun _ _ hf => ?_
  refine tidies_after (caseBodies_restores hb target _ 0) fun _ _ hi => ?_
  exact tidies_releaseAll (List.Perm.swap _ _ _)
    (tidies_pure ⟨rfl, by simp [Nests, ha, hf, hi]⟩)

theorem exits_restores (what : String) (loc : Location) (levels : Int) (s : Scope) :
    Restores k c (exits what loc levels s) (exits what loc levels s) fun a b => a = b := by
  unfold exits
  dsimp only
  split
  · exact restores_pure rfl
  · exact restores_fail nofun nofun
  · exact restores_fail nofun nofun

theorem ret_restores (h : Option.Rel (Operand.Restores k c) cond cond') :
    Restores k c (ret c cond) (ret (c.knowing D) cond') Nested := by
  have result_restores : Restores k c (result c cond) (result (c.knowing D) cond') Nested := by
    cases h with
    | none => exact restores_pure (by split <;> simp)
    | some h => exact restores_ite (effect_restores h) (value_restores h _)
  exact restores_bind result_restores fun _ _ ha => restores_pure (by simp [ha])

theorem branch_restores {no no' : Option Compile.Block} (h : o.Restores k c o')
    (hy : b.Restores k c b') (hn : Option.Rel (Block.Restores k c) no no') (s : Scope) :
    Restores k c (branch c o b no s) (branch (c.knowing D) o' b' no' s) Nested := by
  refine restores_bind (value_restores h _) fun _ _ ht => restores_bind (hy _) fun _ _ ha => ?_
  cases hn with
  | none => exact restores_pure (by simp [ht, ha])
  | some hn => exact restores_bind (hn _) fun _ _ hb => restores_pure (by simp [ht, ha, hb])

end Gen

theorem operand?_restores (hD : c.decls.heads = D.heads) {e : Option Expr}
    (h : ∀ e' ∈ e, e'.Writes (c.Needs k)) :
    Option.Rel (Operand.Restores k c) (e.map (operand c)) (e.map (operand (c.knowing D))) := by
  cases e with
  | none => exact .none
  | some e => exact .some (emit_restores hD e (h e rfl))

mutual

theorem stmt_restores (hD : c.decls.heads = D.heads) : (st : Stmt) → st.Writes (c.Needs k) →
    (s : Scope) → Restores k c (stmt c st s) (stmt (c.knowing D) st s) Nested
  | .expr _ e, h, _ => by
    rw [Stmt.Writes] at h
    simp only [stmt]
    exact effect_restores (emit_restores hD e h)
  | .echo _ args, h, _ => by
    rw [Stmt.Writes] at h
    simp only [stmt]
    exact echoes_restores (operands_restore hD args h)
  | .ifElse _ cond yes no, h, s => by
    rw [Stmt.Writes] at h
    simp only [stmt]
    refine branch_restores (emit_restores hD cond h.1) (stmts_restores hD yes h.2.1) ?_ s
    split
    · exact .none
    · exact .some (stmts_restores hD no h.2.2)
  | .whileDo _ cond body, h, s => by
    rw [Stmt.Writes] at h
    simp only [stmt]
    exact loop_restores (.some (emit_restores hD cond h.1)) .nil (stmts_restores hD body h.2) s
  | .doWhile _ body cond, h, s => by
    rw [Stmt.Writes] at h
    simp only [stmt]
    exact loopUntil_restores (emit_restores hD cond h.2) (stmts_restores hD body h.1) s
  | .forLoop _ init cond post body, h, s => by
    rw [Stmt.Writes] at h
    simp only [stmt]
    refine restores_bind (effects_restores (operands_restore hD init h.1)) fun _ _ ha =>
      restores_bind (counterOf?_restores init cond post body) ?_
    rintro counter _ rfl
    exact restores_bind (forLoop_restores counter (operand?_restores hD h.2.1)
      (operands_restore hD post h.2.2.2) (stmts_restores hD body h.2.2.1) s) fun _ _ hb =>
      restores_pure (by simp [ha, hb])
  | .foreach loc subject key val body, h, s => by
    rw [Stmt.Writes] at h
    simp only [stmt]
    exact foreach_restores (emit_restores hD subject h.1) h.2.1 h.2.2.1
      (stmts_restores hD body h.2.2.2) loc s
  | .switch loc subject cases, h, s => by
    rw [Stmt.Writes] at h
    simp only [stmt]
    refine switch_restores (emit_restores hD subject h.1) ?_ (caseBlocks_restore hD cases h.2) loc s
    rw [List.forall₂_map_left_iff, List.forall₂_map_right_iff]
    exact List.forall₂_same.mpr fun k hk => operand?_restores hD (Stmt.writes_of_mem h.2 hk)
  | .leave loc levels, _, s => by
    simp only [stmt]
    refine restores_bind (exits_restores "break" loc levels s) ?_
    rintro e _ rfl
    exact restores_pure (by simp [Scope.jump])
  | .next loc levels, _, s => by
    simp only [stmt]
    refine restores_bind (exits_restores "continue" loc levels s) ?_
    rintro e _ rfl
    exact restores_pure (by simp [Scope.jump])
  | .ret _ val, h, _ => by
    rw [Stmt.Writes] at h
    simp only [stmt]
    exact ret_restores (operand?_restores hD h)
  | .function _, _, _ | .classDecl .., _, _ => by
    simp only [stmt]
    exact restores_fail nofun nofun

theorem stmts_restores (hD : c.decls.heads = D.heads) : (body : List Stmt) →
    Stmt.allWrite (c.Needs k) body → (s : Scope) →
    Restores k c (stmts c body s) (stmts (c.knowing D) body s) Nested
  | [], _, _ => by
    simp only [stmts]
    exact restores_pure (by simp)
  | st :: rest, h, s => by
    rw [Stmt.allWrite] at h
    simp only [stmts]
    exact restores_bind (stmt_restores hD st h.1 s) fun _ _ ha =>
      restores_bind (stmts_restores hD rest h.2 s) fun _ _ hb => restores_pure (by simp [ha, hb])

theorem caseBlocks_restore (hD : c.decls.heads = D.heads) :
    (cases : List (Option Expr × List Stmt)) → Stmt.casesWrite (c.Needs k) cases →
    List.Forall₂ (Block.Restores k c) (caseBlocks c cases) (caseBlocks (c.knowing D) cases)
  | [], _ => by
    simp only [caseBlocks]
    exact .nil
  | (_, body) :: rest, h => by
    rw [Stmt.casesWrite] at h
    simp only [caseBlocks]
    exact .cons (stmts_restores hD body h.2.1) (caseBlocks_restore hD rest h.2.2)

end

/-! ## Functions -/

theorem bindParams_restores (f : FunctionInfo) (slot : Nat) (names : List String) :
    Restores k c (bindParams c f slot names) (bindParams (c.knowing D) f slot names)
      fun _ _ => True := by
  induction names generalizing slot with
  | nil => exact restores_pure trivial
  | cons name rest ih =>
    refine fun W => tidies_get fun d e hd => ?_
    rw [← hd.alike.2]
    refine tidies_unless nofun (fun _ _ => nofun) ?_
    refine tidies_set ⟨⟨hd.alike.1, rfl⟩, hd.held, fun hk => ?_⟩ (ih (slot + 1) W)
    obtain ⟨known, vars⟩ := hd.tidy hk
    refine ⟨known, fun n v hv => ?_⟩
    rw [List.lookup_cons] at hv
    split at hv
    · cases hv
      exact .inl rfl
    · exact vars n v hv

/-- A function of the program fails only because of the program, and in the same way among all
declarations with the same heads. -/
theorem function_restores (hD : c.decls.heads = D.heads) {f : FunctionInfo}
    (h : Stmt.allWrite (c.Needs k) f.decl.body) (names : List String) :
    Restores k c (Gen.function c f names) (Gen.function (c.knowing D) f names)
      fun _ _ => True :=
  restores_bind (bindParams_restores f 0 names) fun _ _ _ =>
    restores_bind (stmts_restores hD f.decl.body h {}) fun _ _ _ =>
      fun _ => tidies_get fun _ _ _ => tidies_pure ⟨rfl, trivial⟩

theorem defaults_restores (hD : c.decls.heads = D.heads)
    (h : ∀ e : Expr, e.Writes (c.Needs k)) (j j' : ClassInfo) (object : Nat)
    (props : List PropertyDecl) :
    Restores k c (defaults c j object props) (defaults (c.knowing D) j' object props) Nested := by
  induction props with
  | nil => exact restores_pure (by simp)
  | cons p rest ih =>
    have default_restores :
        Restores k c (defaultOf c p.default) (defaultOf (c.knowing D) p.default) Nested := by
      cases p.default with
      | none => exact restores_pure (by simp)
      | some e => exact value_restores (emit_restores hD e (h e)) _
    exact restores_bind default_restores fun _ _ ha => restores_bind ih fun _ _ hb =>
      restores_pure (by simp [ha, hb])

theorem nests_loads (slots : List Nat) : Nests (slots.flatMap Code.load) [] := by
  induction slots with
  | nil => simp
  | cons i rest ih => simpa using ih

/-- The constructor of a class. -/
theorem creator_restores (hD : c.decls.heads = D.heads)
    (h : ∀ e : Expr, e.Writes (c.Needs k)) {j j' : ClassInfo} (hj : j.defaults = j'.defaults) :
    Restores k c (creator c j) (creator (c.knowing D) j') fun b _ => Nests b.code [] := by
  refine fun W => tidies_get fun d e hd => ?_
  rw [← hd.alike.1, ← hj]
  refine tidies_set (V := W) ⟨⟨rfl, hd.alike.2⟩, hd.held, fun hk => ?_⟩ ?_
  · obtain ⟨known, vars⟩ := hd.tidy hk
    exact ⟨known, vars⟩
  · refine tidies_after (defaults_restores hD h j j' _ _) fun code _ hc =>
      tidies_get fun _ _ _ => tidies_pure ⟨rfl, ?_⟩
    dsimp only
    cases j.initializer? with
    | none => simp [show Nests code [] from hc]
    | some m => simp [show Nests code [] from hc, nests_append (nests_loads _)]

/-! ## Agreement and nesting -/

namespace Gen

variable {α β : Type}

/-- From drafts that are alike, two steps fail with the same error or end with drafts that are alike
again. -/
def Agree (x : Gen α) (y : Gen β) : Prop :=
  ∀ d e, d.Alike e →
    match step x d, step y e with
    | (.ok _, d'), (.ok _, e') => d'.Alike e'
    | (.error r, _), (.error s, _) => r = s ∧ r.level ≠ .warning
    | _, _ => False

theorem Restores.agree {x : Gen α} {y : Gen β} {P : α → β → Prop} (h : Restores false c x y P) :
    Agree x y := by
  intro d e hd
  have := h _ d e ⟨hd, .refl _, nofun⟩
  revert this
  rcases step x d with ⟨r | a, d'⟩ <;> rcases step y e with ⟨s | b, e'⟩
  · exact fun h => ⟨h.1, h.2.1⟩
  · exact id
  · exact id
  · rintro ⟨_, -, h⟩
    exact h.alike

/-- What a step gives is seen beside itself, whatever its draft. -/
theorem Restores.gives {x : Gen α} {P : α → α → Prop} {Q : α → Prop}
    (h : Restores false c x x P) (hQ : ∀ a b, P a b → Q a) : Gives x Q := by
  intro d a d' hr
  have := h _ d d (Draft.beside_self nofun)
  rw [show step x d = (.ok a, d') from hr] at this
  obtain ⟨_, ⟨-, hP⟩, -⟩ := this
  exact hQ a a hP

end Gen

theorem writes_unasked (e : Expr) : e.Writes (c.Needs false) :=
  ((Walk.expr_sees [] e .value).sees {} _ fun _ _ => trivial).1

theorem allWrite_unasked (body : List Stmt) : Stmt.allWrite (c.Needs false) body :=
  (Walk.stmts_sees [] body).sees {} _ fun _ _ => trivial

theorem function_agrees (hD : c.decls.heads = D.heads) (f : FunctionInfo) (names : List String) :
    Agree (Gen.function c f names) (Gen.function (c.knowing D) f names) :=
  (function_restores hD (allWrite_unasked f.decl.body) names).agree

theorem creator_agrees (hD : c.decls.heads = D.heads) {j j' : ClassInfo}
    (hj : j.defaults = j'.defaults) : Agree (creator c j) (creator (c.knowing D) j') :=
  (creator_restores hD writes_unasked hj).agree

/-- An expression beside itself. -/
theorem operand_restores (c : Context) (e : Expr) : (operand c e).Restores false c (operand c e) :=
  emit_restores (D := c.decls) rfl e (writes_unasked e)

theorem value_nests {o : Operand} (h : o.Restores false c o) (want : Rep) :
    Gives (value c o want) fun code => Nests code [] :=
  (value_restores (D := c.decls) h want).gives fun _ _ h => h

theorem stmts_nests (c : Context) (body : List Stmt) (s : Scope) :
    Gives (stmts c body s) fun code => Nests code [] :=
  (stmts_restores (D := c.decls) rfl body (allWrite_unasked body) s).gives fun _ _ h => h

theorem creator_nests (c : Context) (j : ClassInfo) : Gives (creator c j) fun b => Nests b.code [] :=
  (creator_restores (D := c.decls) rfl writes_unasked rfl).gives fun _ _ h => h

theorem helper_body_nests (decls : Declarations) (links : Links) (index : Nat) (h : Helper) :
    Nests (h.body decls links index).code [] := by
  cases h with
  | dispatcher method args =>
    have cases_nests (ms : List (ClassInfo × FunctionInfo)) :
        Nests (dispatchCases (args + 1) (args + 1) args ms) [] := by
      induction ms with
      | nil => simp [dispatchCases]
      | cons m rest ih =>
        obtain ⟨k, m⟩ := m
        rw [dispatchCases]
        split
        · simp [nests_append (nests_loads _), ih]
        · simpa using ih
    simp [Helper.body, cases_nests]
  | slotFinder prop =>
    have finds_nests (ks : List ClassInfo) :
        Nests (ks.flatMap fun k => Code.localIs 0 k.id ++
          Code.when (Code.const32 ((k.slot? prop).getD 0) ++ [.ret])) [] := by
      induction ks with
      | nil => simp
      | cons k rest ih => simpa using ih
    rw [Helper.body, nests_append (finds_nests _)]
    simp

end HeapScript.Compile
