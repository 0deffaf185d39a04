import HeapScript.Proofs.Compile.SideBySide

/-!
# Expressions side by side

The code of an expression closes what it opens, gives back its temporaries and leaves a value if one
is asked for. Among declarations with the same heads it is generated in the same way.
-/

namespace HeapScript.Compile

open Machine Library Gen

theorem Rep.ofType_ne_void (t : StaticType) : Rep.ofType t ≠ .void := by
  cases t <;> simp [Rep.ofType]

theorem Variable.rep_ne_void (v : Variable) : v.rep ≠ .void := Rep.ofType_ne_void _

namespace Gen

variable {k : Bool} {c : Context} {D : Declarations} {W : List Nat} {N : Prop}
  {o o' l l' r r' : Operand} {os os' : List Operand}

/-! ## Literals, variables and operators -/

theorem box_restores (r : Rep) : Restores k c (box r) (box r) Nested := by
  refine fun _ => tidies_temp fun _ => tidies_release (.refl _) (tidies_pure ⟨rfl, ?_⟩)
  cases r <;> simp [Rep.valType]

theorem convert_restores {got want : Rep} (h : got = .void → want = .void) :
    Restores k c (convert c got want) (convert (c.knowing D) got want) Nested := by
  unfold convert
  refine restores_ite (restores_pure (by simp)) ?_
  split
  all_goals first
    | exact restores_pure (by simp)
    | exact box_restores _
    | exact absurd (h rfl) (by assumption)

theorem asRep_restores {p q : Piece} {want : Rep} (h : p.Matches N q) (hN : want ≠ .void → N) :
    Restores k c (asRep c p want) (asRep (c.knowing D) q want) Nested := by
  obtain ⟨hrep, hvoid, hp⟩ := h
  have hw : p.rep = .void → want = .void := fun hv => Decidable.not_not.1 fun hw => hvoid (hN hw) hv
  unfold asRep
  rw [← hrep]
  exact restores_bind (convert_restores hw) fun _ _ hc => restores_pure (by simp [hp, hc])

theorem value_restores (h : o.Restores k c o') (want : Rep) :
    Restores k c (value c o want) (value (c.knowing D) o' want) Nested :=
  restores_bind (h.emit (.value want)) fun _ _ hp => asRep_restores hp id

theorem effect_restores (h : o.Restores k c o') :
    Restores k c (effect c o) (effect (c.knowing D) o') Nested :=
  restores_bind (h.emit .effect) fun _ _ hp => asRep_restores hp fun hne => absurd rfl hne

theorem effects_restores (h : List.Forall₂ (Operand.Restores k c) os os') :
    Restores k c (effects c os) (effects (c.knowing D) os') Nested := by
  induction h with
  | nil => exact restores_pure (by simp)
  | cons ho _ ih =>
    exact restores_bind (effect_restores ho) fun _ _ ha => restores_bind ih fun _ _ hb =>
      restores_pure (by simp [ha, hb])

theorem boxedValues_restores (h : List.Forall₂ (Operand.Restores k c) os os') :
    Restores k c (boxedValues c os) (boxedValues (c.knowing D) os') Nested := by
  induction h with
  | nil => exact restores_pure (by simp)
  | cons ho _ ih =>
    exact restores_bind (value_restores ho _) fun _ _ ha => restores_bind ih fun _ _ hb =>
      restores_pure (by simp [ha, hb])

theorem both_restores (hl : l.Restores k c l') (hr : r.Restores k c r') (want : Rep) :
    Restores k c (both c l r want) (both (c.knowing D) l' r' want) Nested :=
  restores_bind (value_restores hl _) fun _ _ ha => restores_bind (value_restores hr _)
    fun _ _ hb => restores_pure (by simp [ha, hb])

theorem literal_restores (v : Value) (best : Rep) :
    Restores k c (literal c v best) (literal (c.knowing D) v best)
      (Piece.Matches (best ≠ .void)) := by
  unfold literal
  split
  all_goals first
    | exact restores_pure (by simp)
    | exact restores_bind (restores_bytes _) fun _ _ hb => restores_pure (by simp [hb])

theorem readVar_restores (name : String) :
    Restores k c (readVar c name) (readVar (c.knowing D) name) (Piece.Matches N) := by
  refine restores_bind (restores_findVar name) ?_
  rintro v _ ⟨rfl, -⟩
  exact restores_ite (restores_pure (by simp [v.rep_ne_void])) (restores_pure (by simp))

/-- The types of two operands, which decide how their operator is generated. -/
theorem restores_types {α β : Type} {P : α → β → Prop} {f : StaticType → StaticType → Gen α}
    {g : StaticType → StaticType → Gen β} (hl : l.Restores k c l') (hr : r.Restores k c r')
    (hf : ∀ s t, Restores k c (f s t) (g s t) P) :
    Restores k c (typeFor c l.expr >>= fun s => typeFor c r.expr >>= f s)
      (typeFor (c.knowing D) l'.expr >>= fun s => typeFor (c.knowing D) r'.expr >>= g s) P := by
  rw [hl.expr, hr.expr]
  exact restores_typed _ fun s => restores_typed _ fun t => hf s t

/-- Two operands in one representation with code behind them. -/
theorem native_restores (hl : l.Restores k c l') (hr : r.Restores k c r') {want rep : Rep}
    {i i' : Code} (hrep : rep ≠ .void) (hi : Nests i []) :
    Restores k c (both c l r want >>= fun code => pure (⟨code ++ i, rep⟩ : Piece))
      (both (c.knowing D) l' r' want >>= fun code => pure ⟨code ++ i', rep⟩) (Piece.Matches N) :=
  restores_bind (both_restores hl hr _) fun _ _ ha => restores_pure (by simp [ha, hrep, hi])

theorem byRoutine_restores (hl : l.Restores k c l') (hr : r.Restores k c r') (q : Routine)
    {rep : Rep} (hrep : rep ≠ .void) :
    Restores k c (byRoutine c q rep l r) (byRoutine (c.knowing D) q rep l' r') (Piece.Matches N) :=
  native_restores hl hr hrep (by simp)

theorem numeric_restores (hl : l.Restores k c l') (hr : r.Restores k c r') (op : ArithOp) :
    Restores k c (numeric c op l r) (numeric (c.knowing D) op l' r') (Piece.Matches N) :=
  restores_types hl hr fun _ _ => restores_ite (native_restores hl hr (by simp) (by simp)) <|
    restores_ite (native_restores hl hr (by simp) (by simp)) (byRoutine_restores hl hr _ (by simp))

/-- A division behind a test of the divisor. -/
theorem guarded_restores (hl : l.Restores k c l') (hr : r.Restores k c r') {want rep : Rep}
    {test test' : Code} {divide divide' : Instr} (hrep : rep ≠ .void) (ht : Nests test [])
    (hd : divide.isPlain = true) :
    Restores k c
      (both c l r want >>= fun a => guarded want test divide >>= fun b => pure (⟨a ++ b, rep⟩ : Piece))
      (both (c.knowing D) l' r' want >>= fun a => guarded want test' divide' >>= fun b =>
        pure ⟨a ++ b, rep⟩) (Piece.Matches N) := by
  have guard : Restores k c (guarded want test divide) (guarded want test' divide') Nested :=
    fun _ => tidies_temp fun _ => tidies_release (.refl _)
      (tidies_pure ⟨rfl, by simp [ht, nests_cons hd]⟩)
  exact restores_bind (both_restores hl hr _) fun _ _ ha => restores_bind guard fun _ _ hb =>
    restores_pure (by simp [ha, hb, hrep])

theorem quotient_restores (hl : l.Restores k c l') (hr : r.Restores k c r') :
    Restores k c (quotient c l r) (quotient (c.knowing D) l' r') (Piece.Matches N) :=
  restores_types hl hr fun _ _ => restores_ite (guarded_restores hl hr (by simp) (by simp) rfl)
    (byRoutine_restores hl hr _ (by simp))

theorem remainder_restores (hl : l.Restores k c l') (hr : r.Restores k c r') :
    Restores k c (remainder c l r) (remainder (c.knowing D) l' r') (Piece.Matches N) :=
  restores_types hl hr fun _ _ => restores_ite (guarded_restores hl hr (by simp) (by simp) rfl)
    (byRoutine_restores hl hr _ (by simp))

theorem comparison_restores (hl : l.Restores k c l') (hr : r.Restores k c r') (op : OrderOp) :
    Restores k c (comparison c op l r) (comparison (c.knowing D) op l' r') (Piece.Matches N) :=
  restores_types hl hr fun _ _ => restores_ite (native_restores hl hr (by simp) (by simp))
    (byRoutine_restores hl hr _ (by simp))

theorem nests_negatedIf (negated : Bool) : Nests (negatedIf negated) [] := by
  cases negated <;> simp [negatedIf]

theorem looseEquality_restores (hl : l.Restores k c l') (hr : r.Restores k c r') (negated : Bool) :
    Restores k c (looseEquality c negated l r) (looseEquality (c.knowing D) negated l' r')
      (Piece.Matches N) :=
  restores_types hl hr fun _ _ => restores_ite (native_restores hl hr (by simp) (by simp)) <|
    restores_ite (native_restores hl hr (by simp) (by simp)) <|
    restores_bind (both_restores hl hr _) fun _ _ ha =>
      restores_pure (by simp [ha, nests_negatedIf])

theorem strictEquality_restores (hl : l.Restores k c l') (hr : r.Restores k c r') (negated : Bool) :
    Restores k c (strictEquality c negated l r) (strictEquality (c.knowing D) negated l' r')
      (Piece.Matches N) := by
  have compared (want : Rep) {i i' : Code} (hi : Nests i []) :
      Restores k c (both c l r want >>= fun code => pure (code ++ i))
        (both (c.knowing D) l' r' want >>= fun code => pure (code ++ i')) Nested :=
    restores_bind (both_restores hl hr _) fun _ _ ha => restores_pure (by simp [ha, hi])
  have identical : Restores k c (identity c l r) (identity (c.knowing D) l' r') Nested :=
    restores_types hl hr fun _ _ => restores_ite (compared _ (by simp)) <|
      restores_ite (compared _ (by simp)) <|
      restores_ite (compared _ (by simp)) (compared _ (by simp))
  exact restores_bind identical fun _ _ ha => restores_pure (by simp [ha, nests_negatedIf])

theorem combined_restores (hl : l.Restores k c l') (hr : r.Restores k c r') (op : BinaryOp) :
    Restores k c (combined c op l r) (combined (c.knowing D) op l' r') (Piece.Matches N) := by
  unfold combined
  split
  · exact quotient_restores hl hr
  · exact remainder_restores hl hr
  · exact numeric_restores hl hr _
  · exact byRoutine_restores hl hr _ (by simp)
  · exact comparison_restores hl hr _
  · exact looseEquality_restores hl hr _
  · exact looseEquality_restores hl hr _
  · exact strictEquality_restores hl hr _
  · exact strictEquality_restores hl hr _
  all_goals
    exact restores_bind (value_restores hl _) fun _ _ ha => restores_bind (value_restores hr _)
      fun _ _ hb => restores_pure (by simp [ha, hb])

theorem simplified_restores (hl : l.Restores k c l') (hr : r.Restores k c r')
    (how : Simplification) (best : Rep) :
    Restores k c (simplified c how l r best) (simplified (c.knowing D) how l' r' best)
      (Piece.Matches (best ≠ .void)) := by
  cases how with
  | left => exact hl.emit _
  | right => exact hr.emit _
  | zero => exact literal_restores _ best
  | doubleLeft => exact numeric_restores hl hl _
  | doubleRight => exact numeric_restores hr hr _

theorem binary_restores (hl : l.Restores k c l') (hr : r.Restores k c r') (loc : Location)
    (op : BinaryOp) (best : Rep) :
    Restores k c (binary c loc op l r best) (binary (c.knowing D) loc op l' r' best)
      (Piece.Matches (best ≠ .void)) := by
  unfold binary
  rw [hl.expr, hr.expr]
  refine restores_ite ?_ (combined_restores hl hr op)
  split
  · exact restores_bind (restores_note _ _) fun _ _ _ => literal_restores _ best
  · refine fun W => tidies_get fun d e hd => ?_
    rw [typeOf_alike (D := D) hd.alike]
    split
    · exact tidies_after (restores_note _ _) fun _ _ _ => simplified_restores hl hr _ best W
    · exact combined_restores hl hr op W

theorem unary_restores (h : o.Restores k c o') (loc : Location) (op : UnaryOp) (best : Rep) :
    Restores k c (unary c loc op o best) (unary (c.knowing D) loc op o' best)
      (Piece.Matches (best ≠ .void)) := by
  rw [unary, unary, h.expr, show (c.knowing D).optimize = c.optimize from rfl]
  split
  · exact literal_restores _ best
  · unfold applied
    rw [h.expr]
    refine restores_typed _ fun t => ?_
    split
    all_goals exact restores_bind (value_restores h _) fun _ _ ha => restores_pure (by
      simp [ha, Rep.ofType_ne_void])

theorem ternary_restores (h : o.Restores k c o') (hl : l.Restores k c l') (hr : r.Restores k c r')
    (best : Rep) :
    Restores k c (ternary c o l r best) (ternary (c.knowing D) o' l' r' best)
      (Piece.Matches (best ≠ .void)) := by
  refine restores_bind (value_restores h _) fun _ _ ht => ?_
  by_cases hb : best = .void
  · rw [if_pos hb, if_pos hb]
    exact restores_bind (effect_restores hl) fun _ _ ha => restores_bind (effect_restores hr)
      fun _ _ hb' => restores_pure (by simp [ht, ha, hb', hb])
  · rw [if_neg hb, if_neg hb]
    exact restores_bind (value_restores hl _) fun _ _ ha => restores_bind (value_restores hr _)
      fun _ _ hb' => restores_pure (by simp [ht, ha, hb'])

/-! ## Places -/

/-- A place, or a part of one, is found by code that leaves it in temporaries. -/
def Located {α : Type} (temps : α → List Nat) (W : List Nat) (p q : α × Code) (V : List Nat) : Prop :=
  V = temps p.1 ++ W ∧ p.1 = q.1 ∧ Nests p.2 []

/-- Two classes, if there are any, have the same head. -/
def SameClass (j j' : Option ClassInfo) : Prop := j.map ClassInfo.head = j'.map ClassInfo.head

/-- What can be told from the head is the same for classes with the same head. -/
theorem SameClass.bind_eq {β : Type} {j j' : Option ClassInfo} (h : SameClass j j')
    {g : ClassInfo → Option β} (hg : ∀ i, g i.head = g i) : j.bind g = j'.bind g := by
  have hmap (i : Option ClassInfo) : (i.map ClassInfo.head).bind g = i.bind g := by
    cases i with
    | none => rfl
    | some i => exact hg i
  rw [← hmap j, ← hmap j', h]

theorem classOf_restores (hD : c.decls.heads = D.heads) (e : Expr) :
    Restores k c (classOf c e) (classOf (c.knowing D) e) SameClass := by
  unfold classOf
  split
  · refine restores_bind (restores_findVar _) ?_
    rintro v _ ⟨rfl, -⟩
    refine restores_pure ?_
    cases v.className with
    | none => rfl
    | some name => exact Declarations.class?_head hD name
  · exact restores_pure (Declarations.class?_head hD _)
  · exact restores_pure rfl

/-- The object of a property stays in a temporary. -/
theorem propRef_tidies (hD : c.decls.heads = D.heads) (h : o.Restores k c o') (loc : Location)
    (name : String) :
    Tidies k c W (propRef c loc o name) (propRef (c.knowing D) loc o' name)
      (Located (fun ref => [ref.object]) W) := by
  unfold propRef
  rw [h.expr, Context.knowing_decls, Declarations.withProperty_isEmpty_eq hD,
    Declarations.propertyNames_eq hD]
  refine tidies_unless nofun (fun _ _ => nofun) ?_
  refine tidies_after (classOf_restores hD _) fun j j' hj => tidies_temp fun t =>
    tidies_after (value_restores h _) fun _ _ ha => tidies_pure ⟨rfl, ?_, by simp [ha]⟩
  rw [hj.bind_eq fun _ => rfl]

theorem propSlot_restores (ref : PropRef) :
    Restores k c (propSlot c ref) (propSlot (c.knowing D) ref) Nested := by
  unfold propSlot
  split
  · exact restores_pure (by simp)
  · exact restores_bind (restores_helper _) fun _ _ ha => restores_pure (by simp [ha])

theorem readProp_restores (ref : PropRef) :
    Restores k c (readProp c ref) (readProp (c.knowing D) ref) Nested :=
  restores_bind (propSlot_restores ref) fun _ _ ha => restores_pure (by simp [ha])

theorem writeProp_restores (ref : PropRef) (val : Nat) :
    Restores k c (writeProp c ref val) (writeProp (c.knowing D) ref val) Nested :=
  restores_bind (propSlot_restores ref) fun _ _ ha => restores_pure (by simp [ha])

theorem checkSubscripts_restores (target : Expr) :
    Restores k c (checkSubscripts target) (checkSubscripts target) fun _ _ => True :=
  restores_ite (restores_fail nofun nofun) (restores_pure trivial)

/-- A key stays in a temporary. -/
theorem keyOf_tidies (h : o.Restores k c o') :
    Tidies k c W (keyOf c o) (keyOf (c.knowing D) o') (Located Key.temps W) := by
  have kept {rep : Rep} {key : Nat → Key} (hk : ∀ t, (key t).temps = [t]) : Tidies k c W
      (temp rep >>= fun t => value c o rep >>= fun a => pure (key t, a ++ Code.store t))
      (temp rep >>= fun t => value (c.knowing D) o' rep >>= fun a =>
        pure (key t, a ++ Code.store t)) (Located Key.temps W) :=
    tidies_temp fun t => tidies_after (value_restores h _) fun _ _ ha =>
      tidies_pure ⟨by rw [hk]; rfl, rfl, by simp [ha]⟩
  unfold keyOf
  rw [h.expr]
  exact tidies_after (restores_typeFor _) fun s t hst => by
    rw [hst]
    exact tidies_ite (kept fun _ => rfl) (kept fun _ => rfl)

theorem nests_getKey (c : Context) (k : Key) : Nests (getKey c k) [] := by
  cases k <;> simp [getKey]

theorem nests_setKey (c : Context) (val : Nat) (k : Key) : Nests (setKey c val k) [] := by
  cases k <;> simp [setKey]

theorem nests_getKeys (c : Context) (ks : List Key) : Nests (ks.flatMap (getKey c)) [] := by
  induction ks with
  | nil => simp
  | cons k ks ih => simp [nests_getKey, ih]

theorem nests_descend (c : Context) (levels : List (Key × Nat)) : Nests (descend c levels) [] := by
  fun_induction descend c levels with
  | case1 => simp
  | case2 => simp
  | case3 k t rest h ih => simp [nests_getKey, ih]

theorem nests_ascend (c : Context) (val result : Nat) (levels : List (Key × Nat)) :
    Nests (ascend c val result levels) [] := by
  fun_induction ascend c val result levels with
  | case1 => simp
  | case2 => simp [nests_setKey]
  | case3 k t rest h ih => simp [nests_setKey, ih]

theorem readRoot_restores (root : Root) :
    Restores k c (readRoot c root) (readRoot (c.knowing D) root) Nested := by
  cases root with
  | var name =>
    exact restores_bind (readVar_restores (N := True) name) fun _ _ hp => restores_pure hp.2.2
  | prop ref => exact readProp_restores ref

theorem readPlace_restores (loc : Location) (p : Place) :
    Restores k c (readPlace c loc p) (readPlace (c.knowing D) loc p) Nested := by
  unfold readPlace
  exact restores_unless nofun nofun (restores_bind (readRoot_restores p.root) fun _ _ ha =>
    restores_pure (by simp [ha, nests_getKeys]))

theorem rebind_restores (result : Nat) (root : Root) :
    Restores k c (rebind c result root) (rebind (c.knowing D) result root) Nested := by
  cases root with
  | var name => exact restores_bind (restores_findVar name) fun _ _ _ => restores_pure (by simp)
  | prop ref =>
    exact restores_bind (writeProp_restores ref result) fun _ _ ha => restores_pure (by simp [ha])

theorem writePlace_restores (p : Place) (val : Nat) :
    Restores k c (writePlace c p val) (writePlace (c.knowing D) p val) Nested := by
  unfold writePlace
  split
  · exact writeProp_restores _ val
  · intro W
    refine tidies_bind (tempsFor_tidies _) ?_
    rintro arrays _ _ ⟨rfl, rfl⟩
    refine tidies_temp fun result => ?_
    refine tidies_after (readRoot_restores _) fun _ _ ha => ?_
    refine tidies_after (rebind_restores result _) fun _ _ hb => ?_
    -- The temporary for results was taken last and is given back last.
    have hp : (result :: (arrays ++ W)).Perm (arrays ++ (result :: W)) := List.perm_middle.symm
    exact tidies_releaseAll hp (tidies_release (.refl _)
      (tidies_pure ⟨rfl, by simp [ha, hb, nests_descend, nests_ascend]⟩))

/-- The value of an assignment, if it is used. -/
theorem kept_matches (keeps : Bool) (slot : Nat) {a a' : Code} (ha : Nests a []) :
    Piece.Matches (keeps = true) ⟨a ++ (kept keeps slot).code, (kept keeps slot).rep⟩
      ⟨a' ++ (kept keeps slot).code, (kept keeps slot).rep⟩ := by
  cases keeps <;> simp [kept, ha]

theorem assignVar_restores (h : o.Restores k c o') (loc target : Location) (op : Option CompoundOp)
    (name : String) (keeps : Bool) :
    Restores k c (assignVar c loc op target name o keeps)
      (assignVar (c.knowing D) loc op target name o' keeps) (Piece.Matches (keeps = true)) := by
  refine restores_bind (restores_findVar name) ?_
  rintro v _ ⟨rfl, -⟩
  refine restores_bind (value_restores ?_ _) fun _ _ ha =>
    restores_pure (by cases keeps <;> simp [ha, v.rep_ne_void])
  cases op with
  | none => exact h
  | some op =>
    refine ⟨congrArg (Expr.binary loc op.binary (.var target name)) h.expr, fun d => ?_⟩
    exact binary_restores ⟨rfl, fun _ => readVar_restores name⟩ h loc op.binary d.best

theorem storePlace_tidies (h : o.Restores k c o') (loc : Location) (op : Option CompoundOp)
    (p : Place) (keeps : Bool) :
    Tidies k c (p.temps ++ W) (storePlace c loc op p o keeps)
      (storePlace (c.knowing D) loc op p o' keeps) fun a b V =>
        V = W ∧ Piece.Matches (keeps = true) a b := by
  cases op with
  | none =>
    refine tidies_temp fun val => tidies_after (value_restores h _) fun _ _ ha => ?_
    refine tidies_after (writePlace_restores p val) fun _ _ hb => ?_
    exact tidies_release (.refl _) (tidies_releaseAll (.refl _)
      (tidies_pure ⟨rfl, kept_matches keeps val (by simp [ha, hb])⟩))
  | some op =>
    refine tidies_temp fun old => tidies_after (readPlace_restores loc p) fun _ _ hr => ?_
    refine tidies_temp fun val => tidies_after (value_restores h _) fun _ _ ha => ?_
    refine tidies_after (writePlace_restores p val) fun _ _ hb => ?_
    exact tidies_release (.refl _) (tidies_release (.refl _) (tidies_releaseAll (.refl _)
      (tidies_pure ⟨rfl, kept_matches keeps val (by simp [hr, ha, hb])⟩)))

theorem nests_boxedOne : Nests boxedOne [] := by
  simp [boxedOne]

theorem stepVar_restores (loc : Location) (name : String) (increment before keeps : Bool) :
    Restores k c (stepVar c loc name increment before keeps)
      (stepVar (c.knowing D) loc name increment before keeps) (Piece.Matches (keeps = true)) := by
  have number (v : Variable) {one : Code} {add : Instr} (ho : Nests one [])
      (ha : add.isPlain = true) : Piece.Matches (keeps = true) (stepNumber v one add before keeps)
        (stepNumber v one add before keeps) := by
    cases keeps <;> cases before <;> simp [stepNumber, v.rep_ne_void, ho, nests_cons ha]
  refine fun W => tidies_get fun d e hd => ?_
  rw [← hd.alike.2]
  cases d.vars.lookup name with
  | none => exact tidies_fail nofun fun _ => nofun
  | some v =>
    dsimp only
    cases v.storage with
    | int => exact tidies_pure ⟨rfl, number v (by simp) (by cases increment <;> rfl)⟩
    | float => exact tidies_pure ⟨rfl, number v (by simp) (by cases increment <;> rfl)⟩
    | boxed =>
      refine tidies_temp fun old => tidies_after (readVar_restores (N := True) name) fun _ _ hr => ?_
      refine tidies_release (.refl _) (tidies_pure ⟨rfl, ?_⟩)
      cases keeps <;> cases before <;> simp [hr.2.2, nests_boxedOne]

theorem stepPlace_tidies (loc : Location) (p : Place) (increment before keeps : Bool) :
    Tidies k c (p.temps ++ W) (stepPlace c loc p increment before keeps)
      (stepPlace (c.knowing D) loc p increment before keeps) fun a b V =>
        V = W ∧ Piece.Matches (keeps = true) a b := by
  refine tidies_temp fun old => tidies_temp fun val => ?_
  refine tidies_after (readPlace_restores loc p) fun _ _ ha => ?_
  refine tidies_after (writePlace_restores p val) fun _ _ hb => ?_
  exact tidies_release (List.Perm.swap _ _ _) (tidies_release (.refl _) (tidies_releaseAll (.refl _)
    (tidies_pure ⟨rfl, kept_matches keeps _ (by simp [ha, hb, nests_boxedOne])⟩)))

/-! ## Calls -/

theorem builtin_restores (h : o.Restores k c o') {name : String} {b : Builtin}
    (hb : builtins.lookup name = some b) :
    Restores k c (builtin c b o) (builtin (c.knowing D) b o') (Piece.Matches N) := by
  cases b with
  | hasTag tag =>
    refine restores_bind (h.emit (.value .boxed)) fun p q hpq => ?_
    rw [← hpq.1]
    cases p.rep.tag? with
    | some t => exact restores_pure (by simp [hpq.2.2])
    | none =>
      exact restores_bind (asRep_restores hpq id) fun _ _ ha => restores_pure (by simp [ha])
  | cast rep =>
    refine restores_bind (value_restores h _) fun _ _ ha => restores_pure ⟨rfl, fun _ => ?_, ha⟩
    rintro rfl
    obtain ⟨l₁, l₂, hl, -⟩ := List.lookup_eq_some_iff.1 hb
    have hmem : (name, Builtin.cast .void) ∈ builtins := by simp [hl]
    simp [builtins] at hmem
  | count | strlen | strval =>
    exact restores_bind (value_restores h _) fun _ _ ha => restores_pure (by simp [ha])

theorem call_restores (hD : c.decls.heads = D.heads)
    (h : List.Forall₂ (Operand.Restores k c) os os') (loc : Location) (name : String) :
    Restores k c (call c loc name os) (call (c.knowing D) loc name os') (Piece.Matches N) := by
  have hnames := Declarations.functionNames_eq hD
  have hfind := Declarations.function?_head hD name
  have hlen := h.length_eq
  unfold call
  cases hb : builtins.lookup name with
  | some b =>
    cases h with
    | nil => exact restores_fail nofun nofun
    | cons ho hos =>
      cases hos with
      | nil => exact builtin_restores ho hb
      | cons _ hos =>
        dsimp only
        rw [hlen]
        exact restores_fail nofun nofun
  | none =>
    rw [Context.knowing_decls, ← hlen, ← hnames]
    cases hf : c.decls.function? name <;> cases hf' : D.function? name <;>
      simp only [hf, hf', Option.map_some, Option.map_none, reduceCtorEq, Option.some.injEq] at hfind
    · exact restores_fail nofun nofun
    · rename_i f f'
      simp only [FunctionInfo.arity_eq hfind]
      exact restores_ite (restores_bind (boxedValues_restores h) fun _ _ ha =>
        restores_pure (by simp [ha])) (restores_fail nofun nofun)

theorem create_restores (hD : c.decls.heads = D.heads)
    (h : List.Forall₂ (Operand.Restores k c) os os') (loc : Location) (name : String) :
    Restores k c (create c loc name os) (create (c.knowing D) loc name os') (Piece.Matches N) := by
  have hfind := Declarations.class?_head hD name
  unfold create
  rw [Context.knowing_decls, ← h.length_eq, ← Declarations.classNames_eq hD]
  cases hk : c.decls.class? name <;> cases hk' : D.class? name <;>
    simp only [hk, hk', Option.map_some, Option.map_none, reduceCtorEq, Option.some.injEq] at hfind
  · exact restores_fail nofun nofun
  · rename_i j j'
    have harity : j.arity = j'.arity := by
      rw [← ClassInfo.arity_head j, ← ClassInfo.arity_head j', hfind]
    simp only [harity]
    exact restores_ite (restores_bind (boxedValues_restores h) fun _ _ ha =>
      restores_pure (by simp [ha])) (restores_fail nofun nofun)

theorem staticCall_restores (h : o.Restores k c o')
    (hos : List.Forall₂ (Operand.Restores k c) os os') (loc : Location) {m m' : FunctionInfo}
    (hm : m.head = m'.head) :
    Restores k c (staticCall c loc m o os) (staticCall (c.knowing D) loc m' o' os')
      (Piece.Matches N) := by
  unfold staticCall
  simp only [FunctionInfo.arity_eq hm, FunctionInfo.name_eq hm, hos.length_eq]
  exact restores_unless nofun nofun (restores_bind (boxedValues_restores (.cons h hos))
    fun _ _ ha => restores_pure (by simp [ha]))

theorem dynamicCall_restores (hD : c.decls.heads = D.heads) (h : o.Restores k c o')
    (hos : List.Forall₂ (Operand.Restores k c) os os') (loc : Location) (name : String) :
    Restores k c (dynamicCall c loc o name os) (dynamicCall (c.knowing D) loc o' name os')
      (Piece.Matches N) := by
  have hfound := Declarations.withMethod_head hD name
  have hany (ms : List (ClassInfo × FunctionInfo)) :
      (ms.any fun found => found.2.arity == os'.length) =
        ((ms.map (Prod.map ClassInfo.head FunctionInfo.head)).any
          fun found => found.2.arity == os'.length) := by
    rw [List.any_map]
    rfl
  unfold dynamicCall
  rw [Context.knowing_decls, Declarations.methodNames_eq hD]
  cases hs : c.decls.withMethod name with
  | nil =>
    rw [hs] at hfound
    rw [List.map_eq_nil_iff.mp hfound.symm]
    exact restores_fail nofun nofun
  | cons f rest =>
    cases hs' : D.withMethod name with
    | nil => simp [hs, hs'] at hfound
    | cons f' rest' =>
      rw [hs, hs'] at hfound
      obtain ⟨j, m⟩ := f
      obtain ⟨j', m'⟩ := f'
      have hm : m.head = m'.head := by
        simp only [List.map_cons, List.cons.injEq, Prod.map_apply, Prod.mk.injEq] at hfound
        exact hfound.1.2
      simp only [hos.length_eq]
      rw [hany ((j, m) :: rest), hany ((j', m') :: rest'), hfound, FunctionInfo.arity_eq hm,
        FunctionInfo.name_eq hm]
      exact restores_ite (restores_bind (boxedValues_restores (.cons h hos)) fun _ _ ha =>
        restores_bind (restores_helper _) fun _ _ hb => restores_pure (by simp [ha, hb]))
        (restores_fail nofun nofun)

theorem methodCall_restores (hD : c.decls.heads = D.heads) (h : o.Restores k c o')
    (hos : List.Forall₂ (Operand.Restores k c) os os') (loc : Location) (name : String) :
    Restores k c (methodCall c loc o name os) (methodCall (c.knowing D) loc o' name os')
      (Piece.Matches N) := by
  unfold methodCall
  rw [h.expr]
  refine restores_bind (classOf_restores hD _) fun j j' hj => ?_
  have hfind : (j.bind fun i => i.method? name).map FunctionInfo.head =
      (j'.bind fun i => i.method? name).map FunctionInfo.head := by
    rw [Option.map_bind, Option.map_bind]
    refine hj.bind_eq fun i => ?_
    simp only [Function.comp_apply, ClassInfo.method?_head, Option.map_map]
    rfl
  cases hm : j.bind fun i => i.method? name <;> cases hm' : j'.bind fun i => i.method? name <;>
    simp only [hm, hm', Option.map_some, Option.map_none, reduceCtorEq, Option.some.injEq] at hfind
  · exact dynamicCall_restores hD h hos loc name
  · exact staticCall_restores h hos loc hfind

theorem property_restores (hD : c.decls.heads = D.heads) (h : o.Restores k c o') (loc : Location)
    (name : String) :
    Restores k c (property c loc o name) (property (c.knowing D) loc o' name)
      (Piece.Matches N) := by
  refine fun W => tidies_bind (propRef_tidies hD h loc name) ?_
  rintro ⟨ref, code⟩ ⟨_, code'⟩ _ ⟨rfl, rfl, hp⟩
  exact tidies_after (readProp_restores ref) fun _ _ ha => tidies_release (.refl _)
    (tidies_pure ⟨rfl, by simp [show Nests code [] from hp, ha]⟩)

/-- Two entries of array literals, side by side. -/
def EntriesRestore (k : Bool) (c : Context) (e e' : Option Operand × Operand) : Prop :=
  Option.Rel (Operand.Restores k c) e.1 e'.1 ∧ e.2.Restores k c e'.2

theorem items_restores {es es' : List (Option Operand × Operand)}
    (h : List.Forall₂ (EntriesRestore k c) es es') (array : Nat) :
    Restores k c (items c array es) (items (c.knowing D) array es') Nested := by
  have item_restores {key key' : Option Operand} {o o' : Operand}
      (hk : Option.Rel (Operand.Restores k c) key key') (h : o.Restores k c o') :
      Restores k c (item c key o) (item (c.knowing D) key' o') Nested := by
    cases hk with
    | none => exact restores_bind (value_restores h _) fun _ _ ha => restores_pure (by simp [ha])
    | some hk =>
      simp only [item, hk.expr]
      refine restores_typed _ fun _ => restores_ite ?_ ?_
      all_goals exact restores_bind (value_restores hk _) fun _ _ ha =>
        restores_bind (value_restores h _) fun _ _ hb => restores_pure (by simp [ha, hb])
  induction h with
  | nil => exact restores_pure (by simp)
  | cons he _ ih =>
    exact restores_bind (item_restores he.1 he.2) fun _ _ ha => restores_bind ih fun _ _ hb =>
      restores_pure (by simp [ha, hb])

theorem array_restores {es es' : List (Option Operand × Operand)}
    (h : List.Forall₂ (EntriesRestore k c) es es') :
    Restores k c (array c es) (array (c.knowing D) es') (Piece.Matches N) :=
  fun _ => tidies_temp fun t => tidies_after (items_restores h t) fun _ _ ha =>
    tidies_release (.refl _) (tidies_pure ⟨rfl, by simp [ha]⟩)

theorem element_restores (hl : l.Restores k c l') (hr : r.Restores k c r') :
    Restores k c (element c l r) (element (c.knowing D) l' r') (Piece.Matches N) := by
  unfold element
  rw [hr.expr]
  refine restores_bind (value_restores hl _) fun _ _ ha => restores_typed _ fun _ =>
    restores_ite ?_ ?_
  all_goals exact restores_bind (value_restores hr _) fun _ _ hb => restores_pure (by simp [ha, hb])

end Gen

/-! ## Expressions -/

/-- A variable is boxed in what is settled about the function. -/
def Context.Boxes (c : Context) (name : String) : Prop := (c.facts.lookup name).storage = .boxed

/-- What is asked of the variables that code writes elements of: nothing, unless drafts are tidy. -/
def Context.Needs (c : Context) : Bool → String → Prop
  | true => c.Boxes
  | false => fun _ => True

theorem Context.Needs.boxed {k : Bool} {c : Context} {name : String} {v : Variable}
    (h : c.Needs k name)
    (hv : k = true → v.storage = .boxed ∨ v.storage = (c.facts.lookup name).storage)
    (hk : k = true) : v.storage = .boxed := by
  subst hk
  rcases hv rfl with hv | hv
  · exact hv
  · exact hv.trans h

theorem Place.temps_snoc (p : Place) (k : Key) :
    ({ p with keys := p.keys ++ [k] } : Place).temps = p.temps ++ k.temps := by
  simp [Place.temps]

/-- Whether the value of an assignment is used. -/
theorem keeps_of_best {d : Demand} (h : d.best ≠ .void) : (d != .effect) = true := by
  cases d with
  | value best => rfl
  | effect => exact absurd rfl h

/-- The value of an assignment is there if it is asked for. -/
theorem Piece.Matches.kept {d : Demand} {p q : Piece} {a a' : Code}
    (h : Piece.Matches ((d != .effect) = true) p q) (ha : Nests a []) :
    Piece.Matches (d.best ≠ .void) ⟨a ++ p.code, p.rep⟩ ⟨a' ++ q.code, q.rep⟩ :=
  ⟨h.1, fun hb => h.2.1 (keeps_of_best hb), by simp [ha, h.2.2]⟩

variable {k : Bool} {c : Context} {D : Declarations}

mutual

theorem emit_restores (hD : c.decls.heads = D.heads) : (e : Expr) → e.Writes (c.Needs k) →
    (operand c e).Restores k c (operand (c.knowing D) e)
  | .lit _ v, _ => ⟨rfl, fun d => by
      simp only [operand, emit]
      exact literal_restores v d.best⟩
  | .var _ name, _ => ⟨rfl, fun _ => by
      simp only [operand, emit]
      exact readVar_restores name⟩
  | .binary loc op l r, h => ⟨rfl, fun d => by
      rw [Expr.Writes] at h
      simp only [operand, emit]
      exact binary_restores (emit_restores hD l h.1) (emit_restores hD r h.2) loc op d.best⟩
  | .unary loc op e, h => ⟨rfl, fun d => by
      rw [Expr.Writes] at h
      simp only [operand, emit]
      exact unary_restores (emit_restores hD e h) loc op d.best⟩
  | .assign loc op (.var _ name) right, h => ⟨rfl, fun d => by
      rw [Expr.Writes] at h
      simp only [operand, emit]
      exact restores_mono (assignVar_restores (emit_restores hD right h) loc _ op name _)
        fun _ _ hp => ⟨hp.1, fun hb => hp.2.1 (keeps_of_best hb), hp.2.2⟩⟩
  | .assign _ op (.index tloc base key) right, h => ⟨rfl, fun _ W => by
      rw [Expr.Writes] at h
      · simp only [operand, emit]
        refine tidies_after (checkSubscripts_restores _) fun _ _ _ =>
          tidies_bind (place_tidies hD _ (.index tloc base key) h.2) ?_
        rintro ⟨p, a⟩ ⟨_, a'⟩ _ ⟨rfl, rfl, ha⟩
        refine tidies_bind (storePlace_tidies (emit_restores hD right h.1) _ op p _) ?_
        rintro _ _ _ ⟨rfl, hq⟩
        exact tidies_pure ⟨rfl, hq.kept ha⟩
      · simp⟩
  | .assign _ op (.prop tloc object name) right, h => ⟨rfl, fun _ W => by
      rw [Expr.Writes] at h
      · simp only [operand, emit]
        refine tidies_after (checkSubscripts_restores _) fun _ _ _ =>
          tidies_bind (place_tidies hD _ (.prop tloc object name) h.2) ?_
        rintro ⟨p, a⟩ ⟨_, a'⟩ _ ⟨rfl, rfl, ha⟩
        refine tidies_bind (storePlace_tidies (emit_restores hD right h.1) _ op p _) ?_
        rintro _ _ _ ⟨rfl, hq⟩
        exact tidies_pure ⟨rfl, hq.kept ha⟩
      · simp⟩
  | .assign _ _ (.lit ..) _, _ | .assign _ _ (.binary ..) _, _ | .assign _ _ (.unary ..) _, _
  | .assign _ _ (.assign ..) _, _ | .assign _ _ (.incDec ..) _, _ | .assign _ _ (.ternary ..) _, _
  | .assign _ _ (.array ..) _, _ | .assign _ _ (.call ..) _, _ | .assign _ _ (.method ..) _, _
  | .assign _ _ (.create ..) _, _ => ⟨rfl, fun _ => by
      simp only [operand, emit]
      exact restores_fail nofun nofun⟩
  | .incDec loc increment before (.var _ name), _ => ⟨rfl, fun _ => by
      simp only [operand, emit]
      exact restores_mono (stepVar_restores loc name increment before _)
        fun _ _ hp => ⟨hp.1, fun hb => hp.2.1 (keeps_of_best hb), hp.2.2⟩⟩
  | .incDec _ increment before (.index tloc base key), h => ⟨rfl, fun _ W => by
      rw [Expr.Writes] at h
      · simp only [operand, emit]
        refine tidies_after (checkSubscripts_restores _) fun _ _ _ =>
          tidies_bind (place_tidies hD _ (.index tloc base key) h) ?_
        rintro ⟨p, a⟩ ⟨_, a'⟩ _ ⟨rfl, rfl, ha⟩
        refine tidies_bind (stepPlace_tidies _ p increment before _) ?_
        rintro _ _ _ ⟨rfl, hq⟩
        exact tidies_pure ⟨rfl, hq.kept ha⟩
      · simp⟩
  | .incDec _ increment before (.prop tloc object name), h => ⟨rfl, fun _ W => by
      rw [Expr.Writes] at h
      · simp only [operand, emit]
        refine tidies_after (checkSubscripts_restores _) fun _ _ _ =>
          tidies_bind (place_tidies hD _ (.prop tloc object name) h) ?_
        rintro ⟨p, a⟩ ⟨_, a'⟩ _ ⟨rfl, rfl, ha⟩
        refine tidies_bind (stepPlace_tidies _ p increment before _) ?_
        rintro _ _ _ ⟨rfl, hq⟩
        exact tidies_pure ⟨rfl, hq.kept ha⟩
      · simp⟩
  | .incDec _ _ _ (.lit ..), _ | .incDec _ _ _ (.binary ..), _ | .incDec _ _ _ (.unary ..), _
  | .incDec _ _ _ (.assign ..), _ | .incDec _ _ _ (.incDec ..), _ | .incDec _ _ _ (.ternary ..), _
  | .incDec _ _ _ (.array ..), _ | .incDec _ _ _ (.call ..), _ | .incDec _ _ _ (.method ..), _
  | .incDec _ _ _ (.create ..), _ => ⟨rfl, fun _ => by
      simp only [operand, emit]
      exact restores_fail nofun nofun⟩
  | .ternary _ cond yes no, h => ⟨rfl, fun d => by
      rw [Expr.Writes] at h
      simp only [operand, emit]
      exact ternary_restores (emit_restores hD cond h.1) (emit_restores hD yes h.2.1)
        (emit_restores hD no h.2.2) d.best⟩
  | .array _ entries, h => ⟨rfl, fun _ => by
      rw [Expr.Writes] at h
      simp only [operand, emit]
      exact array_restores (entryOperands_restore hD entries h)⟩
  | .index _ _ none, _ => ⟨rfl, fun _ => by
      simp only [operand, emit]
      exact restores_fail nofun nofun⟩
  | .index _ base (some key), h => ⟨rfl, fun _ => by
      rw [Expr.Writes] at h
      simp only [operand, emit]
      exact element_restores (emit_restores hD base h.1) (emit_restores hD key h.2)⟩
  | .call loc name args, h => ⟨rfl, fun _ => by
      rw [Expr.Writes] at h
      simp only [operand, emit]
      exact call_restores hD (operands_restore hD args h) loc name⟩
  | .method loc object name args, h => ⟨rfl, fun _ => by
      rw [Expr.Writes] at h
      simp only [operand, emit]
      exact methodCall_restores hD (emit_restores hD object h.1) (operands_restore hD args h.2) loc
        name⟩
  | .create loc name args, h => ⟨rfl, fun _ => by
      rw [Expr.Writes] at h
      simp only [operand, emit]
      exact create_restores hD (operands_restore hD args h) loc name⟩
  | .prop loc object name, h => ⟨rfl, fun _ => by
      rw [Expr.Writes] at h
      simp only [operand, emit]
      exact property_restores hD (emit_restores hD object h) loc name⟩

theorem operands_restore (hD : c.decls.heads = D.heads) : (es : List Expr) →
    Expr.allWrite (c.Needs k) es →
    List.Forall₂ (Operand.Restores k c) (operands c es) (operands (c.knowing D) es)
  | [], _ => by
    simp only [operands]
    exact .nil
  | e :: rest, h => by
    rw [Expr.allWrite] at h
    simp only [operands]
    exact .cons (emit_restores hD e h.1) (operands_restore hD rest h.2)

theorem entryOperands_restore (hD : c.decls.heads = D.heads) :
    (entries : List (Option Expr × Expr)) → Expr.itemsWrite (c.Needs k) entries →
    List.Forall₂ (EntriesRestore k c) (entryOperands c entries)
      (entryOperands (c.knowing D) entries)
  | [], _ => by
    simp only [entryOperands]
    exact .nil
  | (none, v) :: rest, h => by
    rw [Expr.itemsWrite] at h
    simp only [entryOperands]
    exact .cons ⟨.none, emit_restores hD v h.1⟩ (entryOperands_restore hD rest h.2)
  | (some k, v) :: rest, h => by
    rw [Expr.itemsWrite] at h
    simp only [entryOperands]
    exact .cons ⟨.some (emit_restores hD k h.1), emit_restores hD v h.2.1⟩
      (entryOperands_restore hD rest h.2.2)

/-- The object and the keys of a place stay in temporaries. -/
theorem place_tidies (hD : c.decls.heads = D.heads) (whole : Expr) : (e : Expr) →
    e.Roots (c.Needs k) → {W : List Nat} →
    Tidies k c W (place c whole e) (place (c.knowing D) whole e) (Located Place.temps W)
  | .index _ base none, h, W => by
    rw [Expr.Roots] at h
    simp only [place]
    refine tidies_bind (place_tidies hD whole base h) ?_
    rintro ⟨p, a⟩ ⟨_, a'⟩ _ ⟨rfl, rfl, ha⟩
    refine tidies_pure ⟨?_, rfl, ha⟩
    rw [Place.temps_snoc, Key.temps, List.append_nil]
  | .index _ base (some k), h, W => by
    rw [Expr.Roots] at h
    simp only [place]
    refine tidies_bind (place_tidies hD whole base h.1) ?_
    rintro ⟨p, a⟩ ⟨_, a'⟩ _ ⟨rfl, rfl, ha⟩
    refine tidies_bind (keyOf_tidies (emit_restores hD k h.2)) ?_
    rintro ⟨key, b⟩ ⟨_, b'⟩ _ ⟨rfl, rfl, hb⟩
    -- A key is taken after the rest of the place and stands behind it.
    refine tidies_perm ?_ (tidies_pure ⟨by rw [Place.temps_snoc], rfl, ?_⟩)
    · rw [← List.append_assoc]
      exact List.perm_append_comm.append_right W
    · simp [show Nests a [] from ha, show Nests b [] from hb]
  | .var _ name, h, W => by
    rw [Expr.Roots] at h
    simp only [place]
    refine tidies_after (restores_findVar name) ?_
    rintro v _ ⟨rfl, hv⟩
    exact tidies_unless nofun (fun hne hk => absurd (h.boxed hv hk) hne)
      (tidies_pure ⟨rfl, rfl, by simp⟩)
  | .prop loc object name, h, W => by
    rw [Expr.Roots] at h
    simp only [place]
    refine tidies_bind (propRef_tidies hD (emit_restores hD object h) loc name) ?_
    rintro ⟨ref, a⟩ ⟨_, a'⟩ _ ⟨rfl, rfl, ha⟩
    exact tidies_pure ⟨rfl, rfl, ha⟩
  | .lit .., _, _ | .binary .., _, _ | .unary .., _, _ | .assign .., _, _ | .incDec .., _, _
  | .ternary .., _, _ | .array .., _, _ | .call .., _, _ | .method .., _, _ | .create .., _, _ => by
    simp only [place]
    exact tidies_fail nofun fun _ => nofun

end

end HeapScript.Compile
