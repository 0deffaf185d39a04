import HeapScript.Proofs.Memory.Kinds

/-!
# Pieces of disciplined code

Code that is put together from pieces keeps to the discipline if the pieces do. A piece is
described by the types of the operands that it takes off and leaves.
-/

namespace HeapScript.Library

open Machine

namespace Kind

variable {known : Bool} {ks ks' ws ws' : List Kind}

theorem fitAll_append (h : fitAll known ks ws = true) (h' : fitAll known ks' ws' = true) :
    fitAll known (ks ++ ks') (ws ++ ws') = true := by
  induction ks generalizing ws with
  | nil =>
    cases ws with
    | nil => exact h'
    | cons => cases h
  | cons k ks ih =>
    cases ws with
    | nil => cases h
    | cons w ws =>
      rw [fitAll, Bool.and_eq_true] at h
      rw [List.cons_append, List.cons_append, fitAll, h.1, ih h.2, Bool.and_self]

theorem fitAll_split (h : fitAll known ks (ws ++ ws') = true) :
    ∃ front back, ks = front ++ back ∧ fitAll known front ws = true ∧
      fitAll known back ws' = true := by
  induction ws generalizing ks with
  | nil => exact ⟨[], ks, rfl, rfl, h⟩
  | cons w ws ih =>
    cases ks with
    | nil => cases h
    | cons k ks =>
      rw [List.cons_append, fitAll, Bool.and_eq_true] at h
      obtain ⟨front, back, rfl, hf, hb⟩ := ih h.2
      exact ⟨k :: front, back, rfl, by rw [fitAll, h.1, hf, Bool.and_self], hb⟩

theorem fitAll_one {w : Kind} (h : fitAll known ks [w] = true) :
    ∃ k, ks = [k] ∧ k.fits known w = true := by
  rcases ks with _ | ⟨k, _ | ⟨k', ks⟩⟩
  · cases h
  · exact ⟨k, rfl, (Bool.and_eq_true _ _ ▸ h).1⟩
  · simp [fitAll] at h

theorem fitAll_none (h : fitAll known ks [] = true) : ks = [] := by
  cases ks with
  | nil => rfl
  | cons => cases h

end Kind

theorem Env.known_before (E : Env) : E.known .before = false := by
  simp [known]

/-- A local has a type, and nothing more is known of it. -/
def Env.Slot (E : Env) (i : Nat) (t : ValType) : Prop := E.kind? .before i = some (.typed t)

theorem Env.Slot.kind {E : Env} {i : Nat} {t : ValType} (h : E.Slot i t) :
    E.kind? .before i = some (.typed t) := h

theorem Env.Slot.admits {E : Env} {i : Nat} {t : ValType} (h : E.Slot i t) {k : Kind}
    (hk : k.fits false (.typed t) = true) : E.admits .before i k = true := by
  simp only [Env.admits, h.kind, E.known_before, hk]

/-- Code takes off operands of some types and leaves operands of others, the top one last. -/
def Turns (E : Env) (code : List Instr) (ts us : List ValType) : Prop :=
  ∀ ks, Kind.fitAll false ks (ts.reverse.map .typed) = true →
    ∃ ks', Kind.fitAll false ks' (us.reverse.map .typed) = true ∧
      ∀ ctrl σ rest, Checks E .before ctrl (ks' ++ σ) rest →
        Checks E .before ctrl (ks ++ σ) (code ++ rest)

section Fragments

variable {E : Env} {a b : List Instr} {ts us vs : List ValType}

theorem Turns.refl (E : Env) (ts : List ValType) : Turns E [] ts ts :=
  fun ks hks => ⟨ks, hks, fun _ _ _ h => h⟩

theorem Turns.trans (ha : Turns E a ts us) (hb : Turns E b us vs) : Turns E (a ++ b) ts vs := by
  intro ks hks
  obtain ⟨ks₁, hks₁, h₁⟩ := ha ks hks
  obtain ⟨ks₂, hks₂, h₂⟩ := hb ks₁ hks₁
  refine ⟨ks₂, hks₂, fun ctrl σ rest h => ?_⟩
  rw [List.append_assoc]
  exact h₁ ctrl σ _ (h₂ ctrl σ rest h)

/-- The operands below those that code needs stay as they are. -/
theorem Turns.under (ws : List ValType) (ha : Turns E a ts us) :
    Turns E a (ws ++ ts) (ws ++ us) := by
  intro ks hks
  rw [List.reverse_append, List.map_append] at hks
  obtain ⟨front, back, rfl, hf, hb⟩ := Kind.fitAll_split hks
  obtain ⟨ks', hks', h'⟩ := ha front hf
  refine ⟨ks' ++ back, ?_, fun ctrl σ rest h => ?_⟩
  · rw [List.reverse_append, List.map_append]
    exact Kind.fitAll_append hks' hb
  · rw [List.append_assoc] at h ⊢
    exact h' ctrl (back ++ σ) rest h

/-- Code that only leaves operands, above some others. -/
theorem Turns.above (ws : List ValType) (ha : Turns E a [] us) : Turns E a ws (ws ++ us) := by
  have h := ha.under ws
  rwa [List.append_nil] at h

/-- Code behind which there are just the operands that it leaves. -/
theorem Turns.checks {ctrl : List Ctrl} {σ : List Kind} {rest : List Instr} (ha : Turns E a [] us)
    (h : ∀ ks, Kind.fitAll false ks (us.reverse.map .typed) = true →
      Checks E .before ctrl (ks ++ σ) rest) : Checks E .before ctrl σ (a ++ rest) := by
  obtain ⟨ks, hks, h'⟩ := ha [] rfl
  exact h' ctrl σ rest (h ks hks)

/-! ## Single instructions -/

theorem turns_flow {i : Instr}
    (h : ∀ ks, Kind.fitAll false ks (ts.reverse.map .typed) = true →
      ∃ ks', Kind.fitAll false ks' (us.reverse.map .typed) = true ∧
        ∀ σ, E.flow .before i (ks ++ σ) = some (ks' ++ σ)) : Turns E [i] ts us := by
  intro ks hks
  obtain ⟨ks', hks', hflow⟩ := h ks hks
  exact ⟨ks', hks', fun ctrl σ rest hr => .plain (hflow σ) hr⟩

theorem turns_load {s : Nat} {t : ValType} (h : E.Slot s t) : Turns E (Code.load s) [] [t] := by
  refine turns_flow fun ks hks => ⟨[.typed t], Kind.fitAll_self _ _, fun σ => ?_⟩
  obtain rfl := Kind.fitAll_none hks
  simp only [Env.flow, List.nil_append, h.kind, Option.map_some, List.singleton_append]

theorem turns_store {s : Nat} {t : ValType} (h : E.Slot s t) : Turns E (Code.store s) [t] [] := by
  refine turns_flow fun ks hks => ⟨[], rfl, fun σ => ?_⟩
  obtain ⟨k, rfl, hk⟩ := Kind.fitAll_one hks
  simp only [Env.flow, List.singleton_append, h.admits hk, if_true, List.nil_append]

theorem turns_keep {s : Nat} {t : ValType} (h : E.Slot s t) : Turns E (Code.keep s) [t] [t] := by
  refine turns_flow fun ks hks => ⟨ks, hks, fun σ => ?_⟩
  obtain ⟨k, rfl, hk⟩ := Kind.fitAll_one hks
  simp only [Env.flow, List.singleton_append, h.admits hk, if_true]

theorem turns_drop (E : Env) (t : ValType) : Turns E [.drop] [t] [] := by
  refine turns_flow fun ks hks => ⟨[], rfl, fun σ => ?_⟩
  obtain ⟨k, rfl, -⟩ := Kind.fitAll_one hks
  rfl

theorem flow_numeric {i : Instr} {args : List ValType} {k : Kind} (p : Phase) (σ : List Kind)
    (h : numeric? i = some (args, k)) :
    E.flow p i σ = if Kind.fitAll (E.known p) (σ.take args.length) (args.map .typed) then
      some (k :: σ.drop args.length) else none := by
  cases i <;> cases h <;> rfl

theorem turns_numeric {i : Instr} {k : Kind} {t : ValType} (h : numeric? i = some (ts.reverse, k))
    (hk : k.fits false (.typed t) = true) : Turns E [i] ts [t] := by
  refine turns_flow fun ks hks => ⟨[k], by simp [Kind.fitAll, hk], fun σ => ?_⟩
  have hlen : ts.reverse.length = ks.length := by
    rw [Kind.fitAll_length hks, List.length_map]
  rw [flow_numeric _ _ h, hlen, List.take_left, List.drop_left, E.known_before, if_pos hks]
  rfl

theorem turns_call {func : Int} (h : E.sig func = some (ts, us)) : Turns E [.call func] ts us := by
  intro ks hks
  refine ⟨us.reverse.map .typed, Kind.fitAll_self _ _, fun ctrl σ rest hr => ?_⟩
  exact .call (by decide) h (E.known_before ▸ hks) hr

theorem turns_refIsNull (E : Env) (t : ValType) : Turns E [.refIsNull] [t] [.i32] := by
  refine turns_flow fun ks hks => ⟨[.typed .i32], rfl, fun σ => ?_⟩
  obtain ⟨k, rfl, -⟩ := Kind.fitAll_one hks
  rfl

theorem turns_arrayLen (E : Env) (t : ValType) : Turns E [.arrayLen] [t] [.i32] := by
  refine turns_flow fun ks hks => ⟨[.typed .i32], rfl, fun σ => ?_⟩
  obtain ⟨k, rfl, -⟩ := Kind.fitAll_one hks
  rfl

theorem turns_tag (E : Env) :
    Turns E [.structGet Shape.value ValueField.tag.index] [Shape.valueRef] [.i32] := by
  refine turns_flow fun ks hks => ⟨[.typed .i32], rfl, fun σ => ?_⟩
  obtain ⟨k, rfl, hk⟩ := Kind.fitAll_one hks
  have hne : (ValueField.tag.index : Int) ≠ ValueField.ref.index := by decide
  have hfits : k.fits (E.known .before) (.typed (.ref Shape.value)) = true := E.known_before ▸ hk
  simp only [Env.flow, List.singleton_append, hne, and_false, if_false, hfits, if_true]
  rfl

theorem turns_bytesLiteral (E : Env) (length segment : Nat) :
    Turns E (Code.bytesLiteral length segment) [] [Shape.bytesRef] := by
  intro ks hks
  obtain rfl := Kind.fitAll_none hks
  refine ⟨[.typed Shape.bytesRef], rfl, fun ctrl σ rest hr => ?_⟩
  exact .plain rfl (.plain rfl (.plain rfl hr))

/-! ## New values -/

theorem turns_newValue {t : Tag} {int float : List Instr} (hi : Turns E int [] [.i64])
    (hf : Turns E float [] [.f64]) :
    Turns E (Code.newValue t int float Code.noBytes Code.noRef) [] [Shape.valueRef] := by
  intro ks hks
  obtain rfl := Kind.fitAll_none hks
  refine ⟨[.typed Shape.valueRef], rfl, fun ctrl σ rest hr => ?_⟩
  simp only [Code.newValue, Code.const32, Code.noBytes, Code.noRef, List.append_assoc,
    List.singleton_append]
  refine .plain rfl (hi.checks fun ki hki => hf.checks fun kf hkf => .plain rfl (.plain rfl ?_))
  obtain ⟨ki, rfl, hint⟩ := Kind.fitAll_one hki
  obtain ⟨kf, rfl, hfloat⟩ := Kind.fitAll_one hkf
  have hbytes : Kind.null.fits false (.typed Shape.bytesRef) = true := rfl
  have hsuits : Kind.null.suits false t.code.toInt = true := rfl
  refine .plain ?_ hr
  simp only [Env.flow, Env.makes, List.singleton_append, if_true, E.known_before, hint, hfloat,
    hbytes, hsuits, Bool.and_self]
  rfl

/-! ## Constructs -/

theorem Checks.whenever {ctrl : List Ctrl} {σ : List Kind} {k : Kind} {body rest : List Instr}
    (hk : k.fits false (.typed .i32) = true)
    (hbody : ∀ rest, Checks E .before (⟨.branch, σ, []⟩ :: ctrl) σ rest →
      Checks E .before (⟨.branch, σ, []⟩ :: ctrl) σ (body ++ rest))
    (h : Checks E .before ctrl σ rest) :
    Checks E .before ctrl (k :: σ) (Code.when body ++ rest) := by
  simp only [Code.when, List.append_assoc, List.singleton_append]
  refine .branchIf ?_ (hbody _ (.close (fun _ => rfl) (Kind.fitAll_self _ _) h))
  simp only [Env.words, List.all_cons, List.all_nil, E.known_before, hk, Bool.and_self]

theorem Checks.either {ctrl : List Ctrl} {σ : List Kind} {k : Kind} {t : ValType}
    {yes no rest : List Instr} (hk : k.fits false (.typed .i32) = true)
    (hyes : ∀ rest, (∀ σ', Kind.fitAll false σ' (resultKinds t ++ σ) = true →
        Checks E .before (⟨.branch, σ, resultKinds t⟩ :: ctrl) σ' rest) →
      Checks E .before (⟨.branch, σ, resultKinds t⟩ :: ctrl) σ (yes ++ rest))
    (hno : ∀ rest, (∀ σ', Kind.fitAll false σ' (resultKinds t ++ σ) = true →
        Checks E .before (⟨.block, σ, resultKinds t⟩ :: ctrl) σ' rest) →
      Checks E .before (⟨.block, σ, resultKinds t⟩ :: ctrl) σ (no ++ rest))
    (h : Checks E .before ctrl (resultKinds t ++ σ) rest) :
    Checks E .before ctrl (k :: σ) (Code.choose t yes no ++ rest) := by
  simp only [Code.choose, List.append_assoc, List.singleton_append]
  refine .branchIf ?_ (hyes _ fun σ' hσ' => .otherwise rfl (E.known_before ▸ hσ') ?_)
  · simp only [Env.words, List.all_cons, List.all_nil, E.known_before, hk, Bool.and_self]
  · exact hno _ fun σ' hσ' => .close nofun (E.known_before ▸ hσ') h

/-- A choice between two pieces of code that leave the same. -/
theorem turns_choose {t : ValType} {yes no : List Instr}
    (ht : resultKinds t = us.reverse.map .typed) (hy : Turns E yes [] us) (hn : Turns E no [] us) :
    Turns E (Code.choose t yes no) [.i32] us := by
  intro ks hks
  obtain ⟨k, rfl, hk⟩ := Kind.fitAll_one hks
  have hfit {ks σ : List Kind} (h : Kind.fitAll false ks (us.reverse.map .typed) = true) :
      Kind.fitAll false (ks ++ σ) (resultKinds t ++ σ) = true :=
    Kind.fitAll_append (ht ▸ h) (Kind.fitAll_self _ _)
  refine ⟨resultKinds t, ht ▸ Kind.fitAll_self _ _, fun ctrl σ rest h => ?_⟩
  exact Checks.either hk (fun rest hr => hy.checks fun ks hks => hr _ (hfit hks))
    (fun rest hr => hn.checks fun ks hks => hr _ (hfit hks)) h

/-- A trap if a test says so. -/
theorem turns_trapIf (E : Env) : Turns E (Code.when [.unreachable]) [.i32] [] := by
  intro ks hks
  obtain ⟨k, rfl, hk⟩ := Kind.fitAll_one hks
  exact ⟨[], rfl, fun ctrl σ rest h => Checks.whenever hk (fun rest hr => .unreachable hr) h⟩

/-! ## Constructs without operands -/

/-- A construct that was entered without operands and leaves none. -/
def Bare (k : Ctrl) : Prop := k.base = [] ∧ k.results = []

/-- The constructs that loops and conditions open. -/
abbrev bareBlock : Ctrl := ⟨.block, [], []⟩

abbrev bareLoop : Ctrl := ⟨.loop, [], []⟩

abbrev bareBranch : Ctrl := ⟨.branch, [], []⟩

variable {ctrl : List Ctrl} {rest : List Instr}

theorem Bare.reached {k : Ctrl} (h : Bare k) (known : Bool) : k.reached known [] = true := by
  obtain ⟨c, base, results⟩ := k
  obtain ⟨rfl, rfl⟩ : base = [] ∧ results = [] := h
  rfl

/-- Code without operands before and behind it. -/
theorem Turns.idle (h : Turns E a [] []) (hr : Checks E .before ctrl [] rest) :
    Checks E .before ctrl [] (a ++ rest) := by
  refine h.checks fun ks hks => ?_
  rw [Kind.fitAll_none hks]
  exact hr

/-- Code that leaves one operand. -/
theorem Turns.single {t : ValType} (h : Turns E a [] [t])
    (hr : ∀ k : Kind, k.fits false (.typed t) = true → Checks E .before ctrl [k] rest) :
    Checks E .before ctrl [] (a ++ rest) := by
  refine h.checks fun ks hks => ?_
  obtain ⟨k, rfl, hk⟩ := Kind.fitAll_one hks
  exact hr k hk

/-- The end of a construct without operands. -/
theorem Checks.closes {k : Ctrl} (hk : Bare k) (hr : Checks E .before ctrl [] rest) :
    Checks E .before (k :: ctrl) [] (.close :: rest) := by
  obtain ⟨c, base, results⟩ := k
  obtain ⟨rfl, rfl⟩ : base = [] ∧ results = [] := hk
  exact .close (fun _ => rfl) rfl hr

/-- A jump to a construct without operands. -/
theorem Checks.jumps {d : Nat} {k : Ctrl} (hd : ctrl[d]? = some k) (hk : Bare k)
    (hr : Checks E .before ctrl [] rest) : Checks E .before ctrl [] (.br d :: rest) :=
  .br hd (hk.reached _) hr

/-- A conditional jump to a construct without operands. -/
theorem Checks.jumpsIf {d : Nat} {k : Ctrl} {cond : Kind}
    (hcond : cond.fits false (.typed .i32) = true) (hd : ctrl[d]? = some k) (hk : Bare k)
    (hr : Checks E .before ctrl [] rest) : Checks E .before ctrl [cond] (.brIf d :: rest) := by
  refine .brIf ?_ hd (hk.reached _) hr
  simp only [Env.words, List.all_cons, List.all_nil, E.known_before, hcond, Bool.and_self]

end Fragments

end HeapScript.Library
