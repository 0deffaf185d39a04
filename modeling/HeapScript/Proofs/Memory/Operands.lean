import HeapScript.Proofs.Machine.Effects
import HeapScript.Proofs.Memory.Heaps

/-!
# Operands of the kinds they should have

Code that keeps to the discipline computes with operands of the kinds that are known of them, and
one instruction keeps the heap sound and changes it only where stores are meant to go.
-/

namespace HeapScript.Library

open Machine Machine.Processor

/-! ## Kinds -/

/-- An operand of a kind, in an activation with these buffers and this first parameter. -/
def Kind.Holds (h : Heap) (hidden mine : Nat → Prop) (first : Val) : Kind → Val → Prop
  | .typed t, v => Admits h hidden t v
  | .const n, v => v = .i32 (Int32.ofInt n)
  | .null, v => v = .null
  | .own, v => v = .null ∨ ∃ a elems, v = .ref a ∧ mine a ∧ h[a]? = some (.array Shape.bytes elems)
  | .first, v => v = first ∧ Admits h hidden Shape.valueRef v
  | .firstRef, v =>
    Admits h hidden .anyref v ∧ (h.typeOf v = Shape.dense → IsArray h first)
  | .firstDense, v => Admits h hidden Shape.denseRef v ∧ (v ≠ .null → IsArray h first)

section Kinds

variable {h h' : Heap} {hidden hidden' mine mine' : Nat → Prop} {first : Val}

theorem typeOf_null (h : Heap) : h.typeOf .null ≠ Shape.dense :=
  show (-2 : Int) ≠ 2 by decide

theorem typeOf_ref {a : Nat} {c : Cell} (hc : h[a]? = some c) : h.typeOf (.ref a) = c.type := by
  simp [Heap.typeOf, hc]

theorem Kind.Holds.mono (hl : Later h h') (hh : Reveals h hidden hidden')
    (hm : ∀ a, mine a → mine' a) {k : Kind} {v : Val} (hv : k.Holds h hidden mine first v) :
    k.Holds h' hidden' mine' first v := by
  cases k with
  | typed t => exact Admits.mono hl hh hv
  | const | null => exact hv
  | own =>
    rcases hv with hv | ⟨a, elems, rfl, ha, hc⟩
    · exact .inl hv
    · obtain ⟨c', hc', hal⟩ := hl a _ hc
      cases c' with
      | struct => exact hal.elim
      | array t elems' =>
        obtain rfl : Shape.bytes = t := hal
        exact .inr ⟨a, elems', rfl, hm a ha, hc'⟩
  | first => exact ⟨hv.1, hv.2.mono hl hh⟩
  | firstRef =>
    refine ⟨hv.1.mono hl hh, fun ht => (hv.2 ?_).mono hl⟩
    rcases hv.1 with rfl | ⟨a, c, rfl, hc, -, -⟩
    · exact ht
    · obtain ⟨c', hc', hal⟩ := hl a c hc
      rw [typeOf_ref hc, hal.type, ← typeOf_ref hc', ht]
  | firstDense => exact ⟨hv.1.mono hl hh, fun hn => (hv.2 hn).mono hl⟩

theorem Admits.any {t : Int} {v : Val} (hv : Admits h hidden (.ref t) v) :
    Admits h hidden .anyref v := by
  rcases hv with hv | ⟨a, c, hv, hc, -, hn⟩
  · exact .inl hv
  · exact .inr ⟨a, c, hv, hc, .inl rfl, hn⟩

theorem Kind.Holds.fit {known : Bool} (hknown : known = true → IsArray h first) {k w : Kind}
    {v : Val} (hk : k.fits known w = true) (hv : k.Holds h hidden mine first v) :
    w.Holds h hidden mine first v := by
  unfold fits at hk
  rw [Bool.or_eq_true, beq_iff_eq] at hk
  rcases hk with rfl | hk
  · exact hv
  split at hk
  · obtain rfl := beq_iff_eq.1 hk
    exact ⟨_, hv⟩
  · exact .inl hv
  · exact .inl hv
  · exact hv ▸ ⟨.inl rfl, fun ht => absurd ht (typeOf_null h)⟩
  · exact hv ▸ ⟨.inl rfl, fun hn => absurd rfl hn⟩
  · obtain rfl := beq_iff_eq.1 hk
    exact Admits.any hv
  · rcases Bool.or_eq_true _ _ ▸ hk with ht | ht
    · exact (beq_iff_eq.1 ht) ▸ hv.2
    · exact (beq_iff_eq.1 ht) ▸ hv.2.any
  · exact (beq_iff_eq.1 hk) ▸ hv.1
  · rcases Bool.or_eq_true _ _ ▸ hk with ht | ht
    · exact (beq_iff_eq.1 ht) ▸ hv.1
    · exact (beq_iff_eq.1 ht) ▸ hv.1.any
  · rw [Bool.and_eq_true, beq_iff_eq] at hk
    obtain ⟨hk, rfl⟩ := hk
    exact ⟨hv, fun _ => hknown hk⟩
  · cases hk

/-- Operands of kinds, the top one first. -/
abbrev AllHold (h : Heap) (hidden mine : Nat → Prop) (first : Val) : List Kind → List Val → Prop :=
  List.Forall₂ (Kind.Holds h hidden mine first)

theorem AllHold.fit {known : Bool} (hknown : known = true → IsArray h first) {ks ws : List Kind}
    {vs : List Val} (hk : Kind.fitAll known ks ws = true) (hv : AllHold h hidden mine first ks vs) :
    AllHold h hidden mine first ws vs := by
  induction hv generalizing ws with
  | nil =>
    cases ws with
    | nil => exact .nil
    | cons => cases hk
  | cons hv _ ih =>
    cases ws with
    | nil => cases hk
    | cons w ws =>
      rw [Kind.fitAll, Bool.and_eq_true] at hk
      exact .cons (hv.fit hknown hk.1) (ih hk.2)

theorem allHold_typed {ts : List ValType} {vs : List Val} :
    AllHold h hidden mine first (ts.map .typed) vs ↔ List.Forall₂ (Admits h hidden) ts vs :=
  List.forall₂_map_left_iff

theorem Kind.Holds.publish {k : Kind} {v : Val} (hv : k.Holds h hidden hidden first v) :
    k.published.Holds h (fun _ => False) (fun _ => False) first v := by
  have hh : Reveals h hidden fun _ => False := fun _ ha => ha.elim
  cases k with
  | own =>
    rcases hv with hv | ⟨a, elems, rfl, -, hc⟩
    · exact .inl hv
    · exact .inr ⟨a, _, rfl, hc, .inr rfl, id⟩
  | typed t => exact Admits.mono (.refl h) hh hv
  | const | null => exact hv
  | first => exact ⟨hv.1, hv.2.mono (.refl h) hh⟩
  | firstRef => exact ⟨hv.1.mono (.refl h) hh, hv.2⟩
  | firstDense => exact ⟨hv.1.mono (.refl h) hh, hv.2⟩

end Kinds

/-! ## Activations -/

/-- What an activation computes with is as its code expects. -/
structure Env.Valid (E : Env) (p : Phase) (h : Heap) (hidden mine : Nat → Prop) (first : Val)
    (σ : List Kind) (locals stack : List Val) : Prop where
  stack : AllHold h hidden mine first σ stack
  locals : AllHold h hidden mine first (E.locals p) locals
  known : E.known p = true → IsArray h first

section Valid

variable {E : Env} {p : Phase} {h h' : Heap} {hidden hidden' mine mine' : Nat → Prop} {first : Val}
  {σ σ' : List Kind} {locals stack stack' : List Val}

theorem Env.Valid.mono (hv : E.Valid p h hidden mine first σ locals stack) (hl : Later h h')
    (hh : Reveals h hidden hidden') (hm : ∀ a, mine a → mine' a) :
    E.Valid p h' hidden' mine' first σ locals stack where
  stack := hv.stack.imp fun _ _ h => h.mono hl hh hm
  locals := hv.locals.imp fun _ _ h => h.mono hl hh hm
  known hk := (hv.known hk).mono hl

theorem Env.Valid.restack (hv : E.Valid p h hidden mine first σ locals stack)
    (hs : AllHold h hidden mine first σ' stack') :
    E.Valid p h hidden mine first σ' locals stack' :=
  ⟨hs, hv.locals, hv.known⟩

end Valid

/-! ## Effects -/

/-- What an instruction may do to the heap and to what an activation computes with. -/
structure Flows {ω : Type} (E : Env) (p : Phase) (hidden hidden' : Nat → Prop) (first : Val)
    (σ : List Kind) (c c' : Cfg ω) : Prop where
  change : Change hidden c.heap c'.heap
  sound : SoundHeap c'.heap hidden'
  reveals : Reveals c.heap hidden hidden'
  keeps : ∀ a, hidden a → hidden' a
  quiet : p ≠ .filling → ∀ a, hidden' a → hidden a
  valid : E.Valid p c'.heap hidden' hidden' first σ c'.locals c'.stack

section Effects

variable {ω : Type} {m : Processor ω} {i : Instr} {E : Env} {p : Phase} {hidden : Nat → Prop}
  {first : Val} {σ σ' : List Kind} {c c' : Cfg ω}

/-- An instruction that leaves the heap and the locals alone. -/
theorem Flows.still (hs : SoundHeap c.heap hidden) {st stack : List Val}
    (hv : E.Valid p c.heap hidden hidden first σ c.locals st)
    (hstack : AllHold c.heap hidden hidden first σ' stack) :
    Flows E p hidden hidden first σ' c { c with stack := stack } :=
  ⟨.none, hs, .refl _ _, fun _ ha => ha, fun _ _ ha => ha, hv.restack hstack⟩

/-- The instructions that compute a number take their arguments off and leave it. -/
theorem effect_numeric {args : List ValType} {k : Kind} (hn : numeric? i = some (args, k))
    (he : m.effect i c = .next c') :
    ∃ v, c' = { c with stack := v :: c.stack.drop args.length } ∧
      ∀ hidden mine first, k.Holds c.heap hidden mine first v := by
  cases i <;> simp only [numeric?, reduceCtorEq, Option.some.injEq, Prod.mk.injEq] at hn <;>
    obtain ⟨rfl, rfl⟩ := hn
  case i32Const n => exact ⟨_, effect_push rfl he, fun _ _ _ => rfl⟩
  case i64Const n | f64Const n => exact ⟨_, effect_push rfl he, fun _ _ _ => ⟨_, rfl⟩⟩
  case i32Eqz | i64Eqz | f64Neg | i32WrapI64 | i64ExtendI32S | i64ExtendI32U | f64ConvertI64S
      | i64TruncSatF64S =>
    obtain ⟨v, r, st, hc, hf, rfl⟩ := effect_replaceTop rfl he
    refine ⟨r, by simp [hc], fun _ _ _ => ?_⟩
    cases v <;> cases hf
    exact ⟨_, rfl⟩
  case i64Rel op | f64 op | f64Rel op =>
    obtain ⟨a, b, r, st, hc, hf, rfl⟩ := effect_combine rfl he
    refine ⟨r, by simp [hc], fun _ _ _ => ?_⟩
    cases a <;> cases b <;> cases hf
    exact ⟨_, rfl⟩
  case i32 op | i64 op =>
    obtain ⟨a, b, r, st, hc, hf, rfl⟩ := effect_combine rfl he
    refine ⟨r, by simp [hc], fun _ _ _ => ?_⟩
    cases a <;> cases b <;> simp only [reduceCtorEq, Option.some.injEq] at hf
    cases ho : op.eval _ _ with
    | error e =>
      rw [ho] at hf
      cases hf
    | ok x =>
      rw [ho] at hf
      cases hf
      exact ⟨x, rfl⟩

end Effects

/-! ## Disciplined instructions -/

/-- The module of a machine starts with the heap shapes. -/
def Shaped {ω : Type} (m : Processor ω) : Prop :=
  ∀ (i : Nat) (d : TypeDef), Shape.definitions[i]? = some d → m.program.types[i]? = some d

section Shapes

variable {ω : Type} {m : Processor ω} {t : Int}

theorem Shaped.at? (hm : Shaped m) {d : TypeDef} (ht : Machine.at? Shape.definitions t = some d) :
    Machine.at? m.program.types t = some d := by
  cases t with
  | ofNat n => exact hm n d ht
  | negSucc n => cases ht

theorem Shaped.record (hm : Shaped m) {types : List ValType} (ht : Shape.fields? t = some types) :
    ∃ d, Machine.at? m.program.types t = some d ∧ d.fieldCount = types.length := by
  unfold Shape.fields? at ht
  split at ht
  · rename_i fields hd
    cases ht
    exact ⟨_, hm.at? hd, by simp [TypeDef.fieldCount]⟩
  · cases ht

theorem Shaped.array (hm : Shaped m) {e : ValType} (ht : Shape.elem? t = some e) :
    ∃ d, Machine.at? m.program.types t = some d ∧
      (d.elem = .i8 ∧ e = .i32 ∨ d.elem = e ∧ e ≠ .i8) := by
  unfold Shape.elem? at ht
  split at ht
  · rename_i hd
    cases ht
    exact ⟨_, hm.at? hd, .inl ⟨rfl, rfl⟩⟩
  · rename_i elem hne hd
    cases ht
    refine ⟨_, hm.at? hd, .inr ⟨rfl, fun he => hne elem.isMutable ?_⟩⟩
    obtain ⟨type, isMutable⟩ := elem
    obtain rfl : type = .i8 := he
    rfl
  · cases ht

end Shapes

section Flow

variable {ω : Type} {m : Processor ω} {i : Instr} {E : Env} {p : Phase} {hidden : Nat → Prop}
  {first : Val} {σ σ' : List Kind} {c c' : Cfg ω}

theorem Flows.stored {st stack : List Val} {h' : Heap}
    (hv : E.Valid p c.heap hidden hidden first σ c.locals st)
    (hc : Change hidden c.heap h') (hs : SoundHeap h' hidden)
    (hst : AllHold c.heap hidden hidden first σ' stack) :
    Flows E p hidden hidden first σ' c { c with heap := h', stack := stack } :=
  ⟨hc, hs, .refl _ _, fun _ ha => ha, fun _ _ ha => ha,
    (hv.restack hst).mono hc.later (.refl _ _) fun _ ha => ha⟩

/-- A new cell that is not hidden. -/
theorem Flows.made (hs : SoundHeap c.heap hidden) {st stack : List Val} {t : Int} {cell : Cell}
    (hv : E.Valid p c.heap hidden hidden first σ c.locals st)
    (hcell : SoundCell (c.heap.push cell) hidden cell) (ht : cell.type = t)
    (hst : AllHold c.heap hidden hidden first σ' stack) :
    Flows E p hidden hidden first (.typed (.ref t) :: σ') c
      { c with heap := c.heap.push cell, stack := .ref c.heap.size :: stack } := by
  have hl := Later.push c.heap cell
  have hsound := hs.push (.refl _ _) (fun a ha => Nat.lt_succ_of_lt (hs.within a ha)) hcell
  refine ⟨.made cell, hsound, .refl _ _, fun _ ha => ha, fun _ _ ha => ha, ?_⟩
  have hv' := (hv.restack hst).mono hl (.refl _ _) fun _ ha => ha
  refine hv'.restack (.cons (.inr ⟨_, cell, rfl, ?_, .inr ht, fun ha => ?_⟩) hv'.stack)
  · simp
  · exact absurd (hs.within _ ha) (Nat.lt_irrefl _)

theorem flows_local {j : Int} {k : Kind} {v : Val} {st : List Val} {ls : List Val}
    (hs : SoundHeap c.heap hidden)
    (hv : E.Valid p c.heap hidden hidden first (k :: σ) c.locals (v :: st))
    (hk : E.admits p j k = true) (hset : setLocal? c.locals v j = some ls) {stack : List Val}
    (hst : AllHold c.heap hidden hidden first σ' stack) :
    Flows E p hidden hidden first σ' c { c with locals := ls, stack := stack } := by
  refine ⟨.none, hs, .refl _ _, fun _ ha => ha, fun _ _ ha => ha, hst, ?_, hv.known⟩
  cases j with
  | negSucc => cases hset
  | ofNat n =>
    simp only [setLocal?] at hset
    split at hset
    · cases hset
      unfold Env.admits Env.kind? at hk
      split at hk
      · rename_i w hw
        cases hv.stack with
        | cons hkv _ => exact forall₂_set hv.locals hw (hkv.fit hv.known hk)
      · cases hk
    · cases hset

/-! ### References -/

theorem flows_refCast {t : Int} {k : Kind} (hs : SoundHeap c.heap hidden)
    (hv : E.Valid p c.heap hidden hidden first (k :: σ) c.locals c.stack)
    (hf : E.flow p (.refCast t) (k :: σ) = some σ') (he : m.effect (.refCast t) c = .next c') :
    Flows E p hidden hidden first σ' c c' := by
  obtain ⟨v, st, hc, hcast, rfl⟩ := effect_refCast he
  have hst := hv.stack
  rw [hc] at hst
  cases hst with
  | cons hk hst =>
    have hadm (hany : Admits c'.heap hidden .anyref v) : Admits c'.heap hidden (.ref t) v := by
      rcases hcast with rfl | ht
      · exact .inl rfl
      · rcases hany with rfl | ⟨a, cell, rfl, hcell, -, hn⟩
        · exact .inl rfl
        · exact .inr ⟨a, cell, rfl, hcell, .inr (typeOf_ref hcell ▸ ht), hn⟩
    refine ⟨.none, hs, .refl _ _, fun _ ha => ha, fun _ _ ha => ha, hv.restack ?_⟩
    rw [hc]
    unfold Env.flow at hf
    dsimp only at hf
    split at hf
    · rename_i hd
      obtain ⟨rfl, rfl⟩ := hd
      cases hf
      refine .cons ⟨hadm hk.1, fun hn => hk.2 ?_⟩ hst
      exact hcast.resolve_left hn
    · split at hf
      · rename_i hany
        cases hf
        exact .cons (hadm (hk.fit hv.known hany)) hst
      · cases hf

/-! ### Records -/

theorem field?_eq {t f : Int} {type : ValType} (hf : Shape.field? t f = some type) :
    ∃ types n, Shape.fields? t = some types ∧ f = (n : Nat) ∧ types[n]? = some type := by
  unfold Shape.field? at hf
  split at hf
  · rename_i types n ht
    exact ⟨types, n, ht, rfl, hf⟩
  · cases hf

theorem flows_structGet {t f : Int} {k : Kind} (hs : SoundHeap c.heap hidden)
    (hv : E.Valid p c.heap hidden hidden first (k :: σ) c.locals c.stack)
    (hf : E.flow p (.structGet t f) (k :: σ) = some σ')
    (he : m.effect (.structGet t f) c = .next c') : Flows E p hidden hidden first σ' c c' := by
  obtain ⟨a, t', fields, v, st, hc, hcell, hat, rfl⟩ := effect_structGet he
  have hst := hv.stack
  rw [hc] at hst
  cases hst with
  | cons hk hst =>
    refine Flows.still hs hv ?_
    -- What is read has the type of the field.
    have hread {types : List ValType} {n : Nat} {type : ValType} (ht : Shape.fields? t = some types)
        (hn : types[n]? = some type) (hfn : f = n) (hr : Admits c.heap hidden (.ref t) (.ref a)) :
        t' = t ∧ Admits c.heap hidden type v := by
      obtain ⟨rfl, htypes⟩ := hs.record ht hr hcell
      subst hfn
      refine ⟨rfl, forall₂_getElem? htypes hn ?_⟩
      rw [Array.getElem?_toList]
      exact hat
    unfold Env.flow at hf
    dsimp only at hf
    split at hf
    · rename_i hd
      obtain ⟨rfl, rfl, rfl⟩ := hd
      cases hf
      obtain ⟨hfirst, hadm⟩ := hk
      obtain ⟨rfl, hany⟩ := hread (n := ValueField.ref.index) rfl rfl rfl hadm
      refine .cons ⟨hany, fun hd => ?_⟩ hst
      -- A value that refers to a vector is an array.
      have htag : Tagged c.heap fields := (hs.cells a _ hcell).2 rfl
      rcases hany with rfl | ⟨b, cell, rfl, hb, -, -⟩
      · exact absurd hd (typeOf_null _)
      obtain ⟨cell', hb', hcase⟩ := htag b hat
      obtain rfl := Option.some.inj (hb'.symm.trans hb)
      rw [typeOf_ref hb] at hd
      rcases hcase with ⟨-, harr⟩ | ⟨hobj, -⟩
      · exact hfirst ▸ ⟨a, fields, rfl, hcell, harr⟩
      · exact absurd (hd.symm.trans hobj) (by decide)
    · split at hf
      · rename_i hr
        obtain ⟨type, hfield, rfl⟩ := Option.map_eq_some_iff.1 hf
        obtain ⟨types, n, ht, hfn, hn⟩ := field?_eq hfield
        exact .cons (hread ht hn hfn (hk.fit hv.known hr)).2 hst
      · cases hf

theorem flows_structSet {t f : Int} {k record : Kind} (hs : SoundHeap c.heap hidden)
    (hv : E.Valid p c.heap hidden hidden first (k :: record :: σ) c.locals c.stack)
    (hf : E.stores p t f record k = true) (he : m.effect (.structSet t f) c = .next c') :
    Flows E p hidden hidden first σ c c' := by
  obtain ⟨a, t', fields, v, st, hc, hcell, rfl⟩ := effect_structSet he
  have hst := hv.stack
  simp only [hc, List.forall₂_cons] at hst
  obtain ⟨hk, hrec, hst⟩ := hst
  unfold Env.stores at hf
  split at hf
  · rename_i ht
    rw [Bool.and_eq_true, Bool.and_eq_true, beq_iff_eq] at hf
    obtain ⟨⟨hknown, rfl⟩, hf⟩ := hf
    obtain ⟨a', fields', ha, hcell', htag⟩ := hv.known hknown
    obtain rfl : a = a' := Val.ref.inj (hrec.1.trans ha)
    cases hcell.symm.trans hcell'
    rw [Bool.or_eq_true, Bool.and_eq_true, Bool.and_eq_true, beq_iff_eq, beq_iff_eq] at hf
    rcases hf with ⟨rfl, hint⟩ | ⟨rfl, href⟩
    · have hadm : Admits c.heap hidden .i64 v := hk.fit (fun _ => hv.known hknown) hint
      refine .stored hv (.arrayValue (f := .int) hcell htag (.inl rfl)) ?_ hst
      refine hs.setField hcell rfl (f := ValueField.int.index) rfl hadm fun _ =>
        ⟨by decide, fun b hb => ?_⟩
      rw [Array.getElem?_setIfInBounds_ne (by decide)] at hb ⊢
      exact (hs.cells a _ hcell).2 rfl b hb
    · have hadm : Admits c.heap hidden Shape.denseRef v :=
        hk.fit (fun _ => hv.known hknown) href
      refine .stored hv (.arrayValue (f := .ref) hcell htag (.inr rfl)) ?_ hst
      refine hs.setField hcell rfl (f := ValueField.ref.index) rfl hadm.any fun _ =>
        ⟨by decide, fun b hb => ?_⟩
      rw [Array.getElem?_setIfInBounds_ne (by decide)]
      have hvb : v = .ref b := by
        rw [Array.getElem?_setIfInBounds] at hb
        simp only [if_true] at hb
        split at hb
        · exact Option.some.inj hb
        · cases hb
      subst hvb
      rcases hadm with hadm | ⟨b', cell, hb', hcb, hty, -⟩
      · cases hadm
      · cases hb'
        exact ⟨cell, hcb, .inl ⟨.inl (hty.resolve_left (by decide)), htag⟩⟩
  · rename_i hval
    rw [Bool.and_eq_true, Bool.and_eq_true] at hf
    obtain ⟨⟨hwhere, hr⟩, hfill⟩ := hf
    unfold Env.fills at hfill
    split at hfill
    · rename_i type hfield
      obtain ⟨types, n, ht, rfl, hn⟩ := field?_eq hfield
      obtain ⟨rfl, -⟩ := hs.record ht (hrec.fit hv.known hr) hcell
      have hadm : Admits c.heap hidden type v := hk.fit hv.known hfill
      have hsound := hs.setField hcell ht hn hadm fun he => absurd he hval
      rw [Int.toNat_natCast]
      refine .stored hv ?_ hsound hst
      rw [Bool.or_eq_true, Bool.and_eq_true, Bool.or_eq_true] at hwhere
      simp only [beq_iff_eq] at hwhere
      rcases hwhere with rfl | ⟨rfl, hn' | hn'⟩
      · have hlt : n < 4 := by
          obtain rfl := Option.some.inj ht
          exact (List.getElem?_eq_some_iff.1 hn).1
        obtain rfl | rfl | rfl | rfl : n = 0 ∨ n = 1 ∨ n = 2 ∨ n = 3 := by omega
        · exact .table (f := .buckets) hcell
        · exact .table (f := .bucketCount) hcell
        · exact .table (f := .count) hcell
        · exact .table (f := .nextKey) hcell
      · obtain rfl : n = EntryField.value.index := by exact_mod_cast hn'
        exact .entry hcell (.inl rfl)
      · obtain rfl : n = EntryField.next.index := by exact_mod_cast hn'
        exact .entry hcell (.inr rfl)
    · cases hfill

theorem suits_any {h : Heap} {mine : Nat → Prop} {known : Bool}
    (hknown : known = true → IsArray h first) {tag : Int} {k : Kind} {r : Val}
    (hk : k.suits known tag = true) (hr : k.Holds h hidden mine first r) :
    Admits h hidden .anyref r := by
  unfold Kind.suits at hk
  simp only [Bool.or_eq_true, Bool.and_eq_true, beq_iff_eq] at hk
  rcases hk with (rfl | ⟨-, hk | hk⟩) | ⟨-, hk⟩
  · exact .inl hr
  all_goals exact Admits.any (hr.fit hknown hk)

/-- The reference of a new value suits its tag. -/
theorem suits_tagged {h : Heap} {mine : Nat → Prop} {known : Bool}
    (hknown : known = true → IsArray h first) {tag : Int} {k : Kind} {r : Val} {fields : Array Val}
    (hk : k.suits known tag = true) (hr : k.Holds h hidden mine first r)
    (htag : fields[ValueField.tag.index]? = some (.i32 (Int32.ofInt tag)))
    (href : fields[ValueField.ref.index]? = some r) : Tagged h fields := by
  intro a ha
  obtain rfl := Option.some.inj (href.symm.trans ha)
  unfold Kind.suits at hk
  have hcell {t : Int} (ht : t ≠ anyHeap) (hadm : Admits h hidden (.ref t) (.ref a)) :
      ∃ c, h[a]? = some c ∧ c.type = t := by
    rcases hadm with hadm | ⟨b, c, hb, hc, hty, -⟩
    · cases hadm
    · cases hb
      exact ⟨c, hc, hty.resolve_left ht⟩
  simp only [Bool.or_eq_true, Bool.and_eq_true, beq_iff_eq] at hk
  rcases hk with (rfl | ⟨rfl, hk | hk⟩) | ⟨rfl, hk⟩
  · cases hr
  · obtain ⟨c, hc, hty⟩ := hcell (by decide) (hr.fit hknown hk)
    exact ⟨c, hc, .inl ⟨.inl hty, by rw [htag, Int32.ofInt_toInt]⟩⟩
  · obtain ⟨c, hc, hty⟩ := hcell (by decide) (hr.fit hknown hk)
    exact ⟨c, hc, .inl ⟨.inr hty, by rw [htag, Int32.ofInt_toInt]⟩⟩
  · obtain ⟨c, hc, hty⟩ := hcell (by decide) (hr.fit hknown hk)
    exact ⟨c, hc, .inr ⟨hty, by rw [htag, Int32.ofInt_toInt]⟩⟩

theorem flows_structNew {t : Int} (hm : Shaped m) (hs : SoundHeap c.heap hidden)
    (hv : E.Valid p c.heap hidden hidden first σ c.locals c.stack)
    (hf : E.makes p t σ = some σ') (he : m.effect (.structNew t) c = .next c') :
    Flows E p hidden hidden first σ' c c' := by
  obtain ⟨d, hd, hlen, rfl⟩ := effect_structNew he
  have hst := hv.stack
  unfold Env.makes at hf
  split at hf
  · rename_i ht
    subst ht
    split at hf
    · rename_i ref str float int tag σ
      split at hf
      · rename_i hk
        cases hf
        simp only [Bool.and_eq_true] at hk
        obtain ⟨⟨⟨hint, hfloat⟩, hstr⟩, href⟩ := hk
        obtain ⟨d', hd', hcount⟩ := hm.record (t := Shape.value) rfl
        obtain rfl := Option.some.inj (hd'.symm.trans hd)
        rw [hcount]
        generalize c.stack = stack at hst hv hlen ⊢
        simp only [List.forall₂_cons_left_iff] at hst
        obtain ⟨r, _, hr, ⟨x, _, hx, ⟨y, _, hy, ⟨z, _, hz, ⟨w, st, hw, hbelow, rfl⟩, rfl⟩, rfl⟩, rfl⟩,
          rfl⟩ := hst
        obtain rfl : w = .i32 (Int32.ofInt tag) := hw
        let cell : Cell := .struct Shape.value #[.i32 (Int32.ofInt tag), z, y, x, r]
        change Flows E p hidden hidden first _ c { c with
          heap := c.heap.push cell, stack := .ref c.heap.size :: st }
        have hl := Later.push c.heap cell
        have htyped {k : Kind} {t : ValType} {v : Val} (hk : k.fits (E.known p) (.typed t) = true)
            (hkv : k.Holds c.heap hidden hidden first v) :
            Admits (c.heap.push cell) hidden t v :=
          Admits.mono hl (.refl _ _) (hkv.fit hv.known hk)
        have hany := (suits_any hv.known href hr).mono hl (.refl _ hidden)
        have hcell : SoundCell (c.heap.push cell) hidden cell :=
          ⟨⟨_, rfl, .cons ⟨_, rfl⟩ (.cons (htyped hint hz) (.cons (htyped hfloat hy)
            (.cons (htyped hstr hx) (.cons hany .nil))))⟩,
            fun _ => (suits_tagged hv.known href hr rfl rfl).mono hl⟩
        exact .made hs hv hcell rfl hbelow
      · cases hf
    · cases hf
  · rename_i hne
    split at hf
    · rename_i ts ht
      split at hf
      · rename_i hk
        cases hf
        obtain ⟨d', hd', hcount⟩ := hm.record ht
        obtain rfl := Option.some.inj (hd'.symm.trans hd)
        rw [hcount]
        let cell : Cell := .struct t (c.stack.take ts.length).reverse.toArray
        have hl := Later.push c.heap cell
        have hfields : List.Forall₂ (Admits c.heap hidden) ts (c.stack.take ts.length).reverse := by
          have htop := AllHold.fit hv.known hk (List.forall₂_take ts.length hst)
          rw [allHold_typed] at htop
          simpa using List.forall₂_reverse_iff.2 htop
        have hcell : SoundCell (c.heap.push cell) hidden cell :=
          ⟨⟨ts, ht, hfields.imp fun _ _ hv => hv.mono hl (.refl _ _)⟩, fun hval => absurd hval hne⟩
        exact .made hs hv hcell rfl (List.forall₂_drop ts.length hst)
      · cases hf
    · cases hf

/-! ### Arrays -/

theorem Env.reads_array {h : Heap} {t t' : Int} {k : Kind} {a : Nat} {elems : Array Val}
    {e : ValType} (hs : SoundHeap h hidden) (hknown : E.known p = true → IsArray h first)
    (hk : E.reads p t k = true) (ht : Shape.elem? t = some e)
    (hv : k.Holds h hidden hidden first (.ref a)) (hc : h[a]? = some (.array t' elems)) :
    t' = t ∧ ∀ v ∈ elems, Admits h hidden e v := by
  unfold Env.reads at hk
  rw [Bool.or_eq_true, Bool.and_eq_true, beq_iff_eq, beq_iff_eq] at hk
  rcases hk with ⟨rfl, rfl⟩ | hk
  · rcases hv with hv | ⟨b, elems', hb, -, hc'⟩
    · cases hv
    · cases hb
      cases hc'.symm.trans hc
      obtain ⟨e', he', hf⟩ := hs.cells a _ hc
      obtain rfl := Option.some.inj (he'.symm.trans ht)
      exact ⟨rfl, hf⟩
  · exact hs.array ht (hv.fit hknown hk) hc

theorem Env.writes_array {h : Heap} {t t' : Int} {k : Kind} {a : Nat} {elems : Array Val}
    {e : ValType} (hs : SoundHeap h hidden) (hknown : E.known p = true → IsArray h first)
    (hk : E.writes p t k = true) (ht : Shape.elem? t = some e)
    (hv : k.Holds h hidden hidden first (.ref a)) (hc : h[a]? = some (.array t' elems)) :
    t' = t ∧ (∀ v ∈ elems, Admits h hidden e v) ∧
      (t = Shape.dense ∨ t = Shape.buckets ∨ (t = Shape.bytes ∧ hidden a)) := by
  unfold Env.writes at hk
  split at hk
  · rename_i hb
    subst hb
    obtain rfl := beq_iff_eq.1 hk
    obtain ⟨rfl, helems⟩ := Env.reads_array (E := E) (p := p) hs hknown rfl ht hv hc
    rcases hv with hv | ⟨b, elems', hb, hmine, -⟩
    · cases hv
    · cases hb
      exact ⟨rfl, helems, .inr (.inr ⟨rfl, hmine⟩)⟩
  · rw [Bool.and_eq_true, Bool.or_eq_true, beq_iff_eq, beq_iff_eq] at hk
    obtain ⟨rfl, helems⟩ := hs.array ht (hv.fit hknown hk.2) hc
    refine ⟨rfl, helems, ?_⟩
    rcases hk.1 with hk | hk
    · exact .inl hk
    · exact .inr (.inl hk)

theorem writes_elem {t : Int} {k : Kind} (hk : E.writes p t k = true) :
    ∃ e, Shape.elem? t = some e := by
  unfold Env.writes at hk
  split at hk
  · rename_i hb
    exact ⟨.i32, hb ▸ rfl⟩
  · rw [Bool.and_eq_true, Bool.or_eq_true, beq_iff_eq, beq_iff_eq] at hk
    rcases hk.1 with hk | hk
    · exact ⟨Shape.valueRef, hk ▸ rfl⟩
    · exact ⟨Shape.entryRef, hk ▸ rfl⟩

theorem flows_arrayNewDefault {t : Int} {k : Kind} (hm : Shaped m) (hs : SoundHeap c.heap hidden)
    (hv : E.Valid p c.heap hidden hidden first (k :: σ) c.locals c.stack)
    (hf : E.flow p (.arrayNewDefault t) (k :: σ) = some σ')
    (he : m.effect (.arrayNewDefault t) c = .next c') :
    ∃ hidden', Flows E p hidden hidden' first σ' c c' := by
  obtain ⟨n, st, d, hc, hd, rfl⟩ := effect_arrayNewDefault he
  have hst := hv.stack
  rw [hc] at hst
  cases hst with
  | cons hk hst =>
  unfold Env.flow at hf
  dsimp only at hf
  split at hf
  · rename_i ht
    rw [Bool.and_eq_true, Option.isSome_iff_exists] at ht
    obtain ⟨-, e, ht⟩ := ht
    obtain ⟨d', hd', helem⟩ := hm.array ht
    obtain rfl := Option.some.inj (hd'.symm.trans hd)
    have hzero (h : Heap) (hidden : Nat → Prop) : Admits h hidden e (Val.zero d'.elem) := by
      rcases helem with ⟨h8, rfl⟩ | ⟨rfl, -⟩
      · rw [h8]
        exact ⟨0, rfl⟩
      · exact admits_zero ..
    let cell : Cell := .array t (Array.replicate n.toInt.toNat (Val.zero d'.elem))
    have hcell (hidden : Nat → Prop) : SoundCell (c.heap.push cell) hidden cell := by
      refine ⟨e, ht, fun v hmem => ?_⟩
      rw [(Array.mem_replicate.1 hmem).2]
      exact hzero _ _
    split at hf
    · rename_i hown
      obtain ⟨rfl, rfl⟩ := hown
      cases hf
      -- The new buffer is hidden from now on.
      let hidden' : Nat → Prop := fun a => hidden a ∨ a = c.heap.size
      have hh : Reveals c.heap hidden hidden' := by
        rintro a (ha | rfl)
        · exact .inl ha
        · exact .inr (Nat.le_refl _)
      have hw : ∀ a, hidden' a → a < c.heap.size + 1 := by
        rintro a (ha | rfl)
        · exact Nat.lt_succ_of_lt (hs.within a ha)
        · exact Nat.lt_succ_self _
      have hv' : E.Valid _ (c.heap.push cell) hidden' hidden' first σ c.locals st :=
        (hv.restack hst).mono (Later.push c.heap cell) hh fun _ => .inl
      refine ⟨hidden', .made cell, hs.push hh hw (hcell hidden'), hh, fun _ => .inl,
        fun hp => absurd rfl hp, hv'.restack (.cons ?_ hv'.stack)⟩
      exact .inr ⟨_, _, rfl, .inr rfl, Array.getElem?_push_size⟩
    · cases hf
      exact ⟨hidden, .made hs hv (hcell hidden) rfl hst⟩
  · cases hf

theorem flows_arraySet {t : Int} {k n array : Kind} (hm : Shaped m) (hs : SoundHeap c.heap hidden)
    (hv : E.Valid p c.heap hidden hidden first (k :: n :: array :: σ) c.locals c.stack)
    (hw : E.writes p t array = true) (hk : E.fills p k (Shape.elem? t) = true)
    (he : m.effect (.arraySet t) c = .next c') : Flows E p hidden hidden first σ c c' := by
  obtain ⟨v, n, a, t', elems, st, d, stored, j, hc, hcell, hd, hstored, rfl⟩ := effect_arraySet he
  have hst := hv.stack
  simp only [hc, List.forall₂_cons] at hst
  obtain ⟨hkv, -, harr, hst⟩ := hst
  obtain ⟨e, ht⟩ := writes_elem hw
  obtain ⟨rfl, helems, hwhere⟩ := Env.writes_array hs hv.known hw ht harr hcell
  rw [ht] at hk
  have hadm : Admits c.heap hidden e v := hkv.fit hv.known hk
  have hstore : Admits c.heap hidden e stored := by
    obtain ⟨d', hd', helem⟩ := hm.array ht
    obtain rfl := Option.some.inj (hd'.symm.trans hd)
    rcases helem with ⟨h8, rfl⟩ | ⟨rfl, hne⟩
    · rw [if_pos h8] at hstored
      exact hstored
    · rw [if_neg hne] at hstored
      exact hstored ▸ hadm
  rw [setElem_eq hcell]
  refine .stored hv (.elements hcell (by simp) hwhere) (hs.setArray hcell ht fun u hu => ?_) hst
  rcases Array.mem_or_eq_of_mem_setIfInBounds hu with hu | rfl
  · exact helems u hu
  · exact hstore

theorem flows_arrayCopy {t : Int} {n start source place target : Kind} (hs : SoundHeap c.heap hidden)
    (hv : E.Valid p c.heap hidden hidden first (n :: start :: source :: place :: target :: σ) c.locals
      c.stack)
    (hw : E.writes p t target = true) (hr : E.reads p t source = true)
    (he : m.effect (.arrayCopy t t) c = .next c') : Flows E p hidden hidden first σ c c' := by
  obtain ⟨n₁, n₂, n₃, src, dst, ts, tt, selems, telems, st, _, moved, hc, hsrc, hdst, hmoved,
    rfl⟩ := effect_arrayCopy he
  have hst := hv.stack
  simp only [hc, List.forall₂_cons] at hst
  obtain ⟨-, -, hsource, -, htarget, hst⟩ := hst
  obtain ⟨e, ht⟩ := writes_elem hw
  obtain ⟨rfl, htelems, hwhere⟩ := Env.writes_array hs hv.known hw ht htarget hdst
  obtain ⟨-, hselems⟩ := Env.reads_array hs hv.known hr ht hsource hsrc
  rw [setElems_eq hdst]
  refine .stored hv (.elements hdst (by simp) hwhere) (hs.setArray hdst ht fun u hu => ?_) hst
  rcases mem_write hu with hu | hu
  · exact htelems u hu
  · exact hselems u (hmoved u hu)

/-! ### All instructions -/

theorem flows_numeric {args : List ValType} {k : Kind} (hs : SoundHeap c.heap hidden)
    (hv : E.Valid p c.heap hidden hidden first σ c.locals c.stack)
    (hn : numeric? i = some (args, k)) (he : m.effect i c = .next c') :
    Flows E p hidden hidden first (k :: σ.drop args.length) c c' := by
  obtain ⟨v, rfl, hk⟩ := effect_numeric hn he
  exact .still hs hv (.cons (hk hidden hidden first) (List.forall₂_drop _ hv.stack))

/-- An instruction of disciplined code keeps the heap sound and stores only where it may. -/
theorem flow_sound (hm : Shaped m) (hs : SoundHeap c.heap hidden)
    (hv : E.Valid p c.heap hidden hidden first σ c.locals c.stack)
    (hf : E.flow p i σ = some σ') (he : m.effect i c = .next c') :
    ∃ hidden', Flows E p hidden hidden' first σ' c c' := by
  have still {ks : List Kind} {st : List Val} (hst : AllHold c.heap hidden hidden first ks st) :
      ∃ hidden', Flows E p hidden hidden' first ks c { c with stack := st } :=
    ⟨hidden, .still hs hv hst⟩
  unfold Env.flow at hf
  split at hf
  case h_1 =>
    cases hf
    cases he
    exact still hv.stack
  case h_2 =>
    cases hf
    obtain ⟨v, st, hc, rfl⟩ := effect_drop he
    exact still (List.forall₂_cons.1 (hc ▸ hv.stack)).2
  case h_3 j =>
    obtain ⟨k, hk, rfl⟩ := Option.map_eq_some_iff.1 hf
    obtain ⟨v, hl, rfl⟩ := effect_localGet_next he
    refine still (.cons ?_ hv.stack)
    cases j with
    | ofNat n => exact forall₂_getElem? hv.locals hk hl
    | negSucc => cases hl
  case h_4 j k σ =>
    split at hf
    · rename_i hk
      cases hf
      obtain ⟨v, st, ls, hc, hl, rfl⟩ := effect_localSet_next he
      rw [hc] at hv
      exact ⟨hidden, flows_local hs hv hk hl (List.forall₂_cons.1 hv.stack).2⟩
    · cases hf
  case h_5 j k σ =>
    split at hf
    · rename_i hk
      cases hf
      obtain ⟨v, st, ls, hc, hl, rfl⟩ := effect_localTee_next he
      exact ⟨hidden, flows_local hs (hc ▸ hv) hk hl hv.stack⟩
    · cases hf
  case h_6 =>
    cases hf
    obtain rfl := effect_push rfl he
    exact still (.cons rfl hv.stack)
  case h_7 =>
    cases hf
    obtain ⟨v, r, st, hc, hr, rfl⟩ :=
      effect_replaceTop (f := fun v => some (.ofBool v.isNull)) rfl he
    cases hr
    exact still (.cons ⟨_, rfl⟩ (List.forall₂_cons.1 (hc ▸ hv.stack)).2)
  case h_8 =>
    cases hf
    obtain ⟨v, u, r, st, hc, hr, rfl⟩ :=
      effect_combine (f := fun v u => some (.ok (.ofBool (v.same u)))) rfl he
    cases hr
    have hbelow := (List.forall₂_cons.1 (hc ▸ hv.stack)).2
    exact still (.cons ⟨_, rfl⟩ (List.forall₂_cons.1 hbelow).2)
  case h_9 =>
    cases hf
    obtain ⟨v, st, x, hc, rfl⟩ := effect_refTest he
    exact still (.cons ⟨x, rfl⟩ (List.forall₂_cons.1 (hc ▸ hv.stack)).2)
  case h_10 => exact ⟨hidden, flows_refCast hs hv hf he⟩
  case h_11 => exact ⟨hidden, flows_structNew hm hs hv hf he⟩
  case h_12 => exact ⟨hidden, flows_structGet hs hv hf he⟩
  case h_13 =>
    split at hf
    · rename_i hk
      cases hf
      exact ⟨hidden, flows_structSet hs hv hk he⟩
    · cases hf
  case h_14 => exact flows_arrayNewDefault hm hs hv hf he
  case h_15 =>
    split at hf
    · rename_i hk
      obtain ⟨rfl, -⟩ := hk
      cases hf
      obtain ⟨u, v, st, bs, hc, rfl⟩ := effect_arrayNewData he
      have hbelow := (List.forall₂_cons.1 (hc ▸ hv.stack)).2
      refine ⟨hidden, .made hs hv ⟨.i32, rfl, fun v hmem => ?_⟩ rfl (List.forall₂_cons.1 hbelow).2⟩
      simp only [List.mem_toArray, List.mem_map] at hmem
      obtain ⟨b, -, rfl⟩ := hmem
      exact ⟨_, rfl⟩
    · cases hf
  case h_16 =>
    split at hf
    · rename_i hk
      rw [Bool.and_eq_true] at hk
      obtain ⟨e, ht, rfl⟩ := Option.map_eq_some_iff.1 hf
      obtain ⟨n, a, t', elems, v, st, hc, hcell, hmem, rfl⟩ := effect_arrayGet (.inl rfl) he
      have hbelow := (List.forall₂_cons.1 (hc ▸ hv.stack)).2
      obtain ⟨harr, hst⟩ := List.forall₂_cons.1 hbelow
      exact still (.cons ((hs.array ht (harr.fit hv.known hk.2) hcell).2 v hmem) hst)
    · cases hf
  case h_17 =>
    split at hf
    · rename_i hk
      rw [Bool.and_eq_true] at hk
      obtain ⟨rfl, -, hk⟩ := hk
      cases hf
      obtain ⟨n, a, t', elems, v, st, hc, hcell, hmem, rfl⟩ := effect_arrayGet (.inr rfl) he
      have hbelow := (List.forall₂_cons.1 (hc ▸ hv.stack)).2
      obtain ⟨harr, hst⟩ := List.forall₂_cons.1 hbelow
      exact still (.cons ((Env.reads_array hs hv.known hk rfl harr hcell).2 v hmem) hst)
    · cases hf
  case h_18 =>
    split at hf
    · rename_i hk
      rw [Bool.and_eq_true, Bool.and_eq_true] at hk
      cases hf
      exact ⟨hidden, flows_arraySet hm hs hv hk.1.2 hk.2 he⟩
    · cases hf
  case h_19 =>
    cases hf
    obtain ⟨a, t, elems, st, x, hc, -, rfl⟩ := effect_arrayLen he
    exact still (.cons ⟨x, rfl⟩ (List.forall₂_cons.1 (hc ▸ hv.stack)).2)
  case h_20 =>
    split at hf
    · rename_i hk
      rw [Bool.and_eq_true, Bool.and_eq_true] at hk
      obtain ⟨rfl, ⟨-, hw⟩, hr⟩ := hk
      cases hf
      exact ⟨hidden, flows_arrayCopy hs hv hw hr he⟩
    · cases hf
  case h_21 =>
    split at hf
    · rename_i args k hn
      split at hf
      · cases hf
        exact ⟨hidden, flows_numeric hs hv hn he⟩
      · cases hf
    · cases hf

end Flow

end HeapScript.Library
