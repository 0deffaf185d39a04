import HeapScript.Proofs.Compile.Statements
import HeapScript.Proofs.Machine.Modules
import HeapScript.Proofs.Memory.Fragments

/-!
# The code of programs keeps to the discipline

While a function is drafted, its locals, variables and helpers only grow in number. What is drafted
keeps to the discipline once all locals have the types that they have in the end.
-/

namespace HeapScript.Compile

open Machine Library

/-! ## Drafts -/

def Rep.types : Rep → List ValType
  | .void => []
  | r => [r.valType]

theorem Rep.resultKinds_valType (r : Rep) :
    resultKinds r.valType = r.types.reverse.map Kind.typed := by
  cases r <;> rfl

theorem Rep.types_eq {r : Rep} (h : r ≠ .void) : r.types = [r.valType] := by
  cases r <;> first | rfl | exact absurd rfl h

def Helper.params : Helper → List ValType
  | .dispatcher _ args => boxedParams (args + 1)
  | .slotFinder _ => [.i32]

def Helper.results : Helper → List ValType
  | .dispatcher .. => [Shape.valueRef]
  | .slotFinder _ => [.i32]

/-- Temporaries and variables have locals of the right types, and no local is both. -/
structure Draft.Proper (d : Draft) : Prop where
  refType : d.layout.refType = Shape.valueRef
  temps : ∀ s k, d.layout.kindOf? s = some k → d.layout.typeOf? s = some (d.layout.slotType k)
  vars : ∀ n v, d.vars.lookup n = some v → d.layout.typeOf? v.slot = some v.rep.valType
  apart : ∀ n v, d.vars.lookup n = some v → d.layout.kindOf? v.slot = none

/-- All that a draft has found is in a later one. -/
structure Draft.Before (d D : Draft) : Prop where
  params : D.layout.params = d.layout.params
  slots : ∀ i t, d.layout.typeOf? i = some t → D.layout.typeOf? i = some t
  vars : ∀ n v, d.vars.lookup n = some v → D.vars.lookup n = some v
  temps : ∀ s k, d.layout.kindOf? s = some k → D.layout.kindOf? s = some k
  helpers : ∀ (i : Nat) (h : Helper), d.pool.helpers[i]? = some h → D.pool.helpers[i]? = some h
  strings : ∀ (i : Nat) (s : Bytes), d.pool.strings[i]? = some s → D.pool.strings[i]? = some s

theorem Draft.Before.refl (d : Draft) : d.Before d :=
  ⟨rfl, fun _ _ h => h, fun _ _ h => h, fun _ _ h => h, fun _ _ h => h, fun _ _ h => h⟩

theorem Draft.Before.trans {d d' D : Draft} (h : d.Before d') (h' : d'.Before D) : d.Before D :=
  ⟨h'.params.trans h.params, fun i t ht => h'.slots i t (h.slots i t ht),
    fun n v hv => h'.vars n v (h.vars n v hv), fun s k hk => h'.temps s k (h.temps s k hk),
    fun i k hk => h'.helpers i k (h.helpers i k hk), fun i s hs => h'.strings i s (h.strings i s hs)⟩

/-- Code may call the library and the functions of a program. -/
structure Knows (E : Env) (d : Declarations) (l : Links) : Prop where
  routine : ∀ r, E.sig (l.index r) = some (r.params, r.results)
  echo : E.sig l.echo = some ([Shape.bytesRef], [])
  render : E.sig l.floatToBytes = some ([.f64], [Shape.bytesRef])
  function : ∀ f ∈ d.functions, E.sig f.index = some (boxedParams f.arity, [Shape.valueRef])
  create : ∀ k ∈ d.classes, E.sig k.create = some (boxedParams k.arity, [Shape.valueRef])
  method : ∀ k ∈ d.classes, ∀ m ∈ k.methods,
    E.sig m.index = some (boxedParams (m.arity + 1), [Shape.valueRef])

/-- The code of a function whose draft ends as `D` may rely on its locals, the library and the
functions of the program. -/
structure Serves (E : Env) (c : Context) (D : Draft) : Prop extends Knows E c.decls c.links where
  results : E.results = if c.isMain then [] else [Shape.valueRef]
  slots : ∀ i t, D.layout.typeOf? i = some t → E.Slot i t
  helpers : ∀ (i : Nat) (h : Helper), D.pool.helpers[i]? = some h →
    E.sig (c.helperBase + i : Nat) = some (h.params, h.results)

theorem Serves.call {E : Env} {c : Context} {D : Draft} (h : Serves E c D) (r : Routine) :
    Turns E (c.links.call r) r.params r.results := turns_call (h.routine r)

/-! ## Layouts and pools -/

theorem typeOf_declare {l : Layout} (t : ValType) {i : Nat} {u : ValType}
    (h : l.typeOf? i = some u) : (l.declare t).2.typeOf? i = some u := by
  unfold Layout.typeOf? Layout.declare at *
  dsimp only
  split at h
  · rename_i hi
    rw [if_pos hi, h]
  · rename_i hi
    rw [if_neg hi, Array.getElem?_push_lt (Array.getElem?_eq_some_iff.1 h).1,
      ← Array.getElem?_eq_getElem, h]

theorem typeOf_declared (l : Layout) (t : ValType) :
    (l.declare t).2.typeOf? (l.declare t).1 = some t := by
  have h : ¬ l.params.length + l.locals.size < l.params.length := by omega
  unfold Layout.typeOf? Layout.declare Layout.size
  dsimp only
  rw [if_neg h, Nat.add_sub_cancel_left, Array.getElem?_push_size]

theorem lt_size_of_typeOf {l : Layout} {i : Nat} {t : ValType} (h : l.typeOf? i = some t) :
    i < l.size := by
  unfold Layout.typeOf? at h
  unfold Layout.size
  split at h
  · omega
  · have := (Array.getElem?_eq_some_iff.1 h).1
    omega

/-- A new local is no temporary. -/
theorem Draft.Proper.kindOf_size {d : Draft} (hd : d.Proper) :
    d.layout.kindOf? d.layout.size = none := by
  cases hk : d.layout.kindOf? d.layout.size with
  | none => rfl
  | some k => exact absurd (lt_size_of_typeOf (hd.temps _ k hk)) (Nat.lt_irrefl _)

/-- A new local leaves the temporaries and variables as they are. -/
theorem Draft.Proper.declare {d : Draft} (hd : d.Proper) (t : ValType) :
    Draft.Proper { d with layout := (d.layout.declare t).2 } :=
  ⟨hd.refType, fun s k hk => typeOf_declare t (hd.temps s k hk),
    fun n v hv => typeOf_declare t (hd.vars n v hv), hd.apart⟩

/-- Temporaries of the right types stay so when one is handed out. -/
theorem allocate_types {l : Layout}
    (h : ∀ s k, l.kindOf? s = some k → l.typeOf? s = some (l.slotType k)) (k : SlotKind) :
    (l.allocate k).2.refType = l.refType ∧ (l.allocate k).2.params = l.params ∧
      (∀ i t, l.typeOf? i = some t → (l.allocate k).2.typeOf? i = some t) ∧
      (∀ s j, (l.allocate k).2.kindOf? s = some j →
        (l.allocate k).2.typeOf? s = some (l.slotType j)) ∧
      (l.allocate k).2.typeOf? (l.allocate k).1 = some (l.slotType k) := by
  unfold Layout.allocate
  split
  · rename_i s hs
    have hk := List.find?_some hs
    exact ⟨rfl, rfl, fun _ _ ht => ht, h, h s k (beq_iff_eq.1 hk)⟩
  · refine ⟨rfl, rfl, fun i t ht => typeOf_declare _ ht, fun s j hj => ?_, typeOf_declared _ _⟩
    change List.lookup s ((_, k) :: _) = some j at hj
    rw [List.lookup_cons] at hj
    split at hj
    · rename_i hs
      cases hj
      rw [eq_of_beq hs]
      exact typeOf_declared _ _
    · exact typeOf_declare _ (h s j hj)

/-- The temporary that is handed out is one of its kind, and the others stay what they are. -/
theorem allocate_kinds {l : Layout}
    (h : ∀ s k, l.kindOf? s = some k → l.typeOf? s = some (l.slotType k)) (k : SlotKind) :
    (l.allocate k).2.kindOf? (l.allocate k).1 = some k ∧
      (∀ s j, l.kindOf? s = some j → (l.allocate k).2.kindOf? s = some j) ∧
      ∀ s, s < l.size → l.kindOf? s = none → (l.allocate k).2.kindOf? s = none := by
  unfold Layout.allocate
  split
  · rename_i s hs
    have hk := List.find?_some hs
    exact ⟨beq_iff_eq.1 hk, fun _ _ hj => hj, fun _ _ hj => hj⟩
  · have hnew {s : Nat} (hs : s < l.size) :
        List.lookup s ((l.size, k) :: l.kinds) = l.kindOf? s := by
      rw [List.lookup_cons, beq_false_of_ne (Nat.ne_of_lt hs)]
      rfl
    refine ⟨?_, fun s j hj => ?_, fun s hs hj => (hnew hs).trans hj⟩
    · change List.lookup l.size ((l.size, k) :: l.kinds) = some k
      rw [List.lookup_cons, beq_self_eq_true]
    · exact (hnew (lt_size_of_typeOf (h s j hj))).trans hj

/-- A temporary that is handed out leaves the variables and the other temporaries as they are. -/
theorem Draft.Proper.allocate {d : Draft} (hd : d.Proper) (k : SlotKind) :
    Draft.Proper { d with layout := (d.layout.allocate k).2 } ∧
      d.Before { d with layout := (d.layout.allocate k).2 } := by
  obtain ⟨href, hparams, hslots, htemps, -⟩ := allocate_types hd.temps k
  obtain ⟨-, hkeep, hapart⟩ := allocate_kinds hd.temps k
  have htype (j : SlotKind) : (d.layout.allocate k).2.slotType j = d.layout.slotType j := by
    cases j <;> first | rfl | exact href
  refine ⟨⟨href.trans hd.refType, fun i j hj => ?_, fun n v hv => hslots _ _ (hd.vars n v hv),
      fun n v hv => hapart _ (lt_size_of_typeOf (hd.vars n v hv)) (hd.apart n v hv)⟩,
    ⟨hparams, hslots, fun _ _ h => h, hkeep, fun _ _ h => h, fun _ _ h => h⟩⟩
  rw [htemps i j hj, htype]

theorem getElem?_of_idxOf? {α : Type} [BEq α] [LawfulBEq α] {xs : Array α} {a : α} {i : Nat}
    (h : xs.idxOf? a = some i) : xs[i]? = some a := by
  rw [Array.idxOf?_eq_map_finIdxOf?_val] at h
  obtain ⟨j, hj, rfl⟩ := Option.map_eq_some_iff.1 h
  rw [Array.getElem?_eq_getElem j.2]
  exact congrArg some (Array.finIdxOf?_eq_some_iff.1 hj).1

/-- A string is where its number says, and the others stay where they are. -/
theorem intern_found (p : Pool) (s : Bytes) :
    (p.intern s).2.strings[(p.intern s).1]? = some s ∧
      ∀ (i : Nat) (t : Bytes), p.strings[i]? = some t → (p.intern s).2.strings[i]? = some t := by
  unfold Pool.intern
  split
  · exact ⟨getElem?_of_idxOf? ‹_›, fun _ _ ht => ht⟩
  · exact ⟨Array.getElem?_push_size, fun i t ht => getElem?_push_of_some _ ht⟩

theorem strings_helper (p : Pool) (h : Helper) : (p.helper h).2.strings = p.strings := by
  unfold Pool.helper
  split <;> rfl

theorem helpers_intern (p : Pool) (s : Bytes) : (p.intern s).2.helpers = p.helpers := by
  unfold Pool.intern
  split <;> rfl

/-- A helper is where its number says, and the others stay where they are. -/
theorem helper_found (p : Pool) (h : Helper) :
    (p.helper h).2.helpers[(p.helper h).1]? = some h ∧
      ∀ (i : Nat) (k : Helper), p.helpers[i]? = some k → (p.helper h).2.helpers[i]? = some k := by
  unfold Pool.helper
  split
  · exact ⟨getElem?_of_idxOf? ‹_›, fun _ _ hk => hk⟩
  · exact ⟨Array.getElem?_push_size, fun i k hk => getElem?_push_of_some _ hk⟩

namespace Gen

variable {α β : Type} {D : Draft} {x : Gen α} {f : α → Gen β}

/-! ## Rules -/

/-- A step of drafting keeps what there is, and its results have a property if the draft ends as
`D`. -/
def Types (D : Draft) (x : Gen α) (P : α → Prop) : Prop :=
  ∀ d a d', Runs x d a d' → d.Proper → d'.Proper ∧ d.Before d' ∧ (d'.Before D → P a)

theorem types_pure {a : α} {P : α → Prop} (h : P a) : Types D (pure a) P := by
  intro d b d' hr hd
  obtain ⟨rfl, rfl⟩ := runs_pure.1 hr
  exact ⟨hd, .refl _, fun _ => h⟩

/-- What is known of the result of the first step is a condition of what follows: only the end of
the draft tells. -/
theorem types_bind {P : α → Prop} {Q : β → Prop} (hx : Types D x P)
    (hf : ∀ a, Types D (f a) fun b => P a → Q b) : Types D (x >>= f) Q := by
  intro d b d' hr hd
  obtain ⟨a, d₁, ha, hb⟩ := runs_bind.1 hr
  obtain ⟨hd₁, hbef₁, hP⟩ := hx d a d₁ ha hd
  obtain ⟨hd', hbef', hQ⟩ := hf a d₁ b d' hb hd₁
  exact ⟨hd', hbef₁.trans hbef', fun hD => hQ hD (hP (hbef'.trans hD))⟩

theorem types_fail {P : α → Prop} (e : Diagnostic) : Types D (fail e) P :=
  fun _ _ _ hr => (runs_fail hr).elim

theorem types_mono {P Q : α → Prop} (hx : Types D x P) (h : ∀ a, P a → Q a) : Types D x Q := by
  intro d a d' hr hd
  obtain ⟨hd', hb, hP⟩ := hx d a d' hr hd
  exact ⟨hd', hb, fun hD => h a (hP hD)⟩

theorem types_given {P : α → Prop} {p : Prop} (hx : Types D x P) : Types D x fun a => p → P a :=
  types_mono hx fun _ h _ => h

theorem types_ite {P : α → Prop} {p : Prop} [Decidable p] {y : Gen α} (hx : Types D x P)
    (hy : Types D y P) : Types D (if p then x else y) P := by
  split
  · exact hx
  · exact hy

/-- A check that gives up the function if something holds. -/
theorem types_unless {Q : β → Prop} {p : Prop} [Decidable p] {e : Diagnostic} {f : Unit → Gen β}
    (hf : ¬ p → Types D (f ()) Q) : Types D (if p then fail e >>= f else f ()) Q := by
  split
  · intro d b d' hr
    obtain ⟨a, d₁, ha, -⟩ := runs_bind.1 hr
    exact (runs_fail ha).elim
  · exact hf ‹_›

theorem types_get : Types D get fun s => s.Proper ∧ s.Before D := by
  intro d s d' hr hd
  obtain ⟨rfl, rfl⟩ := runs_get.1 hr
  exact ⟨hd, .refl _, fun hD => ⟨hd, hD⟩⟩

/-- A step after which only what the draft shares with others has changed. -/
theorem types_of_same {P : α → Prop} (h : ∀ d a d', Runs x d a d' → d'.layout = d.layout ∧
    d'.vars = d.vars ∧ (∀ (i : Nat) (h : Helper), d.pool.helpers[i]? = some h →
      d'.pool.helpers[i]? = some h) ∧ (∀ (i : Nat) (s : Bytes), d.pool.strings[i]? = some s →
      d'.pool.strings[i]? = some s) ∧ (d'.Before D → P a)) : Types D x P := by
  intro d a d' hr hd
  obtain ⟨hl, hv, hh, hs, hP⟩ := h d a d' hr
  refine ⟨⟨?_, ?_, ?_, ?_⟩, ⟨?_, ?_, ?_, ?_, hh, hs⟩, hP⟩
  · rw [hl]
    exact hd.refType
  · rw [hl]
    exact hd.temps
  · rw [hl, hv]
    exact hd.vars
  · rw [hl, hv]
    exact hd.apart
  · rw [hl]
  · rw [hl]
    exact fun _ _ ht => ht
  · rw [hv]
    exact fun _ _ hv => hv
  · rw [hl]
    exact fun _ _ hk => hk

theorem note_types (line : String) : Types D (note line) fun _ => True := by
  refine types_of_same fun d a d' hr => ?_
  obtain rfl := runs_modify.1 hr
  exact ⟨rfl, rfl, fun _ _ h => h, fun _ _ h => h, fun _ => trivial⟩

theorem typeFor_types (c : Context) (e : Expr) : Types D (typeFor c e) fun _ => True :=
  types_bind types_get fun _ => types_pure fun _ => trivial

/-! ## Variables and temporaries -/

variable {E : Env} {c : Context}

def Found (E : Env) (D : Draft) (name : String) (v : Variable) : Prop :=
  D.vars.lookup name = some v ∧ E.Slot v.slot v.rep.valType

theorem findVar_types (hE : Serves E c D) (name : String) :
    Types D (findVar c name) (Found E D name) := by
  intro d v d' hr hd
  obtain ⟨s, d₁, hs, hr₁⟩ := runs_bind.1 hr
  obtain ⟨rfl, rfl⟩ := runs_get.1 hs
  split at hr₁
  · rename_i w hw
    obtain ⟨rfl, rfl⟩ := runs_pure.1 hr₁
    exact ⟨hd, .refl _, fun hD =>
      ⟨hD.vars _ _ hw, hE.slots _ _ (hD.slots _ _ (hd.vars _ _ hw))⟩⟩
  · rename_i hnone
    obtain ⟨_, d₂, hset, hr₂⟩ := runs_bind.1 hr₁
    obtain rfl := runs_set.1 hset
    obtain ⟨rfl, rfl⟩ := runs_pure.1 hr₂
    have hnew : (name == name) = true := beq_self_eq_true name
    have hdecl := hd.declare (Rep.ofType (c.facts.lookup name).storage.type).valType
    refine ⟨⟨hdecl.refType, hdecl.temps, fun n v hv => ?_, fun n v hv => ?_⟩,
      ⟨rfl, fun i t => typeOf_declare _, fun n v hv => ?_, fun _ _ h => h, fun _ _ h => h,
        fun _ _ h => h⟩, fun hD => ⟨hD.vars _ _ ?_, hE.slots _ _ (hD.slots _ _ ?_)⟩⟩
    · rw [List.lookup_cons] at hv
      split at hv
      · cases hv
        exact typeOf_declared _ _
      · exact hdecl.vars n v hv
    · rw [List.lookup_cons] at hv
      split at hv
      · cases hv
        exact hd.kindOf_size
      · exact hd.apart n v hv
    · rw [List.lookup_cons]
      split
      · rename_i hn
        rw [eq_of_beq hn, hnone] at hv
        cases hv
      · exact hv
    · rw [List.lookup_cons, hnew]
    · exact typeOf_declared _ _

theorem slotType_slotKind {l : Layout} (hl : l.refType = Shape.valueRef) {r : Rep} (hr : r ≠ .void) :
    l.slotType r.slotKind = r.valType := by
  cases r <;> first | rfl | exact hl | exact absurd rfl hr

theorem runs_temp {r : Rep} {d d' : Draft} {t : Nat} : Runs (temp r) d t d' ↔
    t = (d.layout.allocate r.slotKind).1 ∧
      d' = { d with layout := (d.layout.allocate r.slotKind).2 } := by
  have h : step (temp r) d = (.ok (d.layout.allocate r.slotKind).1,
      { d with layout := (d.layout.allocate r.slotKind).2 }) := rfl
  simp [Runs, h, eq_comm]

theorem temp_types (hE : Serves E c D) {r : Rep} (hvoid : r ≠ .void) :
    Types D (temp r) fun t => E.Slot t r.valType := by
  intro d t d' hr hd
  obtain ⟨rfl, rfl⟩ := runs_temp.1 hr
  obtain ⟨hd', hb⟩ := hd.allocate r.slotKind
  refine ⟨hd', hb, fun hD => hE.slots _ _ (hD.slots _ _ ?_)⟩
  obtain ⟨-, -, -, -, hnew⟩ := allocate_types hd.temps r.slotKind
  rw [hnew, slotType_slotKind hd.refType hvoid]

theorem release_types (t : Nat) : Types D (release t) fun _ => True := by
  intro d u d' hr hd
  obtain ⟨s, d₁, hs, hr₁⟩ := runs_bind.1 hr
  obtain ⟨rfl, rfl⟩ := runs_get.1 hs
  split at hr₁
  · rename_i l hl
    obtain rfl := runs_set.1 hr₁
    unfold Layout.release at hl
    split at hl
    · cases hl
    · split at hl <;> cases hl
      exact ⟨⟨hd.refType, hd.temps, hd.vars, hd.apart⟩,
        ⟨rfl, fun _ _ h => h, fun _ _ h => h, fun _ _ h => h, fun _ _ h => h, fun _ _ h => h⟩,
        fun _ => trivial⟩
  · exact (runs_fail hr₁).elim

theorem releaseAll_types (ts : List Nat) : Types D (releaseAll ts) fun _ => True := by
  induction ts with
  | nil => exact types_pure trivial
  | cons t ts ih => exact types_bind (release_types t) fun _ => types_given ih

theorem tempsFor_types (hE : Serves E c D) {γ : Type} (xs : List γ) :
    Types D (tempsFor xs) fun ts => ∀ t ∈ ts, E.Slot t Shape.valueRef := by
  induction xs with
  | nil => exact types_pure (by simp)
  | cons a xs ih =>
    refine types_bind (temp_types hE (r := .boxed) (by decide)) fun t => types_bind ih fun ts =>
      types_pure fun hts ht => ?_
    exact List.forall_mem_cons.2 ⟨ht, hts⟩

theorem bytes_types (s : Bytes) :
    Types D (bytes s) fun code => Turns E code [] [Shape.bytesRef] := by
  refine types_of_same fun d code d' hr => ?_
  have hstep : step (bytes s) d = (.ok (Code.bytesLiteral s.length (d.pool.intern s).1),
      { d with pool := (d.pool.intern s).2 }) := rfl
  cases hstep.symm.trans hr
  refine ⟨rfl, rfl, fun i h hi => ?_, (intern_found d.pool s).2, fun _ => turns_bytesLiteral E _ _⟩
  rwa [helpers_intern]

theorem helper_types (hE : Serves E c D) (h : Helper) :
    Types D (helper c h) fun code => Turns E code h.params h.results := by
  refine types_of_same fun d code d' hr => ?_
  have hstep : step (helper c h) d = (.ok [.call (c.helperBase + (d.pool.helper h).1 : Nat)],
      { d with pool := (d.pool.helper h).2 }) := rfl
  cases hstep.symm.trans hr
  obtain ⟨hfound, hkeeps⟩ := helper_found d.pool h
  refine ⟨rfl, rfl, hkeeps, fun i s hi => ?_,
    fun hD => turns_call (hE.helpers _ _ (hD.helpers _ _ hfound))⟩
  rwa [strings_helper]

end Gen

open Gen

/-- The code of an operand leaves what it says. -/
def Operand.Typed (E : Env) (D : Draft) (o : Operand) : Prop :=
  ∀ d, Types D (o.emit d) fun p => Turns E p.code [] p.rep.types

namespace Gen

variable {D : Draft} {E : Env} {c : Context}

/-! ## Representations -/

theorem turns_const32 (n : Int) : Turns E (Code.const32 n) [] [.i32] := turns_numeric rfl rfl

theorem turns_const64 (n : Int64) : Turns E (Code.const64 n) [] [.i64] := turns_numeric rfl rfl

theorem turns_constF (x : Float) : Turns E (Code.constF x) [] [.f64] := turns_numeric rfl rfl

theorem turns_boxLocal {r : Rep} {t : Nat} (hr : r ≠ .void) (hb : r ≠ .boxed)
    (ht : E.Slot t r.valType) :
    Turns E (Code.boxLocal (boxTag r) t r.valType) [] [Shape.valueRef] := by
  cases r with
  | int => exact turns_newValue (turns_load ht) (turns_constF 0)
  | float => exact turns_newValue (turns_const64 0) (turns_load ht)
  | bool => exact turns_newValue ((turns_load ht).trans (turns_numeric rfl rfl)) (turns_constF 0)
  | boxed => exact absurd rfl hb
  | void => exact absurd rfl hr

variable (hE : Serves E c D)
include hE

theorem box_types {r : Rep} (hr : r ≠ .void) (hb : r ≠ .boxed) :
    Types D (box r) fun code => Turns E code r.types [Shape.valueRef] := by
  refine types_bind (temp_types hE hr) fun t => types_bind (release_types t) fun _ =>
    types_pure fun _ ht => ?_
  rw [Rep.types_eq hr]
  exact (turns_store ht).trans (turns_boxLocal hr hb ht)

theorem convert_types (got want : Rep) :
    Types D (convert c got want) fun code => Turns E code got.types want.types := by
  unfold convert
  split
  · rename_i h
    subst h
    exact types_pure (.refl _ _)
  rename_i hne
  split
  · rename_i hvoid
    rw [Rep.types_eq hne]
    exact types_pure (turns_drop E _)
  · exact types_fail _
  · exact types_pure (hE.call .toInt)
  · exact types_pure (hE.call .toFloat)
  · exact types_pure (hE.call .toBool)
  · exact absurd rfl hne
  · exact types_pure (turns_numeric rfl rfl)
  · exact types_pure ((Turns.above [.i64] (turns_const64 0)).trans (turns_numeric rfl rfl))
  · exact absurd rfl hne
  · exact types_pure (turns_numeric rfl rfl)
  · exact types_pure ((Turns.above [.f64] (turns_constF 0)).trans (turns_numeric rfl rfl))
  · exact absurd rfl hne
  · exact types_pure (turns_numeric rfl rfl)
  · exact types_pure (Turns.trans (a := [_]) (turns_numeric rfl rfl) (turns_numeric rfl rfl))
  · exact absurd rfl hne
  · rename_i hvoid hboxed
    exact box_types hE hvoid hne

theorem asRep_types (p : Piece) (want : Rep) :
    Types D (asRep c p want) fun code =>
      Turns E p.code [] p.rep.types → Turns E code [] want.types :=
  types_bind (convert_types hE p.rep want) fun _ => types_pure fun hc hp => hp.trans hc

theorem value_types {o : Operand} (h : o.Typed E D) (want : Rep) :
    Types D (value c o want) fun code => Turns E code [] want.types :=
  types_bind (h _) fun p => asRep_types hE p want

theorem effect_types {o : Operand} (h : o.Typed E D) :
    Types D (effect c o) fun code => Turns E code [] [] :=
  types_bind (h _) fun p => asRep_types hE p .void

theorem effects_types {os : List Operand} (h : ∀ o ∈ os, o.Typed E D) :
    Types D (effects c os) fun code => Turns E code [] [] := by
  induction os with
  | nil => exact types_pure (.refl _ _)
  | cons o os ih =>
    exact types_bind (effect_types hE (h o (by simp))) fun _ =>
      types_bind (ih fun o ho => h o (by simp [ho])) fun _ => types_pure fun hb ha => ha.trans hb

theorem boxedValues_types {os : List Operand} (h : ∀ o ∈ os, o.Typed E D) :
    Types D (boxedValues c os) fun code => Turns E code [] (boxedParams os.length) := by
  induction os with
  | nil => exact types_pure (.refl _ _)
  | cons o os ih =>
    exact types_bind (value_types hE (h o (by simp)) .boxed) fun _ =>
      types_bind (ih fun o ho => h o (by simp [ho])) fun _ => types_pure fun hb ha =>
        ha.trans (hb.above [Shape.valueRef])

theorem both_types {l r : Operand} (hl : l.Typed E D) (hr : r.Typed E D)
    (want : Rep) :
    Types D (both c l r want) fun code => Turns E code [] (want.types ++ want.types) :=
  types_bind (value_types hE hl want) fun _ => types_bind (value_types hE hr want) fun _ =>
    types_pure fun hb ha => ha.trans (hb.above want.types)

/-! ## Literals, variables and operators -/

theorem literal_types (v : Value) (best : Rep) :
    Types D (literal c v best) fun p => Turns E p.code [] p.rep.types := by
  unfold literal
  split
  · exact types_pure (.refl _ _)
  · exact types_pure (turns_newValue (turns_const64 _) (turns_constF 0))
  · exact types_pure (turns_constF _)
  · exact types_pure (turns_const64 _)
  · exact types_pure (turns_newValue (turns_const64 0) (turns_constF _))
  · exact types_pure (turns_constF _)
  · exact types_pure (turns_newValue (turns_const64 _) (turns_constF 0))
  · exact types_pure (turns_const32 _)
  · exact types_bind (bytes_types _) fun _ => types_pure fun hb => hb.trans (hE.call .newString)
  · exact types_pure (hE.call .newNull)

omit hE in
theorem Variable.types_rep (v : Variable) : v.rep.types = [v.rep.valType] := by
  unfold Variable.rep
  cases v.storage.type <;> rfl

theorem readVar_types (name : String) :
    Types D (readVar c name) fun p => Turns E p.code [] p.rep.types ∧
      ∃ v, Found E D name v ∧ p.rep = v.rep := by
  refine types_bind (findVar_types hE name) fun v => ?_
  split
  · refine types_pure fun hv => ⟨?_, v, hv, rfl⟩
    rw [Variable.types_rep]
    exact turns_load hv.2
  · rename_i hb
    have hrep : v.rep = .boxed := by
      unfold Variable.rep
      rw [Decidable.not_not.1 fun h => hb (.inl h)]
      rfl
    refine types_pure fun hv => ⟨?_, v, hv, hrep.symm⟩
    have hs : E.Slot v.slot Shape.valueRef := by
      have hslot := hv.2
      rwa [hrep] at hslot
    exact ((turns_load hs).trans (turns_refIsNull E _)).trans
      (turns_choose rfl (hE.call .newNull) (turns_load hs))

theorem readVar_typed (loc : Location) (name : String) :
    Operand.Typed E D ⟨.var loc name, fun _ => readVar c name⟩ :=
  fun _ => types_mono (readVar_types hE name) fun _ h => h.1

section Binary

variable {l r : Operand} (hl : l.Typed E D) (hr : r.Typed E D)
include hl hr

theorem byRoutine_types {q : Routine} {rep : Rep} (hp : q.params = [Shape.valueRef, Shape.valueRef])
    (hq : q.results = rep.types) :
    Types D (byRoutine c q rep l r) fun p => Turns E p.code [] p.rep.types := by
  refine types_bind (both_types hE hl hr .boxed) fun _ => types_pure fun hb => ?_
  have hcall := hE.call q
  rw [hp, hq] at hcall
  exact hb.trans hcall

theorem numeric_types (op : ArithOp) :
    Types D (numeric c op l r) fun p => Turns E p.code [] p.rep.types := by
  refine types_bind (typeFor_types c _) fun lt => types_bind (typeFor_types c _) fun rt =>
    types_given (types_given ?_)
  refine types_ite ?_ (types_ite ?_ (byRoutine_types hE hl hr rfl rfl))
  · exact types_bind (both_types hE hl hr .int) fun _ => types_pure fun hb =>
      hb.trans (turns_numeric rfl rfl)
  · exact types_bind (both_types hE hl hr .float) fun _ => types_pure fun hb =>
      hb.trans (turns_numeric rfl rfl)

omit hl hr in
theorem guarded_types (rep : Rep) (hrep : rep ≠ .void) {test : Code}
    {divide : Instr} (ht : Turns E test [rep.valType] [.i32])
    (hd : Turns E [divide] [rep.valType, rep.valType] [rep.valType]) :
    Types D (guarded rep test divide) fun code =>
      Turns E code [rep.valType, rep.valType] [rep.valType] := by
  refine types_bind (temp_types hE hrep) fun t => types_bind (release_types t) fun _ =>
    types_pure fun _ hs => ?_
  have hkeep := ((turns_keep hs).trans ht).trans (turns_trapIf E)
  exact ((hkeep.under [rep.valType]).trans ((turns_load hs).above [rep.valType])).trans hd

theorem quotient_types :
    Types D (quotient c l r) fun p => Turns E p.code [] p.rep.types := by
  refine types_bind (typeFor_types c _) fun lt => types_bind (typeFor_types c _) fun rt =>
    types_given (types_given ?_)
  refine types_ite ?_ (byRoutine_types hE hl hr rfl rfl)
  have ht : Turns E (Code.constF 0 ++ [.f64Rel .eq]) [.f64] [.i32] :=
    ((turns_constF 0).above [.f64]).trans (turns_numeric rfl rfl)
  exact types_bind (both_types hE hl hr .float) fun _ =>
    types_bind (guarded_types hE .float nofun ht (turns_numeric rfl rfl)) fun _ =>
      types_pure fun hg hb => hb.trans hg

theorem remainder_types :
    Types D (remainder c l r) fun p => Turns E p.code [] p.rep.types := by
  refine types_bind (typeFor_types c _) fun lt => types_bind (typeFor_types c _) fun rt =>
    types_given (types_given ?_)
  refine types_ite ?_ (byRoutine_types hE hl hr rfl rfl)
  exact types_bind (both_types hE hl hr .int) fun _ =>
    types_bind (guarded_types hE .int (by decide) (turns_numeric rfl rfl)
      (turns_numeric rfl rfl)) fun _ => types_pure fun hg hb => hb.trans hg

theorem comparison_types (op : OrderOp) :
    Types D (comparison c op l r) fun p => Turns E p.code [] p.rep.types := by
  refine types_bind (typeFor_types c _) fun lt => types_bind (typeFor_types c _) fun rt =>
    types_given (types_given ?_)
  refine types_ite ?_ (byRoutine_types hE hl hr rfl rfl)
  exact types_bind (both_types hE hl hr .float) fun _ => types_pure fun hb =>
    hb.trans (turns_numeric rfl rfl)

omit hE hl hr in
theorem turns_negatedIf (negated : Bool) : Turns E (negatedIf negated) [.i32] [.i32] := by
  cases negated with
  | false => exact .refl _ _
  | true => exact turns_numeric rfl rfl

theorem looseEquality_types (negated : Bool) :
    Types D (looseEquality c negated l r) fun p => Turns E p.code [] p.rep.types := by
  refine types_bind (typeFor_types c _) fun lt => types_bind (typeFor_types c _) fun rt =>
    types_given (types_given ?_)
  refine types_ite ?_ (types_ite ?_ ?_)
  · exact types_bind (both_types hE hl hr .int) fun _ => types_pure fun hb =>
      hb.trans (turns_numeric rfl rfl)
  · exact types_bind (both_types hE hl hr .float) fun _ => types_pure fun hb =>
      hb.trans (turns_numeric rfl rfl)
  · exact types_bind (both_types hE hl hr .boxed) fun _ => types_pure fun hb =>
      (hb.trans (hE.call .looseEq)).trans (turns_negatedIf negated)

theorem identity_types :
    Types D (identity c l r) fun code => Turns E code [] [.i32] := by
  refine types_bind (typeFor_types c _) fun lt => types_bind (typeFor_types c _) fun rt =>
    types_given (types_given ?_)
  refine types_ite ?_ (types_ite ?_ (types_ite ?_ ?_))
  · exact types_bind (both_types hE hl hr .int) fun _ => types_pure fun hb =>
      hb.trans (turns_numeric rfl rfl)
  · exact types_bind (both_types hE hl hr .float) fun _ => types_pure fun hb =>
      hb.trans (turns_numeric rfl rfl)
  · exact types_bind (both_types hE hl hr .void) fun _ => types_pure fun hb =>
      hb.trans (turns_const32 0)
  · exact types_bind (both_types hE hl hr .boxed) fun _ => types_pure fun hb =>
      hb.trans (hE.call .strictEq)

theorem combined_types (op : BinaryOp) :
    Types D (combined c op l r) fun p => Turns E p.code [] p.rep.types := by
  have strict (negated : Bool) :
      Types D (strictEquality c negated l r) fun p => Turns E p.code [] p.rep.types :=
    types_bind (identity_types hE hl hr) fun _ => types_pure fun hi =>
      hi.trans (turns_negatedIf negated)
  unfold combined
  split
  · exact quotient_types hE hl hr
  · exact remainder_types hE hl hr
  · exact numeric_types hE hl hr _
  · exact byRoutine_types hE hl hr rfl rfl
  · exact comparison_types hE hl hr _
  · exact looseEquality_types hE hl hr _
  · exact looseEquality_types hE hl hr _
  · exact strict false
  · exact strict true
  · exact types_bind (value_types hE hl .bool) fun _ => types_bind (value_types hE hr .bool)
      fun _ => types_pure fun hb ha => ha.trans (turns_choose rfl hb (turns_const32 0))
  · exact types_bind (value_types hE hl .bool) fun _ => types_bind (value_types hE hr .bool)
      fun _ => types_pure fun hb ha => ha.trans (turns_choose rfl (turns_const32 1) hb)

theorem simplified_types (how : Simplification) (best : Rep) :
    Types D (simplified c how l r best) fun p => Turns E p.code [] p.rep.types := by
  cases how with
  | left => exact hl _
  | right => exact hr _
  | zero => exact literal_types hE _ best
  | doubleLeft => exact numeric_types hE hl hl _
  | doubleRight => exact numeric_types hE hr hr _

theorem binary_types (loc : Location) (op : BinaryOp) (best : Rep) :
    Types D (binary c loc op l r best) fun p => Turns E p.code [] p.rep.types := by
  refine types_ite ?_ (combined_types hE hl hr op)
  split
  · exact types_bind (note_types _) fun _ => types_given (literal_types hE _ best)
  · refine types_bind types_get fun s => types_given ?_
    split
    · exact types_bind (note_types _) fun _ => types_given (simplified_types hE hl hr _ best)
    · exact combined_types hE hl hr op

end Binary

theorem unary_types {o : Operand} (h : o.Typed E D) (loc : Location)
    (op : UnaryOp) (best : Rep) :
    Types D (unary c loc op o best) fun p => Turns E p.code [] p.rep.types := by
  unfold unary
  split
  · exact literal_types hE _ best
  refine types_bind (typeFor_types c _) fun t => types_given ?_
  split
  · exact types_bind (value_types hE h .bool) fun _ => types_pure fun hv =>
      hv.trans (turns_numeric rfl rfl)
  · exact types_bind (value_types hE h .int) fun _ => types_pure fun hv =>
      ((turns_const64 0).trans (hv.above [.i64])).trans (turns_numeric rfl rfl)
  · exact types_bind (value_types hE h .float) fun _ => types_pure fun hv =>
      hv.trans (turns_numeric rfl rfl)
  · exact types_bind (value_types hE h .boxed) fun _ => types_pure fun hv =>
      hv.trans (hE.call .negate)
  · exact types_bind (value_types hE h .boxed) fun _ => types_pure fun hv =>
      hv.trans (hE.call .toNumber)
  · exact types_bind (value_types hE h _) fun _ => types_pure fun hv => hv

theorem ternary_types {cond yes no : Operand} (hc : cond.Typed E D)
    (hy : yes.Typed E D) (hn : no.Typed E D) (best : Rep) :
    Types D (ternary c cond yes no best) fun p => Turns E p.code [] p.rep.types := by
  refine types_bind (value_types hE hc .bool) fun _ => ?_
  split
  · exact types_bind (effect_types hE hy) fun _ => types_bind (effect_types hE hn) fun _ =>
      types_pure fun hb ha ht => ht.trans (turns_choose rfl ha hb)
  · exact types_bind (value_types hE hy best) fun _ => types_bind (value_types hE hn best) fun _ =>
      types_pure fun hb ha ht => ht.trans (turns_choose best.resultKinds_valType ha hb)

/-! ## Places -/

theorem classOf_types (e : Expr) : Types D (classOf c e) fun k =>
    ∀ k' ∈ k, k' ∈ c.decls.classes := by
  have hmem (name : String) : ∀ k ∈ c.decls.class? name, k ∈ c.decls.classes :=
    fun k hk => List.mem_of_find?_eq_some hk
  unfold classOf
  split
  · refine types_bind (findVar_types hE _) fun v => types_pure fun _ k hk => ?_
    obtain ⟨name, -, hname⟩ := Option.bind_eq_some_iff.1 hk
    exact hmem name k hname
  · exact types_pure (hmem _)
  · exact types_pure (by simp)

theorem propRef_types {o : Operand} (h : o.Typed E D) (loc : Location)
    (name : String) : Types D (propRef c loc o name) fun p =>
      E.Slot p.1.object Shape.valueRef ∧ Turns E p.2 [] [] := by
  unfold propRef
  refine types_unless fun _ => ?_
  refine types_bind (classOf_types hE _) fun k => types_given ?_
  exact types_bind (temp_types hE (r := .boxed) nofun) fun t =>
    types_bind (value_types hE h .boxed) fun code => types_pure fun hc ht =>
      ⟨ht, hc.trans (turns_store ht)⟩

theorem propSlot_types (ref : PropRef) :
    Types D (propSlot c ref) fun code =>
      E.Slot ref.object Shape.valueRef → Turns E code [] [.i32] := by
  unfold propSlot
  split
  · exact types_pure fun _ => turns_const32 _
  · exact types_bind (helper_types hE _) fun code => types_pure fun hc hs =>
      ((turns_load hs).trans (hE.call .objClass)).trans hc

theorem readProp_types (ref : PropRef) :
    Types D (readProp c ref) fun code =>
      E.Slot ref.object Shape.valueRef → Turns E code [] [Shape.valueRef] :=
  types_bind (propSlot_types hE ref) fun _ => types_pure fun hc hs =>
    ((turns_load hs).trans ((hc hs).above [Shape.valueRef])).trans (hE.call .objGet)

theorem writeProp_types (ref : PropRef) (val : Nat) :
    Types D (writeProp c ref val) fun code => E.Slot ref.object Shape.valueRef →
      E.Slot val Shape.valueRef → Turns E code [] [] :=
  types_bind (propSlot_types hE ref) fun _ => types_pure fun hc hs hv =>
    (((turns_load hs).trans ((hc hs).above [Shape.valueRef])).trans
      ((turns_load hv).above [Shape.valueRef, .i32])).trans (hE.call .objSet)

omit hE in
theorem checkSubscripts_types (target : Expr) : Types D (checkSubscripts target) fun _ => True := by
  unfold checkSubscripts
  exact types_ite (types_fail _) (types_pure trivial)

end Gen

def Key.Typed (E : Env) : Key → Prop
  | .int t => E.Slot t .i64
  | .boxed t => E.Slot t Shape.valueRef
  | .append => True

/-- The temporaries of a place have their types, and the variable it hangs at is boxed. -/
structure Place.Typed (E : Env) (D : Draft) (p : Place) : Prop where
  var : ∀ name, p.root = .var name → ∀ v, D.vars.lookup name = some v → v.storage = .boxed
  prop : ∀ ref, p.root = .prop ref → E.Slot ref.object Shape.valueRef
  keys : ∀ k ∈ p.keys, k.Typed E

theorem Place.Typed.push {E : Env} {D : Draft} {p : Place} (h : p.Typed E D) {k : Key}
    (hk : k.Typed E) : Place.Typed E D { p with keys := p.keys ++ [k] } := by
  refine ⟨h.var, h.prop, fun k' hk' => ?_⟩
  rcases List.mem_append.1 hk' with hk' | hk'
  · exact h.keys k' hk'
  · rwa [List.mem_singleton.1 hk']

theorem Variable.rep_boxed {v : Variable} (h : v.storage = .boxed) : v.rep = .boxed := by
  rw [Variable.rep, h]
  rfl

namespace Gen

variable {D : Draft} {E : Env} {c : Context}

variable (hE : Serves E c D)
include hE

theorem keyOf_types {k : Operand} (h : k.Typed E D) :
    Types D (keyOf c k) fun p => p.1.Typed E ∧ Turns E p.2 [] [] := by
  refine types_bind (typeFor_types c _) fun t => types_given (types_ite ?_ ?_)
  · exact types_bind (temp_types hE (r := .int) nofun) fun t =>
      types_bind (value_types hE h .int) fun code => types_pure fun hc ht =>
        ⟨ht, hc.trans (turns_store ht)⟩
  · exact types_bind (temp_types hE (r := .boxed) nofun) fun t =>
      types_bind (value_types hE h .boxed) fun code => types_pure fun hc ht =>
        ⟨ht, hc.trans (turns_store ht)⟩

theorem turns_getKey {k : Key} (h : k.Typed E) :
    Turns E (getKey c k) [Shape.valueRef] [Shape.valueRef] := by
  cases k with
  | int t =>
    have ht : E.Slot t .i64 := h
    exact ((turns_load ht).above [Shape.valueRef]).trans (hE.call .arrGetInt)
  | boxed t =>
    have ht : E.Slot t Shape.valueRef := h
    exact ((turns_load ht).above [Shape.valueRef]).trans (hE.call .arrGet)
  | append => exact .refl _ _

theorem turns_getKeys {ks : List Key} (h : ∀ k ∈ ks, k.Typed E) :
    Turns E (ks.flatMap (getKey c)) [Shape.valueRef] [Shape.valueRef] := by
  induction ks with
  | nil => exact .refl _ _
  | cons k ks ih =>
    rw [List.flatMap_cons]
    exact (turns_getKey hE (h k (by simp))).trans (ih fun k hk => h k (by simp [hk]))

theorem turns_setKey {k : Key} (h : k.Typed E) {val : Nat}
    (hv : E.Slot val Shape.valueRef) :
    Turns E (setKey c val k) [Shape.valueRef] [Shape.valueRef] := by
  cases k with
  | int t =>
    have ht : E.Slot t .i64 := h
    exact (((turns_load ht).above [Shape.valueRef]).trans
      ((turns_load hv).above [Shape.valueRef, .i64])).trans (hE.call .arrSetInt)
  | boxed t =>
    have ht : E.Slot t Shape.valueRef := h
    exact (((turns_load ht).above [Shape.valueRef]).trans
      ((turns_load hv).above [Shape.valueRef, Shape.valueRef])).trans (hE.call .arrSet)
  | append => exact ((turns_load hv).above [Shape.valueRef]).trans (hE.call .arrPush)

omit hE in
/-- The levels of a place have keys and temporaries of the right types. -/
def LevelsTyped (E : Env) (levels : List (Key × Nat)) : Prop :=
  ∀ l ∈ levels, l.1.Typed E ∧ E.Slot l.2 Shape.valueRef

theorem turns_descend {levels : List (Key × Nat)} (h : LevelsTyped E levels)
    (hne : levels ≠ []) : Turns E (descend c levels) [Shape.valueRef] [] := by
  fun_induction descend c levels with
  | case1 => exact absurd rfl hne
  | case2 k t => exact (hE.call .arrAutoviv).trans (turns_store (h (k, t) (by simp)).2)
  | case3 k t rest hrest ih =>
    obtain ⟨hk, ht⟩ := h (k, t) (by simp)
    have hstart := (((hE.call .arrAutoviv).trans (turns_store ht)).trans (turns_load ht)).trans
      (turns_getKey hE hk)
    exact hstart.trans (ih (fun l hl => h l (by simp [hl])) hrest)

theorem turns_ascend {levels : List (Key × Nat)} (h : LevelsTyped E levels)
    (hne : levels ≠ []) {val result : Nat} (hv : E.Slot val Shape.valueRef)
    (hr : E.Slot result Shape.valueRef) :
    Turns E (ascend c val result levels) [] [Shape.valueRef] := by
  fun_induction ascend c val result levels with
  | case1 => exact absurd rfl hne
  | case2 k t =>
    obtain ⟨hk, ht⟩ := h (k, t) (by simp)
    exact (turns_load ht).trans (turns_setKey hE hk hv)
  | case3 k t rest hrest ih =>
    obtain ⟨hk, ht⟩ := h (k, t) (by simp)
    have hinner := ih (fun l hl => h l (by simp [hl])) hrest
    exact ((hinner.trans (turns_store hr)).trans (turns_load ht)).trans (turns_setKey hE hk hr)

/-- A write through the levels of a place takes the outermost array and leaves it. -/
theorem turns_levels {levels : List (Key × Nat)} (h : LevelsTyped E levels)
    {val result : Nat} (hv : E.Slot val Shape.valueRef) (hr : E.Slot result Shape.valueRef) :
    Turns E (descend c levels ++ ascend c val result levels) [Shape.valueRef] [Shape.valueRef] := by
  by_cases hne : levels = []
  · subst hne
    exact .refl _ _
  · exact (turns_descend hE h hne).trans (turns_ascend hE h hne hv hr)

theorem readRoot_types {p : Place} :
    Types D (readRoot c p.root) fun code =>
      p.Typed E D → Turns E code [] [Shape.valueRef] := by
  cases hroot : p.root with
  | var name =>
    refine types_bind (readVar_types hE name) fun q => types_pure fun hq hp => ?_
    obtain ⟨hcode, v, hv, hrep⟩ := hq
    rw [hrep, Variable.rep_boxed (hp.var name hroot v hv.1)] at hcode
    exact hcode
  | prop ref =>
    exact types_mono (readProp_types hE ref) fun code hc hp => hc (hp.prop ref hroot)

theorem readPlace_types (loc : Location) (p : Place) :
    Types D (readPlace c loc p) fun code => p.Typed E D → Turns E code [] [Shape.valueRef] := by
  unfold readPlace
  refine types_unless fun _ => types_bind (readRoot_types hE) fun code => types_pure fun hc hp => ?_
  exact (hc hp).trans (turns_getKeys hE hp.keys)

theorem rebind_types {p : Place} (result : Nat) :
    Types D (rebind c result p.root) fun code => p.Typed E D → E.Slot result Shape.valueRef →
      Turns E code [Shape.valueRef] [] := by
  cases hroot : p.root with
  | var name =>
    refine types_bind (findVar_types hE name) fun v => types_pure fun hv hp _ => ?_
    have hs := hv.2
    rw [Variable.rep_boxed (hp.var name hroot v hv.1)] at hs
    exact turns_store hs
  | prop ref =>
    exact types_bind (writeProp_types hE ref result) fun code => types_pure fun hc hp hr =>
      (turns_store hr).trans (hc (hp.prop ref hroot) hr)

theorem writePlace_types (p : Place) (val : Nat) :
    Types D (writePlace c p val) fun code => p.Typed E D → E.Slot val Shape.valueRef →
      Turns E code [] [] := by
  unfold writePlace
  split
  · rename_i ref hroot hkeys
    exact types_mono (writeProp_types hE ref val) fun code hc hp hv => hc (hp.prop ref hroot) hv
  · refine types_bind (tempsFor_types hE p.keys) fun arrays =>
      types_bind (temp_types hE (r := .boxed) nofun) fun result =>
      types_bind (readRoot_types hE) fun top => types_bind (rebind_types hE result) fun bottom =>
      types_bind (releaseAll_types arrays) fun _ => types_bind (release_types result) fun _ =>
      types_pure fun _ _ hbottom htop hresult harrays hp hv => ?_
    have hlevels : LevelsTyped E (p.keys.zip arrays) := fun l hl =>
      ⟨hp.keys _ (List.of_mem_zip hl).1, harrays _ (List.of_mem_zip hl).2⟩
    have hinner := turns_levels hE hlevels hv hresult
    have hall := ((htop hp).trans hinner).trans (hbottom hp hresult)
    simpa only [List.append_assoc] using hall

/-! ## Assignments -/

omit hE in
theorem turns_kept {keeps : Bool} {slot : Nat} (h : E.Slot slot Shape.valueRef) :
    Turns E (kept keeps slot).code [] (kept keeps slot).rep.types := by
  cases keeps with
  | true => exact turns_load h
  | false => exact .refl _ _

theorem assignVar_types {right : Operand} (h : right.Typed E D)
    (loc target : Location) (op : Option CompoundOp) (name : String) (keeps : Bool) :
    Types D (assignVar c loc op target name right keeps) fun p => Turns E p.code [] p.rep.types := by
  refine types_bind (findVar_types hE name) fun v => types_bind (value_types hE ?whole v.rep)
    fun code => types_pure fun hc hv => ?_
  case whole =>
    cases op with
    | none => exact h
    | some op => exact fun d => binary_types hE (readVar_typed hE target name) h loc _ _
  rw [Variable.types_rep] at hc
  cases keeps with
  | true =>
    have hkeep := hc.trans (turns_keep hv.2)
    rwa [← Variable.types_rep] at hkeep
  | false => exact hc.trans (turns_store hv.2)

theorem assignPlace_types {right : Operand} (h : right.Typed E D) (p : Place)
    (keeps : Bool) : Types D (assignPlace c p right keeps) fun q =>
      p.Typed E D → Turns E q.code [] q.rep.types :=
  types_bind (temp_types hE (r := .boxed) nofun) fun val =>
    types_bind (value_types hE h .boxed) fun _ => types_bind (writePlace_types hE p val) fun _ =>
    types_bind (release_types val) fun _ => types_bind (releaseAll_types p.temps) fun _ =>
    types_pure fun _ _ hwrite hcode hval hp =>
      ((hcode.trans (turns_store hval)).trans (hwrite hp hval)).trans (turns_kept hval)

omit hE in
theorem compoundRoutine_types (op : CompoundOp) :
    (compoundRoutine op).params = [Shape.valueRef, Shape.valueRef] ∧
      (compoundRoutine op).results = [Shape.valueRef] := by
  cases op <;> exact ⟨rfl, rfl⟩

theorem updatePlace_types {right : Operand} (h : right.Typed E D)
    (loc : Location) (op : CompoundOp) (p : Place) (keeps : Bool) :
    Types D (updatePlace c loc op p right keeps) fun q =>
      p.Typed E D → Turns E q.code [] q.rep.types := by
  refine types_bind (temp_types hE (r := .boxed) nofun) fun old =>
    types_bind (readPlace_types hE loc p) fun read =>
    types_bind (temp_types hE (r := .boxed) nofun) fun val =>
    types_bind (value_types hE h .boxed) fun code => types_bind (writePlace_types hE p val) fun write =>
    types_bind (release_types val) fun _ => types_bind (release_types old) fun _ =>
    types_bind (releaseAll_types p.temps) fun _ =>
    types_pure fun _ _ _ hwrite hcode hval hread hold hp => ?_
  have hcall := hE.call (compoundRoutine op)
  rw [(compoundRoutine_types op).1, (compoundRoutine_types op).2] at hcall
  have hstart := (((hread hp).trans (turns_store hold)).trans (turns_load hold)).trans
    (hcode.above [Shape.valueRef])
  exact (((hstart.trans hcall).trans (turns_store hval)).trans (hwrite hp hval)).trans
    (turns_kept hval)

theorem storePlace_types {right : Operand} (h : right.Typed E D)
    (loc : Location) (op : Option CompoundOp) (p : Place) (keeps : Bool) :
    Types D (storePlace c loc op p right keeps) fun q =>
      p.Typed E D → Turns E q.code [] q.rep.types := by
  cases op with
  | none => exact assignPlace_types hE h p keeps
  | some op => exact updatePlace_types hE h loc op p keeps

/-! ## Counting -/

omit hE in
theorem turns_boxedOne : Turns E boxedOne [] [Shape.valueRef] :=
  turns_newValue (turns_const64 1) (turns_constF 0)

omit hE in
theorem stepNumber_types {v : Variable} {one : Code} {add : Instr} (hv : E.Slot v.slot v.rep.valType)
    (hone : Turns E one [] [v.rep.valType])
    (hadd : Turns E [add] [v.rep.valType, v.rep.valType] [v.rep.valType]) (before keeps : Bool) :
    Turns E (stepNumber v one add before keeps).code []
      (stepNumber v one add before keeps).rep.types := by
  have hstep := ((turns_load hv).trans (hone.above [v.rep.valType])).trans hadd
  unfold stepNumber
  split
  · exact hstep.trans (turns_store hv)
  · have hkeep := hstep.trans (turns_keep hv)
    rwa [← Variable.types_rep] at hkeep
  · have hold := ((turns_load hv).trans (hstep.above [v.rep.valType])).trans
      ((turns_store hv).under [v.rep.valType])
    rw [List.append_nil, ← Variable.types_rep] at hold
    exact hold

theorem stepBoxed_types (name : String) (v : Variable)
    (increment before keeps : Bool) :
    Types D (stepBoxed c name v increment before keeps) fun q =>
      Found E D name v → v.storage = .boxed → Turns E q.code [] q.rep.types := by
  refine types_bind (temp_types hE (r := .boxed) nofun) fun old =>
    types_bind (readVar_types hE name) fun read => types_bind (release_types old) fun _ =>
    types_pure fun _ hread hold hv hb => ?_
  have hslot := hv.2
  rw [Variable.rep_boxed hb] at hslot
  obtain ⟨hcode, w, hw, hrep⟩ := hread
  obtain rfl : v = w := Option.some.inj (hv.1.symm.trans hw.1)
  rw [hrep, Variable.rep_boxed hb] at hcode
  have hstep := (((hcode.trans (turns_store hold)).trans (turns_load hold)).trans
    (turns_boxedOne.above [Shape.valueRef])).trans (hE.call (.arith (stepOp increment)))
  split
  · exact hstep.trans (turns_store hslot)
  · exact hstep.trans (turns_keep hslot)
  · exact (hstep.trans (turns_store hslot)).trans (turns_load hold)

theorem stepVar_types (loc : Location) (name : String)
    (increment before keeps : Bool) :
    Types D (stepVar c loc name increment before keeps) fun q => Turns E q.code [] q.rep.types := by
  refine types_bind types_get fun s => ?_
  split
  · exact types_fail _
  rename_i v hv
  have hfound (hs : s.Proper ∧ s.Before D) : Found E D name v :=
    ⟨hs.2.vars _ _ hv, hE.slots _ _ (hs.2.slots _ _ (hs.1.vars _ _ hv))⟩
  split
  · rename_i hint
    have hrep : v.rep = .int := by rw [Variable.rep, hint]; rfl
    refine types_pure fun hs => stepNumber_types (hfound hs).2 ?_ ?_ before keeps
    · rw [hrep]
      exact turns_const64 1
    · rw [hrep]
      exact turns_numeric rfl rfl
  · rename_i hfloat
    have hrep : v.rep = .float := by rw [Variable.rep, hfloat]; rfl
    refine types_pure fun hs => stepNumber_types (hfound hs).2 ?_ ?_ before keeps
    · rw [hrep]
      exact turns_constF 1
    · rw [hrep]
      exact turns_numeric rfl rfl
  · rename_i hboxed
    exact types_mono (stepBoxed_types hE name v increment before keeps) fun q hq hs =>
      hq (hfound hs) hboxed

theorem stepPlace_types (loc : Location) (p : Place)
    (increment before keeps : Bool) :
    Types D (stepPlace c loc p increment before keeps) fun q =>
      p.Typed E D → Turns E q.code [] q.rep.types := by
  refine types_bind (temp_types hE (r := .boxed) nofun) fun old =>
    types_bind (temp_types hE (r := .boxed) nofun) fun val =>
    types_bind (readPlace_types hE loc p) fun read => types_bind (writePlace_types hE p val) fun write =>
    types_bind (release_types old) fun _ => types_bind (release_types val) fun _ =>
    types_bind (releaseAll_types p.temps) fun _ =>
    types_pure fun _ _ _ hwrite hread hval hold hp => ?_
  have hstep := ((((hread hp).trans (turns_store hold)).trans (turns_load hold)).trans
    (turns_boxedOne.above [Shape.valueRef])).trans (hE.call (.arith (stepOp increment)))
  have hlast : E.Slot (if before then val else old) Shape.valueRef := by
    split
    · exact hval
    · exact hold
  exact ((hstep.trans (turns_store hval)).trans (hwrite hp hval)).trans (turns_kept hlast)

/-! ## Calls -/

theorem tagTest_types {arg : Operand} (h : arg.Typed E D) (tag : Tag) :
    Types D (tagTest c tag arg) fun p => Turns E p.code [] p.rep.types := by
  refine types_bind (h _) fun p => ?_
  split
  · rename_i t ht
    refine types_pure fun hp => ?_
    have hne : p.rep ≠ .void := by
      intro hvoid
      rw [hvoid] at ht
      cases ht
    rw [Rep.types_eq hne] at hp
    exact (hp.trans (turns_drop E _)).trans (turns_const32 _)
  · exact types_bind (asRep_types hE p .boxed) fun _ => types_pure fun hc hp =>
      (((hc hp).trans (turns_tag E)).trans ((turns_const32 _).above [.i32])).trans
        (turns_numeric rfl rfl)

theorem builtin_types {arg : Operand} (h : arg.Typed E D) (b : Builtin) :
    Types D (builtin c b arg) fun p => Turns E p.code [] p.rep.types := by
  unfold builtin
  split
  · exact types_bind (value_types hE h .boxed) fun _ => types_pure fun hv =>
      hv.trans (hE.call .arrCount)
  · refine types_bind (value_types hE h .boxed) fun _ => types_pure fun hv => ?_
    have hlen : Turns E ([.arrayLen] ++ [.i64ExtendI32U]) [Shape.bytesRef] [.i64] :=
      (turns_arrayLen E _).trans (turns_numeric rfl rfl)
    exact (hv.trans (hE.call .toBytes)).trans hlen
  · exact types_bind (value_types hE h .boxed) fun _ => types_pure fun hv =>
      (hv.trans (hE.call .toBytes)).trans (hE.call .newString)
  · exact types_bind (value_types hE h _) fun _ => types_pure fun hv => hv
  · exact tagTest_types hE h _

theorem call_types {args : List Operand} (h : ∀ o ∈ args, o.Typed E D)
    (loc : Location) (name : String) :
    Types D (call c loc name args) fun p => Turns E p.code [] p.rep.types := by
  unfold call
  split
  · exact builtin_types hE (h _ (by simp)) _
  · exact types_fail _
  · split
    · exact types_fail _
    · rename_i f hf
      split
      · rename_i harity
        refine types_bind (boxedValues_types hE h) fun _ => types_pure fun hv => ?_
        rw [harity] at hv
        exact hv.trans (turns_call (hE.function f (List.mem_of_find?_eq_some hf)))
      · exact types_fail _

theorem create_types {args : List Operand} (h : ∀ o ∈ args, o.Typed E D)
    (loc : Location) (name : String) :
    Types D (create c loc name args) fun p => Turns E p.code [] p.rep.types := by
  unfold create
  split
  · exact types_fail _
  · rename_i k hk
    split
    · rename_i harity
      refine types_bind (boxedValues_types hE h) fun _ => types_pure fun hv => ?_
      rw [harity] at hv
      exact hv.trans (turns_call (hE.create k (List.mem_of_find?_eq_some hk)))
    · exact types_fail _

theorem staticCall_types {object : Operand} {args : List Operand}
    (ho : object.Typed E D) (h : ∀ o ∈ args, o.Typed E D) (loc : Location) (m : FunctionInfo) :
    Types D (staticCall c loc m object args) fun p => (∃ k ∈ c.decls.classes, m ∈ k.methods) →
      Turns E p.code [] p.rep.types := by
  unfold staticCall
  refine types_unless fun harity => ?_
  have hall : ∀ o ∈ object :: args, o.Typed E D := List.forall_mem_cons.2 ⟨ho, h⟩
  refine types_bind (boxedValues_types hE hall) fun _ => types_pure fun hv hm => ?_
  obtain ⟨k, hk, hm⟩ := hm
  rw [List.length_cons, Decidable.not_not.1 harity] at hv
  exact hv.trans (turns_call (hE.method k hk m hm))

theorem dynamicCall_types {object : Operand} {args : List Operand}
    (ho : object.Typed E D) (h : ∀ o ∈ args, o.Typed E D) (loc : Location) (name : String) :
    Types D (dynamicCall c loc object name args) fun p => Turns E p.code [] p.rep.types := by
  unfold dynamicCall
  split
  · exact types_fail _
  · refine types_ite ?_ (types_fail _)
    have hall : ∀ o ∈ object :: args, o.Typed E D := List.forall_mem_cons.2 ⟨ho, h⟩
    exact types_bind (boxedValues_types hE hall) fun _ =>
      types_bind (helper_types hE (.dispatcher name args.length)) fun _ => types_pure fun hh hv =>
        hv.trans hh

theorem methodCall_types {object : Operand} {args : List Operand}
    (ho : object.Typed E D) (h : ∀ o ∈ args, o.Typed E D) (loc : Location) (name : String) :
    Types D (methodCall c loc object name args) fun p => Turns E p.code [] p.rep.types := by
  refine types_bind (classOf_types hE _) fun cls => ?_
  split
  · rename_i m hm
    obtain ⟨k, hk, hm⟩ := Option.bind_eq_some_iff.1 hm
    exact types_mono (staticCall_types hE ho h loc m) fun p hp hcls =>
      hp ⟨k, hcls k hk, List.mem_of_find?_eq_some hm⟩
  · exact types_given (dynamicCall_types hE ho h loc name)

theorem property_types {object : Operand} (h : object.Typed E D)
    (loc : Location) (name : String) :
    Types D (property c loc object name) fun p => Turns E p.code [] p.rep.types :=
  types_bind (propRef_types hE h loc name) fun p => types_bind (readProp_types hE p.1) fun _ =>
    types_bind (release_types _) fun _ => types_pure fun _ hread hp => hp.2.trans (hread hp.1)

/-! ## Arrays -/

omit hE in
/-- The entries of an array literal leave what they say. -/
def EntriesTyped (E : Env) (D : Draft) (entries : List (Option Operand × Operand)) : Prop :=
  ∀ e ∈ entries, (∀ o ∈ e.1, o.Typed E D) ∧ e.2.Typed E D

theorem item_types {key : Option Operand} {val : Operand}
    (hk : ∀ o ∈ key, o.Typed E D) (hv : val.Typed E D) :
    Types D (item c key val) fun code => Turns E code [Shape.valueRef] [Shape.valueRef] := by
  unfold item
  split
  · exact types_bind (value_types hE hv .boxed) fun _ => types_pure fun hc =>
      (hc.above [Shape.valueRef]).trans (hE.call .arrPush)
  · rename_i k
    have hk := hk k rfl
    refine types_bind (typeFor_types c _) fun t => types_given (types_ite ?_ ?_)
    · exact types_bind (value_types hE hk .int) fun _ => types_bind (value_types hE hv .boxed)
        fun _ => types_pure fun hb ha =>
          ((ha.above [Shape.valueRef]).trans (hb.above [Shape.valueRef, .i64])).trans
            (hE.call .arrSetInt)
    · exact types_bind (value_types hE hk .boxed) fun _ => types_bind (value_types hE hv .boxed)
        fun _ => types_pure fun hb ha =>
          ((ha.above [Shape.valueRef]).trans (hb.above [Shape.valueRef, Shape.valueRef])).trans
            (hE.call .arrSet)

theorem items_types {entries : List (Option Operand × Operand)}
    (h : EntriesTyped E D entries) (array : Nat) :
    Types D (items c array entries) fun code =>
      E.Slot array Shape.valueRef → Turns E code [] [] := by
  induction entries with
  | nil => exact types_pure fun _ => .refl _ _
  | cons e entries ih =>
    obtain ⟨key, val⟩ := e
    obtain ⟨hk, hv⟩ := h (key, val) (by simp)
    exact types_bind (item_types hE hk hv) fun _ =>
      types_bind (ih fun e he => h e (by simp [he])) fun _ => types_pure fun hrest hcode hs =>
        (((turns_load hs).trans hcode).trans (turns_store hs)).trans (hrest hs)

theorem array_types {entries : List (Option Operand × Operand)}
    (h : EntriesTyped E D entries) :
    Types D (array c entries) fun p => Turns E p.code [] p.rep.types :=
  types_bind (temp_types hE (r := .boxed) nofun) fun t => types_bind (items_types hE h t) fun _ =>
    types_bind (release_types t) fun _ => types_pure fun _ hitems ht =>
      (((hE.call .arrNew).trans (turns_store ht)).trans (hitems ht)).trans (turns_load ht)

theorem element_types {base key : Operand} (hb : base.Typed E D)
    (hk : key.Typed E D) :
    Types D (element c base key) fun p => Turns E p.code [] p.rep.types := by
  refine types_bind (value_types hE hb .boxed) fun _ => types_bind (typeFor_types c _) fun t => ?_
  split
  · exact types_bind (value_types hE hk .int) fun _ => types_pure fun hk _ hb =>
      (hb.trans (hk.above [Shape.valueRef])).trans (hE.call .arrGetInt)
  · exact types_bind (value_types hE hk .boxed) fun _ => types_pure fun hk _ hb =>
      (hb.trans (hk.above [Shape.valueRef])).trans (hE.call .arrGet)

end Gen

/-! ## Expressions -/

section Expressions

variable {D : Draft} {E : Env} {c : Context}

mutual

theorem emit_types (hE : Serves E c D) : (e : Expr) → (operand c e).Typed E D
  | .lit _ v, d => by
    rw [operand_emit, emit]
    exact literal_types hE v d.best
  | .var loc name, d => by
    rw [operand_emit, emit]
    exact readVar_typed hE loc name d
  | .binary loc op l r, d => by
    rw [operand_emit, emit]
    exact binary_types hE (emit_types hE l) (emit_types hE r) loc op d.best
  | .unary loc op e, d => by
    rw [operand_emit, emit]
    exact unary_types hE (emit_types hE e) loc op d.best
  | .assign loc op (.var _ name) right, _ => by
    rw [operand_emit, emit]
    exact assignVar_types hE (emit_types hE right) loc _ op name _
  | .assign _ op (.index tloc base key) right, _ => by
    rw [operand_emit, emit]
    exact types_bind (checkSubscripts_types _) fun _ => types_given <|
      types_bind (place_types hE _ (.index tloc base key)) fun p =>
      types_bind (storePlace_types hE (emit_types hE right) _ op p.1 _) fun _ =>
        types_pure fun hrest hp => hp.2.trans (hrest hp.1)
  | .assign _ op (.prop tloc object name) right, _ => by
    rw [operand_emit, emit]
    exact types_bind (checkSubscripts_types _) fun _ => types_given <|
      types_bind (place_types hE _ (.prop tloc object name)) fun p =>
      types_bind (storePlace_types hE (emit_types hE right) _ op p.1 _) fun _ =>
        types_pure fun hrest hp => hp.2.trans (hrest hp.1)
  | .assign _ _ (.lit ..) _, _ | .assign _ _ (.binary ..) _, _ | .assign _ _ (.unary ..) _, _
  | .assign _ _ (.assign ..) _, _ | .assign _ _ (.incDec ..) _, _ | .assign _ _ (.ternary ..) _, _
  | .assign _ _ (.array ..) _, _ | .assign _ _ (.call ..) _, _ | .assign _ _ (.method ..) _, _
  | .assign _ _ (.create ..) _, _ => by
    rw [operand_emit, emit]
    · exact types_fail _
    all_goals simp
  | .incDec loc increment before (.var _ name), _ => by
    rw [operand_emit, emit]
    exact stepVar_types hE loc name increment before _
  | .incDec _ increment before (.index tloc base key), _ => by
    rw [operand_emit, emit]
    exact types_bind (checkSubscripts_types _) fun _ => types_given <|
      types_bind (place_types hE _ (.index tloc base key)) fun p =>
      types_bind (stepPlace_types hE _ p.1 increment before _) fun _ =>
        types_pure fun hrest hp => hp.2.trans (hrest hp.1)
  | .incDec _ increment before (.prop tloc object name), _ => by
    rw [operand_emit, emit]
    exact types_bind (checkSubscripts_types _) fun _ => types_given <|
      types_bind (place_types hE _ (.prop tloc object name)) fun p =>
      types_bind (stepPlace_types hE _ p.1 increment before _) fun _ =>
        types_pure fun hrest hp => hp.2.trans (hrest hp.1)
  | .incDec _ _ _ (.lit ..), _ | .incDec _ _ _ (.binary ..), _ | .incDec _ _ _ (.unary ..), _
  | .incDec _ _ _ (.assign ..), _ | .incDec _ _ _ (.incDec ..), _ | .incDec _ _ _ (.ternary ..), _
  | .incDec _ _ _ (.array ..), _ | .incDec _ _ _ (.call ..), _ | .incDec _ _ _ (.method ..), _
  | .incDec _ _ _ (.create ..), _ => by
    rw [operand_emit, emit]
    · exact types_fail _
    all_goals simp
  | .ternary _ cond yes no, d => by
    rw [operand_emit, emit]
    exact ternary_types hE (emit_types hE cond) (emit_types hE yes) (emit_types hE no) d.best
  | .array _ entries, _ => by
    rw [operand_emit, emit]
    exact array_types hE (entryOperands_types hE entries)
  | .index loc _ none, _ => by
    rw [operand_emit, emit]
    exact types_fail _
  | .index _ base (some key), _ => by
    rw [operand_emit, emit]
    exact element_types hE (emit_types hE base) (emit_types hE key)
  | .call loc name args, _ => by
    rw [operand_emit, emit]
    exact call_types hE (operands_types hE args) loc name
  | .method loc object name args, _ => by
    rw [operand_emit, emit]
    exact methodCall_types hE (emit_types hE object) (operands_types hE args) loc name
  | .create loc name args, _ => by
    rw [operand_emit, emit]
    exact create_types hE (operands_types hE args) loc name
  | .prop loc object name, _ => by
    rw [operand_emit, emit]
    exact property_types hE (emit_types hE object) loc name

theorem operands_types (hE : Serves E c D) : (es : List Expr) → ∀ o ∈ operands c es, o.Typed E D
  | [] => by simp [operands]
  | e :: rest => by
    rw [operands, List.forall_mem_cons]
    exact ⟨emit_types hE e, operands_types hE rest⟩

theorem entryOperands_types (hE : Serves E c D) :
    (entries : List (Option Expr × Expr)) → EntriesTyped E D (entryOperands c entries)
  | [] => by simp [EntriesTyped, entryOperands]
  | (none, v) :: rest => by
    rw [entryOperands, EntriesTyped, List.forall_mem_cons]
    exact ⟨⟨by simp, emit_types hE v⟩, entryOperands_types hE rest⟩
  | (some k, v) :: rest => by
    rw [entryOperands, EntriesTyped, List.forall_mem_cons]
    refine ⟨⟨fun o ho => ?_, emit_types hE v⟩, entryOperands_types hE rest⟩
    cases ho
    exact emit_types hE k

theorem place_types (hE : Serves E c D) (whole : Expr) : (e : Expr) →
    Types D (place c whole e) fun p => p.1.Typed E D ∧ Turns E p.2 [] []
  | .index _ base none => by
    rw [place]
    exact types_bind (place_types hE whole base) fun p => types_pure fun hp =>
      ⟨hp.1.push trivial, hp.2⟩
  | .index _ base (some k) => by
    rw [place]
    exact types_bind (place_types hE whole base) fun p =>
      types_bind (keyOf_types hE (emit_types hE k)) fun q => types_pure fun hq hp =>
        ⟨hp.1.push hq.1, hp.2.trans hq.2⟩
  | .var _ name => by
    rw [place]
    refine types_bind (findVar_types hE name) fun v => types_unless fun hb => types_pure fun hv =>
      ⟨⟨fun n hn w hw => ?_, nofun, by simp⟩, .refl _ _⟩
    cases hn
    obtain rfl : v = w := Option.some.inj (hv.1.symm.trans hw)
    exact Decidable.not_not.1 hb
  | .prop loc object name => by
    rw [place]
    refine types_bind (propRef_types hE (emit_types hE object) loc name) fun p =>
      types_pure fun hp => ⟨⟨nofun, fun ref href => ?_, by simp⟩, hp.2⟩
    cases href
    exact hp.1
  | .lit .. | .binary .. | .unary .. | .assign .. | .incDec .. | .ternary .. | .array .. | .call ..
  | .method .. | .create .. => by
    rw [place]
    · exact types_fail _
    all_goals simp

end

end Expressions

end HeapScript.Compile
