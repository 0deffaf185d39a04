import HeapScript.Library.Install
import HeapScript.Proofs.Machine.Balanced

/-!
# Kinds of operands

A discipline for code that works on the heap shapes of the library. It follows what is known of
each operand and lets code store only where stores are meant to go: into array values, tables,
entries, and the vectors behind arrays, tables and objects. A byte string may be written while it
is a buffer that nothing else refers to.

A routine that fills a buffer passes through three phases. Before it makes the buffer and after it
has handed it on, it is like any other; in between it calls nothing. The routine that grows a dense
array has two phases: once it has found a vector behind its first parameter, it knows that the
parameter is an array.
-/

namespace HeapScript.Library

open Machine

def Shape.fields? (t : Int) : Option (List ValType) :=
  match at? Shape.definitions t with
  | some (.struct fields) => some (fields.map Field.type)
  | _ => none

def Shape.field? (t f : Int) : Option ValType :=
  match Shape.fields? t, f with
  | some ts, .ofNat n => ts[n]?
  | _, _ => none

/-- The type of the elements of an array shape as operands; a byte is a 32-bit integer. -/
def Shape.elem? (t : Int) : Option ValType :=
  match at? Shape.definitions t with
  | some (.array ⟨.i8, _⟩) => some .i32
  | some (.array elem) => some elem.type
  | _ => none

/-! ## Kinds -/

/-- What is known of an operand. -/
inductive Kind where
  | typed (t : ValType)
  /-- A 32-bit constant. -/
  | const (n : Int)
  | null
  /-- A buffer of the running activation. -/
  | own
  /-- The value in the first local. -/
  | first
  /-- The reference in the value in the first local. -/
  | firstRef
  /-- The vector behind the value in the first local, which is then an array. -/
  | firstDense
  deriving DecidableEq

/-- How far the running activation has come. -/
inductive Phase where
  | before | filling | after
  deriving DecidableEq

namespace Kind

/-- Whether an operand of one kind will do for another. With `known`, the first local holds an
array. -/
def fits (known : Bool) (have_ want : Kind) : Bool :=
  have_ == want ||
    match want, have_ with
    | typed t, const _ => t == .i32
    | typed (.ref _), null | own, null | firstRef, null | firstDense, null => true
    | typed (.ref t), typed (.ref _) => t == anyHeap
    | typed (.ref t), first => t == Shape.value || t == anyHeap
    | typed (.ref t), firstRef => t == anyHeap
    | typed (.ref t), firstDense => t == Shape.dense || t == anyHeap
    | firstDense, typed t => known && t == Shape.denseRef
    | _, _ => false

/-- Whether operands will do for the wanted kinds. -/
def fitAll (known : Bool) : List Kind → List Kind → Bool
  | [], [] => true
  | k :: ks, w :: ws => k.fits known w && fitAll known ks ws
  | _, _ => false

/-- What is known of an operand once the buffers are handed on. -/
def published : Kind → Kind
  | own => typed Shape.bytesRef
  | k => k

/-- Whether a value with a constant tag may have a reference of some kind: an array refers to a
vector or a table, an object to its record, and all others to nothing. -/
def suits (known : Bool) (tag : Int) (ref : Kind) : Bool :=
  ref == null ||
    (tag == Tag.array.code.toInt &&
      (ref.fits known (typed Shape.denseRef) || ref.fits known (typed Shape.hashRef))) ||
    (tag == Tag.object.code.toInt && ref.fits known (typed (.ref Shape.object)))

theorem fits_self (known : Bool) (k : Kind) : k.fits known k = true := by
  simp [fits]

theorem fitAll_self (known : Bool) (ks : List Kind) : fitAll known ks ks = true := by
  induction ks with
  | nil => rfl
  | cons k ks ih => simp [fitAll, fits_self, ih]

theorem fitAll_length {known : Bool} {ks ws : List Kind} (h : fitAll known ks ws = true) :
    ks.length = ws.length := by
  induction ks generalizing ws with
  | nil =>
    cases ws with
    | nil => rfl
    | cons => cases h
  | cons k ks ih =>
    cases ws with
    | nil => cases h
    | cons w ws =>
      rw [fitAll, Bool.and_eq_true] at h
      simp [ih h.2]

end Kind

/-! ## Instructions -/

/-- The arguments and the result of an instruction that computes a number. -/
def numeric? : Instr → Option (List ValType × Kind)
  | .i32Const n => some ([], .const n)
  | .i64Const _ => some ([], .typed .i64)
  | .f64Const _ => some ([], .typed .f64)
  | .i32Eqz => some ([.i32], .typed .i32)
  | .i32 _ => some ([.i32, .i32], .typed .i32)
  | .i64Eqz => some ([.i64], .typed .i32)
  | .i64Rel _ => some ([.i64, .i64], .typed .i32)
  | .i64 _ => some ([.i64, .i64], .typed .i64)
  | .f64Rel _ => some ([.f64, .f64], .typed .i32)
  | .f64 _ => some ([.f64, .f64], .typed .f64)
  | .f64Neg => some ([.f64], .typed .f64)
  | .i32WrapI64 => some ([.i64], .typed .i32)
  | .i64ExtendI32S | .i64ExtendI32U => some ([.i32], .typed .i64)
  | .f64ConvertI64S => some ([.i64], .typed .f64)
  | .i64TruncSatF64S => some ([.f64], .typed .i64)
  | _ => none

/-- What the code of a function may rely on. -/
structure Env where
  /-- The parameters and results of the functions of the module. -/
  sig : Int → Option (List ValType × List ValType)
  locals : Phase → List Kind
  results : List ValType
  /-- Whether the first local holds an array in the phase `after`. -/
  measured : Bool := false

namespace Env

/-- Whether the first local is known to hold an array. -/
def known (E : Env) (p : Phase) : Bool := E.measured && p == .after

/-- What is known of a local. -/
def kind? (E : Env) (p : Phase) : Int → Option Kind
  | .ofNat i => (E.locals p)[i]?
  | .negSucc _ => none

def fills (E : Env) (p : Phase) (k : Kind) : Option ValType → Bool
  | some t => k.fits (E.known p) (.typed t)
  | none => false

/-- Whether operands are 32-bit integers. -/
def words (E : Env) (p : Phase) (ks : List Kind) : Bool :=
  ks.all fun k => k.fits (E.known p) (.typed .i32)

/-- Whether a local may hold an operand. -/
def admits (E : Env) (p : Phase) (i : Int) (k : Kind) : Bool :=
  match E.kind? p i with
  | some w => k.fits (E.known p) w
  | none => false

def stores (E : Env) (p : Phase) (t f : Int) (record k : Kind) : Bool :=
  if t = Shape.value then
    E.known p && record == .first &&
      ((f == ValueField.int.index && k.fits true (.typed .i64)) ||
        (f == ValueField.ref.index && k.fits true (.typed Shape.denseRef)))
  else
    (t == Shape.hash ||
      (t == Shape.entry && (f == EntryField.value.index || f == EntryField.next.index))) &&
    record.fits (E.known p) (.typed (.ref t)) && E.fills p k (Shape.field? t f)

def writes (E : Env) (p : Phase) (t : Int) (array : Kind) : Bool :=
  if t = Shape.bytes then array == .own
  else (t == Shape.dense || t == Shape.buckets) && array.fits (E.known p) (.typed (.ref t))

def reads (E : Env) (p : Phase) (t : Int) (array : Kind) : Bool :=
  (t == Shape.bytes && array == .own) || array.fits (E.known p) (.typed (.ref t))

/-- What is known of a new record. -/
def makes (E : Env) (p : Phase) (t : Int) (σ : List Kind) : Option (List Kind) :=
  if t = Shape.value then
    match σ with
    | ref :: str :: float :: int :: .const tag :: σ =>
      if int.fits (E.known p) (.typed .i64) && float.fits (E.known p) (.typed .f64) &&
          str.fits (E.known p) (.typed Shape.bytesRef) && ref.suits (E.known p) tag then
        some (.typed Shape.valueRef :: σ)
      else none
    | _ => none
  else
    match Shape.fields? t with
    | some ts =>
      if Kind.fitAll (E.known p) (σ.take ts.length) (ts.reverse.map .typed) then
        some (.typed (.ref t) :: σ.drop ts.length)
      else none
    | none => none

/-- How an instruction that is neither control flow nor a call changes what is known. -/
def flow (E : Env) (p : Phase) (i : Instr) (σ : List Kind) : Option (List Kind) :=
  match i, σ with
  | .nop, σ => some σ
  | .drop, _ :: σ => some σ
  | .localGet i, σ => (E.kind? p i).map (· :: σ)
  | .localSet i, k :: σ => if E.admits p i k then some σ else none
  | .localTee i, k :: σ => if E.admits p i k then some (k :: σ) else none
  | .refNull _, σ => some (.null :: σ)
  | .refIsNull, _ :: σ => some (.typed .i32 :: σ)
  | .refEq, _ :: _ :: σ => some (.typed .i32 :: σ)
  | .refTest _, _ :: σ => some (.typed .i32 :: σ)
  | .refCast t, k :: σ =>
    if k = .firstRef ∧ t = Shape.dense then some (.firstDense :: σ)
    else if k.fits (E.known p) (.typed .anyref) then some (.typed (.ref t) :: σ)
    else none
  | .structNew t, σ => E.makes p t σ
  | .structGet t f, k :: σ =>
    if k = .first ∧ t = Shape.value ∧ f = ValueField.ref.index then some (.firstRef :: σ)
    else if k.fits (E.known p) (.typed (.ref t)) then
      (Shape.field? t f).map fun type => .typed type :: σ
    else none
  | .structSet t f, k :: record :: σ => if E.stores p t f record k then some σ else none
  | .arrayNewDefault t, n :: σ =>
    if E.words p [n] && (Shape.elem? t).isSome then
      if t = Shape.bytes ∧ p = .filling then some (.own :: σ) else some (.typed (.ref t) :: σ)
    else none
  | .arrayNewData t _, n :: start :: σ =>
    if t = Shape.bytes ∧ E.words p [n, start] = true then some (.typed Shape.bytesRef :: σ)
    else none
  | .arrayGet t, n :: array :: σ =>
    if E.words p [n] && array.fits (E.known p) (.typed (.ref t)) then
      (Shape.elem? t).map fun type => .typed type :: σ
    else none
  | .arrayGetU t, n :: array :: σ =>
    if t = Shape.bytes ∧ (E.words p [n] && E.reads p t array) = true then some (.typed .i32 :: σ)
    else none
  | .arraySet t, k :: n :: array :: σ =>
    if E.words p [n] && E.writes p t array && E.fills p k (Shape.elem? t) then some σ else none
  | .arrayLen, _ :: σ => some (.typed .i32 :: σ)
  | .arrayCopy t t', n :: start :: source :: place :: target :: σ =>
    if t = t' ∧ (E.words p [n, start, place] && E.writes p t target && E.reads p t source) = true then
      some σ
    else none
  | i, σ =>
    match numeric? i with
    | some (args, k) =>
      if Kind.fitAll (E.known p) (σ.take args.length) (args.map .typed) then
        some (k :: σ.drop args.length)
      else none
    | none => none

end Env

/-! ## Code -/

/-- What kind of construct is entered. -/
inductive Construct where
  | block | loop | branch
  deriving DecidableEq

/-- A construct around code: the operands it was entered with, and what it leaves on top. -/
structure Ctrl where
  construct : Construct
  base : List Kind
  results : List Kind
  deriving DecidableEq

def resultKinds : ValType → List Kind
  | .void => []
  | t => [.typed t]

/-- Whether a jump to a construct finds the operands it needs. -/
def Ctrl.reached (k : Ctrl) (known : Bool) (σ : List Kind) : Bool :=
  k.results.length + k.base.length ≤ σ.length &&
    σ.drop (σ.length - k.base.length) == k.base &&
    Kind.fitAll known (σ.take k.results.length) k.results

/-- Whether a function may return with operands. -/
def Env.returns (E : Env) (p : Phase) (σ : List Kind) : Bool :=
  p != .filling &&
    Kind.fitAll (E.known p) (σ.take E.results.length) (E.results.reverse.map .typed)

/-- Code that keeps to the discipline, to the end of a body. -/
inductive Checks (E : Env) : Phase → List Ctrl → List Kind → List Instr → Prop where
  | nil {p : Phase} {σ : List Kind} (hr : E.returns p σ = true) : Checks E p [] σ []
  | plain {p : Phase} {ctrl : List Ctrl} {σ σ' : List Kind} {i : Instr} {rest : List Instr}
      (hf : E.flow p i σ = some σ') (hr : Checks E p ctrl σ' rest) : Checks E p ctrl σ (i :: rest)
  | call {p : Phase} {ctrl : List Ctrl} {σ ks : List Kind} {func : Int} {rest : List Instr}
      {params results : List ValType} (hp : p ≠ .filling) (hs : E.sig func = some (params, results))
      (hk : Kind.fitAll (E.known p) ks (params.reverse.map .typed) = true)
      (hr : Checks E p ctrl (results.reverse.map .typed ++ σ) rest) :
      Checks E p ctrl (ks ++ σ) (.call func :: rest)
  | unreachable {p : Phase} {ctrl : List Ctrl} {σ σ' : List Kind} {rest : List Instr}
      (hr : Checks E p ctrl σ' rest) : Checks E p ctrl σ (.unreachable :: rest)
  | ret {p : Phase} {ctrl : List Ctrl} {σ σ' : List Kind} {rest : List Instr}
      (hσ : E.returns p σ = true) (hr : Checks E p ctrl σ' rest) : Checks E p ctrl σ (.ret :: rest)
  | br {p : Phase} {ctrl : List Ctrl} {σ σ' : List Kind} {d : Nat} {k : Ctrl} {rest : List Instr}
      (hd : ctrl[d]? = some k) (hk : k.reached (E.known p) σ = true) (hr : Checks E p ctrl σ' rest) :
      Checks E p ctrl σ (.br d :: rest)
  | brIf {p : Phase} {ctrl : List Ctrl} {σ : List Kind} {c : Kind} {d : Nat} {k : Ctrl}
      {rest : List Instr} (hc : E.words p [c] = true) (hd : ctrl[d]? = some k)
      (hk : k.reached (E.known p) σ = true)
      (hr : Checks E p ctrl σ rest) : Checks E p ctrl (c :: σ) (.brIf d :: rest)
  | block {p : Phase} {ctrl : List Ctrl} {σ : List Kind} {t : ValType} {rest : List Instr}
      (hr : Checks E p (⟨.block, σ, resultKinds t⟩ :: ctrl) σ rest) :
      Checks E p ctrl σ (.block t :: rest)
  | loop {p : Phase} {ctrl : List Ctrl} {σ : List Kind} {rest : List Instr}
      (hr : Checks E p (⟨.loop, σ, []⟩ :: ctrl) σ rest) : Checks E p ctrl σ (.loop :: rest)
  | branchIf {p : Phase} {ctrl : List Ctrl} {σ : List Kind} {c : Kind} {t : ValType}
      {rest : List Instr} (hc : E.words p [c] = true)
      (hr : Checks E p (⟨.branch, σ, resultKinds t⟩ :: ctrl) σ rest) :
      Checks E p ctrl (c :: σ) (.branchIf t :: rest)
  | otherwise {p : Phase} {ctrl : List Ctrl} {σ : List Kind} {k : Ctrl} {rest : List Instr}
      (hk : k.construct = .branch)
      (hσ : Kind.fitAll (E.known p) σ (k.results ++ k.base) = true)
      (hr : Checks E p ({ k with construct := .block } :: ctrl) k.base rest) :
      Checks E p (k :: ctrl) σ (.otherwise :: rest)
  | close {p : Phase} {ctrl : List Ctrl} {σ : List Kind} {k : Ctrl} {rest : List Instr}
      (hk : k.construct = .branch → k.results = [])
      (hσ : Kind.fitAll (E.known p) σ (k.results ++ k.base) = true)
      (hr : Checks E p ctrl (k.results ++ k.base) rest) : Checks E p (k :: ctrl) σ (.close :: rest)
  | fill {σ : List Kind} {code : List Instr} (hm : E.measured = false)
      (hr : Checks E .filling [] σ code) : Checks E .before [] σ code
  | publish {σ : List Kind} {code : List Instr} (hm : E.measured = false)
      (hr : Checks E .after [] (σ.map Kind.published) code) : Checks E .filling [] σ code
  | measure {σ : List Kind} {rest : List Instr} (hm : E.measured = true)
      (hr : Checks E .after [] (.typed .i32 :: σ) rest) :
      Checks E .before [] (.firstDense :: σ) (.arrayLen :: rest)

/-- Behind balanced code inside a construct, the discipline goes on. -/
theorem Checks.skip {E : Env} {p : Phase} {body : List Instr} (hb : Balanced body) :
    ∀ {k : Ctrl} {ctrl : List Ctrl} {σ : List Kind} {rest : List Instr},
      Checks E p (k :: ctrl) σ (body ++ rest) → ∃ σ', Checks E p (k :: ctrl) σ' rest := by
  induction hb with
  | nil => exact fun h => ⟨_, h⟩
  | plain hi _ ih =>
    intro k ctrl σ rest h
    cases h with
    | plain _ hr | call _ _ _ hr | unreachable hr | ret _ hr | br _ _ hr | brIf _ _ _ hr => exact ih hr
    | block | loop | branchIf | otherwise | close => cases hi
  | block _ _ ihb ihr =>
    intro k ctrl σ rest h
    rw [List.cons_append, List.append_assoc, List.cons_append] at h
    cases h with
    | plain hf => cases hf
    | block hr =>
      obtain ⟨σ', h'⟩ := ihb hr
      cases h' with
      | plain hf => cases hf
      | close _ _ hr => exact ihr hr
  | loop _ _ ihb ihr =>
    intro k ctrl σ rest h
    rw [List.cons_append, List.append_assoc, List.cons_append] at h
    cases h with
    | plain hf => cases hf
    | loop hr =>
      obtain ⟨σ', h'⟩ := ihb hr
      cases h' with
      | plain hf => cases hf
      | close _ _ hr => exact ihr hr
  | branch _ _ ihb ihr =>
    intro k ctrl σ rest h
    rw [List.cons_append, List.append_assoc, List.cons_append] at h
    cases h with
    | plain hf => cases hf
    | branchIf _ hr =>
      obtain ⟨σ', h'⟩ := ihb hr
      cases h' with
      | plain hf => cases hf
      | close _ _ hr => exact ihr hr
  | choice _ _ _ ihy ihn ihr =>
    intro k ctrl σ rest h
    rw [List.cons_append, List.append_assoc, List.cons_append, List.append_assoc,
      List.cons_append] at h
    cases h with
    | plain hf => cases hf
    | branchIf _ hr =>
      obtain ⟨σ', h'⟩ := ihy hr
      cases h' with
      | plain hf => cases hf
      | otherwise _ _ hr =>
        obtain ⟨σ'', h''⟩ := ihn hr
        cases h'' with
        | plain hf => cases hf
        | close _ _ hr => exact ihr hr

/-! ## Checking -/

namespace Env

/-- The operands that code behind a jump is checked with. -/
def expected (E : Env) : List Ctrl → List Kind
  | [] => E.results.reverse.map .typed
  | k :: _ => k.results ++ k.base

/-- Checks code in one phase and gives what is known behind it. -/
def infer (E : Env) (p : Phase) : List Ctrl → List Kind → List Instr → Option (List Kind)
  | [], σ, [] => some σ
  | _ :: _, _, [] => none
  | ctrl, _, .unreachable :: rest => infer E p ctrl (E.expected ctrl) rest
  | ctrl, σ, .ret :: rest =>
    if E.returns p σ then infer E p ctrl (E.expected ctrl) rest else none
  | ctrl, σ, .br (.ofNat d) :: rest =>
    match ctrl[d]? with
    | some k => if k.reached (E.known p) σ then infer E p ctrl (E.expected ctrl) rest else none
    | none => none
  | ctrl, c :: σ, .brIf (.ofNat d) :: rest =>
    match ctrl[d]? with
    | some k =>
      if E.words p [c] && k.reached (E.known p) σ then infer E p ctrl σ rest else none
    | none => none
  | ctrl, σ, .block t :: rest => infer E p (⟨.block, σ, resultKinds t⟩ :: ctrl) σ rest
  | ctrl, σ, .loop :: rest => infer E p (⟨.loop, σ, []⟩ :: ctrl) σ rest
  | ctrl, c :: σ, .branchIf t :: rest =>
    if E.words p [c] then infer E p (⟨.branch, σ, resultKinds t⟩ :: ctrl) σ rest else none
  | k :: ctrl, σ, .otherwise :: rest =>
    if k.construct == .branch && Kind.fitAll (E.known p) σ (k.results ++ k.base) then
      infer E p ({ k with construct := .block } :: ctrl) k.base rest
    else none
  | k :: ctrl, σ, .close :: rest =>
    if (k.construct != .branch || k.results == []) &&
        Kind.fitAll (E.known p) σ (k.results ++ k.base) then
      infer E p ctrl (k.results ++ k.base) rest
    else none
  | ctrl, σ, .call func :: rest =>
    match E.sig func with
    | some (params, results) =>
      if p != .filling &&
          Kind.fitAll (E.known p) (σ.take params.length) (params.reverse.map .typed) then
        infer E p ctrl (results.reverse.map .typed ++ σ.drop params.length) rest
      else none
    | none => none
  | ctrl, σ, i :: rest =>
    match E.flow p i σ with
    | some σ' => infer E p ctrl σ' rest
    | none => none

/-- Code that is checked keeps to the discipline, if the code behind it does. -/
theorem infer_checks {E : Env} {p : Phase} {ctrl : List Ctrl} {σ σ' : List Kind}
    {code : List Instr} (h : E.infer p ctrl σ code = some σ') {rest : List Instr}
    (hr : Checks E p [] σ' rest) : Checks E p ctrl σ (code ++ rest) := by
  fun_induction infer E p ctrl σ code
  case case1 =>
    cases h
    exact hr
  case case3 ih => exact .unreachable (ih h)
  case case4 hσ ih => exact .ret hσ (ih h)
  case case6 hd hk ih => exact .br hd hk (ih h)
  case case9 hd hk ih =>
    rw [Bool.and_eq_true] at hk
    exact .brIf hk.1 hd hk.2 (ih h)
  case case12 ih => exact .block (ih h)
  case case13 ih => exact .loop (ih h)
  case case14 hc ih => exact .branchIf hc (ih h)
  case case16 hk ih =>
    rw [Bool.and_eq_true, beq_iff_eq] at hk
    exact .otherwise hk.1 hk.2 (ih h)
  case case18 hk ih =>
    rw [Bool.and_eq_true, Bool.or_eq_true, bne_iff_ne, beq_iff_eq] at hk
    refine .close (fun hc => ?_) hk.2 (ih h)
    rcases hk.1 with hk | hk
    · exact absurd hc hk
    · exact hk
  case case20 σ func code params results hs hk ih =>
    rw [Bool.and_eq_true, bne_iff_ne] at hk
    rw [← List.take_append_drop params.length σ]
    exact .call hk.1 hs hk.2 (ih h)
  case case23 hf ih => exact .plain hf (ih h)
  all_goals cases h

end Env

/-! ## Places of the library -/

/-- An instruction of code whose functions have moved. -/
def relocate (base : Nat) : Instr → Instr
  | .call (.ofNat n) => .call (.ofNat (base + n))
  | i => i

theorem relocate_eq {base : Nat} {i : Instr} (h : ∀ f, i ≠ .call f) : relocate base i = i := by
  unfold relocate
  split
  · exact absurd rfl (h _)
  · rfl

/-- Code that keeps to the discipline does so with its functions moved. -/
theorem Checks.relocate {E : Env} {sig : Int → Option (List ValType × List ValType)} {base : Nat}
    (hs : ∀ n s, E.sig n = some s → ∃ k : Nat, n = k ∧ sig (base + k : Nat) = some s)
    {p : Phase} {ctrl : List Ctrl} {σ : List Kind} {code : List Instr} (h : Checks E p ctrl σ code) :
    Checks { E with sig := sig } p ctrl σ (code.map (relocate base)) := by
  induction h with
  | nil hr => exact .nil hr
  | plain hf _ ih =>
    rw [List.map_cons, relocate_eq]
    · exact .plain hf ih
    · rintro f rfl
      cases hf
  | call hp hf hk _ ih =>
    obtain ⟨k, rfl, hk'⟩ := hs _ _ hf
    exact .call hp hk' hk ih
  | unreachable _ ih => exact .unreachable ih
  | ret hσ _ ih => exact .ret hσ ih
  | br hd hk _ ih => exact .br hd hk ih
  | brIf hc hd hk _ ih => exact .brIf hc hd hk ih
  | block _ ih => exact .block ih
  | loop _ ih => exact .loop ih
  | branchIf hc _ ih => exact .branchIf hc ih
  | otherwise hk hσ _ ih => exact .otherwise hk hσ ih
  | close hk hσ _ ih => exact .close hk hσ ih
  | fill hm _ ih => exact .fill hm ih
  | publish hm _ ih => exact .publish hm ih
  | measure hm _ ih => exact .measure hm ih

end HeapScript.Library
