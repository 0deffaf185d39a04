import HeapScript.Proofs.Analysis.Escapes
import HeapScript.Proofs.Compile.Drafting

/-!
# Functions drafted side by side

Whether a function can be drafted, and why not, depends on its own statements and on the heads of the
declarations around it. It does not depend on the string constants and helpers that other functions
have put into the pool, nor on the bodies and defaults of other declarations: these show in the code
only, and no step looks at code. So every step is followed twice at once, among its own declarations
and among others with the same heads.

The same walk shows what a step does by itself. A construct that the code opens it also closes. What
is taken of temporaries is given back, in whatever order, so a temporary is never given back twice and
none is lost. No code converts a value that is not there, and a variable that must be boxed is. So a
step fails only because of the program. The last needs a draft in which variables are held as the
analysis says, and is followed if `k` is true.
-/

namespace HeapScript

/-- A function declaration without its body. -/
def FunctionDecl.head {σ : Type} (f : FunctionDecl σ) : FunctionDecl σ := { f with body := [] }

/-- A property declaration without its default. -/
def PropertyDecl.head (p : PropertyDecl) : PropertyDecl := { p with default := none }

namespace Compile

open Machine Library

/-! ## Heads of declarations -/

/-- A function without its body. -/
def FunctionInfo.head (f : FunctionInfo) : FunctionInfo := { f with decl := f.decl.head }

/-- A class without the bodies of its methods and the defaults of its properties. -/
def ClassInfo.head (k : ClassInfo) : ClassInfo :=
  { k with defaults := k.defaults.map PropertyDecl.head
           methods := k.methods.map FunctionInfo.head }

/-- Declarations without bodies and defaults. -/
def Declarations.heads (d : Declarations) : Declarations :=
  { d with functions := d.functions.map FunctionInfo.head
           classes := d.classes.map ClassInfo.head }

theorem FunctionInfo.arity_eq {f f' : FunctionInfo} (h : f.head = f'.head) :
    f.arity = f'.arity :=
  show f.head.arity = f'.head.arity from congrArg arity h

theorem FunctionInfo.name_eq {f f' : FunctionInfo} (h : f.head = f'.head) : f.name = f'.name :=
  show f.head.name = f'.head.name from congrArg name h

theorem ClassInfo.head_head (k : ClassInfo) : k.head.head = k.head := by
  simp only [head, List.map_map]
  rfl

namespace Declarations

variable {d d' : Declarations}

theorem heads_functions (h : d.heads = d'.heads) :
    d.functions.map FunctionInfo.head = d'.functions.map FunctionInfo.head :=
  congrArg functions h

theorem heads_classes (h : d.heads = d'.heads) :
    d.classes.map ClassInfo.head = d'.classes.map ClassInfo.head :=
  congrArg classes h

/-- What can be told from heads is the same for functions with the same heads. -/
theorem map_functions_eq {β : Type} (h : d.heads = d'.heads) (g : FunctionInfo → β)
    (hg : ∀ f, g f.head = g f) : d.functions.map g = d'.functions.map g := by
  have hcomp : g ∘ FunctionInfo.head = g := funext hg
  rw [← hcomp, ← List.map_map, ← List.map_map, heads_functions h]

/-- What can be told from heads is the same for classes with the same heads. -/
theorem map_classes_eq {β : Type} (h : d.heads = d'.heads) (g : ClassInfo → β)
    (hg : ∀ k, g k.head = g k) : d.classes.map g = d'.classes.map g := by
  have hcomp : g ∘ ClassInfo.head = g := funext hg
  rw [← hcomp, ← List.map_map, ← List.map_map, heads_classes h]

theorem classNames_eq (h : d.heads = d'.heads) : d.classNames = d'.classNames :=
  map_classes_eq h _ fun _ => rfl

theorem functionNames_eq (h : d.heads = d'.heads) :
    d.functions.map FunctionInfo.name = d'.functions.map FunctionInfo.name :=
  map_functions_eq h _ fun _ => rfl

theorem propertyNames_eq (h : d.heads = d'.heads) : d.propertyNames = d'.propertyNames := by
  simp only [propertyNames, List.flatMap_def]
  rw [map_classes_eq h ClassInfo.props fun _ => rfl]

theorem methodNames_eq (h : d.heads = d'.heads) : d.methodNames = d'.methodNames := by
  simp only [methodNames, List.flatMap_def]
  rw [map_classes_eq h (fun c => c.methods.map fun m => m.decl.name) fun k => ?_]
  simp [ClassInfo.head, FunctionInfo.head, FunctionDecl.head, Function.comp_def]

theorem withProperty_isEmpty_eq (h : d.heads = d'.heads) (prop : String) :
    (d.withProperty prop).isEmpty = (d'.withProperty prop).isEmpty := by
  have hall (e : Declarations) : (e.withProperty prop).isEmpty =
      (e.classes.map fun k => (k.slot? prop).isSome).all (! ·) := by
    rw [Bool.eq_iff_iff]
    simp [withProperty, List.isEmpty_iff, List.filter_eq_nil_iff]
  rw [hall, hall, map_classes_eq h _ fun _ => rfl]

theorem function?_head (h : d.heads = d'.heads) (name : String) :
    (d.function? name).map FunctionInfo.head = (d'.function? name).map FunctionInfo.head := by
  have hfind (e : Declarations) : (e.function? name).map FunctionInfo.head =
      (e.functions.map FunctionInfo.head).find? fun f => f.name == name := by
    rw [List.find?_map]
    rfl
  rw [hfind, hfind, heads_functions h]

theorem class?_head (h : d.heads = d'.heads) (name : String) :
    (d.class? name).map ClassInfo.head = (d'.class? name).map ClassInfo.head := by
  have hfind (e : Declarations) : (e.class? name).map ClassInfo.head =
      (e.classes.map ClassInfo.head).find? fun k => k.name == name := by
    rw [List.find?_map]
    rfl
  rw [hfind, hfind, heads_classes h]

end Declarations

theorem ClassInfo.method?_head (k : ClassInfo) (name : String) :
    k.head.method? name = (k.method? name).map FunctionInfo.head := by
  simp only [method?, head, List.find?_map]
  rfl

theorem ClassInfo.arity_head (k : ClassInfo) : k.head.arity = k.arity := by
  simp only [arity, initializer?, method?_head, Option.map_map]
  rfl

/-- The classes that declare a method are the same for classes with the same heads. -/
theorem Declarations.withMethod_head {d d' : Declarations} (h : d.heads = d'.heads)
    (name : String) :
    (d.withMethod name).map (Prod.map ClassInfo.head FunctionInfo.head) =
      (d'.withMethod name).map (Prod.map ClassInfo.head FunctionInfo.head) := by
  have hall (e : Declarations) :
      (e.withMethod name).map (Prod.map ClassInfo.head FunctionInfo.head) =
        (e.classes.map fun k => (k.method? name).map fun m => (k.head, m.head)).filterMap
          id := by
    simp [withMethod, List.map_filterMap, List.filterMap_map, Function.comp_def]
  rw [hall, hall, map_classes_eq h _ fun k => ?_]
  rw [ClassInfo.method?_head, Option.map_map, ClassInfo.head_head]
  rfl

/-! ## Drafts -/

/-- The same function seen with other declarations around it. -/
def Context.knowing (c : Context) (decls : Declarations) : Context := { c with decls := decls }

theorem Context.knowing_decls (c : Context) (D : Declarations) : (c.knowing D).decls = D := rfl

def Draft.Alike (d e : Draft) : Prop := d.layout = e.layout ∧ d.vars = e.vars

/-- All temporaries in use have a kind, and every variable is boxed or held as the analysis says. -/
structure Draft.Tidy (c : Context) (d : Draft) : Prop where
  known : ∀ s ∈ d.layout.inUse, (d.layout.kindOf? s).isSome = true
  vars : ∀ n v, d.vars.lookup n = some v →
    v.storage = .boxed ∨ v.storage = (c.facts.lookup n).storage

/-- Two drafts are alike, the given temporaries are in use in them, and they are tidy if that is
followed. -/
structure Draft.Beside (k : Bool) (c : Context) (W : List Nat) (d e : Draft) : Prop where
  alike : d.Alike e
  held : d.layout.inUse.Perm W
  tidy : k = true → d.Tidy c

theorem Draft.Beside.congr {k : Bool} {c : Context} {W : List Nat} {d d' e e' : Draft}
    (h : d.Beside k c W e) (hd : d'.Alike d) (he : e.Alike e') : d'.Beside k c W e' where
  alike := ⟨hd.1.trans (h.alike.1.trans he.1), hd.2.trans (h.alike.2.trans he.2)⟩
  held := hd.1 ▸ h.held
  tidy hk := by
    obtain ⟨known, vars⟩ := h.tidy hk
    exact ⟨hd.1 ▸ known, hd.2 ▸ vars⟩

theorem Draft.beside_self {k : Bool} {c : Context} {d : Draft} (h : k = true → d.Tidy c) :
    d.Beside k c d.layout.inUse d := ⟨⟨rfl, rfl⟩, .refl _, h⟩

theorem allocate_inUse (l : Layout) (k : SlotKind) :
    (l.allocate k).2.inUse = (l.allocate k).1 :: l.inUse := by
  unfold Layout.allocate
  split <;> rfl

/-- A temporary that is handed out has a kind, and so have those handed out before. -/
theorem allocate_known {l : Layout} (h : ∀ s ∈ l.inUse, (l.kindOf? s).isSome = true) (k : SlotKind) :
    ∀ s ∈ (l.allocate k).2.inUse, ((l.allocate k).2.kindOf? s).isSome = true := by
  intro s hs
  unfold Layout.allocate at hs ⊢
  split at hs
  · rename_i t ht
    rcases List.mem_cons.1 hs with rfl | hs
    · have hk := List.find?_some ht
      rw [beq_iff_eq] at hk
      exact Option.isSome_iff_exists.2 ⟨k, hk⟩
    · exact h s hs
  · dsimp only [Layout.kindOf?, Layout.declare] at hs ⊢
    rw [List.lookup_cons]
    split
    · rfl
    · rename_i hne
      rcases List.mem_cons.1 hs with rfl | hs
      · simp at hne
      · exact h s hs

namespace Gen

section Rules

variable {α β γ δ : Type} {k : Bool} {c : Context} {D : Declarations} {W V : List Nat} {x x' : Gen α}
  {y y' : Gen β} {f : α → Gen γ} {g : β → Gen δ} {P : α → β → Prop} {R : γ → δ → Prop}
  {Q : γ → δ → List Nat → Prop}

/-! ## Rules -/

/-- From drafts side by side with the temporaries `W` in use, two steps give results `a` and `b` and
drafts with temporaries `V` in use, `Q a b V`, or fail with the same error. -/
def Tidies (k : Bool) (c : Context) (W : List Nat) (x : Gen α) (y : Gen β)
    (Q : α → β → List Nat → Prop) : Prop :=
  ∀ d e, d.Beside k c W e →
    match step x d, step y e with
    | (.ok a, d'), (.ok b, e') => ∃ V, Q a b V ∧ d'.Beside k c V e'
    | (.error r, _), (.error s, _) =>
      r = s ∧ r.level ≠ .warning ∧ (k = true → r.category ≠ .internal)
    | _, _ => False

/-- Two steps leave the temporaries in use as they were, and their results are related. -/
def Restores (k : Bool) (c : Context) (x : Gen α) (y : Gen β) (P : α → β → Prop) : Prop :=
  ∀ W, Tidies k c W x y fun a b V => V = W ∧ P a b

theorem tidies_pure {a : γ} {b : δ} (h : Q a b W) : Tidies k c W (pure a) (pure b) Q :=
  fun _ _ hd => ⟨W, h, hd⟩

theorem tidies_fail {r : Diagnostic} (hr : r.level ≠ .warning)
    (hc : k = true → r.category ≠ .internal) : Tidies k c W (fail r) (fail r) Q :=
  fun _ _ _ => ⟨rfl, hr, hc⟩

theorem tidies_bind {S : α → β → List Nat → Prop} (hx : Tidies k c W x y S)
    (hf : ∀ a b V, S a b V → Tidies k c V (f a) (g b) Q) :
    Tidies k c W (x >>= f) (y >>= g) Q := by
  intro d e hd
  have h := hx d e hd
  rw [step_bind, step_bind]
  revert h
  rcases step x d with ⟨r | a, d'⟩ <;> rcases step y e with ⟨s | b, e'⟩ <;> intro h
  · exact h
  · exact h.elim
  · exact h.elim
  · obtain ⟨V, hS, hV⟩ := h
    exact hf a b V hS d' e' hV

/-- Two steps that restore the temporaries, and what follows them. -/
theorem tidies_after (hx : Restores k c x y P) (hf : ∀ a b, P a b → Tidies k c W (f a) (g b) Q) :
    Tidies k c W (x >>= f) (y >>= g) Q := by
  refine tidies_bind (hx W) ?_
  rintro a b V ⟨rfl, h⟩
  exact hf a b h

theorem tidies_get {f : Draft → Gen γ} {g : Draft → Gen δ}
    (h : ∀ d e, d.Beside k c W e → Tidies k c W (f d) (g e) Q) :
    Tidies k c W (get >>= f) (get >>= g) Q := fun d e hd => h d e hd d e hd

theorem tidies_set {s t : Draft} {f : Unit → Gen γ} {g : Unit → Gen δ} (hs : s.Beside k c V t)
    (hf : Tidies k c V (f ()) (g ()) Q) : Tidies k c W (set s >>= f) (set t >>= g) Q :=
  fun _ _ _ => hf s t hs

theorem tidies_ite {p : Prop} [Decidable p] {S : α → β → List Nat → Prop} (hx : Tidies k c W x y S)
    (hy : Tidies k c W x' y' S) :
    Tidies k c W (if p then x else x') (if p then y else y') S := by
  split
  · exact hx
  · exact hy

/-- A check that gives up the function if something holds. -/
theorem tidies_unless {p : Prop} [Decidable p] {r : Diagnostic} {f : Unit → Gen γ}
    {g : Unit → Gen δ} (hr : r.level ≠ .warning) (hc : p → k = true → r.category ≠ .internal)
    (hf : Tidies k c W (f ()) (g ()) Q) :
    Tidies k c W (if p then fail r >>= f else f ()) (if p then fail r >>= g else g ()) Q := by
  split
  · rename_i hp
    exact tidies_bind (S := fun _ _ _ => False) (tidies_fail hr (hc hp)) fun _ _ _ h => h.elim
  · exact hf

/-- Only which temporaries are in use matters, not their order. -/
theorem tidies_perm {S : α → β → List Nat → Prop} (hp : W.Perm V) (h : Tidies k c V x y S) :
    Tidies k c W x y S :=
  fun d e hd => h d e ⟨hd.alike, hd.held.trans hp, hd.tidy⟩

theorem restores_pure {a : α} {b : β} (h : P a b) : Restores k c (pure a) (pure b) P :=
  fun _ => tidies_pure ⟨rfl, h⟩

theorem restores_fail {r : Diagnostic} (hr : r.level ≠ .warning) (hc : r.category ≠ .internal) :
    Restores k c (fail r) (fail r) P := fun _ => tidies_fail hr fun _ => hc

theorem restores_bind (hx : Restores k c x y P) (hf : ∀ a b, P a b → Restores k c (f a) (g b) R) :
    Restores k c (x >>= f) (y >>= g) R := fun W => tidies_after hx fun a b h => hf a b h W

theorem restores_ite {p : Prop} [Decidable p] (hx : Restores k c x y P)
    (hy : Restores k c x' y' P) : Restores k c (if p then x else x') (if p then y else y') P :=
  fun W => tidies_ite (hx W) (hy W)

/-- A check that gives up the function if the program is wrong. -/
theorem restores_unless {p : Prop} [Decidable p] {r : Diagnostic} {f : Unit → Gen γ}
    {g : Unit → Gen δ} (hr : r.level ≠ .warning) (hc : r.category ≠ .internal)
    (hf : Restores k c (f ()) (g ()) R) :
    Restores k c (if p then fail r >>= f else f ()) (if p then fail r >>= g else g ()) R :=
  fun W => tidies_unless hr (fun _ _ => hc) (hf W)

theorem restores_mono {P' : α → β → Prop} (hx : Restores k c x y P) (h : ∀ a b, P a b → P' a b) :
    Restores k c x y P' := by
  intro W d e hd
  have := hx W d e hd
  revert this
  rcases step x d with ⟨r | a, d'⟩ <;> rcases step y e with ⟨s | b, e'⟩
  · exact id
  · exact id
  · exact id
  · rintro ⟨V, ⟨hV, hP⟩, hd'⟩
    exact ⟨V, ⟨hV, h a b hP⟩, hd'⟩

/-! ## Variables and temporaries -/

theorem restores_note (line line' : String) : Restores k c (note line) (note line') fun _ _ => True :=
  fun W _ _ hd => ⟨W, ⟨rfl, trivial⟩, hd.congr ⟨rfl, rfl⟩ ⟨rfl, rfl⟩⟩

theorem restores_bytes (s : Bytes) : Restores k c (bytes s) (bytes s) fun a _ => Nests a [] :=
  fun W _ _ hd => ⟨W, ⟨rfl, by simp⟩, hd.congr ⟨rfl, rfl⟩ ⟨rfl, rfl⟩⟩

theorem restores_helper (h : Helper) :
    Restores k c (helper c h) (helper (c.knowing D) h) fun a _ => Nests a [] :=
  fun W _ _ hd => ⟨W, ⟨rfl, by simp⟩, hd.congr ⟨rfl, rfl⟩ ⟨rfl, rfl⟩⟩

/-- The storage of a variable is known if drafts are tidy. -/
theorem restores_findVar (name : String) :
    Restores k c (findVar c name) (findVar (c.knowing D) name) fun v w => v = w ∧
      (k = true → v.storage = .boxed ∨ v.storage = (c.facts.lookup name).storage) := by
  refine fun W => tidies_get fun d e hd => ?_
  rw [← hd.alike.1, ← hd.alike.2]
  cases hl : d.vars.lookup name with
  | some v => exact tidies_pure ⟨rfl, rfl, fun hk => (hd.tidy hk).vars name v hl⟩
  | none =>
    refine tidies_set ⟨⟨rfl, rfl⟩, hd.held, fun hk => ?_⟩
      (tidies_pure ⟨rfl, rfl, fun _ => .inr rfl⟩)
    obtain ⟨known, vars⟩ := hd.tidy hk
    refine ⟨known, fun n v hv => ?_⟩
    rw [List.lookup_cons] at hv
    split at hv
    · rename_i hn
      cases hv
      rw [eq_of_beq hn]
      exact .inr rfl
    · exact vars n v hv

theorem typeOf_alike {d e : Draft} (hd : d.Alike e) : typeOf c d = typeOf (c.knowing D) e := by
  funext name
  simp only [typeOf, hd.2]
  rfl

theorem restores_typeFor (e : Expr) :
    Restores k c (typeFor c e) (typeFor (c.knowing D) e) fun s t => s = t := by
  refine fun W => tidies_get fun d e' hd => tidies_pure ⟨rfl, ?_⟩
  rw [typeOf_alike hd.alike]
  rfl

theorem restores_typed (e : Expr) {f : StaticType → Gen γ} {g : StaticType → Gen δ}
    (hf : ∀ t, Restores k c (f t) (g t) R) :
    Restores k c (typeFor c e >>= f) (typeFor (c.knowing D) e >>= g) R := by
  refine restores_bind (restores_typeFor e) ?_
  rintro t _ rfl
  exact hf t

theorem tidies_temp {r : Rep} {f : Nat → Gen γ} {g : Nat → Gen δ}
    (hf : ∀ t, Tidies k c (t :: W) (f t) (g t) Q) : Tidies k c W (temp r >>= f) (temp r >>= g) Q := by
  refine tidies_bind (S := fun t u V => V = t :: W ∧ t = u) ?_ ?_
  · refine tidies_get fun d e hd => ?_
    rw [← hd.alike.1]
    refine tidies_set (V := (d.layout.allocate r.slotKind).1 :: W)
      ⟨⟨rfl, hd.alike.2⟩, ?_, fun hk => ?_⟩ (tidies_pure ⟨rfl, rfl⟩)
    · change (d.layout.allocate r.slotKind).2.inUse.Perm _
      rw [allocate_inUse]
      exact hd.held.cons _
    · obtain ⟨known, vars⟩ := hd.tidy hk
      exact ⟨allocate_known known _, vars⟩
  · rintro t _ _ ⟨rfl, rfl⟩
    exact hf t

theorem release_tidies {t : Nat} (h : W.Perm (t :: V)) :
    Tidies k c W (release t) (release t) fun _ _ V' => V' = V := by
  refine tidies_get fun d e hd => ?_
  rw [← hd.alike.1]
  cases hr : d.layout.release t with
  | error r =>
    refine tidies_fail nofun fun hk => ?_
    have hmem : t ∈ d.layout.inUse := (hd.held.trans h).symm.subset List.mem_cons_self
    obtain ⟨j, hj⟩ := Option.isSome_iff_exists.1 ((hd.tidy hk).known t hmem)
    simp [Layout.release, hj, hmem] at hr
  | ok l =>
    unfold Layout.release at hr
    split at hr
    · cases hr
    split at hr
    · cases hr
      refine fun _ _ _ => ⟨V, rfl, ⟨rfl, hd.alike.2⟩, ?_, fun hk => ?_⟩
      · have := (hd.held.trans h).erase t
        rwa [List.erase_cons_head] at this
      · obtain ⟨known, vars⟩ := hd.tidy hk
        exact ⟨fun s hs => known s (List.mem_of_mem_erase hs), vars⟩
    · cases hr

theorem tidies_release {t : Nat} {f : Unit → Gen γ} {g : Unit → Gen δ} (h : W.Perm (t :: V))
    (hf : Tidies k c V (f ()) (g ()) Q) :
    Tidies k c W (release t >>= f) (release t >>= g) Q := by
  refine tidies_bind (release_tidies h) ?_
  rintro _ _ _ rfl
  exact hf

theorem tidies_releaseAll {ts : List Nat} {f : Unit → Gen γ} {g : Unit → Gen δ}
    (h : W.Perm (ts ++ V)) (hf : Tidies k c V (f ()) (g ()) Q) :
    Tidies k c W (releaseAll ts >>= f) (releaseAll ts >>= g) Q := by
  refine tidies_bind (S := fun _ _ V' => V' = V) ?_ ?_
  · clear hf
    induction ts generalizing W with
    | nil => exact tidies_perm h (tidies_pure rfl)
    | cons t ts ih => exact tidies_release h (ih (.refl _))
  · rintro _ _ _ rfl
    exact hf

theorem tempsFor_tidies {ε : Type} (xs : List ε) :
    Tidies k c W (tempsFor xs) (tempsFor xs) fun ts us V => V = ts ++ W ∧ ts = us := by
  induction xs generalizing W with
  | nil => exact tidies_pure ⟨rfl, rfl⟩
  | cons a xs ih =>
    refine tidies_temp fun t => tidies_bind ih ?_
    rintro ts _ _ ⟨rfl, rfl⟩
    exact tidies_perm List.perm_middle (tidies_pure ⟨rfl, rfl⟩)

end Rules

end Gen

/-! ## Operands -/

/-- Code closes what it opens. -/
@[simp] abbrev Nested (a _ : Code) : Prop := Nests a []

/-- Two pieces leave the same representation, a value if one is needed, and the first one closes what
it opens. -/
@[simp] abbrev Piece.Matches (needed : Prop) (p q : Piece) : Prop :=
  p.rep = q.rep ∧ (needed → p.rep ≠ .void) ∧ Nests p.code []

/-- Two operands are the same expression and are generated side by side. -/
structure Operand.Restores (k : Bool) (c : Context) (o o' : Operand) : Prop where
  expr : o.expr = o'.expr
  emit : ∀ d, Gen.Restores k c (o.emit d) (o'.emit d) (Piece.Matches (d.best ≠ .void))

/-- Two ways to generate statements, side by side in every scope. -/
def Block.Restores (k : Bool) (c : Context) (b b' : Compile.Block) : Prop :=
  ∀ s, Gen.Restores k c (b s) (b' s) Nested

end Compile

end HeapScript
