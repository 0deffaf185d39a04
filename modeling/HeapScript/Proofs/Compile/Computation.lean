import HeapScript.Proofs.Compile.Typing
import HeapScript.Proofs.Library.Operators

/-!
# What generated code computes

Code of a function takes operands and leaves others. It may allocate and store into temporaries,
but nothing else: what was on the heap, in the other locals and below the operands stays.
-/

namespace HeapScript.Machine.Processor

variable {ω : Type} {m : Processor ω} {a : Act} {code code' : List Instr} {c c' c'' : Cfg ω}

/-- Code leads from one configuration to another, whatever comes behind it. -/
def Reaches (m : Processor ω) (a : Act) (code : List Instr) (c c' : Cfg ω) : Prop :=
  ∀ rest conts Q, m.wp a rest conts Q c' → m.wp a (code ++ rest) conts Q c

theorem Reaches.refl (c : Cfg ω) : m.Reaches a [] c c := fun _ _ _ h => h

theorem Reaches.trans (h : m.Reaches a code c c') (h' : m.Reaches a code' c' c'') :
    m.Reaches a (code ++ code') c c'' := by
  intro rest conts Q hq
  rw [List.append_assoc]
  exact h _ _ _ (h' _ _ _ hq)

/-- The postcondition that a call returns, with results as asked. -/
def returning (P : List Val → Heap → ω → Prop) : Post ω := ⟨P, fun _ _ _ _ => False, none⟩

/-- A call that returns has one result, whatever is asked of it. -/
theorem Calls.exists_results {depth : Nat} {func : Int} {args : List Val} {heap : Heap} {host : ω}
    {P : List Val → Heap → ω → Prop} (hc : m.Calls depth func args heap host (returning P)) :
    ∃ vs heap' host', P vs heap' host' ∧
      ∀ Q : Post ω, Q.returned vs heap' host' → m.Calls depth func args heap host Q := by
  unfold Calls at *
  split at hc
  · split at hc
    · exact ⟨_, _, _, hc, fun Q hq => hq⟩
    · exact hc.elim
    · exact hc.elim
  · split at hc
    · exact hc.elim
    rename_i hfull
    rcases hc with hc | ⟨n, hn⟩ | ⟨n, hn, -⟩
    · cases hc
    · rw [Post.later_holds] at hn
      revert hn
      cases hr : m.run n _ _ [] _ with
      | returned vs heap' host' =>
        refine fun hn => ⟨vs, heap', host', hn, fun Q hq => ?_⟩
        rw [if_neg hfull]
        refine .inr (.inl ⟨n, ?_⟩)
        rw [Post.later_holds, hr]
        exact hq
      | trapped | more | stuck => exact fun hn => hn.elim
    · cases hn
  · exact hc.elim

end HeapScript.Machine.Processor

namespace HeapScript.Compile

open Machine Machine.Processor Library Execution

/-! ## Operands -/

/-- What is known of an operand, and stays true while the heap grows. -/
structure Trait where
  holds : Heap → Val → Prop
  mono : ∀ {h h' : Heap} {v : Val}, Extends h h' → holds h v → holds h' v

namespace Trait

/-- The operand refers to the record of a value. -/
def boxed (x : Value) : Trait := ⟨fun h v => Boxed h v x, Boxed.mono⟩

/-- The operand refers to a byte string. -/
def bytes (s : Bytes) : Trait := ⟨fun h v => IsBytes h v s, IsBytes.mono⟩

/-- The operand is a given one. -/
def exactly (u : Val) : Trait := ⟨fun _ v => v = u, fun _ h => h⟩

/-- The operand is a truth value. -/
def truth (b : Bool) : Trait := exactly (.i32 (flag b))

end Trait

/-- Operands, the topmost first, have traits. -/
def Stand (h : Heap) (ts : List Trait) (vs : List Val) : Prop :=
  List.Forall₂ (fun t v => t.holds h v) ts vs

theorem Stand.mono {h h' : Heap} {ts : List Trait} {vs : List Val} (he : Extends h h')
    (hs : Stand h ts vs) : Stand h' ts vs :=
  List.Forall₂.imp (fun t _ hv => t.mono he hv) hs

theorem Stand.one {h : Heap} {t : Trait} {vs : List Val} (hs : Stand h [t] vs) :
    ∃ u, vs = [u] ∧ t.holds h u := by
  cases hs with
  | cons hu hn =>
    cases hn
    exact ⟨_, rfl, hu⟩

theorem Stand.two {h : Heap} {t t' : Trait} {vs : List Val} (hs : Stand h [t, t'] vs) :
    ∃ u v, vs = [u, v] ∧ t.holds h u ∧ t'.holds h v := by
  cases hs with
  | cons hu hn =>
    obtain ⟨v, rfl, hv⟩ := Stand.one hn
    exact ⟨_, v, rfl, hu, hv⟩

theorem Stand.split {h : Heap} {ts us : List Trait} {vs : List Val} (hs : Stand h (ts ++ us) vs) :
    ∃ ws xs, vs = ws ++ xs ∧ Stand h ts ws ∧ Stand h us xs := by
  induction ts generalizing vs with
  | nil => exact ⟨[], vs, rfl, .nil, hs⟩
  | cons t ts ih =>
    cases hs with
    | cons hu hn =>
      obtain ⟨ws, xs, rfl, hws, hxs⟩ := ih hn
      exact ⟨_ :: ws, xs, rfl, .cons hu hws, hxs⟩

/-! ## Code -/

/-- A machine has what the code of a draft relies on: the library, room for its calls and the
strings of the draft. -/
structure Draft.Hosted (D : Draft) (l : Links) (m : Processor Output) (a : Act) : Prop where
  installed : Installed m l
  room : Room m a.depth 4
  strings : ∀ (i : Nat) (s : Bytes), D.pool.strings[i]? = some s →
    ∃ data, m.program.data[i]? = some data ∧ data.bytes = s

/-- Only temporaries differ. -/
structure Draft.Keeps (D : Draft) (ls ls' : List Val) : Prop where
  length : ls'.length = ls.length
  same : ∀ i, D.layout.kindOf? i = none → ls'[i]? = ls[i]?

theorem Draft.Keeps.refl (D : Draft) (ls : List Val) : D.Keeps ls ls := ⟨rfl, fun _ _ => rfl⟩

theorem Draft.Keeps.trans {D : Draft} {ls ls' ls'' : List Val} (h : D.Keeps ls ls')
    (h' : D.Keeps ls' ls'') : D.Keeps ls ls'' :=
  ⟨h'.length.trans h.length, fun i hi => (h'.same i hi).trans (h.same i hi)⟩

/-- A store into a temporary. -/
theorem Draft.Keeps.set {D : Draft} {t : Nat} {k : SlotKind} (ht : D.layout.kindOf? t = some k)
    (ls : List Val) (v : Val) : D.Keeps ls (ls.set t v) := by
  refine ⟨List.length_set, fun i hi => List.getElem?_set_ne ?_⟩
  rintro rfl
  rw [ht] at hi
  cases hi

/-- Code turns operands with some traits into operands with others. It allocates and stores into
temporaries and does nothing else. -/
def Computes (l : Links) (D : Draft) (code : Code) (before after : List Trait) : Prop :=
  ∀ m a, D.Hosted l m a → ∀ h w ls vs st, D.layout.size ≤ ls.length → Stand h before vs →
    ∃ h' ls' vs', Extends h h' ∧ D.Keeps ls ls' ∧ Stand h' after vs' ∧
      m.Reaches a code ⟨h, w, ls, vs ++ st⟩ ⟨h', w, ls', vs' ++ st⟩

section Computations

variable {l : Links} {D : Draft} {code code' : Code} {ts ts' us : List Trait}

theorem computes_nil (ts : List Trait) : Computes l D [] ts ts :=
  fun _ _ _ h _ ls vs _ _ hs => ⟨h, ls, vs, .refl h, .refl D ls, hs, .refl _⟩

theorem Computes.trans (h : Computes l D code ts ts') (h' : Computes l D code' ts' us) :
    Computes l D (code ++ code') ts us := by
  intro m a hm H w ls vs st hls hs
  obtain ⟨H₁, ls₁, vs₁, he₁, hk₁, hs₁, hr₁⟩ := h m a hm H w ls vs st hls hs
  obtain ⟨H₂, ls₂, vs₂, he₂, hk₂, hs₂, hr₂⟩ :=
    h' m a hm H₁ w ls₁ vs₁ st (hls.trans hk₁.length.ge) hs₁
  exact ⟨H₂, ls₂, vs₂, he₁.trans he₂, hk₁.trans hk₂, hs₂, hr₁.trans hr₂⟩

/-- What lies below the operands keeps its traits. -/
theorem Computes.above (h : Computes l D code ts ts') (us : List Trait) :
    Computes l D code (ts ++ us) (ts' ++ us) := by
  intro m a hm H w ls vs st hls hs
  obtain ⟨ws, xs, rfl, hws, hxs⟩ := hs.split
  obtain ⟨H', ls', ws', he, hk, hs', hr⟩ := h m a hm H w ls ws (xs ++ st) hls hws
  refine ⟨H', ls', ws' ++ xs, he, hk, List.rel_append hs' (hxs.mono he), ?_⟩
  rwa [List.append_assoc, List.append_assoc]

/-- Code without stores that leaves one operand. -/
theorem computes_of_wp {t : Trait} (hrun : ∀ m a, D.Hosted l m a → ∀ h w ls vs st, Stand h ts vs →
    ∃ h' v, Extends h h' ∧ t.holds h' v ∧
      m.Reaches a code ⟨h, w, ls, vs ++ st⟩ ⟨h', w, ls, v :: st⟩) :
    Computes l D code ts [t] := by
  intro m a hm h w ls vs st _ hs
  obtain ⟨h', v, he, hv, hr⟩ := hrun m a hm h w ls vs st hs
  exact ⟨h', ls, [v], he, .refl D ls, List.Forall₂.cons hv .nil, hr⟩

theorem popMany_append (vs st taken : List Val) :
    Frame.popMany vs.length (vs ++ st) taken = some (vs.reverse ++ taken, st) := by
  induction vs generalizing taken with
  | nil => rfl
  | cons v vs ih => simpa [Frame.popMany] using ih (v :: taken)

theorem computes_call {r : Routine} {t : Trait} (hp : r.params.length = ts.length)
    (hc : ∀ m a, D.Hosted l m a → ∀ h w vs (Q : Post Output), Stand h ts vs →
      (∀ v h', Extends h h' → t.holds h' v → Q.returned [v] h' w) →
      m.Calls a.depth (l.index r) vs.reverse h w Q) :
    Computes l D (l.call r) ts [t] := by
  refine computes_of_wp fun m a hm h w ls vs st hs => ?_
  obtain ⟨us, h', w', ⟨v, rfl, rfl, he, hv⟩, hall⟩ := (hc m a hm h w vs (returning fun us h' w' =>
    ∃ v, us = [v] ∧ w' = w ∧ Extends h h' ∧ t.holds h' v) hs
    fun v h' he hv => ⟨v, rfl, rfl, he, hv⟩).exists_results
  refine ⟨h', v, he, hv, fun rest conts Q hq => ?_⟩
  have hlen : r.params.length = vs.length := hp.trans hs.length_eq
  refine (wp_call_routine hm.installed).2 ?_
  rw [hlen, popMany_append, List.append_nil]
  exact hall _ hq

theorem computes_unary {r : Routine} {x : Value} {t : Trait} (hp : r.params.length = 1)
    (hc : ∀ m a, D.Hosted l m a → ∀ h w u (Q : Post Output), Boxed h u x →
      (∀ v h', Extends h h' → t.holds h' v → Q.returned [v] h' w) →
      m.Calls a.depth (l.index r) [u] h w Q) :
    Computes l D (l.call r) [.boxed x] [t] := by
  refine computes_call hp fun m a hm h w vs Q hs => ?_
  obtain ⟨u, rfl, hu⟩ := hs.one
  exact hc m a hm h w u Q hu

/-- A call of a routine on two values, the second one on top. -/
theorem computes_binary {r : Routine} {x y : Value} {t : Trait} (hp : r.params.length = 2)
    (hc : ∀ m a, D.Hosted l m a → ∀ h w u v (Q : Post Output), Boxed h u x → Boxed h v y →
      (∀ v h', Extends h h' → t.holds h' v → Q.returned [v] h' w) →
      m.Calls a.depth (l.index r) [u, v] h w Q) :
    Computes l D (l.call r) [.boxed y, .boxed x] [t] := by
  refine computes_call hp fun m a hm h w vs Q hs => ?_
  obtain ⟨v, u, rfl, hv, hu⟩ := hs.two
  exact hc m a hm h w u v Q hu hv

/-- A choice runs one of its sides. -/
theorem computes_choose {t : ValType} {yes no : Code} {b : Bool} (hy : Nests yes [])
    (hn : Nests no []) (hb : Computes l D (if b then yes else no) ts ts') :
    Computes l D (Code.choose t yes no) (.truth b :: ts) ts' := by
  intro m a hm h w ls vs st hls hs
  cases hs with
  | cons hflag hs =>
    obtain rfl := hflag
    rename_i vs
    obtain ⟨h', ls', vs', he, hk, hs', hr⟩ := hb m a hm h w ls vs st hls hs
    refine ⟨h', ls', vs', he, hk, hs', fun rest conts Q hq => ?_⟩
    rw [List.cons_append, wp_choose hy hn]
    cases b with
    | false => simpa using hr [] (_ :: conts) Q (by simpa using hq)
    | true => simpa using hr [] (_ :: conts) Q (by simpa using hq)

end Computations

/-! ## Drafting -/

namespace Gen

variable {α β : Type} {x : Gen α} {f : α → Gen β}

/-- A step of drafting succeeds and keeps what there is. Its results have a property that may
depend on how the draft ends. -/
def Makes (x : Gen α) (P : Draft → α → Prop) : Prop :=
  ∀ d, d.Proper → ∃ a d', Runs x d a d' ∧ d'.Proper ∧ d.Before d' ∧ ∀ D, d'.Before D → P D a

theorem makes_pure {a : α} {P : Draft → α → Prop} (h : ∀ D, P D a) : Makes (pure a) P :=
  fun d hd => ⟨a, d, runs_pure.2 ⟨rfl, rfl⟩, hd, .refl d, fun D _ => h D⟩

/-- What is known of the result of the first step holds of the draft at hand, and is a condition of
what follows. -/
theorem makes_bind {P : Draft → α → Prop} {Q : Draft → β → Prop} (hx : Makes x P)
    (hf : ∀ a d, P d a → Makes (f a) fun D b => P D a → Q D b) : Makes (x >>= f) Q := by
  intro d hd
  obtain ⟨a, d₁, ha, hd₁, hb₁, hP⟩ := hx d hd
  obtain ⟨b, d₂, hb, hd₂, hb₂, hQ⟩ := hf a d₁ (hP d₁ (.refl d₁)) d₁ hd₁
  exact ⟨b, d₂, runs_bind.2 ⟨a, d₁, ha, hb⟩, hd₂, hb₁.trans hb₂,
    fun D hD => hQ D hD (hP D (hb₂.trans hD))⟩

theorem makes_mono {P Q : Draft → α → Prop} (hx : Makes x P) (h : ∀ D a, P D a → Q D a) :
    Makes x Q := by
  intro d hd
  obtain ⟨a, d', hr, hd', hb, hP⟩ := hx d hd
  exact ⟨a, d', hr, hd', hb, fun D hD => h D a (hP D hD)⟩

/-- What every result has, those of a step that succeeds have. -/
theorem makes_gives {P : Draft → α → Prop} {R : α → Prop} (hx : Makes x P) (hg : Gives x R) :
    Makes x fun D a => R a ∧ P D a := by
  intro d hd
  obtain ⟨a, d', hr, hd', hb, hP⟩ := hx d hd
  exact ⟨a, d', hr, hd', hb, fun D hD => ⟨hg d a d' hr, hP D hD⟩⟩

theorem makes_of_types {P : Draft → α → Prop} (hs : ∀ d, ∃ a d', Runs x d a d')
    (ht : ∀ D, Types D x (P D)) : Makes x P := by
  intro d hd
  obtain ⟨a, d', hr⟩ := hs d
  obtain ⟨hd', hb, -⟩ := ht d' d a d' hr hd
  exact ⟨a, d', hr, hd', hb, fun D hD => (ht D d a d' hr hd).2.2 hD⟩

theorem makes_note (line : String) : Makes (note line) fun _ _ => True :=
  makes_of_types (fun d => ⟨(), { d with notes := d.notes.push line }, runs_modify.2 rfl⟩)
    fun _ => note_types line

/-- Without optimization no types are known. -/
theorem makes_typeFor {c : Context} (hc : c.optimize = false) (e : Expr) :
    Makes (typeFor c e) fun _ t => t = .unknown := by
  intro d hd
  refine ⟨.unknown, d, runs_bind.2 ⟨d, d, runs_get.2 ⟨rfl, rfl⟩, ?_⟩, hd, .refl d, fun _ _ => rfl⟩
  rw [hc]
  exact runs_pure.2 ⟨rfl, rfl⟩

/-- A string constant is in the pool. -/
theorem makes_bytes (s : Bytes) : Makes (bytes s) fun D code =>
    ∃ i : Nat, D.pool.strings[i]? = some s ∧ code = Code.bytesLiteral s.length i := by
  have hstep (d : Draft) : step (bytes s) d = (.ok (Code.bytesLiteral s.length (d.pool.intern s).1),
      { d with pool := (d.pool.intern s).2 }) := rfl
  refine makes_of_types (fun d => ⟨_, _, hstep d⟩) fun D => types_of_same fun d code d' hr => ?_
  cases (hstep d).symm.trans hr
  obtain ⟨hfound, hkeeps⟩ := intern_found d.pool s
  refine ⟨rfl, rfl, fun i h hi => ?_, hkeeps, fun hD => ⟨_, hD.strings _ _ hfound, rfl⟩⟩
  rwa [helpers_intern]

/-- A temporary that was just handed out can be given back. -/
theorem runs_release_allocate {d : Draft} (hd : d.Proper) (k : SlotKind) :
    ∃ d', Runs (release (d.layout.allocate k).1) { d with layout := (d.layout.allocate k).2 } () d' := by
  have hkind : (d.layout.allocate k).2.kindOf? (d.layout.allocate k).1 = some k :=
    (allocate_kinds hd.temps k).1
  have hused : (d.layout.allocate k).1 ∈ (d.layout.allocate k).2.inUse := by
    rw [allocate_inUse]
    exact List.mem_cons_self
  obtain ⟨l, hl⟩ : ∃ l, (d.layout.allocate k).2.release (d.layout.allocate k).1 = .ok l := by
    simp [Layout.release, hkind, hused]
  refine ⟨{ d with layout := l }, runs_bind.2 ⟨_, _, runs_get.2 ⟨rfl, rfl⟩, ?_⟩⟩
  rw [hl]
  exact runs_set.2 rfl

/-- Boxing goes through a temporary. -/
theorem makes_box (r : Rep) : Makes (box r) fun D code =>
    ∃ t k, t < D.layout.size ∧ D.layout.kindOf? t = some k ∧
      code = Code.store t ++ Code.boxLocal (boxTag r) t r.valType := by
  intro d hd
  obtain ⟨hd₁, hb₁⟩ := hd.allocate r.slotKind
  obtain ⟨d₂, hrelease⟩ := runs_release_allocate hd r.slotKind
  obtain ⟨hd₂, hb₂, -⟩ := release_types (D := d) _ _ _ _ hrelease hd₁
  refine ⟨_, d₂, runs_bind.2 ⟨_, _, runs_temp.2 ⟨rfl, rfl⟩, runs_bind.2 ⟨(), d₂, hrelease,
    runs_pure.2 ⟨rfl, rfl⟩⟩⟩, hd₂, hb₁.trans hb₂, fun D hD => ?_⟩
  have hkind := (hb₂.trans hD).temps _ _ (allocate_kinds hd.temps r.slotKind).1
  have hslot := (hb₂.trans hD).slots _ _ (hd₁.temps _ _ (allocate_kinds hd.temps r.slotKind).1)
  exact ⟨_, _, lt_size_of_typeOf hslot, hkind, rfl⟩

end Gen

end HeapScript.Compile
