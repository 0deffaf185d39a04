import HeapScript.Proofs.Compile.Computation
import HeapScript.Proofs.Compile.Sparing
import HeapScript.Proofs.Library.Containers
import HeapScript.Proofs.Machine.DepthLimits

/-!
# Stores into nested elements

A store into an element goes down by one key after the other, makes arrays where there are none, and
stores every array back into the one above on the way up, since a store may leave a copy. Here the
code for it is run on values of which no two share a cell. The store ends the run or leaves its value
in its place, and only the arrays on the way are new or different.
-/

namespace HeapScript.Machine.Processor

variable {ω : Type} {m : Processor ω} {a : Act} {code code' : List Instr} {c c' : Cfg ω}
  {R : TrapReason → Prop} {P P' : Cfg ω → Prop}

/-- Code leads to a configuration as asked, or it ends the run for one of some reasons, whatever
comes behind it. -/
def Yields (m : Processor ω) (a : Act) (code : List Instr) (c : Cfg ω) (R : TrapReason → Prop)
    (P : Cfg ω → Prop) : Prop :=
  (∃ c', P c' ∧ m.Reaches a code c c') ∨
    ∃ func reason heap host, R reason ∧ ∀ rest conts (Q : Post ω),
      Q.trapped func reason heap host → m.wp a (code ++ rest) conts Q c

theorem Reaches.yields (h : m.Reaches a code c c') (hP : P c') : m.Yields a code c R P :=
  .inl ⟨c', hP, h⟩

theorem Yields.trans (h : m.Yields a code c R P)
    (h' : ∀ c', P c' → m.Yields a code' c' R P') : m.Yields a (code ++ code') c R P' := by
  rcases h with ⟨c₁, hc₁, hr⟩ | ⟨f, t, heap, host, ht, hall⟩
  · rcases h' c₁ hc₁ with ⟨c₂, hc₂, hr'⟩ | ⟨f, t, heap, host, ht, hall⟩
    · exact .inl ⟨c₂, hc₂, hr.trans hr'⟩
    · refine .inr ⟨f, t, heap, host, ht, fun rest conts Q hq => ?_⟩
      rw [List.append_assoc]
      exact hr _ _ _ (hall _ _ _ hq)
  · refine .inr ⟨f, t, heap, host, ht, fun rest conts Q hq => ?_⟩
    rw [List.append_assoc]
    exact hall _ _ _ hq

theorem Yields.mono (h : m.Yields a code c R P) (hP : ∀ c', P c' → P' c') :
    m.Yields a code c R P' :=
  h.imp_left fun ⟨c', hc', hr⟩ => ⟨c', hP c' hc', hr⟩

/-- A call that ends has one end, whatever is asked of it. -/
theorem Calls.exists_ending {depth : Nat} {func : Int} {args : List Val} {heap : Heap} {host : ω}
    {Q : Post ω} (hf : Q.fuel = none) (hc : m.Calls depth func args heap host Q) :
    (∃ vs heap' host', Q.returned vs heap' host' ∧
      ∀ Q' : Post ω, Q'.returned vs heap' host' → m.Calls depth func args heap host Q') ∨
    ∃ f t heap' host', Q.trapped f t heap' host' ∧
      ∀ Q' : Post ω, Q'.trapped f t heap' host' → m.Calls depth func args heap host Q' := by
  unfold Calls at *
  split at hc
  · split at hc
    · exact .inl ⟨_, _, _, hc, fun _ hq => hq⟩
    · exact .inr ⟨_, _, _, _, hc, fun _ hq => hq⟩
    · exact hc.elim
  · split at hc
    · rename_i hfull
      refine .inr ⟨_, _, _, _, hc, fun _ hq => ?_⟩
      rwa [if_pos hfull]
    rename_i hfull
    rcases hc with hc | ⟨n, hn⟩ | ⟨n, hn, -⟩
    · cases hf.symm.trans hc
    · rw [Post.later_holds] at hn
      revert hn
      cases hr : m.run n _ _ [] _ with
      | returned vs heap' host' =>
        refine fun hn => .inl ⟨vs, heap', host', hn, fun Q' hq => ?_⟩
        rw [if_neg hfull]
        refine .inr (.inl ⟨n, ?_⟩)
        rw [Post.later_holds, hr]
        exact hq
      | trapped f t heap' host' =>
        refine fun hn => .inr ⟨f, t, heap', host', hn, fun Q' hq => ?_⟩
        rw [if_neg hfull]
        refine .inr (.inl ⟨n, ?_⟩)
        rw [Post.later_holds, hr]
        exact hq
      | more | stuck => exact fun hn => hn.elim
    · rw [Post.later, hf] at hn
      cases hn
  · exact hc.elim

end HeapScript.Machine.Processor

namespace HeapScript.Compile

open Machine Machine.Processor Library Execution Gen
open Code (load store)

/-! ## Single steps -/

section Steps

variable {m : Processor Output} {a : Act} {l : Links} {h : Heap} {w : Output} {ls st : List Val}
  {R : TrapReason → Prop}

theorem installed_unbounded (hi : Installed m l) : Installed m.unbounded l where
  types := hi.types
  signature := hi.signature
  callee := hi.callee
  echoSignature := hi.echoSignature
  echo := hi.echo
  renderSignature := hi.renderSignature
  render := hi.render
  data := hi.data

theorem room_unbounded (m : Processor Output) (d k : Nat) : Room m.unbounded d k :=
  .inl (Int.le_refl 0)

/-- A call of a routine, which may be refused. -/
theorem yields_call (hi : Installed m l) {r : Routine} (vs : List Val)
    (hp : r.params.length = vs.length)
    {Q : Post Output} (hf : Q.fuel = none) (hR : R .callStackExhausted)
    (hT : ∀ f t h w, Q.trapped f t h w → R t)
    (hc : m.unbounded.Calls a.depth (l.index r) vs.reverse h w Q) :
    m.Yields a (l.call r) ⟨h, w, ls, vs ++ st⟩ R fun c' =>
      ∃ us h' w', Q.returned us h' w' ∧ c' = ⟨h', w', ls, us.reverse ++ st⟩ := by
  have hcall {rest : Code} {conts : List Cont} {Q' : Post Output}
      (hc' : m.Calls a.depth (l.index r) vs.reverse h w (resume m a rest conts Q' ls st)) :
      m.wp a (l.call r ++ rest) conts Q' ⟨h, w, ls, vs ++ st⟩ := by
    refine (wp_call_routine hi).2 ?_
    rw [hp, popMany_append, List.append_nil]
    exact hc'
  rcases (hc.limited hf).exists_ending (Q := Q.orRefused) hf with
    ⟨us, h', w', hq, hall⟩ | ⟨f, t, h', w', hq, hall⟩
  · exact .inl ⟨_, ⟨us, h', w', hq, rfl⟩, fun rest conts Q' hq' => hcall (hall _ hq')⟩
  · refine .inr ⟨f, t, h', w', ?_, fun rest conts Q' hq' => hcall (hall _ hq')⟩
    rcases hq with hq | rfl
    · exact hT f t h' w' hq
    · exact hR

theorem reaches_load {t : Nat} {v : Val} (hv : ls[t]? = some v) :
    m.Reaches a (load t) ⟨h, w, ls, st⟩ ⟨h, w, ls, v :: st⟩ := by
  intro rest conts Q hq
  simp [hv]
  exact hq

theorem reaches_store {t : Nat} {v : Val} (ht : t < ls.length) :
    m.Reaches a (store t) ⟨h, w, ls, v :: st⟩ ⟨h, w, ls.set t v, st⟩ := by
  intro rest conts Q hq
  simp [ht]
  exact hq

end Steps

/-! ## Keys -/

def Key.Holds (h : Heap) (ls : List Val) : Key → Value → Prop
  | .int t, x => ∃ i, ls[t]? = some (.i64 i) ∧ x = .int i
  | .boxed t, x => ∃ u, ls[t]? = some u ∧ Boxed h u x
  | .append, _ => False

section Keys

variable {c : Context} {m : Processor Output} {a : Act} {h : Heap} {w : Output} {ls st : List Val}
  {R : TrapReason → Prop} {k : Key} {x : Value} {b : Nat} {s : Items} {S : List Nat}

theorem Key.Holds.kept {h' : Heap} {ls' : List Val} (hk : k.Holds h ls x)
    (hs : ∀ t ∈ k.temps, ls'[t]? = ls[t]?) (hb : ∀ u, Boxed h u x → Boxed h' u x) :
    k.Holds h' ls' x := by
  cases k with
  | int t =>
    obtain ⟨i, hi, rfl⟩ := hk
    exact ⟨i, (hs t (by simp [Key.temps])).trans hi, rfl⟩
  | boxed t =>
    obtain ⟨u, hu, hx⟩ := hk
    exact ⟨u, (hs t (by simp [Key.temps])).trans hu, hb u hx⟩
  | append => exact hk

theorem keys_kept {h' : Heap} {ls' : List Val} {levels : List (Key × Nat)} {xs : List Value}
    (hk : List.Forall₂ (fun l x => l.1.Holds h ls x) levels xs)
    (hs : ∀ l ∈ levels, ∀ t ∈ l.1.temps, ls'[t]? = ls[t]?)
    (hb : ∀ x ∈ xs, ∀ u, Boxed h u x → Boxed h' u x) :
    List.Forall₂ (fun l x => l.1.Holds h' ls' x) levels xs := by
  induction hk with
  | nil => exact .nil
  | cons hk _ ih =>
    exact .cons (hk.kept (hs _ (by simp)) (hb _ (by simp)))
      (ih (fun l hl => hs l (by simp [hl])) fun x hx => hb x (by simp [hx]))

/-- A read under a key. -/
theorem getKey_yields (hi : Installed m c.links) (hR : R .callStackExhausted)
    (ha : ArrayAt h b s S) (hk : k.Holds h ls x) (hx : HasKey x ∨ R .unreachable) :
    m.Yields a (getKey c k) ⟨h, w, ls, .ref b :: st⟩ R fun c' => ∃ h' u,
      c' = ⟨h', w, ls, u :: st⟩ ∧ HasKey x ∧ Extends h h' ∧
        Answered h' (s.get x.normalizeKey) u := by
  have hi' := installed_unbounded hi
  let Q : Post Output := {
    returned := fun us h' w' => ∃ u, us = [u] ∧ w' = w ∧ HasKey x ∧ Extends h h' ∧
      Answered h' (s.get x.normalizeKey) u
    trapped := fun _ t _ _ => t = .unreachable ∧ ¬ HasKey x
    fuel := none }
  have hT : ∀ f t h w, Q.trapped f t h w → R t := by
    rintro _ _ _ _ ⟨rfl, hno⟩
    exact hx.resolve_left hno
  have call {r : Routine} {v : Val} (hp : r.params.length = 2)
      (hc : m.unbounded.Calls a.depth (c.links.index r) [.ref b, v] h w Q) :
      m.Yields a (c.links.call r) ⟨h, w, ls, v :: .ref b :: st⟩ R fun c' => ∃ h' u,
        c' = ⟨h', w, ls, u :: st⟩ ∧ HasKey x ∧ Extends h h' ∧
          Answered h' (s.get x.normalizeKey) u := by
    refine (yields_call hi [v, .ref b] hp rfl hR hT hc).mono ?_
    rintro _ ⟨_, h', _, ⟨u, rfl, rfl, hrest⟩, rfl⟩
    exact ⟨h', u, rfl, hrest⟩
  cases k with
  | int t =>
    obtain ⟨i, ht, rfl⟩ := hk
    refine ((reaches_load ht).yields rfl).trans ?_
    rintro _ rfl
    exact call rfl (arrGetInt_calls (k := 0) hi' (room_unbounded m _ _) ha fun h' u he hu =>
      ⟨u, rfl, rfl, trivial, he, hu⟩)
  | boxed t =>
    obtain ⟨v, ht, hv⟩ := hk
    refine ((reaches_load ht).yields rfl).trans ?_
    rintro _ rfl
    by_cases hkey : HasKey x
    · exact call rfl (arrGet_calls (k := 0) hi' (room_unbounded m _ _) ha hv hkey fun h' u he hu =>
        ⟨u, rfl, rfl, hkey, he, hu⟩)
    · exact call rfl (arrGet_illegal (k := 0) hi' (room_unbounded m _ _) ha hv hkey ⟨rfl, hkey⟩)
  | append => exact hk.elim

/-- A store under a key. -/
theorem setKey_yields (hi : Installed m c.links) (ha : ArrayAt h b s S) (hk : k.Holds h ls x)
    {val e : Nat} (hval : ls[val]? = some (.ref e)) :
    m.Yields a (setKey c val k) ⟨h, w, ls, .ref b :: st⟩ (fun _ => True) fun c' => ∃ h' b',
      c' = ⟨h', w, ls, .ref b' :: st⟩ ∧ HasKey x ∧
        Landed h b S h' (s.set x.normalizeKey (.ref e)) (s.promotes x.normalizeKey) b' := by
  have hi' := installed_unbounded hi
  let Q : Post Output := {
    returned := fun us h' w' => ∃ b', us = [.ref b'] ∧ w' = w ∧ HasKey x ∧
      Landed h b S h' (s.set x.normalizeKey (.ref e)) (s.promotes x.normalizeKey) b'
    trapped := fun _ _ _ _ => True
    fuel := none }
  have call {r : Routine} {v : Val} (hp : r.params.length = 3)
      (hc : m.unbounded.Calls a.depth (c.links.index r) [.ref b, v, .ref e] h w Q) :
      m.Yields a (load val ++ c.links.call r) ⟨h, w, ls, v :: .ref b :: st⟩ (fun _ => True)
        fun c' => ∃ h' b', c' = ⟨h', w, ls, .ref b' :: st⟩ ∧ HasKey x ∧
          Landed h b S h' (s.set x.normalizeKey (.ref e)) (s.promotes x.normalizeKey) b' := by
    refine ((reaches_load hval).yields rfl).trans ?_
    rintro _ rfl
    refine (yields_call hi [.ref e, v, .ref b] hp rfl trivial (fun _ _ _ _ _ => trivial)
      hc).mono ?_
    rintro _ ⟨_, h', _, ⟨b', rfl, rfl, hrest⟩, rfl⟩
    exact ⟨h', b', rfl, hrest⟩
  cases k with
  | int t =>
    obtain ⟨i, ht, rfl⟩ := hk
    rw [setKey, List.append_assoc]
    refine ((reaches_load ht).yields rfl).trans ?_
    rintro _ rfl
    refine call rfl (arrSetInt_total (k := 0) hi' (room_unbounded m _ _) ha ⟨e, rfl⟩
      (fun _ h' b' hl => ⟨b', rfl, rfl, trivial, ?_⟩) (fun _ _ _ _ => trivial) fun _ => trivial)
    rw [Value.normalizeKey, Items.set_int]
    exact hl
  | boxed t =>
    obtain ⟨v, ht, hv⟩ := hk
    rw [setKey, List.append_assoc]
    refine ((reaches_load ht).yields rfl).trans ?_
    rintro _ rfl
    exact call rfl (arrSet_total (k := 0) hi' (room_unbounded m _ _) ha hv ⟨e, rfl⟩
      (fun hx _ h' b' hl => ⟨b', rfl, rfl, hx, hl⟩) (fun _ _ _ _ _ => trivial) fun _ _ _ => trivial)
  | append => exact hk.elim

/-- The array at a place: the one that is found, or a new one. -/
theorem autoviv_yields (hi : Installed m c.links) {V : Values h} {u : Val} {o : Option Nat}
    (hf : V.Finds u o) :
    m.Yields a (c.links.call .arrAutoviv) ⟨h, w, ls, u :: st⟩ (fun _ => True) fun c' =>
      ∃ h' b, c' = ⟨h', w, ls, .ref b :: st⟩ ∧ Extends h h' ∧ ∃ V' : Values h', V.Sub V' ∧
        V'.mem b ∧ V'.view b = .array (V.itemsOf o) ∧ (o = some b ∨ o = none ∧ ¬ V.mem b) := by
  let Q : Post Output := {
    returned := fun us h' w' => w' = w ∧ ∃ b, us = [.ref b] ∧
      (o = some b ∧ h' = h ∨ o = none ∧ h[b]? = none ∧ Written h [] h' b (.dense []))
    trapped := fun _ _ _ _ => True
    fuel := none }
  have hc : m.unbounded.Calls a.depth (c.links.index .arrAutoviv) [u] h w Q :=
    arrAutoviv_calls (k := 0) (installed_unbounded hi) (room_unbounded m _ _) hf
      (fun b hb => ⟨rfl, b, rfl, .inl ⟨hb, rfl⟩⟩)
      fun ho h' b hb hw => ⟨rfl, b, rfl, .inr ⟨ho, hb, hw⟩⟩
  refine (yields_call hi [u] rfl rfl trivial (fun _ _ _ _ _ => trivial) hc).mono ?_
  rintro _ ⟨_, h', _, ⟨rfl, b, rfl, ⟨rfl, rfl⟩ | ⟨rfl, hb, hw⟩⟩, rfl⟩
  · refine ⟨h', b, rfl, .refl _, V, .refl V, ?_⟩
    cases hf with
    | array hm hs => exact ⟨hm, by rw [hs, Values.itemsOf_some hs], .inl rfl⟩
  · have hext : Extends h h' := fun e d hd => hw.keeps e d hd List.not_mem_nil
    have hnew : ¬ V.mem b := fun hm => V.ne_of_none hm hb rfl
    obtain ⟨V', hmem, hview⟩ := V.added hw (by rintro p ⟨⟩)
    refine ⟨h', b, rfl, hext, V', ⟨fun e he => ?_, fun e he => ?_⟩, ?_, ?_, .inr ⟨rfl, hnew⟩⟩
    · rw [hmem]
      exact .inl he
    · have hne : e ≠ b := by
        rintro rfl
        exact hnew he
      rw [hview, Function.update_of_ne hne]
    · rw [hmem]
      exact .inr rfl
    · rw [hview, Function.update_self]
      rfl

end Keys

/-! ## The way down -/

/-- Locals that differ only in some places. -/
structure Alters (T : List Nat) (ls ls' : List Val) : Prop where
  length : ls'.length = ls.length
  same : ∀ t, t ∉ T → ls'[t]? = ls[t]?

theorem Alters.refl (T : List Nat) (ls : List Val) : Alters T ls ls := ⟨rfl, fun _ _ => rfl⟩

theorem Alters.trans {T : List Nat} {ls ls' ls'' : List Val} (h : Alters T ls ls')
    (h' : Alters T ls' ls'') : Alters T ls ls'' :=
  ⟨h'.length.trans h.length, fun t ht => (h'.same t ht).trans (h.same t ht)⟩

theorem Alters.mono {T T' : List Nat} {ls ls' : List Val} (h : Alters T ls ls') (hT : T ⊆ T') :
    Alters T' ls ls' := ⟨h.length, fun t ht => h.same t fun hm => ht (hT hm)⟩

theorem alters_set {T : List Nat} {t : Nat} (ht : t ∈ T) (ls : List Val) (v : Val) :
    Alters T ls (ls.set t v) :=
  ⟨List.length_set, fun s hs => List.getElem?_set_ne fun heq : t = s => hs (heq ▸ ht)⟩

/-- The temporaries for the arrays on the way are different ones, and none is that of a key. -/
structure Separate (levels : List (Key × Nat)) (size : Nat) : Prop where
  nodup : (levels.map Prod.snd).Nodup
  below : ∀ l ∈ levels, l.2 < size
  apart : ∀ l ∈ levels, ∀ l' ∈ levels, l.2 ∉ l'.1.temps

theorem Separate.tail {l : Key × Nat} {levels : List (Key × Nat)} {size : Nat}
    (h : Separate (l :: levels) size) : Separate levels size where
  nodup := (List.nodup_cons.mp h.nodup).2
  below := fun l' hl => h.below l' (List.mem_cons_of_mem l hl)
  apart := fun l' hl l'' hl' => h.apart l' (List.mem_cons_of_mem l hl) l'' (List.mem_cons_of_mem l hl')

/-- The arrays on a way are in temporaries: those that were there, and new ones where there were
none. All keys but the last have been used. -/
inductive Opened {h h' : Heap} (V : Values h) (V' : Values h') (ls : List Val) :
    Option Nat → List (Key × Nat) → List Value → List Nat → Prop
  | last {o : Option Nat} {k : Key} {t b : Nat} {x : Value} (ht : ls[t]? = some (.ref b))
    (hb : V'.mem b) (hs : V'.view b = .array (V.itemsOf o))
    (hsame : o = some b ∨ o = none ∧ ¬ V.mem b) : Opened V V' ls o [(k, t)] [x] [b]
  | cons {o : Option Nat} {k : Key} {t b : Nat} {x : Value} {levels : List (Key × Nat)}
    {xs : List Value} {bs : List Nat} (ht : ls[t]? = some (.ref b)) (hb : V'.mem b)
    (hs : V'.view b = .array (V.itemsOf o)) (hsame : o = some b ∨ o = none ∧ ¬ V.mem b)
    (hx : HasKey x) (rest : Opened V V' ls (V.below o x.normalizeKey) levels xs bs) :
    Opened V V' ls o ((k, t) :: levels) (x :: xs) (b :: bs)

section Descent

variable {h h₁ h' : Heap} {V : Values h} {V₁ : Values h₁} {V' : Values h'} {ls : List Val}
  {o : Option Nat} {levels : List (Key × Nat)} {xs : List Value} {bs : List Nat}

/-- The same way in a set of fewer values. -/
theorem Opened.of_sub (hsub : V.Sub V₁) (ho : V.Spot o) (hop : Opened V₁ V' ls o levels xs bs) :
    Opened V V' ls o levels xs bs := by
  induction hop with
  | last ht hb hs hsame =>
    rw [hsub.itemsOf ho] at hs
    exact .last ht hb hs (hsame.imp_right fun hn => ⟨hn.1, fun hm => hn.2 (hsub.mem _ hm)⟩)
  | cons ht hb hs hsame hx rest ih =>
    rw [hsub.itemsOf ho] at hs
    rw [hsub.below ho] at ih
    exact .cons ht hb hs (hsame.imp_right fun hn => ⟨hn.1, fun hm => hn.2 (hsub.mem _ hm)⟩) hx
      (ih (Values.spot_below ho _))

theorem Opened.mem (hop : Opened V V' ls o levels xs bs) {e : Nat} (he : e ∈ bs) :
    some e ∈ V.way o xs ∨ ¬ V.mem e := by
  induction hop with
  | last ht hb hs hsame =>
    rw [List.mem_singleton.mp he]
    exact hsame.imp (fun hn => by simp [Values.way, hn]) And.right
  | cons ht hb hs hsame hx rest ih =>
    rcases List.mem_cons.mp he with rfl | he
    · exact hsame.imp (fun hn => by simp [Values.way, hn]) And.right
    · exact (ih he).imp_left fun hn => List.mem_cons_of_mem _ hn

/-- The arrays on a way are values. -/
theorem mem_of_way (ho : V.Spot o) {e : Nat} (he : some e ∈ V.way o xs) : V.mem e := by
  induction xs generalizing o with
  | nil => cases he
  | cons x xs ih =>
    rcases List.mem_cons.mp he with he | he
    · exact ho e he.symm
    · exact ih (Values.spot_below ho _) he

/-- What a read under a key finds. -/
theorem finds_below (hsub : V.Sub V₁) (ho : V.Spot o) {x : Value} {u : Val}
    (hu : Answered h₁ ((V.itemsOf o).get x) u) : V₁.Finds u (V.below o x) := by
  unfold Values.below
  cases hg : (V.itemsOf o).get x with
  | none =>
    rw [hg] at hu
    exact Values.finds_null hu
  | some v =>
    rw [hg] at hu
    obtain rfl : u = v := hu
    have hpart := Values.part_get ho hg
    rw [Option.bind_some, ← hsub.arrayOf hpart]
    exact Values.finds_arrayOf (hsub.part hpart)

theorem arrayAt_of_view {b : Nat} {s : Items} (hb : V.mem b) (hs : V.view b = .array s) :
    ArrayAt h b s (V.cells b) := by
  have hv := V.viewed b hb
  rw [hs] at hv
  cases hv with
  | array ha => exact ha

theorem nodup_way_tail {x : Value} (hway : (V.way o (x :: xs)).reduceOption.Nodup) :
    (V.way (V.below o x.normalizeKey) xs).reduceOption.Nodup ∧
      ∀ b, o = some b → some b ∉ V.way (V.below o x.normalizeKey) xs := by
  rw [Values.way] at hway
  cases o with
  | none =>
    rw [List.reduceOption_cons_of_none] at hway
    exact ⟨hway, by rintro _ ⟨⟩⟩
  | some b =>
    rw [List.reduceOption_cons_of_some, List.nodup_cons, List.reduceOption_mem_iff] at hway
    refine ⟨hway.2, ?_⟩
    rintro _ ⟨⟩
    exact hway.1

end Descent

theorem descend_cons (c : Context) (k : Key) (t : Nat) (next : Key × Nat) (rest : List (Key × Nat)) :
    descend c ((k, t) :: next :: rest) = c.links.call .arrAutoviv ++ (store t ++ (load t ++
      (getKey c k ++ descend c (next :: rest)))) := by
  simp [descend]

/-- The way down finds the arrays that are there and makes the others. -/
theorem descend_yields {c : Context} {m : Processor Output} {a : Act} {w : Output} {st : List Val}
    (hi : Installed m c.links) : (levels : List (Key × Nat)) → levels ≠ [] →
    ∀ (h : Heap) (ls : List Val) (u : Val) (o : Option Nat) (xs : List Value) (V : Values h),
      V.Finds u o → List.Forall₂ (fun l x => l.1.Holds h ls x) levels xs →
      Separate levels ls.length → (V.way o xs).reduceOption.Nodup →
      m.Yields a (descend c levels) ⟨h, w, ls, u :: st⟩ (fun _ => True) fun c' =>
        ∃ h' ls', ∃ V' : Values h', ∃ bs, c' = ⟨h', w, ls', st⟩ ∧ Extends h h' ∧ V.Sub V' ∧
          Alters (levels.map Prod.snd) ls ls' ∧ Opened V V' ls' o levels xs bs ∧ bs.Nodup
  | [], hne, _, _, _, _, _, _ => absurd rfl hne
  | [(k, t)], _, h, ls, u, o, xs, V => by
    intro hf hkeys hsep hway
    obtain ⟨x, rfl⟩ := List.length_eq_one_iff.mp hkeys.length_eq.symm
    rw [descend]
    refine (autoviv_yields hi hf).trans ?_
    rintro _ ⟨h₁, b, rfl, hext, V₁, hsub, hb, hs, hsame⟩
    have ht : t < ls.length := hsep.below (k, t) (by simp)
    refine (reaches_store ht).yields ⟨h₁, _, V₁, [b], rfl, hext, hsub, alters_set (by simp) _ _,
      .last (List.getElem?_set_self ht) hb hs hsame, by simp⟩
  | (k, t) :: next :: rest, _, h, ls, u, o, xs, V => by
    intro hf hkeys hsep hway
    cases hkeys with
    | @cons _ x _ xs hk hkeys =>
    obtain ⟨hway', hfirst⟩ := nodup_way_tail hway
    have ht : t < ls.length := hsep.below (k, t) (by simp)
    have htemps : ∀ l ∈ (k, t) :: next :: rest, ∀ s ∈ l.1.temps, ∀ v,
        (ls.set t v)[s]? = ls[s]? := fun l hl s hs v =>
      List.getElem?_set_ne fun heq : t = s => hsep.apart (k, t) (by simp) l hl (heq ▸ hs)
    rw [descend_cons]
    refine (autoviv_yields hi hf).trans ?_
    rintro _ ⟨h₁, b, rfl, hext₁, V₁, hsub₁, hb, hs, hsame⟩
    refine ((reaches_store ht).yields rfl).trans ?_
    rintro _ rfl
    refine ((reaches_load (List.getElem?_set_self ht)).yields rfl).trans ?_
    rintro _ rfl
    refine (getKey_yields hi trivial (arrayAt_of_view hb hs)
      (hk.kept (fun s hs => htemps (k, t) (by simp) s hs _) fun _ => Boxed.mono hext₁)
      (.inr trivial)).trans ?_
    rintro _ ⟨h₂, v, rfl, hx, hext₂, hv⟩
    have hsub₂ : V.Sub (V₁.extended hext₂) := hsub₁.trans (Values.sub_extended V₁ hext₂)
    have hkeys₂ : List.Forall₂ (fun l x => l.1.Holds h₂ (ls.set t (.ref b)) x) (next :: rest) xs :=
      keys_kept hkeys (fun l hl s hs => htemps l (by simp [hl]) s hs _)
        fun _ _ _ => Boxed.mono (hext₁.trans hext₂)
    refine (descend_yields hi (next :: rest) (by simp) h₂ _ v _ xs (V₁.extended hext₂)
      (finds_below hsub₂ hf.spot hv) hkeys₂ (by rw [List.length_set]; exact hsep.tail)
      (by rw [hsub₂.way (Values.spot_below hf.spot _)]; exact hway')).mono ?_
    rintro _ ⟨h', ls', V', bs, rfl, hext', hsub', halt, hop, hnodup⟩
    have hstored : ls'[t]? = some (.ref b) := by
      rw [halt.same t (List.nodup_cons.mp hsep.nodup).1]
      exact List.getElem?_set_self ht
    have hnew : b ∉ bs := by
      intro hm
      rcases hop.mem hm with hway | hno
      · rw [hsub₂.way (Values.spot_below hf.spot _)] at hway
        rcases hsame with rfl | ⟨-, hno⟩
        · exact hfirst b rfl hway
        · exact hno (mem_of_way (Values.spot_below hf.spot _) hway)
      · exact hno hb
    refine ⟨h', ls', V', b :: bs, rfl, (hext₁.trans hext₂).trans hext', hsub₂.trans hsub',
      (alters_set (by simp) ls _).trans (halt.mono (by simp)), ?_, List.nodup_cons.mpr ⟨hnew, hnodup⟩⟩
    refine .cons hstored (hsub'.mem b hb) ?_ hsame hx (hop.of_sub hsub₂ (Values.spot_below hf.spot _))
    exact (hsub'.view b hb).trans hs

end HeapScript.Compile

/-! ## What a store leaves -/

namespace HeapScript.Library.Values

open Machine

/-- What is bound at a place after a store under a key of the array there: an array that differs from
the one before only in the element under the key. It is the array that was there, unless there was
none or the store made a table of a list; then it is a new one, and the old one is as it was. -/
structure Updated {h h' : Heap} (V : Values h) (V' : Values h') (o : Option Nat) (x : Value) (v : Val)
    (b : Nat) : Prop where
  key : HasKey x
  mem : V'.mem b
  map : ∃ s, V'.view b = .array s ∧ (V.itemsOf o).Overrides s x.normalizeKey v
  same : (V.itemsOf o).promotes x.normalizeKey = false → ∀ e, o = some e → b = e
  new : o = none ∨ (V.itemsOf o).promotes x.normalizeKey = true → ¬ V.mem b
  old : ∀ e, o = some e → e ≠ b → V'.mem e ∧ V'.view e = V.view e

/-- What is bound on a way after a store at its end: every array is stored into the one above. -/
inductive Rebound {h h' : Heap} (V : Values h) (V' : Values h') (v : Val) :
    Option Nat → List Value → List Nat → Prop
  | last {o : Option Nat} {x : Value} {b : Nat} (hu : V.Updated V' o x v b) :
    Rebound V V' v o [x] [b]
  | cons {o : Option Nat} {x : Value} {xs : List Value} {b b' : Nat} {bs : List Nat}
    (hu : V.Updated V' o x (.ref b') b)
    (rest : Rebound V V' v (V.below o x.normalizeKey) xs (b' :: bs)) :
    Rebound V V' v o (x :: xs) (b :: b' :: bs)

section Rebound

variable {h h₁ h₂ : Heap} {V : Values h} {V₁ : Values h₁} {V₂ : Values h₂} {v : Val} {o : Option Nat}
  {x : Value} {xs : List Value} {b b' e : Nat} {bs : List Nat}

theorem Rebound.mem (hr : V.Rebound V₁ v o xs bs) (he : e ∈ bs) : V₁.mem e := by
  induction hr with
  | last hu =>
    rw [List.mem_singleton.mp he]
    exact hu.mem
  | cons hu _ ih =>
    rcases List.mem_cons.mp he with rfl | he
    · exact hu.mem
    · exact ih he

theorem Rebound.hasKey (hr : V.Rebound V₁ v o xs bs) : ∀ x ∈ xs, HasKey x := by
  induction hr with
  | last hu => exact fun y hy => List.mem_singleton.mp hy ▸ hu.key
  | cons hu _ ih => exact List.forall_mem_cons.mpr ⟨hu.key, ih⟩

theorem Updated.keeps (hu : V.Updated V₁ o x v b) (hmem : ∀ i, V₁.mem i → V₂.mem i)
    (hview : ∀ i, V₁.mem i → i ≠ e → V₂.view i = V₁.view i) (hb : b ≠ e) (ho : o ≠ some e) :
    V.Updated V₂ o x v b where
  key := hu.key
  mem := hmem b hu.mem
  map := by
    obtain ⟨s, hs, hmap⟩ := hu.map
    exact ⟨s, (hview b hu.mem hb).trans hs, hmap⟩
  same := hu.same
  new := hu.new
  old := by
    intro i hi hne
    obtain ⟨him, hiv⟩ := hu.old i hi hne
    exact ⟨hmem i him, (hview i him fun heq => ho (heq ▸ hi)).trans hiv⟩

/-- A store into another array leaves what is bound on a way. -/
theorem Rebound.keeps (hr : V.Rebound V₁ v o xs bs) (hmem : ∀ i, V₁.mem i → V₂.mem i)
    (hview : ∀ i, V₁.mem i → i ≠ e → V₂.view i = V₁.view i) (hb : e ∉ bs)
    (ho : some e ∉ V.way o xs) : V.Rebound V₂ v o xs bs := by
  induction hr with
  | last hu =>
    simp only [way, List.mem_singleton] at ho hb
    exact .last (hu.keeps hmem hview (fun heq => hb heq.symm) fun heq => ho heq.symm)
  | cons hu _ ih =>
    simp only [way, List.mem_cons, not_or] at ho
    rw [List.mem_cons, not_or] at hb
    exact .cons (hu.keeps hmem hview (fun heq => hb.1 heq.symm) fun heq => ho.1 heq.symm)
      (ih hb.2 ho.2)

/-- What a store into an array of some values leaves. -/
theorem set_landed {s : Items} {copy : Bool} (hb : V₁.mem b) (hs : V₁.view b = .array s)
    (hx : IsKey x) (he : V₁.mem e) (hl : Landed h₁ b (V₁.cells b) h₂ (s.set x (.ref e)) copy b') :
    ∃ V₂ : Values h₂, V₂.mem b' ∧ V₂.view b' = .array (s.set x (.ref e)) ∧
      (∀ i, V₁.mem i → V₂.mem i) ∧ (∀ i, V₁.mem i → i ≠ b' → V₂.view i = V₁.view i) ∧
      (copy = false → b' = b) ∧ (copy = true → ¬ V₁.mem b') ∧
      ∀ u y, HasKey y → Boxed h₁ u y → Boxed h₂ u y := by
  have hparts : ∀ p ∈ (s.set x (.ref e)).pairs, Part V₁.mem p.2 := by
    intro p hp
    rcases mem_set_pairs hx hp with heq | ⟨q, hq, heq⟩
    · rw [heq]
      exact he
    · rw [← heq]
      refine V₁.closed b hb q.2 ?_
      rw [hs]
      exact List.mem_map_of_mem hq
  obtain ⟨V₂, hmem, hview⟩ := V₁.stored hb hs hl hparts
  refine ⟨V₂, by rw [hmem]; exact .inr rfl, by rw [hview, Function.update_self],
    fun i hi => by rw [hmem]; exact .inl hi,
    fun i _ hne => by rw [hview, Function.update_of_ne hne], ?_⟩
  cases hl with
  | inPlace hw =>
    exact ⟨fun _ => rfl, nofun,
      fun u y hy hu => (Compile.arrayAt_of_view hb hs).boxed_keeps hw.keeps hy hu⟩
  | copied hp hw =>
    exact ⟨nofun, fun _ hm => V₁.ne_of_none hm hp rfl,
      fun u y _ hu => hu.mono fun i d hd => hw.keeps i d hd List.not_mem_nil⟩

/-- A store into the array at a place, after stores elsewhere. -/
theorem updated_of_landed (hsub : ∀ i, V.mem i → V₁.mem i) (hb : V₁.mem b)
    (hs : V₁.view b = .array (V.itemsOf o)) (hsame : o = some b ∨ o = none ∧ ¬ V.mem b)
    (hold : o = some b → V.view b = .array (V.itemsOf o)) (hx : HasKey x) (he : V₁.mem e)
    (hl : Landed h₁ b (V₁.cells b) h₂ ((V.itemsOf o).set x.normalizeKey (.ref e))
      ((V.itemsOf o).promotes x.normalizeKey) b') :
    ∃ V₂ : Values h₂, V.Updated V₂ o x (.ref e) b' ∧ (∀ i, V₁.mem i → V₂.mem i) ∧
      (∀ i, V₁.mem i → i ≠ b' → V₂.view i = V₁.view i) ∧ (b' = b ∨ ¬ V₁.mem b') ∧
      ∀ u y, HasKey y → Boxed h₁ u y → Boxed h₂ u y := by
  obtain ⟨V₂, hb', hs', hmem, hview, hstay, hcopy, hboxed⟩ :=
    set_landed hb hs hx.isKey_normalizeKey he hl
  have hwhere : b' = b ∨ ¬ V₁.mem b' := by
    cases hp : (V.itemsOf o).promotes x.normalizeKey with
    | true => exact .inr (hcopy hp)
    | false => exact .inl (hstay hp)
  refine ⟨V₂, {
    key := hx
    mem := hb'
    map := ⟨_, hs', (Compile.arrayAt_of_view hb hs).overrides_set hx.isKey_normalizeKey _⟩
    same := fun hp i hi => ?_
    new := fun hcase hm => ?_
    old := fun i hi hne => ?_ }, hmem, hview, hwhere, hboxed⟩
  · rcases hsame with ho | ⟨ho, -⟩
    · exact (hstay hp).trans (Option.some.inj (ho.symm.trans hi))
    · cases ho.symm.trans hi
  · rcases hwhere with rfl | hno
    · rcases hsame with ho | ⟨-, hno⟩
      · rcases hcase with hcase | hcase
        · cases ho.symm.trans hcase
        · exact hcopy hcase hb
      · exact hno hm
    · exact hno (hsub b' hm)
  · rcases hsame with ho | ⟨ho, -⟩
    · obtain rfl : b = i := Option.some.inj (ho.symm.trans hi)
      exact ⟨hmem b hb, (hview b hb hne).trans (hs.trans (hold ho).symm)⟩
    · cases ho.symm.trans hi

end Rebound

end HeapScript.Library.Values

namespace HeapScript.Compile

open Machine Machine.Processor Library Execution Gen
open Code (load store)

/-! ## The way up -/

/-- What the way up leaves of the values that the way down left. -/
structure Ascended {h h₁ h₂ : Heap} (V : Values h) (V₁ : Values h₁) (V₂ : Values h₂)
    (o : Option Nat) (xs : List Value) (bs : List Nat) (v : Val) (bs' : List Nat) : Prop where
  rebound : V.Rebound V₂ v o xs bs'
  boxed : ∀ u y, HasKey y → Boxed h₁ u y → Boxed h₂ u y
  mem : ∀ i, V₁.mem i → V₂.mem i
  bound : ∀ i ∈ bs', i ∈ bs ∨ ¬ V₁.mem i
  view : ∀ i, V₁.mem i → i ∉ bs' → V₂.view i = V₁.view i

section Ascent

variable {h h₁ : Heap} {V : Values h} {V₁ : Values h₁} {ls : List Val} {o : Option Nat}
  {levels : List (Key × Nat)} {xs : List Value} {bs : List Nat}

theorem Opened.ne_nil (hop : Opened V V₁ ls o levels xs bs) : levels ≠ [] := by
  cases hop <;> simp

theorem ascend_cons (c : Context) (val result : Nat) (k : Key) (t : Nat) (hne : levels ≠ []) :
    ascend c val result ((k, t) :: levels) =
      ascend c val result levels ++ (store result ++ (load t ++ setKey c result k)) := by
  cases levels with
  | nil => exact absurd rfl hne
  | cons next rest => simp [ascend]

/-- The array that was at a place is found there as it was. -/
theorem view_of_spot (hsub : V.Sub V₁) (ho : V.Spot o) {b : Nat}
    (hs : V₁.view b = .array (V.itemsOf o)) (hb : o = some b) :
    V.view b = .array (V.itemsOf o) :=
  (hsub.view b (ho b hb)).symm.trans hs

/-- The way up stores into the arrays that the way down has found. -/
theorem ascend_yields {c : Context} {m : Processor Output} {a : Act} {w : Output} {st : List Val}
    (hi : Installed m c.links) {val result e : Nat} (hop : Opened V V₁ ls o levels xs bs)
    (hsub : V.Sub V₁) (ho : V.Spot o) (hnodup : bs.Nodup) (hway : (V.way o xs).reduceOption.Nodup)
    (hkeys : List.Forall₂ (fun l x => l.1.Holds h₁ ls x) levels xs)
    (hval : ls[val]? = some (.ref e)) (he : V₁.mem e) (hres : result < ls.length)
    (hsep : ∀ l ∈ levels, result ≠ l.2 ∧ result ∉ l.1.temps) :
    m.Yields a (ascend c val result levels) ⟨h₁, w, ls, st⟩ (fun _ => True) fun c' =>
      ∃ h₂ ls', ∃ V₂ : Values h₂, ∃ b bs', c' = ⟨h₂, w, ls', .ref b :: st⟩ ∧
        Alters [result] ls ls' ∧ Ascended V V₁ V₂ o xs bs (.ref e) (b :: bs') := by
  induction hop with
  | @last o k t b x ht hb hs hsame =>
    obtain ⟨hk, -⟩ := List.forall₂_cons.mp hkeys
    rw [ascend]
    refine ((reaches_load ht).yields rfl).trans ?_
    rintro _ rfl
    refine (setKey_yields hi (arrayAt_of_view hb hs) hk hval).mono ?_
    rintro _ ⟨h₂, b', rfl, hx, hl⟩
    obtain ⟨V₂, hu, hmem, hview, hwhere, hboxed⟩ := Values.updated_of_landed hsub.mem hb hs hsame
      (view_of_spot hsub ho hs) hx he hl
    exact ⟨h₂, ls, V₂, b', [], rfl, .refl _ _, {
      rebound := .last hu
      boxed := hboxed
      mem := hmem
      bound := fun i hi => by simpa [List.mem_singleton.mp hi] using hwhere
      view := fun i hi hne => hview i hi (by simpa using hne) }⟩
  | @cons o k t b x levels xs bs ht hb hs hsame hx rest ih =>
    obtain ⟨hk, hkeys⟩ := List.forall₂_cons.mp hkeys
    obtain ⟨hway, hfirst⟩ := nodup_way_tail hway
    obtain ⟨hbs, hnodup⟩ := List.nodup_cons.mp hnodup
    obtain ⟨htemp, hktemp⟩ := hsep (k, t) (by simp)
    rw [ascend_cons c val result k t rest.ne_nil]
    refine (ih (Values.spot_below ho _) hnodup hway hkeys fun l hl => hsep l (by simp [hl])).trans ?_
    rintro _ ⟨h₂, ls₂, V₂, b₂, bs₂, rfl, halt, hasc⟩
    -- the array of this level is none of those below, so it is still what the way down found
    have hb₂ : b ∉ b₂ :: bs₂ := fun hm => (hasc.bound b hm).elim hbs fun hno => hno hb
    have hs₂ : V₂.view b = .array (V.itemsOf o) := (hasc.view b hb hb₂).trans hs
    have hlen : result < ls₂.length := halt.length ▸ hres
    have hother {s : Nat} (hne : result ≠ s) : (ls₂.set result (.ref b₂))[s]? = ls[s]? := by
      rw [List.getElem?_set_ne hne, halt.same s (by simpa using hne.symm)]
    refine ((reaches_store hlen).yields rfl).trans ?_
    rintro _ rfl
    refine ((reaches_load ((hother htemp).trans ht)).yields rfl).trans ?_
    rintro _ rfl
    refine (setKey_yields hi (arrayAt_of_view (hasc.mem b hb) hs₂)
      (hk.kept (fun s hs => hother fun heq => hktemp (heq ▸ hs)) fun u => hasc.boxed u x hx)
      (List.getElem?_set_self hlen)).mono ?_
    rintro _ ⟨h₃, b₃, rfl, -, hl⟩
    obtain ⟨V₃, hu, hmem, hview, hwhere, hboxed⟩ := Values.updated_of_landed
      (fun i hi => hasc.mem i (hsub.mem i hi)) (hasc.mem b hb) hs₂ hsame (view_of_spot hsub ho hs) hx
      (hasc.rebound.mem (by simp)) hl
    have hb₃ : b₃ ∉ b₂ :: bs₂ := by
      rcases hwhere with rfl | hno
      · exact hb₂
      · exact fun hm => hno (hasc.rebound.mem hm)
    have hway₃ : some b₃ ∉ V.way (V.below o x.normalizeKey) xs := by
      intro hm
      have hV := mem_of_way (Values.spot_below ho _) hm
      rcases hwhere with rfl | hno
      · rcases hsame with ho' | ⟨-, hno⟩
        · exact hfirst b₃ ho' hm
        · exact hno hV
      · exact hno (hasc.mem b₃ (hsub.mem b₃ hV))
    refine ⟨h₃, _, V₃, b₃, b₂ :: bs₂, rfl, halt.trans (alters_set (by simp) _ _), {
      rebound := .cons hu (hasc.rebound.keeps hmem hview hb₃ hway₃)
      boxed := fun u y hy hu => hboxed u y hy (hasc.boxed u y hy hu)
      mem := fun i hi => hmem i (hasc.mem i hi)
      bound := fun i hi => ?_
      view := fun i hi hne => ?_ }⟩
    · rcases List.mem_cons.mp hi with rfl | hi
      · exact hwhere.imp (fun heq => by simp [heq]) fun hno hm => hno (hasc.mem i hm)
      · exact (hasc.bound i hi).imp_left fun hm => by simp [hm]
    · rw [List.mem_cons, not_or] at hne
      exact (hview i (hasc.mem i hi) hne.1).trans (hasc.view i hi hne.2)

end Ascent

end HeapScript.Compile
