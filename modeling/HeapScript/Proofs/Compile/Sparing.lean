import HeapScript.Proofs.Compile.Drafting
import HeapScript.Proofs.Machine.Outcome

/-!
# Temporaries in use are spared

A temporary that is in use keeps what it holds while other code runs: code stores into variables
and into temporaries that were handed out for it, and neither is a temporary that was in use
before. Here this is followed through the steps that name locals. What carries it is that no local is
at once in use and free, and that variables are no temporaries.
-/

namespace HeapScript.Compile

open Machine Library Code

/-! ## Layouts and drafts -/

/-- No local is at once in use and free, and every temporary is a local with a kind. -/
structure Layout.Sound (l : Layout) : Prop where
  nodup : (l.inUse ++ l.free).Nodup
  known : ∀ s ∈ l.inUse ++ l.free, (l.kindOf? s).isSome
  below : ∀ s k, l.kindOf? s = some k → s < l.size

namespace Layout

variable {l : Layout}

theorem Sound.lt_size (h : l.Sound) {s : Nat} (hs : s ∈ l.inUse ++ l.free) : s < l.size := by
  obtain ⟨k, hk⟩ := Option.isSome_iff_exists.1 (h.known s hs)
  exact h.below s k hk

@[simp] theorem size_declare (l : Layout) (t : ValType) : (l.declare t).2.size = l.size + 1 := by
  simp [declare, size, Nat.add_assoc]

/-- A local for a variable is no temporary. -/
theorem Sound.declare (h : l.Sound) (t : ValType) :
    (l.declare t).2.Sound ∧ (l.declare t).2.kindOf? (l.declare t).1 = none := by
  refine ⟨⟨h.nodup, h.known, fun s k hs => ?_⟩, ?_⟩
  · rw [size_declare]
    exact Nat.lt_succ_of_lt (h.below s k hs)
  · refine Option.eq_none_iff_forall_ne_some.2 fun k hk => ?_
    exact Nat.lt_irrefl _ (h.below l.size k hk)

/-- What handing out a temporary does: it was not in use, and all else stays. -/
structure Handed (l : Layout) (s : Nat) (l' : Layout) : Prop where
  sound : l'.Sound
  inUse : l'.inUse = s :: l.inUse
  fresh : s ∉ l.inUse
  size : l.size ≤ l'.size
  kinds : ∀ t, t < l.size → l.kindOf? t = none → l'.kindOf? t = none

theorem Sound.allocate (h : l.Sound) (k : SlotKind) :
    Handed l (l.allocate k).1 (l.allocate k).2 := by
  unfold Layout.allocate
  split
  · rename_i s hs
    have hfree := List.mem_of_find?_eq_some hs
    have hperm : (s :: l.inUse ++ l.free.erase s).Perm (l.inUse ++ l.free) :=
      List.perm_middle.symm.trans ((List.perm_cons_erase hfree).symm.append_left _)
    have hn := List.nodup_append.1 h.nodup
    exact {
      sound := ⟨hperm.nodup_iff.2 h.nodup, fun t ht => h.known t (hperm.mem_iff.1 ht), h.below⟩
      inUse := rfl
      fresh := fun hu => hn.2.2 s hu s hfree rfl
      size := Nat.le_refl _
      kinds := fun _ _ ht => ht }
  · have hnew : l.size ∉ l.inUse ++ l.free := fun hm => Nat.lt_irrefl _ (h.lt_size hm)
    have hsize : (l.declare (l.slotType k)).2.size = l.size + 1 := size_declare _ _
    have kinds (t : Nat) : ((l.size, k) :: l.kinds).lookup t =
        if t = l.size then some k else l.kindOf? t := by
      rw [List.lookup_cons, kindOf?]
      by_cases ht : t = l.size
      · simp [ht]
      · rw [if_neg ht, beq_eq_false_iff_ne.2 ht]
    refine ⟨⟨List.nodup_cons.2 ⟨hnew, h.nodup⟩, fun t ht => ?_, fun t k' ht => ?_⟩, rfl,
      fun hm => hnew (List.mem_append_left _ hm), Nat.le_of_lt (hsize ▸ Nat.lt_succ_self _),
      fun t hlt ht => ?_⟩
    · change (((l.size, k) :: l.kinds).lookup t).isSome
      rw [kinds]
      split
      · rfl
      · rename_i hne
        exact h.known t ((List.mem_cons.1 ht).resolve_left hne)
    · change t < (l.declare (l.slotType k)).2.size
      rw [hsize]
      change ((l.size, k) :: l.kinds).lookup t = some k' at ht
      rw [kinds] at ht
      split at ht
      · omega
      · exact Nat.lt_succ_of_lt (h.below t k' ht)
    · change ((l.size, k) :: l.kinds).lookup t = none
      rw [kinds, if_neg (Nat.ne_of_lt hlt)]
      exact ht

end Layout

/-- The given temporaries are in use, and no variable is a temporary. -/
structure Draft.Holds (W : List Nat) (d : Draft) : Prop where
  layout : d.layout.Sound
  vars : ∀ n v, d.vars.lookup n = some v →
    v.slot < d.layout.size ∧ d.layout.kindOf? v.slot = none
  held : W ⊆ d.layout.inUse

namespace Draft.Holds

variable {W V : List Nat} {d : Draft}

theorem mono (h : d.Holds W) (hs : V ⊆ W) : d.Holds V := ⟨h.layout, h.vars, List.Subset.trans hs h.held⟩

theorem lt_size (h : d.Holds W) {t : Nat} (ht : t ∈ W) : t < d.layout.size :=
  h.layout.lt_size (List.mem_append_left _ (h.held ht))

theorem var_not_mem (h : d.Holds W) {n : String} {v : Variable} (hv : d.vars.lookup n = some v) :
    v.slot ∉ W := by
  intro hw
  have hk := h.layout.known v.slot (List.mem_append_left _ (h.held hw))
  rw [(h.vars n v hv).2] at hk
  cases hk

end Draft.Holds

namespace Gen

variable {α β : Type} {W V : List Nat} {x : Gen α} {f : α → Gen β}

/-! ## Rules -/

/-- From a draft in which the temporaries `W` are in use a step gives a result `a` and a draft in
which temporaries `V` are, with `Q a V`. -/
def Protects (W : List Nat) (x : Gen α) (Q : α → List Nat → Prop) : Prop :=
  ∀ d a d', Runs x d a d' → d.Holds W → ∃ V, Q a V ∧ d'.Holds V

/-- Temporaries in use stay so over a step, and its results have a property for them. -/
def Respects (x : Gen α) (P : List Nat → α → Prop) : Prop :=
  ∀ W, Protects W x fun a V => V = W ∧ P W a

theorem protects_pure {a : α} {Q : α → List Nat → Prop} (h : Q a W) : Protects W (pure a) Q := by
  intro d b d' hr hd
  obtain ⟨rfl, rfl⟩ := runs_pure.1 hr
  exact ⟨W, h, hd⟩

theorem protects_bind {R : α → List Nat → Prop} {Q : β → List Nat → Prop} (hx : Protects W x R)
    (hf : ∀ a V, R a V → Protects V (f a) Q) : Protects W (x >>= f) Q := by
  intro d b d' hr hd
  obtain ⟨a, d₁, ha, hb⟩ := runs_bind.1 hr
  obtain ⟨V, hR, hV⟩ := hx d a d₁ ha hd
  exact hf a V hR d₁ b d' hb hV

theorem protects_get {f : Draft → Gen β} {Q : β → List Nat → Prop}
    (h : ∀ d, d.Holds W → Protects W (f d) Q) : Protects W (get >>= f) Q := by
  intro d b d' hr hd
  obtain ⟨s, d₁, hs, hb⟩ := runs_bind.1 hr
  obtain ⟨rfl, rfl⟩ := runs_get.1 hs
  exact h d₁ hd d₁ b d' hb hd

theorem protects_set {s : Draft} {f : Unit → Gen β} {Q : β → List Nat → Prop} (hs : s.Holds V)
    (hf : Protects V (f ()) Q) : Protects W (set s >>= f) Q := by
  intro d b d' hr _
  obtain ⟨u, d₁, hu, hb⟩ := runs_bind.1 hr
  obtain rfl := runs_set.1 hu
  exact hf d₁ b d' hb hs

theorem protects_mono {Q : α → List Nat → Prop} (hs : V ⊆ W) (h : Protects V x Q) :
    Protects W x Q := fun d a d' hr hd => h d a d' hr (hd.mono hs)

/-! ## Variables and temporaries -/

theorem findVar_respects (c : Context) (name : String) :
    Respects (findVar c name) fun W v => v.slot ∉ W := by
  intro W
  refine protects_get fun d hd => ?_
  split
  · rename_i v hl
    exact protects_pure ⟨rfl, hd.var_not_mem hl⟩
  · have hnew := hd.layout.declare (Rep.ofType (c.facts.lookup name).storage.type).valType
    refine protects_set ⟨hnew.1, fun n v hv => ?_, hd.held⟩ (protects_pure ⟨rfl, fun hw => ?_⟩)
    · change v.slot < (d.layout.declare _).2.size ∧ _
      rw [Layout.size_declare]
      rw [List.lookup_cons] at hv
      split at hv
      · cases hv
        exact ⟨Nat.lt_succ_self _, hnew.2⟩
      · exact ⟨Nat.lt_succ_of_lt (hd.vars n v hv).1, (hd.vars n v hv).2⟩
    · exact Nat.lt_irrefl _ (hd.lt_size hw)

/-- A temporary that is handed out was not in use. -/
theorem temp_protects (r : Rep) : Protects W (temp r) fun t V => V = t :: W ∧ t ∉ W := by
  refine protects_get fun d hd => ?_
  have h := hd.layout.allocate r.slotKind
  refine protects_set ⟨h.sound, fun n v hv => ?_, ?_⟩
    (protects_pure ⟨rfl, fun hw => h.fresh (hd.held hw)⟩)
  · obtain ⟨hlt, hk⟩ := hd.vars n v hv
    exact ⟨Nat.lt_of_lt_of_le hlt h.size, h.kinds v.slot hlt hk⟩
  · change _ ⊆ (d.layout.allocate r.slotKind).2.inUse
    rw [h.inUse]
    exact List.cons_subset_cons _ hd.held

theorem protects_temp {r : Rep} {f : Nat → Gen β} {Q : β → List Nat → Prop}
    (hf : ∀ t, t ∉ W → Protects (t :: W) (f t) Q) : Protects W (temp r >>= f) Q := by
  refine protects_bind (temp_protects r) ?_
  rintro t _ ⟨rfl, ht⟩
  exact hf t ht

/-- Temporaries that are handed out one after the other are different. -/
theorem tempsFor_protects {γ : Type} (xs : List γ) : Protects W (tempsFor xs) fun ts V =>
    V = ts ++ W ∧ ts.Nodup ∧ (∀ t ∈ ts, t ∉ W) ∧ ts.length = xs.length := by
  induction xs generalizing W with
  | nil => exact protects_pure (by simp)
  | cons _ xs ih =>
    refine protects_temp fun t ht => protects_bind ih ?_
    rintro ts _ ⟨rfl, hn, hw, hlen⟩
    refine protects_mono (V := t :: (ts ++ W)) (by simp) (protects_pure ⟨rfl, ?_, ?_, ?_⟩)
    · exact List.nodup_cons.2 ⟨fun h => hw t h (by simp), hn⟩
    · exact List.forall_mem_cons.2 ⟨ht, fun s hs h => hw s hs (by simp [h])⟩
    · simp [hlen]

end Gen

end HeapScript.Compile
