import HeapScript.Proofs.Compile.Sparing
import HeapScript.Proofs.Compile.Typing

/-!
# Temporaries never clash

Temporaries are handed out and taken back in any order, between locals that are declared for
variables, and one function follows the other. What carries the argument is that every temporary is
either in use or free, never both and never twice, and that it was made behind all locals there were.
-/

namespace HeapScript.Compile

open Machine Gen

namespace Layout

variable {l l' : Layout}

/-- The temporaries of a kind that can be handed out again. -/
def freeOf (l : Layout) (k : SlotKind) : List Nat := l.free.filter fun s => l.kindOf? s == some k

theorem mem_freeOf {k : SlotKind} {s : Nat} : s ∈ l.freeOf k ↔ s ∈ l.free ∧ l.kindOf? s = some k := by
  rw [freeOf, List.mem_filter, beq_iff_eq]

/-- Every temporary is in use or free. It is no parameter, and its local has the type of its kind. -/
structure Accounted (l : Layout) : Prop extends l.Sound where
  found : ∀ s k, l.kindOf? s = some k → s ∈ l.inUse ++ l.free
  typed : ∀ s k, l.kindOf? s = some k → l.typeOf? s = some (l.slotType k)
  behind : ∀ s k, l.kindOf? s = some k → l.params.length ≤ s

namespace Accounted

/-- A layout without temporaries. -/
theorem start (refType : ValType) (params : List ValType) (locals : Array ValType) :
    Accounted { refType, params, locals } :=
  ⟨⟨List.nodup_nil, nofun, nofun⟩, nofun, nofun, nofun⟩

/-- A local for a variable leaves the temporaries. -/
theorem declare (h : l.Accounted) (t : ValType) : (l.declare t).2.Accounted :=
  ⟨(h.toSound.declare t).1, h.found, fun s k hk => typeOf_declare t (h.typed s k hk), h.behind⟩

/-- Handing out a temporary takes it from the free ones, or makes one more. -/
theorem allocate_perm (l : Layout) (k : SlotKind) :
    ((l.allocate k).2.inUse ++ (l.allocate k).2.free).Perm (l.inUse ++ l.free) ∧
        (l.allocate k).2.kinds = l.kinds ∨
      (l.allocate k).2.inUse ++ (l.allocate k).2.free = l.size :: (l.inUse ++ l.free) ∧
        (l.allocate k).2.kinds = (l.size, k) :: l.kinds := by
  unfold Layout.allocate
  split
  · rename_i s hs
    have hfree := List.mem_of_find?_eq_some hs
    exact .inl ⟨List.perm_middle.symm.trans ((List.perm_cons_erase hfree).symm.append_left _), rfl⟩
  · exact .inr ⟨rfl, rfl⟩

theorem allocate (h : l.Accounted) (k : SlotKind) : (l.allocate k).2.Accounted := by
  obtain ⟨href, hparams, -, htyped, -⟩ := allocate_types h.typed k
  have hsame (j : SlotKind) : (l.allocate k).2.slotType j = l.slotType j := by
    cases j <;> first | rfl | exact href
  have htypes (s : Nat) (j : SlotKind) (hj : (l.allocate k).2.kindOf? s = some j) :
      (l.allocate k).2.typeOf? s = some ((l.allocate k).2.slotType j) := by
    rw [hsame, htyped s j hj]
  have hcases (s : Nat) (j : SlotKind) (hj : ((l.size, k) :: l.kinds).lookup s = some j) :
      s = l.size ∨ l.kindOf? s = some j := by
    rw [List.lookup_cons] at hj
    split at hj
    · exact .inl (eq_of_beq ‹_›)
    · exact .inr hj
  refine ⟨(h.toSound.allocate k).sound, fun s j hj => ?_, htypes, fun s j hj => ?_⟩ <;>
    obtain ⟨hperm, hkinds⟩ | ⟨hcons, hkinds⟩ := allocate_perm l k <;>
    rw [kindOf?, hkinds] at hj
  · exact hperm.mem_iff.2 (h.found s j hj)
  · rw [hcons, List.mem_cons]
    exact (hcases s j hj).imp_right (h.found s j)
  · exact hparams ▸ h.behind s j hj
  · obtain rfl | hj := hcases s j hj
    · exact hparams ▸ Nat.le_add_right _ _
    · exact hparams ▸ h.behind s j hj

/-- A temporary can be taken back exactly while it is in use. -/
theorem release_ok_iff (h : l.Accounted) {slot : Nat} :
    l.release slot = .ok l' ↔ slot ∈ l.inUse ∧
      l' = { l with free := slot :: l.free, inUse := l.inUse.erase slot } := by
  unfold Layout.release
  split
  · rename_i hk
    refine ⟨nofun, fun ⟨hu, _⟩ => ?_⟩
    have := h.known slot (List.mem_append_left _ hu)
    rw [hk] at this
    cases this
  · split
    · rename_i hu
      exact ⟨fun hl => ⟨hu, (Except.ok.inj hl).symm⟩, fun hl => by rw [hl.2]⟩
    · rename_i hu
      exact ⟨nofun, fun hl => absurd hl.1 hu⟩

theorem release (h : l.Accounted) {slot : Nat} (hr : l.release slot = .ok l') : l'.Accounted := by
  obtain ⟨hu, rfl⟩ := h.release_ok_iff.1 hr
  have hperm : (l.inUse.erase slot ++ slot :: l.free).Perm (l.inUse ++ l.free) :=
    List.perm_middle.trans ((List.perm_cons_erase hu).symm.append_right _)
  exact ⟨⟨hperm.nodup_iff.2 h.nodup, fun s hs => h.known s (hperm.mem_iff.1 hs), h.below⟩,
    fun s k hk => hperm.mem_iff.2 (h.found s k hk), h.typed, h.behind⟩

theorem freeOf_nodup (h : l.Accounted) (k : SlotKind) : (l.freeOf k).Nodup :=
  (List.nodup_append.1 h.nodup).2.1.filter _

theorem freeOf_disjoint {k j : SlotKind} (hkj : k ≠ j) : (l.freeOf k).Disjoint (l.freeOf j) := by
  intro s hk hj
  have := (mem_freeOf.1 hk).2.symm.trans (mem_freeOf.1 hj).2
  exact hkj (Option.some.inj this)

theorem freeOf_not_inUse (h : l.Accounted) (k : SlotKind) : (l.freeOf k).Disjoint l.inUse :=
  fun s hf hu => (List.nodup_append.1 h.nodup).2.2 s hu s (mem_freeOf.1 hf).1 rfl

theorem created_iff (h : l.Accounted) (s : Nat) :
    (l.kindOf? s).isSome = true ↔ s ∈ l.inUse ∨ ∃ k, s ∈ l.freeOf k := by
  constructor
  · intro hs
    obtain ⟨k, hk⟩ := Option.isSome_iff_exists.1 hs
    exact (List.mem_append.1 (h.found s k hk)).imp_right fun hf => ⟨k, mem_freeOf.2 ⟨hf, hk⟩⟩
  · rintro (hu | ⟨k, hk⟩)
    · exact h.known s (List.mem_append_left _ hu)
    · exact h.known s (List.mem_append_right _ (mem_freeOf.1 hk).1)

end Accounted

end Layout

/-! ## Calls -/

/-- A call that handles the locals of functions. -/
inductive SlotCall where
  /-- Starts on a function with some parameters, and with locals if it was begun before. -/
  | reset (params locals : List ValType)
  | allocate (k : SlotKind)
  | release (slot : Int)
  | declare (t : ValType)

/-- The state of the locals, with what the answers to calls have said about the function at hand. -/
structure SlotTrace where
  slots : Slots := none
  /-- The temporaries that were handed out and not taken back. -/
  handed : List Nat := []
  /-- The locals that were declared for variables. -/
  declared : List Nat := []

namespace SlotTrace

/-- A call that fails changes nothing. -/
def call (refType : ValType) (t : SlotTrace) : SlotCall → SlotTrace
  | .reset params locals =>
    { slots := (Slots.reset refType params).map fun l => { l with locals := locals.toArray }
      declared := List.range' params.length locals.length }
  | .allocate k =>
    match t.slots.allocate k with
    | .ok (s, slots) => { t with slots := slots, handed := s :: t.handed }
    | .error _ => t
  | .release slot =>
    match t.slots.release slot with
    | .ok slots => { t with slots := slots, handed := t.handed.erase slot.toNat }
    | .error _ => t
  | .declare type =>
    match t.slots with
    | some l =>
      { t with slots := some (l.declare type).2, declared := (l.declare type).1 :: t.declared }
    | none => t

def after (refType : ValType) (calls : List SlotCall) : SlotTrace := calls.foldl (call refType) {}

/-- The layout agrees with the answers. -/
structure Records (refType : ValType) (t : SlotTrace) (l : Layout) : Prop extends l.Accounted where
  refType : l.refType = refType
  handed : t.handed = l.inUse
  declared : ∀ s ∈ t.declared, s < l.size ∧ l.kindOf? s = none

/-- Without a function nothing is handed out, and a function agrees with the answers. -/
structure Sound (refType : ValType) (t : SlotTrace) : Prop where
  idle : t.slots = none → t.handed = []
  records : ∀ l, t.slots = some l → Records refType t l

/-- Taking back succeeds only within a function, for a number that may be a local. -/
theorem release_inv {slots slots' : Slots} {slot : Int} (h : slots.release slot = .ok slots') :
    ∃ l l', slots = some l ∧ 0 ≤ slot ∧ l.release slot.toNat = .ok l' ∧ slots' = some l' := by
  cases slots with
  | none => cases h
  | some l =>
    rw [Slots.release] at h
    split at h
    · cases h
    · rename_i hs
      cases hr : l.release slot.toNat with
      | error e =>
        rw [hr] at h
        cases h
      | ok l' =>
        rw [hr] at h
        exact ⟨l, l', rfl, by omega, hr, (Except.ok.inj h).symm⟩

/-- One call keeps the account. -/
theorem call_sound {refType : ValType} {t : SlotTrace} (h : Sound refType t) (c : SlotCall) :
    Sound refType (t.call refType c) := by
  cases c with
  | reset params locals =>
    refine ⟨(by intro hn; cases hn), fun l hl => ?_⟩
    cases hl
    refine ⟨.start refType params locals.toArray, rfl, rfl, fun s hs => ⟨?_, rfl⟩⟩
    have := List.mem_range'_1.1 hs
    simpa [Layout.size] using this.2
  | allocate k =>
    cases hs : t.slots with
    | none => simpa [call, hs, Slots.allocate] using h
    | some l =>
      obtain ⟨hl, href, hh, hd⟩ := h.records l hs
      obtain ⟨href', -, -, -, -⟩ := allocate_types hl.typed k
      obtain ⟨-, -, hnone⟩ := allocate_kinds hl.typed k
      simp only [call, hs, Slots.allocate]
      refine ⟨(by intro hn; cases hn), fun l' hl' => ?_⟩
      cases hl'
      refine ⟨hl.allocate k, href'.trans href, ?_, fun s hs => ?_⟩
      · rw [allocate_inUse, hh]
      · obtain ⟨hlt, hk⟩ := hd s hs
        exact ⟨hlt.trans_le (hl.toSound.allocate k).size, hnone s hlt hk⟩
  | release slot =>
    cases hr : t.slots.release slot with
    | error e => simpa only [call, hr] using h
    | ok slots =>
      obtain ⟨l, l', hs, hslot, hl', rfl⟩ := release_inv hr
      obtain ⟨hl, href, hh, hd⟩ := h.records l hs
      obtain ⟨-, rfl⟩ := hl.release_ok_iff.1 hl'
      simp only [call, hr]
      refine ⟨(by intro hn; cases hn), fun l'' hl'' => ?_⟩
      cases hl''
      exact ⟨hl.release hl', href, by rw [hh], hd⟩
  | declare type =>
    cases hs : t.slots with
    | none => simpa only [call, hs] using h
    | some l =>
      obtain ⟨hl, href, hh, hd⟩ := h.records l hs
      simp only [call, hs]
      refine ⟨(by intro hn; cases hn), fun l' hl' => ?_⟩
      cases hl'
      refine ⟨hl.declare type, href, hh, fun s hs => ?_⟩
      rw [Layout.size_declare]
      obtain rfl | hs := List.mem_cons.1 hs
      · exact ⟨Nat.lt_succ_self _, (hl.toSound.declare type).2⟩
      · exact ⟨Nat.lt_succ_of_lt (hd s hs).1, (hd s hs).2⟩

theorem after_sound (refType : ValType) (calls : List SlotCall) :
    Sound refType (after refType calls) := by
  have hfold (t : SlotTrace) (h : Sound refType t) : Sound refType (calls.foldl (call refType) t) := by
    induction calls generalizing t with
    | nil => exact h
    | cons c calls ih => exact ih _ (call_sound h c)
  exact hfold {} ⟨fun _ => rfl, nofun⟩

/-- Taking back fails exactly for what is not handed out. -/
theorem Sound.release_error_iff {refType : ValType} {t : SlotTrace} (h : Sound refType t)
    (slot : Int) : (∃ e, t.slots.release slot = .error e) ↔ ∀ s ∈ t.handed, slot ≠ s := by
  constructor
  · rintro ⟨e, he⟩ s hs rfl
    cases hl : t.slots with
    | none =>
      rw [h.idle hl] at hs
      cases hs
    | some l =>
      obtain ⟨hsound, -, hh, -⟩ := h.records l hl
      have hok := (hsound.release_ok_iff).2 ⟨hh ▸ hs, rfl⟩
      rw [hl, Slots.release, if_neg (Int.natCast_nonneg s).not_gt, Int.toNat_natCast, hok] at he
      cases he
  · intro hne
    cases hr : t.slots.release slot with
    | error e => exact ⟨e, rfl⟩
    | ok slots =>
      obtain ⟨l, l', hl, hslot, hl', -⟩ := release_inv hr
      obtain ⟨hsound, -, hh, -⟩ := h.records l hl
      have hmem := (hsound.release_ok_iff.1 hl').1
      exact absurd (Int.toNat_of_nonneg hslot).symm (hne _ (hh ▸ hmem))

end SlotTrace

/-! ## Statements -/

/-- A step that is seen beside itself leaves the temporaries in use as they were. -/
theorem Gen.Restores.inUse {α : Type} {c : Context} {x : Gen α} {P : α → α → Prop}
    (h : Restores false c x x P) {d d' : Draft} {a : α} (hr : Runs x d a d') :
    d'.layout.inUse.Perm d.layout.inUse := by
  have := h _ d d (Draft.beside_self nofun)
  rw [show step x d = (.ok a, d') from hr] at this
  obtain ⟨V, ⟨rfl, -⟩, hbeside⟩ := this
  exact hbeside.held

/-- After any calls, what is handed out next was not handed out, is no parameter and no local of a
variable, and has the type of its kind. What is free is free once, for one kind, and not in use.
Every temporary is free or in use. Taking back fails exactly for what is not handed out. And every
statement gives back the temporaries that it takes, whatever its draft. -/
theorem temporaries_never_clash (refType : ValType) (calls : List SlotCall) :
    let t := SlotTrace.after refType calls
    (∀ k, t.slots = none ∧ t.slots.allocate k = .error .noFunction ∨
      ∃ s l, t.slots.allocate k = .ok (s, some l) ∧ s ∉ t.handed ∧ s ∉ t.declared ∧
        l.params.length ≤ s ∧ l.refType = refType ∧ l.typeOf? s = some (l.slotType k)) ∧
    (∀ l, t.slots = some l →
      (∀ k, (l.freeOf k).Nodup ∧ (l.freeOf k).Disjoint t.handed) ∧
      (∀ k j, k ≠ j → (l.freeOf k).Disjoint (l.freeOf j)) ∧
      ∀ s, (l.kindOf? s).isSome = true ↔ s ∈ t.handed ∨ ∃ k, s ∈ l.freeOf k) ∧
    (∀ slot, (∃ e, t.slots.release slot = .error e) ↔ ∀ s ∈ t.handed, slot ≠ s) ∧
    ∀ c st scope d code d', Runs (stmt c st scope) d code d' →
      d'.layout.inUse.Perm d.layout.inUse := by
  intro t
  have h : SlotTrace.Sound refType t := SlotTrace.after_sound refType calls
  refine ⟨fun k => ?_, fun l hl => ?_, h.release_error_iff, fun c st scope d code d' hr => ?_⟩
  · cases hs : t.slots with
    | none => exact .inl ⟨rfl, rfl⟩
    | some l =>
      obtain ⟨hsound, href, hh, hd⟩ := h.records l hs
      obtain ⟨href', hparams, -, -, htype⟩ := allocate_types hsound.typed k
      have hkind := (allocate_kinds hsound.typed k).1
      refine .inr ⟨_, _, rfl, ?_, fun hmem => ?_, ?_, href'.trans href, ?_⟩
      · rw [hh]
        exact (hsound.toSound.allocate k).fresh
      · obtain ⟨hlt, hnone⟩ := hd _ hmem
        rw [(allocate_kinds hsound.typed k).2.2 _ hlt hnone] at hkind
        cases hkind
      · exact (hsound.allocate k).behind _ k hkind
      · exact (hsound.allocate k).typed _ k hkind
  · obtain ⟨hsound, -, hh, -⟩ := h.records l hl
    rw [hh]
    exact ⟨fun k => ⟨hsound.freeOf_nodup k, hsound.freeOf_not_inUse k⟩,
      fun k j hkj => Layout.Accounted.freeOf_disjoint hkj, hsound.created_iff⟩
  · have hst : st.Writes (c.Needs false) := by
      have hall := allWrite_unasked (c := c) [st]
      rw [Stmt.allWrite] at hall
      exact hall.1
    exact (stmt_restores (D := c.decls) rfl st hst scope).inUse hr

end HeapScript.Compile
