import HeapScript.Proofs.Library.IterationStability

/-!
# Arrays inside arrays

The elements of an array may be arrays again. Going down by one key after the other leads from array
to array as long as there is one, and from the first place without one to arrays that are yet to be
made.
-/

namespace HeapScript.Library

open Machine Machine.Processor Code Execution

/-! ## Arrays as maps -/

/-- As maps, two arrays differ only in the element under a key. -/
structure Items.Overrides (s s' : Items) (x : Value) (v : Val) : Prop where
  here : s'.get x = some v
  elsewhere : ∀ y, IsKey y → y ≠ x → s'.get y = s.get y

section Maps

variable {h : Heap} {a : Nat} {s : Items} {S : List Nat} {x y : Value} {v : Val}
  {ps : List (Value × Val)} {items : List (Option Val)}

theorem find?_of_hasKey (hx : hasKey ps x = true) :
    ∃ p, ps.find? (fun p => p.1.strictEq x) = some p := by
  obtain ⟨p, hp, heq⟩ := List.any_eq_true.mp hx
  cases hf : ps.find? fun p => p.1.strictEq x with
  | some q => exact ⟨q, rfl⟩
  | none => exact absurd heq (List.find?_eq_none.mp hf p hp)

/-- A table with a key stored or replaced. -/
theorem Items.overrides_put (hps : ∀ p ∈ ps, IsKey p.1) (hx : IsKey x) (next next' : Int64) :
    (Items.hash ps next).Overrides (.hash (put ps x v) next') x v := by
  have hfound {y : Value} (hy : IsKey y) {p : Value × Val}
      (hf : ps.find? (fun p => p.1.strictEq y) = some p) : p.1 = y :=
    (strictEq_iff (hps p (List.mem_of_find?_eq_some hf)) hy).mp
      (List.find?_some (p := fun p : Value × Val => p.1.strictEq y) hf)
  simp only [put]
  split
  · rename_i hmem
    have hmap (y : Value) : (Items.hash (ps.map fun p => if p.1.strictEq x then (p.1, v) else p)
        next').get y = (ps.find? fun p => p.1.strictEq y).map fun p =>
          if p.1.strictEq x then v else p.2 := by
      have hkeys : (fun p : Value × Val => p.1.strictEq y) ∘
          (fun p : Value × Val => if p.1.strictEq x then (p.1, v) else p) =
            fun p => p.1.strictEq y := by
        funext p
        simp only [Function.comp_apply]
        split <;> rfl
      simp only [Items.get, List.find?_map, hkeys, Option.map_map]
      congr 1
      funext p
      simp only [Function.comp_apply]
      split <;> rfl
    refine ⟨?_, fun y hy hne => ?_⟩
    · obtain ⟨p, hp⟩ := find?_of_hasKey hmem
      rw [hmap, hp, Option.map_some, hfound hx hp, if_pos ((strictEq_iff hx hx).mpr rfl)]
    · rw [hmap]
      simp only [Items.get]
      cases hf : ps.find? fun p => p.1.strictEq y with
      | none => rfl
      | some p =>
        have hno : ¬ p.1.strictEq x = true := by
          rw [hfound hy hf, strictEq_iff hy hx]
          exact hne
        simp only [Option.map_some, if_neg hno]
  · rename_i hmem
    refine ⟨?_, fun y hy hne => ?_⟩
    · have hnone : ps.find? (fun p => p.1.strictEq x) = none := by
        rw [List.find?_eq_none]
        exact fun p hp heq => hmem (List.any_eq_true.mpr ⟨p, hp, heq⟩)
      simp only [Items.get, List.find?_append, hnone, List.find?_singleton,
        if_pos ((strictEq_iff hx hx).mpr rfl), Option.none_or, Option.map_some]
    · have hno : ¬ x.strictEq y = true := by
        rw [strictEq_iff hx hy]
        exact fun heq => hne heq.symm
      simp only [Items.get, List.find?_append, List.find?_singleton, if_neg hno, Option.or_none]

theorem Items.get_dense_index (items : List (Option Val)) {n : Nat} (hn : n < 2 ^ 63) :
    (Items.dense items).get (indexKey n) = items[n]?.join := by
  simp only [Items.get, indexKey, if_neg (not_ofNat_lt_zero hn), toNatClampNeg_ofNat hn]

theorem isKey_entriesOf (items : List (Option Val)) : ∀ p ∈ entriesOf items, IsKey p.1 := by
  intro p hp
  obtain ⟨i, u, -, rfl⟩ := mem_entriesOf.mp hp
  trivial

/-- The entries of a list hold what the list holds. -/
theorem Items.get_entriesOf (hlen : items.length < 2 ^ 31) (hy : IsKey y) (next : Int64) :
    (Items.hash (entriesOf items) next).get y = (Items.dense items).get y := by
  cases hf : (entriesOf items).find? fun p => p.1.strictEq y with
  | some p =>
    have hmem := List.mem_of_find?_eq_some hf
    have hkey : p.1 = y := (strictEq_iff (isKey_entriesOf items p hmem) hy).mp
      (List.find?_some (p := fun p : Value × Val => p.1.strictEq y) hf)
    obtain ⟨i, u, hi, rfl⟩ := mem_entriesOf.mp hmem
    have hlt := (List.getElem?_eq_some_iff.mp hi).1
    subst hkey
    rw [Items.get_dense_index _ (by omega), hi]
    simp only [Items.get, hf]
    rfl
  | none =>
    have hno := List.find?_eq_none.mp hf
    simp only [Items.get, hf, Option.map_none]
    cases y with
    | int j =>
      dsimp only
      split
      · rfl
      · rename_i hneg
        obtain ⟨n, hn, rfl⟩ := exists_index hneg
        rw [toNatClampNeg_ofNat hn]
        cases hi : items[n]?.join with
        | none => rfl
        | some u =>
          have hmem := mem_entriesOf.mpr ⟨n, u, Option.join_eq_some_iff.mp hi, rfl⟩
          exact absurd ((strictEq_iff hy hy).mpr rfl) (hno _ hmem)
    | str bs => rfl
    | null | bool | float | array | object => exact hy.elim

/-- A list that becomes a table for a new key. -/
theorem Items.overrides_promote (hlen : items.length < 2 ^ 31) (hx : IsKey x)
    (hnew : hasKey (entriesOf items) x = false) :
    (Items.dense items).Overrides (.promote items x v) x v := by
  have hput : put (entriesOf items) x v = entriesOf items ++ [(x, v)] := by
    simp [put, hnew]
  have h := Items.overrides_put (v := v) (isKey_entriesOf items) hx 0
    (nextBehind (nextOf (entriesOf items)) x)
  rw [hput] at h
  exact ⟨h.here, fun y hy hne => (h.elsewhere y hy hne).trans (Items.get_entriesOf hlen hy _)⟩

/-- A list with an element stored or replaced. -/
theorem Items.overrides_setAt {n : Nat} (hn : n < 2 ^ 63) :
    (Items.dense items).Overrides (.dense (setAt items n v)) (indexKey n) v := by
  refine ⟨?_, fun y hy hne => ?_⟩
  · rw [Items.get_dense_index _ hn, getElem?_setAt, if_pos rfl]
  · cases y with
    | int j =>
      by_cases hj : j < 0
      · simp only [Items.get, if_pos hj]
      · obtain ⟨k, hk, rfl⟩ := exists_index hj
        have hkn : k ≠ n := fun heq => hne (heq ▸ rfl)
        have h := Items.get_dense_index items hk
        have h' := Items.get_dense_index (setAt items n v) hk
        rw [getElem?_setAt, if_neg hkn] at h'
        exact h'.trans h.symm
    | str bs => rfl
    | null | bool | float | array | object => exact hy.elim

/-- A store under a key changes what is under this key and nothing else. -/
theorem ArrayAt.overrides_set (ha : ArrayAt h a s S) (hx : IsKey x) (v : Val) :
    s.Overrides (s.set x v) x v := by
  cases ha with
  | @hash t c _ ht =>
    have hset : (Items.hash c.pairs c.next).set x v =
        .hash (put c.pairs x v) (nextAfter c.pairs c.next x) := by
      cases x <;> rfl
    have hkeys : ∀ p ∈ c.pairs, IsKey p.1 := by
      intro p hp
      obtain ⟨r, hr, rfl⟩ := List.mem_map.mp hp
      exact (ht.keyed.keys r hr).1
    rw [hset]
    exact Items.overrides_put hkeys hx _ _
  | @dense r cap items _ _ hlen hcap =>
    have hlen : items.length < 2 ^ 31 := by omega
    cases x with
    | int i =>
      rw [Items.set_int, Items.setInt]
      split
      · rename_i hneg
        exact Items.overrides_promote hlen hx (hasKey_negative hlen hneg)
      · rename_i hneg
        obtain ⟨n, hn, rfl⟩ := exists_index hneg
        rw [toNatClampNeg_ofNat hn]
        exact Items.overrides_setAt hn
    | str bs => exact Items.overrides_promote hlen hx hasKey_str
    | null | bool | float | array | object => exact hx.elim

/-- What is under a key is a part. -/
theorem Items.get_mem (hg : s.get x = some v) : ∃ p ∈ s.pairs, p.2 = v := by
  cases s with
  | hash ps next =>
    obtain ⟨p, hp, rfl⟩ := Option.map_eq_some_iff.mp hg
    exact ⟨p, List.mem_of_find?_eq_some hp, rfl⟩
  | dense items =>
    cases x with
    | int i =>
      simp only [Items.get] at hg
      split at hg
      · cases hg
      · exact ⟨_, mem_entriesOf.mpr ⟨_, v, Option.join_eq_some_iff.mp hg, rfl⟩, rfl⟩
    | null | bool | float | str | array | object => cases hg

theorem mem_set_pairs {p : Value × Val} (hx : IsKey x) (hp : p ∈ (s.set x v).pairs) :
    p.2 = v ∨ ∃ q ∈ s.pairs, q.2 = p.2 := by
  cases x with
  | int i => exact mem_setInt_pairs (Items.set_int s i v ▸ hp)
  | str bs =>
    cases s with
    | hash ps next => exact (mem_put hp).imp_right fun hp => ⟨p, hp, rfl⟩
    | dense items =>
      rcases List.mem_append.mp hp with hp | hp
      · exact .inr ⟨p, hp, rfl⟩
      · exact .inl (congrArg Prod.snd (List.mem_singleton.mp hp))
  | null | bool | float | array | object => exact hx.elim

end Maps

/-! ## The way down -/

namespace Values

section Ways

variable {h h' h'' : Heap} (V : Values h) (V' : Values h')

/-- The array that an operand refers to. -/
def arrayOf : Val → Option Nat
  | .ref b =>
    match V.view b with
    | .array _ => some b
    | _ => none
  | _ => none

/-- What the array at a place holds, nothing if there is none. -/
def itemsOf : Option Nat → Items
  | some b =>
    match V.view b with
    | .array s => s
    | _ => .dense []
  | none => .dense []

/-- The array under a key of the array at a place. -/
def below (o : Option Nat) (x : Value) : Option Nat := ((V.itemsOf o).get x).bind V.arrayOf

/-- The arrays on the way down from a place by some keys, none where there is no array. -/
def way : Option Nat → List Value → List (Option Nat)
  | _, [] => []
  | o, x :: xs => o :: way (V.below o x.normalizeKey) xs

/-- All values of a set are in another, made of the same parts. -/
structure Sub : Prop where
  mem : ∀ b, V.mem b → V'.mem b
  view : ∀ b, V.mem b → V'.view b = V.view b

variable {V V'}

theorem Sub.refl (V : Values h) : V.Sub V := ⟨fun _ hb => hb, fun _ _ => rfl⟩

theorem Sub.trans {V'' : Values h''} (h₁ : V.Sub V') (h₂ : V'.Sub V'') : V.Sub V'' :=
  ⟨fun b hb => h₂.mem b (h₁.mem b hb), fun b hb => (h₂.view b (h₁.mem b hb)).trans (h₁.view b hb)⟩

theorem sub_extended (V : Values h) (he : Extends h h') : V.Sub (V.extended he) :=
  ⟨fun _ hb => hb, fun _ _ => rfl⟩

theorem Sub.part (hs : V.Sub V') {u : Val} (hu : Part V.mem u) : Part V'.mem u := by
  cases u with
  | null => trivial
  | ref b => exact hs.mem b hu
  | i32 | i64 | f64 => exact hu

/-- A place without an array, or with one of the set. -/
def Spot (V : Values h) (o : Option Nat) : Prop := ∀ b ∈ o, V.mem b

theorem spot_arrayOf {u : Val} (hu : Part V.mem u) : V.Spot (V.arrayOf u) := by
  intro b hb
  cases u with
  | ref c =>
    simp only [arrayOf] at hb
    split at hb
    · cases hb
      exact hu
    · cases hb
  | null | i32 | i64 | f64 => cases hb

/-- What is under a key of an array is one of the values. -/
theorem part_get {o : Option Nat} {x : Value} {u : Val} (ho : V.Spot o)
    (hu : (V.itemsOf o).get x = some u) : Part V.mem u := by
  obtain ⟨p, hp, rfl⟩ := Items.get_mem hu
  cases o with
  | none => exact absurd hp List.not_mem_nil
  | some b =>
    cases hv : V.view b with
    | array s =>
      simp only [itemsOf, hv] at hp
      exact V.closed b (ho b rfl) _ (by rw [hv]; exact List.mem_map_of_mem hp)
    | plain x | object x =>
      simp only [itemsOf, hv] at hp
      exact absurd hp List.not_mem_nil

theorem spot_below {o : Option Nat} (ho : V.Spot o) (x : Value) : V.Spot (V.below o x) := by
  unfold below
  cases hu : (V.itemsOf o).get x with
  | none => exact fun b hb => by cases hb
  | some u => exact spot_arrayOf (part_get ho hu)

theorem Sub.arrayOf (hs : V.Sub V') {u : Val} (hu : Part V.mem u) : V'.arrayOf u = V.arrayOf u := by
  cases u with
  | ref b => simp only [Values.arrayOf, hs.view b hu]
  | null | i32 | i64 | f64 => rfl

theorem Sub.itemsOf (hs : V.Sub V') {o : Option Nat} (ho : V.Spot o) : V'.itemsOf o = V.itemsOf o := by
  cases o with
  | none => rfl
  | some b => simp only [Values.itemsOf, hs.view b (ho b rfl)]

theorem Sub.below (hs : V.Sub V') {o : Option Nat} (ho : V.Spot o) (x : Value) :
    V'.below o x = V.below o x := by
  unfold Values.below
  rw [hs.itemsOf ho]
  cases hu : (V.itemsOf o).get x with
  | none => rfl
  | some u => exact hs.arrayOf (part_get ho hu)

/-- The way down is the same in every larger set of values. -/
theorem Sub.way (hs : V.Sub V') {o : Option Nat} (ho : V.Spot o) (xs : List Value) :
    V'.way o xs = V.way o xs := by
  induction xs generalizing o with
  | nil => rfl
  | cons x xs ih => rw [Values.way, Values.way, hs.below ho, ih (spot_below ho _)]

@[simp] theorem below_none (V : Values h) (x : Value) : V.below none x = none := by
  have hget : (Items.dense []).get x = none := by
    cases x with
    | int i =>
      simp only [Items.get]
      split <;> rfl
    | null | bool | float | str | array | object => rfl
  simp only [below, itemsOf, hget, Option.bind_none]

end Ways

/-! ## What is found -/

/-- What an operand at a place for an array refers to: one of the arrays, or something else. -/
inductive Finds {h : Heap} (V : Values h) : Val → Option Nat → Prop
  | array {b : Nat} {s : Items} (hb : V.mem b) (hs : V.view b = .array s) : Finds V (.ref b) (some b)
  | unset : Finds V .null none
  | other {b : Nat} {t : Tag} {i : Int64} {x : Float} {y r : Val}
    (hb : h[b]? = some (valueCell t i x y r)) (ht : t ≠ .array) : Finds V (.ref b) none

section Found

variable {h h' : Heap} {V : Values h} {u : Val} {o : Option Nat}

theorem finds_arrayOf (hu : Part V.mem u) : V.Finds u (V.arrayOf u) := by
  cases u with
  | null => exact .unset
  | i32 | i64 | f64 => exact hu.elim
  | ref b =>
    have hv := V.viewed b hu
    cases hview : V.view b with
    | array s =>
      simp only [arrayOf, hview]
      exact .array hu hview
    | plain x | object x =>
      rw [hview] at hv
      obtain ⟨t, i, x, y, r, hb, ht⟩ := Viewed.cell_other (w := ⟨h, #[], 0⟩) hv (by rintro _ ⟨⟩)
      simp only [arrayOf, hview]
      exact .other hb ht

theorem finds_null (hu : Boxed h u .null) : V.Finds u none := by
  cases hu with
  | null hb => exact .other hb (by decide)

theorem Finds.spot (hf : V.Finds u o) : V.Spot o := by
  intro b hb
  cases hf with
  | array hm => exact Option.some.inj hb ▸ hm
  | unset | other => cases hb

theorem itemsOf_some {b : Nat} {s : Items} (hs : V.view b = .array s) : V.itemsOf (some b) = s := by
  simp only [itemsOf, hs]

end Found

end Values

/-! ## The routines -/

section Calls

variable {m : Processor Output} {l : Links} {d k : Nat} {h : Heap} {w : Output} {Q : Post Output}
  {V : Values h} {u : Val} {o : Option Nat}

/-- An array is used as it is, and for anything else a new one is made. -/
theorem arrAutoviv_calls (hi : Installed m l) (hr : Room m d (k + 2)) (hf : V.Finds u o)
    (hq : ∀ b, o = some b → Q.returned [.ref b] h w)
    (hnew : o = none → ∀ h' b, h[b]? = none → Written h [] h' b (.dense []) →
      Q.returned [.ref b] h' w) :
    m.Calls d (l.index .arrAutoviv) [u] h w Q := by
  have hr' := hr.inner
  refine calls_routine hi hr ?_
  cases hf with
  | @array b s hb hs =>
    have hv := V.viewed b hb
    rw [hs] at hv
    cases hv with
    | array ha =>
      obtain ⟨n, r, hc⟩ := ha.cell
      simp [Routine.body, arrAutoviv, Routine.results, hc, valueCell]
      exact hq b rfl
  | unset =>
    simp [Routine.body, arrAutoviv, Routine.results, wp_call_routine hi]
    refine arrNew_written (k := k) hi hr' fun h' b hb hw => ?_
    simp
    exact hnew rfl h' b hb hw
  | @other b t i x y r hb ht =>
    obtain ⟨code, hcode⟩ : ∃ code, t.code = code := ⟨_, rfl⟩
    have hne : code ≠ 5 := by
      rintro rfl
      cases t with
      | array => exact ht rfl
      | null | bool | int | float | string | object => exact absurd hcode (by decide)
    simp only [valueCell, hcode] at hb
    simp [Routine.body, arrAutoviv, Routine.results, hb, hne, wp_call_routine hi]
    refine arrNew_written (k := k) hi hr' fun h' b hb hw => ?_
    simp
    exact hnew rfl h' b hb hw

/-- A read with a value that stands for no key ends the run. -/
theorem arrGet_illegal (hi : Installed m l) (hr : Room m d (k + 3)) {a : Nat} {s : Items}
    {S : List Nat} {x : Value} (ha : ArrayAt h a s S) (hu : Boxed h u x) (hx : ¬ HasKey x)
    (hq : Q.trapped "rt.illegal_offset" .unreachable h w) :
    m.Calls d (l.index .arrGet) [.ref a, u] h w Q := by
  have hr' := hr.inner
  obtain ⟨n, r, hc⟩ := ha.cell
  refine calls_routine hi hr ?_
  simp [Routine.body, arrGet, nullUnlessArray, Routine.results, hc, valueCell, wp_call_routine hi]
  exact normalizeKey_calls hi hr' hu (fun hx' => absurd hx' hx) fun _ => hq

end Calls

end HeapScript.Library
