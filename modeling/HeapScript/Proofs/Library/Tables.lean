import HeapScript.Proofs.Library.Chains

/-!
# The routines on chains

Finding a key, linking an entry and growing a table, each with what it leaves of the chains.
-/

namespace HeapScript.Library

open Machine Machine.Processor Code Execution

variable {m : Processor Output} {l : Links} {d k : Nat} {h : Heap} {w : Output} {Q : Post Output}

/-! ## Keys -/

theorem strictEq_iff {x y : Value} (hx : IsKey x) (hy : IsKey y) : x.strictEq y = true ↔ x = y := by
  cases x with
  | int i =>
    cases y with
    | int j => simp [Value.strictEq]
    | str s => simp [Value.strictEq]
    | _ => exact hy.elim
  | str s =>
    cases y with
    | int j => simp [Value.strictEq]
    | str t => simp [Value.strictEq]
    | _ => exact hy.elim
  | _ => exact hx.elim

theorem toInt32_inj {x y : UInt32} : x.toInt32 = y.toInt32 ↔ x = y := by
  constructor
  · intro h
    have := congrArg Int32.toUInt32 h
    simpa using this
  · rintro rfl
    rfl

/-- The operand for the bucket of a hash. -/
theorem toNat_remU (x : UInt32) {n : Nat} (hn : n < 2 ^ 31) :
    (x % (num n).toUInt32).toNat = x.toNat % n := by
  rw [UInt32.toNat_mod, toNat_num (by omega)]

/-! ## Finding -/

/-- The operand for the entry of a key. -/
def found (rows : List Row) (x : Value) : Val :=
  match rows.find? fun r => r.key.strictEq x with
  | some r => .ref r.addr
  | none => .null

/-- The keys of a table are keys, stand on the heap and differ. -/
structure Keyed (h : Heap) (rows : List Row) : Prop where
  keys : ∀ r ∈ rows, IsKey r.key ∧ Boxed h r.ref r.key
  distinct : (rows.map Row.key).Nodup

theorem found_none {rows : List Row} {x : Value} (hx : IsKey x) (hk : ∀ r ∈ rows, IsKey r.key)
    (hne : ∀ r ∈ rows, r.key ≠ x) : found rows x = .null := by
  have : (rows.find? fun r => r.key.strictEq x) = none := by
    rw [List.find?_eq_none]
    intro r hr
    rw [strictEq_iff (hk r hr) hx]
    exact hne r hr
  rw [found, this]

theorem Keyed.found {rows : List Row} {r : Row} (hr : r ∈ rows) (hk : Keyed h rows) :
    found rows r.key = .ref r.addr := by
  have hkey := (hk.keys r hr).1
  cases hf : rows.find? fun s => s.key.strictEq r.key with
  | none =>
    have := List.find?_eq_none.mp hf r hr
    rw [strictEq_iff hkey hkey] at this
    exact absurd rfl this
  | some s =>
    have hs := List.mem_of_find?_eq_some hf
    have heq : s.key.strictEq r.key = true := List.find?_some (p := fun s : Row => s.key.strictEq r.key) hf
    rw [strictEq_iff (hk.keys s hs).1 hkey] at heq
    rw [Library.found, hf, List.inj_on_of_nodup_map hk.distinct hs hr heq]

section Find

variable {t b n : Nat} {rows : List Row} {u : Val} {x : Value}

attribute [simp] entryAt

@[simp] theorem nests_findStep {n b e next : Nat} : Nests (findStep l n b e next) [] := by
  simp [findStep]

/-- The operand for the entry with an ordinal, if any. -/
def entryFor (rows : List Row) : Option Nat → Val
  | some j => slotFor (rows.map Row.addr) j
  | none => .null

/-- The next entry of a chain, as the slots give it. -/
theorem slot_link (hc : Chained h b n rows) (hn : n ≤ 2 ^ 29) {c i j : Nat}
    (hj : chainFrom (rows.map (Row.bucket n)) c i = some j) :
    ¬ num j < 0 ∧ (num n + num j).toUInt32.toNat = n + j ∧
      (slotsOf n (rows.map (Row.bucket n)) (rows.map Row.addr))[n + j]? =
        some (entryFor rows (some j)) := by
  have hlt : j < n := by
    have h₁ := (chainFrom_lt hj).2
    have h₂ := hc.fits
    rw [List.length_map] at h₁
    omega
  refine ⟨not_num_lt_zero (by omega), ?_, slotsOf_entry _ _ hlt⟩
  rw [num_add, toNat_num (by omega)]

/-- A key that is in no entry before some ordinal, nor in the rest of its chain, is in none. -/
theorem key_absent {i : Nat} (hprev : ∀ j r, j < i → rows[j]? = some r → r.key ≠ x)
    (hnone : chainFrom (rows.map (Row.bucket n)) (x.hashKey.toNat % n) i = none) :
    ∀ r ∈ rows, r.key ≠ x := by
  rintro r hr rfl
  obtain ⟨j, hj⟩ := List.mem_iff_getElem?.mp hr
  rcases Nat.lt_or_ge j i with hlt | hge
  · exact hprev j r hlt hj rfl
  · refine chainFrom_eq_none.mp hnone j hge ?_
    rw [List.getElem?_map, hj]
    rfl

/-- Reading the chain of a key from some ordinal on finds the key, unless it comes before. -/
theorem findStep_round (hi : Installed m l) (hr : Room m d (k + 2)) (hc : Chained h b n rows)
    (hkeys : Keyed h rows) (hn : n ≤ 2 ^ 29) (hu : Boxed h u x) (hx : IsKey x)
    {i : Nat} {z : Val} (hprev : ∀ j r, j < i → rows[j]? = some r → r.key ≠ x)
    (hq : Q.returned [found rows x] h w) :
    Round m ⟨"rt.hash_find", 1, d⟩ (findStep l 3 4 5 6) [.refNull Shape.entry] [] Q []
      ⟨h, w, [.ref t, u, .i32 x.hashKey.toInt32, .i32 (num n), .ref b,
        entryFor rows (chainFrom (rows.map (Row.bucket n)) (x.hashKey.toNat % n) i), z], []⟩ := by
  have absent (hne : ∀ r ∈ rows, r.key ≠ x) : Q.returned [.null] h w := by
    rwa [found_none hx (fun r hr => (hkeys.keys r hr).1) hne] at hq
  -- the rest of the chain gets shorter with every round
  induction hm : rows.length - i using Nat.strong_induction_on generalizing i z with
  | _ rest ih =>
    intro K hK
    cases ho : chainFrom (rows.map (Row.bucket n)) (x.hashKey.toNat % n) i with
    | none =>
      simp [findStep, entryFor, round_leave hK]
      exact absent (key_absent hprev ho)
    | some j =>
      obtain ⟨hij, hj, hbetween⟩ := chainFrom_eq_some.mp ho
      obtain ⟨r, hrow, hb⟩ : ∃ r, rows[j]? = some r ∧ r.bucket n = x.hashKey.toNat % n := by
        simpa using hj
      have hmem : r ∈ rows := List.mem_of_getElem? hrow
      have hcell := hc.cells j r hrow
      rw [hb] at hcell
      have advance (hne : r.key ≠ x) :
          m.wp ⟨"rt.hash_find", 1, d⟩ [.localGet 5, .structGet Shape.entry 3, .localTee 6,
            .i32Const 0, .i32 .ltS, .brIf 1, .localGet 4, .localGet 3, .localGet 6, .i32 .add,
            .arrayGet Shape.buckets, .localSet 5, .br 0] K Q
            ⟨h, w, [.ref t, u, .i32 x.hashKey.toInt32, .i32 (num n), .ref b, .ref r.addr, z], []⟩ := by
        have hprev' : ∀ j' r, j' < j + 1 → rows[j']? = some r → r.key ≠ x := by
          rintro j' r' hj' hr' rfl
          rcases Nat.lt_or_ge j' i with hlt | hge
          · exact hprev j' r' hlt hr' rfl
          rcases Nat.lt_or_ge j' j with hlt | hge'
          · exact hbetween j' hge hlt (by rw [List.getElem?_map, hr']; rfl)
          · obtain rfl : j' = j := by omega
            rw [hrow] at hr'
            cases hr'
            exact hne rfl
        cases hnext : chainFrom (rows.map (Row.bucket n)) (x.hashKey.toNat % n) (j + 1) with
        | none =>
          simp [hcell, Row.cell, hnext, link, round_leave hK]
          exact absent (key_absent hprev' hnext)
        | some j' =>
          obtain ⟨hpos, hsum, hslot⟩ := slot_link hc hn hnext
          simp only [hnext] at hcell
          simp [hcell, Row.cell, link, hpos, hc.slots, -UInt32.toNat_add, -Int32.toUInt32_add, hsum, hslot]
          have hlen : j < rows.length := (List.getElem?_eq_some_iff.mp hrow).1
          have := ih (rows.length - (j + 1)) (by omega) hprev' (z := .i32 (num j')) rfl
          rw [hnext] at this
          exact round_again hK this
      by_cases hhash : r.key.hashKey = x.hashKey
      · simp [findStep, entryFor, slotFor, hrow, hcell, Row.cell, wp_call_routine hi, hhash]
        obtain ⟨hkey, hbox⟩ := hkeys.keys r hmem
        refine keyEq_calls hi hr hbox hu hkey hx ?_
        by_cases heq : r.key = x
        · subst heq
          simp [(strictEq_iff hkey hkey).mpr rfl]
          rwa [hkeys.found hmem] at hq
        · have hne : r.key.strictEq x = false := by
            rw [← Bool.not_eq_true, strictEq_iff hkey hx]
            exact heq
          simp only [hne]
          simpa using advance heq
      · have hne : r.key ≠ x := fun heq => hhash (by rw [heq])
        simp only [findStep, entryFor, slotFor]
        simp [hrow, hcell, Row.cell, toInt32_inj, hhash]
        simpa [hcell, Row.cell] using advance hne

theorem hashFind_calls (hi : Installed m l) (hr : Room m d (k + 3)) (hc : Chained h b n rows)
    (hkeys : Keyed h rows) (hn : 0 < n ∧ n ≤ 2 ^ 29) {c nx : Val}
    (ht : h[t]? = some (.struct Shape.hash #[.ref b, .i32 (num n), c, nx]))
    (hu : Boxed h u x) (hx : IsKey x) (hq : Q.returned [found rows x] h w) :
    m.Calls d (l.index .hashFind) [.ref t, u, .i32 x.hashKey.toInt32] h w Q := by
  have hr' := hr.inner
  refine calls_routine hi hr ?_
  have hn0 : ¬ num n = 0 := by rw [num_eq_zero (by omega)]; omega
  have hb : x.hashKey.toNat % n < n := Nat.mod_lt _ hn.1
  simp [Routine.body, hashFind, Routine.results, ht, hc.slots, hn0, toNat_remU _ (show n < 2 ^ 31 by omega), slotsOf_head hb]
  refine findStep_round hi hr' hc hkeys hn.2 hu hx (i := 0) (by omega) ?_
  exact hq

end Find

/-! ## Linking -/

section Link

variable {t b n : Nat} {rows : List Row} {r : Row}

@[simp] theorem nests_seekStep {n b cur next : Nat} : Nests (seekStep n b cur next) [] := by
  simp [seekStep]

/-- Following a chain from one of its entries leads to the last one. -/
theorem seekStep_round {f : String} {tail : Code} {slots : Array Val} {e o : Val}
    (hs : h[b]? = some (.array Shape.buckets slots)) (hn : n ≤ 2 ^ 29) (hlen : rows.length ≤ n)
    (hslots : ∀ j < rows.length, slots[n + j]? = some (slotFor (rows.map Row.addr) j))
    (hcells : ∀ (i : Nat) (r : Row), rows[i]? = some r →
      h[r.addr]? = some (r.cell (chainFrom (rows.map (Row.bucket n)) (r.bucket n) (i + 1))))
    {i : Nat} {r : Row} (hi : rows[i]? = some r) {bi nx : Val}
    (hq : ∀ j s, rows[j]? = some s → s.bucket n = r.bucket n →
      chainFrom (rows.map (Row.bucket n)) (r.bucket n) (j + 1) = none →
      m.wp ⟨f, 0, d⟩ tail [] Q
        ⟨h, w, [.ref t, e, o, .i32 (num n), .ref b, bi, .ref s.addr, .i32 (-1)], []⟩) :
    Round m ⟨f, 0, d⟩ (seekStep 3 4 6 7) tail [] Q []
      ⟨h, w, [.ref t, e, o, .i32 (num n), .ref b, bi, .ref r.addr, nx], []⟩ := by
  induction hm : rows.length - i using Nat.strong_induction_on generalizing i r nx with
  | _ rest ih =>
    intro K hK
    have hcell := hcells i r hi
    cases hnext : chainFrom (rows.map (Row.bucket n)) (r.bucket n) (i + 1) with
    | none =>
      simp only [hnext] at hcell
      simp [seekStep, hcell, Row.cell, link, round_leave hK]
      exact hq i r hi rfl hnext
    | some j =>
      obtain ⟨hij, hj, -⟩ := chainFrom_eq_some.mp hnext
      obtain ⟨s, hrow, hb⟩ : ∃ s, rows[j]? = some s ∧ s.bucket n = r.bucket n := by
        simpa using hj
      have hjl : j < rows.length := (List.getElem?_eq_some_iff.mp hrow).1
      have hslot := hslots j hjl
      simp only [slotFor, List.getElem?_map, hrow, Option.map_some] at hslot
      have hpos : ¬ num j < 0 := not_num_lt_zero (by omega)
      have hsum : (num n + num j).toUInt32.toNat = n + j := by
        rw [num_add, toNat_num (by omega)]
      simp only [hnext] at hcell
      simp [seekStep, hcell, Row.cell, link, hpos, hs, -UInt32.toNat_add, -Int32.toUInt32_add, hsum, hslot]
      refine round_again hK (ih (rows.length - j) (by omega) hrow ?_ rfl)
      rwa [hb]

theorem hashLink_calls (hi : Installed m l) (hr : Room m d (k + 1)) {c nx : Val}
    (ht : h[t]? = some (.struct Shape.hash #[.ref b, .i32 (num n), c, nx]))
    (hc : Chained h b n rows) (hn : n ≤ 2 ^ 29) (hlen : rows.length < n)
    (hfresh : r.addr ∉ rows.map Row.addr) (hnew : h[r.addr]? = some (r.cell none))
    (hq : ∀ h', Chained h' b n (rows ++ [r]) → Keeps (b :: rows.map Row.addr) h h' →
      Q.returned [] h' w) :
    m.Calls d (l.index .hashLink) [.ref t, .ref r.addr, .i32 (num rows.length)] h w Q := by
  refine calls_routine hi hr ?_
  have hn0 : ¬ num n = 0 := by rw [num_eq_zero (by omega)]; omega
  have hb : r.bucket n < n := Nat.mod_lt _ (by omega)
  have hbi : (r.key.hashKey % (num n).toUInt32).toNat = r.bucket n := toNat_remU _ (by omega)
  have hord : (num n + num rows.length).toUInt32.toNat = n + rows.length := by
    rw [num_add, toNat_num (by omega)]
  have hlt : n + rows.length < 2 * n := by omega
  have hrb : r.addr ≠ b :=
    ne_of_type hnew hc.slots (show Shape.entry ≠ Shape.buckets by decide)
  have haddr (s : Row) (hs : s ∈ rows) : s.addr ≠ r.addr := fun he =>
    hfresh (he ▸ List.mem_map_of_mem hs)
  have hl : (rows.map (Row.bucket n)).length = (rows.map Row.addr).length := by simp
  obtain ⟨h₁, hh₁⟩ : ∃ h₁, h.setElem b (n + rows.length) (.ref r.addr) = h₁ := ⟨_, rfl⟩
  have hs₁ := Heap.setElem_same hc.slots (i := n + rows.length) (v := .ref r.addr)
  rw [hh₁] at hs₁
  have hcells₁ (i : Nat) (s : Row) (hs : rows[i]? = some s) : h₁[s.addr]? =
      some (s.cell (chainFrom (rows.map (Row.bucket n)) (s.bucket n) (i + 1))) := by
    rw [← hh₁, Heap.setElem_other (hc.addr_ne (List.mem_of_getElem? hs))]
    exact hc.cells i s hs
  have hnew₁ : h₁[r.addr]? = some (r.cell none) := by rwa [← hh₁, Heap.setElem_other hrb]
  have hkeep₁ : Keeps (b :: rows.map Row.addr) h h₁ := hh₁ ▸ .setElem (by simp)
  have hhead : ((slotsOf n (rows.map (Row.bucket n)) (rows.map Row.addr)).setIfInBounds
      (n + rows.length) (.ref r.addr))[r.bucket n]? =
        some (headFor (rows.map (Row.bucket n)) (rows.map Row.addr) (r.bucket n)) := by
    rw [Array.getElem?_setIfInBounds_ne (by omega), slotsOf_head hb]
  simp [Routine.body, hashLink, Routine.results, ht, hc.slots, -UInt32.toNat_add,
    -Int32.toUInt32_add, hord, hlt, hi.buckets, stored?, hn0, hbi, hh₁, hnew₁, Row.cell, hs₁, hhead]
  cases hchain : chainFrom (rows.map (Row.bucket n)) (r.bucket n) 0 with
  | none =>
    have hslots := slotsOf_append_head (a := r.addr) hl hb hchain
    rw [List.length_map] at hslots
    have hb2 : r.bucket n < 2 * n := by omega
    simp [headFor, hchain, hb2]
    have hs₂ := Heap.setElem_same hs₁ (i := r.bucket n) (v := .ref r.addr)
    rw [hslots] at hs₂
    refine hq _ (hc.append hlen hfresh hs₂ ?_ fun i s hs => ?_) (hkeep₁.trans (.setElem (by simp)))
    · rw [Heap.setElem_other hrb]
      exact hnew₁
    · have hne : r.bucket n ≠ s.bucket n := fun he =>
        chainFrom_eq_none.mp hchain i (Nat.zero_le _) (by rw [List.getElem?_map, hs, he]; rfl)
      rw [Heap.setElem_other (hc.addr_ne (List.mem_of_getElem? hs)), hcells₁ i s hs, if_neg hne]
      split <;> simp_all
  | some j =>
    have hslots := slotsOf_append (n := n) (a := r.addr) hl hchain
    rw [List.length_map] at hslots
    rw [hslots] at hs₁
    obtain ⟨-, hj, -⟩ := chainFrom_eq_some.mp hchain
    obtain ⟨s, hrow, hsb⟩ : ∃ s, rows[j]? = some s ∧ s.bucket n = r.bucket n := by simpa using hj
    have hjl : j < rows.length := (List.getElem?_eq_some_iff.mp hrow).1
    simp [headFor, hchain, slotFor, hrow]
    refine seekStep_round hs₁ hn (by omega) (fun j hj => ?_) hcells₁ hrow fun j' s' hrow' hb' hlast => ?_
    · rw [slotsOf_entry _ _ (by omega), slotFor_append (by simpa using hj)]
    rw [hsb] at hb' hlast
    have hmem' : s' ∈ rows := List.mem_of_getElem? hrow'
    have hcell' := hcells₁ j' s' hrow'
    rw [hb', hlast] at hcell'
    simp [hcell', Row.cell]
    refine hq _ (hc.append hlen hfresh ?_ ?_ fun i s hs => ?_) (hkeep₁.trans (.setField ?_))
    · rw [Heap.setField_other (hc.addr_ne hmem').symm, hs₁]
    · rw [Heap.setField_other (haddr s' hmem').symm, hnew₁]
    · by_cases hij : i = j'
      · subst hij
        rw [hrow'] at hs
        cases hs
        rw [Heap.setField_same hcell', hb', hlast, if_pos rfl]
        rfl
      · rw [Heap.setField_other fun ha => hij (hc.row_eq hs hrow' ha), hcells₁ i s hs]
        cases hnext : chainFrom (rows.map (Row.bucket n)) (s.bucket n) (i + 1) with
        | some => rfl
        | none =>
          have hne : r.bucket n ≠ s.bucket n := by
            intro he
            rw [← he] at hnext
            exact hij (chainFrom_last_unique (by simp [hs, he]) (by simp [hrow', hb']) hnext hlast)
          rw [if_neg hne]
    · exact List.mem_cons_of_mem _ (List.mem_map_of_mem hmem')

end Link

/-! ## Growing -/

section Grow

variable {t b n : Nat} {rows : List Row} {next : Int64}

def tableCell (b n count : Nat) (next : Int64) : Cell :=
  .struct Shape.hash #[.ref b, .i32 (num n), .i32 (num count), .i64 next]

theorem num_shl_one (n : Nat) :
    (num n).toUInt32 <<< (Int32.toUInt32 1 % 32) = (num (2 * n)).toUInt32 := by
  apply UInt32.toNat_inj.mp
  have h1 : (Int32.toUInt32 1 % 32).toNat = 1 := rfl
  simp only [num, UInt32.toNat_shiftLeft, h1, Nat.shiftLeft_eq, Int32.toUInt32_ofNat', UInt32.toNat_ofNat',
    Nat.reduceMod, Nat.reducePow]
  omega

@[simp] theorem nests_relinkStep {old n cnt i e : Nat} : Nests (relinkStep l old n cnt i e) [] := by
  simp [relinkStep]

/-- An entry is not among those before it. -/
theorem addr_not_mem_take (hd : (rows.map Row.addr).Nodup) {i j : Nat} {r : Row}
    (hr : rows[j]? = some r) (hij : i ≤ j) : r.addr ∉ (rows.take i).map Row.addr := by
  intro hm
  rw [List.map_take] at hm
  obtain ⟨k, hk⟩ := List.mem_iff_getElem?.mp hm
  have hki : k < i := by
    have := (List.getElem?_eq_some_iff.mp hk).1
    rw [List.length_take] at this
    omega
  rw [List.getElem?_take_of_lt hki] at hk
  have hlt := (List.getElem?_eq_some_iff.mp hk).1
  have hkj : k = j := (List.getElem?_inj hlt hd).mp (by rw [hk, List.getElem?_map, hr]; rfl)
  omega

theorem map_take_subset (rows : List Row) (i : Nat) :
    (rows.take i).map Row.addr ⊆ rows.map Row.addr := by
  rw [List.map_take]
  exact List.take_subset ..

/-- The entries of the old slots are linked into the new ones, one after the other. -/
theorem relinkStep_round (hi : Installed m l) (hr : Room m d (k + 1)) {f : String} {b' : Nat}
    (hn : 2 * n ≤ 2 ^ 29) (hfits : rows.length ≤ n)
    (hdis : (t :: b :: b' :: rows.map Row.addr).Nodup) (hb' : h[b']? = none)
    {H : Heap} {i : Nat} {e : Val} (hil : i ≤ rows.length)
    (ht : H[t]? = some (tableCell b' (2 * n) rows.length next))
    (hold : H[b]? = some (.array Shape.buckets
      (slotsOf n (rows.map (Row.bucket n)) (rows.map Row.addr))))
    (hc : Chained H b' (2 * n) (rows.take i))
    (hrest : ∀ j r, i ≤ j → rows[j]? = some r → ∃ o, H[r.addr]? = some (r.cell o))
    (hk : Keeps (t :: rows.map Row.addr) h H)
    (hq : ∀ h', h'[t]? = some (tableCell b' (2 * n) rows.length next) → Chained h' b' (2 * n) rows →
      Keeps (t :: rows.map Row.addr) h h' → Q.returned [] h' w) :
    Round m ⟨f, 0, d⟩ (relinkStep l 1 2 3 5 6) [] [] Q []
      ⟨H, w, [.ref t, .ref b, .i32 (num n), .i32 (num rows.length), .i32 (num (2 * n)),
        .i32 (num i), e], []⟩ := by
  simp only [List.nodup_cons, List.mem_cons, not_or] at hdis
  obtain ⟨⟨-, htb', htr⟩, ⟨hbb', hbr⟩, hb'r, hnodup⟩ := hdis
  induction hm : rows.length - i generalizing i H e with
  | zero =>
    obtain rfl : i = rows.length := by omega
    intro K hK
    simp [relinkStep, round_leave hK]
    rw [List.take_length] at hc
    exact hq H ht hc hk
  | succ j ih =>
    intro K hK
    have hlt : i < rows.length := by omega
    obtain ⟨r, hrow⟩ : ∃ r, rows[i]? = some r := ⟨_, List.getElem?_eq_getElem hlt⟩
    have hmem : r.addr ∈ rows.map Row.addr := List.mem_map_of_mem (List.mem_of_getElem? hrow)
    obtain ⟨o, hcell⟩ := hrest i r (Nat.le_refl i) hrow
    have hle : ¬ num rows.length ≤ num i := by rw [num_le_num (by omega) (by omega)]; omega
    have hsum : (num n + num i).toUInt32.toNat = n + i := by rw [num_add, toNat_num (by omega)]
    have hslot := slotsOf_entry (rows.map (Row.bucket n)) (rows.map Row.addr)
      (show i < n by omega)
    simp only [slotFor, List.getElem?_map, hrow, Option.map_some] at hslot
    simp [relinkStep, hle, hold, -UInt32.toNat_add, -Int32.toUInt32_add, hsum, hslot, hcell,
      Row.cell, wp_call_routine hi]
    -- the entry is cut off from its old chain before it is linked
    obtain ⟨H₁, hH₁⟩ : ∃ H₁, H.setField r.addr 3 (.i32 (-1)) = H₁ := ⟨_, rfl⟩
    rw [hH₁]
    have hk₁ : Keeps [r.addr] H H₁ := hH₁ ▸ .setField (by simp)
    have hnew : H₁[r.addr]? = some (r.cell none) := by
      rw [← hH₁, Heap.setField_same hcell]
      rfl
    have hfresh := addr_not_mem_take hnodup hrow (Nat.le_refl i)
    have hc₁ : Chained H₁ b' (2 * n) (rows.take i) := by
      refine hc.keeps hk₁ ?_ fun s hs => ?_ <;> rw [List.mem_singleton]
      · exact fun he => hb'r (he ▸ hmem)
      · exact fun he => hfresh (he ▸ List.mem_map_of_mem hs)
    have ht₁ := hk₁ _ _ ht (by rw [List.mem_singleton]; exact fun he => htr (he ▸ hmem))
    have hleni : (rows.take i).length = i := by rw [List.length_take]; omega
    have hsucc : rows.take i ++ [r] = rows.take (i + 1) := by
      rw [List.take_add_one, hrow]
      rfl
    have hlinks := hashLink_calls (w := w) (r := r) hi hr ht₁ hc₁ hn (by omega) hfresh hnew
      (Q := resume m ⟨f, 0, d⟩ [.localGet 5, .i32Const 1, .i32 .add, .localSet 5, .br 0] K Q
        [.ref t, .ref b, .i32 (num n), .i32 (num rows.length), .i32 (num (2 * n)), .i32 (num i),
          .ref r.addr] [])
    rw [hleni, hsucc] at hlinks
    refine hlinks fun h' hc' hk' => ?_
    have hkeep : Keeps (b' :: (rows.take (i + 1)).map Row.addr) H h' := by
      rw [← hsucc, List.map_append, List.map_singleton]
      exact (hk₁.mono (by simp)).trans (hk'.mono (by simp))
    have hsub := map_take_subset rows (i + 1)
    simp
    refine round_again hK (ih (by omega) (hkeep _ _ ht ?_) (hkeep _ _ hold ?_) hc'
      (fun j s hj hs => ?_) (hk.step hkeep fun a ha => ?_) (by omega))
    · rw [List.mem_cons, not_or]
      exact ⟨htb', fun ha => htr (hsub ha)⟩
    · rw [List.mem_cons, not_or]
      exact ⟨hbb', fun ha => hbr (hsub ha)⟩
    · obtain ⟨o, ho⟩ := hrest j s (by omega) hs
      refine ⟨o, hkeep _ _ ho ?_⟩
      rw [List.mem_cons, not_or]
      refine ⟨fun he => hb'r (he ▸ List.mem_map_of_mem (List.mem_of_getElem? hs)), ?_⟩
      exact addr_not_mem_take hnodup hs hj
    · rcases List.mem_cons.mp ha with rfl | ha
      · exact .inr hb'
      · exact .inl (List.mem_cons_of_mem _ (hsub ha))

theorem chained_nil (hs : h[b]? = some (.array Shape.buckets (Array.replicate (2 * n) .null))) :
    Chained h b n [] where
  slots := by rw [hs, ← slotsOf_nil]; rfl
  cells i r hi := by cases hi
  nodup := List.nodup_nil
  fits := Nat.zero_le n

theorem hashNew_calls (hi : Installed m l) (hr : Room m d (k + 1)) (hn : n ≤ 2 ^ 29)
    (hq : ∀ h', Extends h h' → h'[h.size + 1]? = some (tableCell h.size n 0 0) →
      Chained h' h.size n [] → Q.returned [.ref (h.size + 1)] h' w) :
    m.Calls d (l.index .hashNew) [.i32 (num n)] h w Q := by
  refine calls_routine hi hr ?_
  have hpos : ¬ num (2 * n) < 0 := not_num_lt_zero (by omega)
  simp [Routine.body, hashNew, Routine.results, num_shl_one, hpos, hi.buckets, hi.hash,
    toNatClampNeg_num (show 2 * n < 2 ^ 31 by omega)]
  refine hq _ ((Extends.push _ _).trans (.push _ _)) (getElem?_push_at (by simp) _) ?_
  exact chained_nil (Extends.push _ _ _ _ (getElem?_push_size _ _))

theorem hashGrow_calls (hi : Installed m l) (hr : Room m d (k + 2))
    (ht : h[t]? = some (tableCell b n rows.length next)) (hc : Chained h b n rows)
    (hn : 2 * n ≤ 2 ^ 29)
    (hq : ∀ h', h'[t]? = some (tableCell h.size (2 * n) rows.length next) →
      Chained h' h.size (2 * n) rows → Keeps (t :: rows.map Row.addr) h h' → Q.returned [] h' w) :
    m.Calls d (l.index .hashGrow) [.ref t] h w Q := by
  have hr' := hr.inner
  refine calls_routine hi hr ?_
  have hpos : ¬ num (2 * (2 * n)) < 0 := not_num_lt_zero (by omega)
  have hfresh : h[h.size]? = none := by simp
  have htr (r : Row) (hr : r ∈ rows) : t ≠ r.addr := by
    obtain ⟨i, hi⟩ := List.mem_iff_getElem?.mp hr
    exact ne_of_type ht (hc.cells i r hi) (show Shape.hash ≠ Shape.entry by decide)
  obtain ⟨h₁, hh₁⟩ : ∃ h₁ : Heap, Array.push h (.array Shape.buckets
    (Array.replicate (2 * (2 * n)) .null)) = h₁ := ⟨_, rfl⟩
  have hext : Extends h h₁ := hh₁ ▸ .push h _
  have ht₁ := hext _ _ ht
  obtain ⟨h₂, hh₂⟩ : ∃ h₂ : Heap, h₁.setField t 0 (.ref h.size) = h₂ := ⟨_, rfl⟩
  have ht₂ : h₂[t]? = some (tableCell h.size n rows.length next) := by
    rw [← hh₂, Heap.setField_same ht₁]
    rfl
  obtain ⟨h₃, hh₃⟩ : ∃ h₃ : Heap, h₂.setField t 1 (.i32 (num (2 * n))) = h₃ := ⟨_, rfl⟩
  have ht₃ : h₃[t]? = some (tableCell h.size (2 * n) rows.length next) := by
    rw [← hh₃, Heap.setField_same ht₂]
    rfl
  simp only [tableCell] at ht ht₁ ht₂
  simp [Routine.body, hashGrow, Routine.results, num_shl_one, hpos, hi.buckets, ht,
    toNatClampNeg_num (show 2 * (2 * n) < 2 ^ 31 by omega), hh₁, ht₁, hh₂, ht₂, hh₃]
  have hset : Keeps [t] h₁ h₃ := by
    rw [← hh₃, ← hh₂]
    exact (Keeps.setField (by simp)).trans (.setField (by simp))
  have hsize : t ≠ h.size := ne_size ht
  have htb : t ≠ b := ne_of_type ht hc.slots (show Shape.hash ≠ Shape.buckets by decide)
  have hdis : (t :: b :: h.size :: rows.map Row.addr).Nodup := by
    simp only [List.nodup_cons, List.mem_cons, List.mem_map, not_or, not_exists, not_and]
    refine ⟨⟨htb, hsize, fun r hr => (htr r hr).symm⟩,
      ⟨ne_size hc.slots, fun r hr => hc.addr_ne hr⟩, fun r hr => ?_, hc.nodup⟩
    obtain ⟨i, hi⟩ := List.mem_iff_getElem?.mp hr
    exact ne_size (hc.cells i r hi)
  rw [← List.append_nil (forever _), wp_forever (by simp)]
  refine relinkStep_round hi hr' hn hc.fits hdis hfresh (i := 0) (Nat.zero_le _) ht₃
    (hset _ _ (hext _ _ hc.slots) (by simpa using htb.symm)) (chained_nil ?_) (fun j r _ hj => ?_) ?_ hq
  · refine hset _ _ ?_ (by simpa using hsize.symm)
    rw [← hh₁, getElem?_push_size]
  · have hr : r ∈ rows := List.mem_of_getElem? hj
    exact ⟨_, hset _ _ (hext _ _ (hc.cells j r hj)) (by simpa using (htr r hr).symm)⟩
  · exact (Keeps.of_extends hext).trans (hset.mono (by simp))

/-- A table with the largest number of buckets is not grown: twice as many have more slots than an
array can have. -/
theorem hashGrow_traps (hi : Installed m l) (hr : Room m d (k + 2)) {count : Nat}
    (ht : h[t]? = some (tableCell b n count next)) (hn : 2 ^ 29 ≤ n) (hmax : n < 2 ^ 30)
    (hq : ∀ f, Q.trapped f .negativeLength h w) :
    m.Calls d (l.index .hashGrow) [.ref t] h w Q := by
  refine calls_routine hi hr ?_
  have hneg : num (2 * (2 * n)) < 0 := num_lt_zero (by omega) (by omega)
  simp only [tableCell] at ht
  simp [Routine.body, hashGrow, Routine.results, num_shl_one, hneg, ht]
  exact hq _

end Grow

end HeapScript.Library
