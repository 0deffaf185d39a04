import HeapScript.Proofs.Library.Keys

/-!
# The chains of a hash table

A table keeps its entries in insertion order and links those of one bucket in that order. Where the
chains start and how they go on is fixed by the buckets of the entries alone.
-/

namespace HeapScript.Library

open Machine Machine.Processor Code Execution

/-! ## Addresses -/

section Addresses

variable {h : Heap} {a b : Nat} {c c' : Cell}

/-- The address of a cell is not that of the next one. -/
theorem ne_size (ha : h[a]? = some c) : a ≠ h.size := by
  rintro rfl
  rw [Array.getElem?_eq_none (Nat.le_refl _)] at ha
  cases ha

/-- Cells of different types are different cells. -/
theorem ne_of_type (ha : h[a]? = some c) (hb : h[b]? = some c') (hne : c.type ≠ c'.type) : a ≠ b := by
  rintro rfl
  rw [ha] at hb
  exact hne (congrArg Cell.type (Option.some.inj hb))

end Addresses

/-! ## Ordinals -/

section Ordinals

variable {bs : List Nat} {b c i j : Nat}

/-- The first ordinal of a bucket from some ordinal on, given the buckets of all entries. -/
def chainFrom (bs : List Nat) (b i : Nat) : Option Nat :=
  ((bs.drop i).findIdx? (· == b)).map (i + ·)

theorem chainFrom_eq_some : chainFrom bs b i = some j ↔
    i ≤ j ∧ bs[j]? = some b ∧ ∀ k, i ≤ k → k < j → bs[k]? ≠ some b := by
  simp only [chainFrom, Option.map_eq_some_iff, List.findIdx?_eq_some_iff_findIdx_eq]
  constructor
  · rintro ⟨k, ⟨hlt, rfl⟩, rfl⟩
    refine ⟨Nat.le_add_right _ _, ?_, fun k hik hk => ?_⟩
    · have h := List.findIdx_getElem (w := hlt)
      rw [beq_iff_eq, List.getElem_drop] at h
      rw [List.length_drop] at hlt
      rw [List.getElem?_eq_getElem (by omega), h]
    · have hk' : k - i < (bs.drop i).findIdx (· == b) := by omega
      have h := List.not_of_lt_findIdx hk'
      intro hb
      obtain ⟨hlt', rfl⟩ := List.getElem?_eq_some_iff.mp hb
      rw [List.getElem_drop] at h
      simp [Nat.add_sub_cancel' hik] at h
  · rintro ⟨hij, hj, hall⟩
    obtain ⟨hlt, hb⟩ := List.getElem?_eq_some_iff.mp hj
    refine ⟨j - i, ⟨?_, ?_⟩, by omega⟩
    · rw [List.length_drop]
      omega
    · rw [List.findIdx_eq (by rw [List.length_drop]; omega)]
      refine ⟨by simp [Nat.add_sub_cancel' hij, hb], fun k hk => ?_⟩
      have h := hall (i + k) (Nat.le_add_right _ _) (by omega)
      rw [List.getElem?_eq_getElem (by omega)] at h
      simpa using h

theorem chainFrom_eq_none : chainFrom bs b i = none ↔ ∀ k, i ≤ k → bs[k]? ≠ some b := by
  constructor
  · intro h k hik hk
    have hmem : b ∈ bs.drop i := by
      refine List.mem_of_getElem? (i := k - i) ?_
      rw [List.getElem?_drop, Nat.add_sub_cancel' hik, hk]
    simp only [chainFrom, Option.map_eq_none_iff, List.findIdx?_eq_none_iff] at h
    simpa using h b hmem
  · intro h
    cases hc : chainFrom bs b i with
    | none => rfl
    | some j =>
      obtain ⟨hij, hj, -⟩ := chainFrom_eq_some.mp hc
      exact absurd hj (h j hij)

theorem chainFrom_lt (h : chainFrom bs b i = some j) : i ≤ j ∧ j < bs.length := by
  obtain ⟨hij, hj, -⟩ := chainFrom_eq_some.mp h
  exact ⟨hij, (List.getElem?_eq_some_iff.mp hj).1⟩

/-- An entry that is appended comes last in its chain. -/
theorem chainFrom_append (hi : i ≤ bs.length) :
    chainFrom (bs ++ [c]) b i =
      match chainFrom bs b i with
      | some j => some j
      | none => if c = b then some bs.length else none := by
  cases h : chainFrom bs b i with
  | some j =>
    obtain ⟨hij, hj, hall⟩ := chainFrom_eq_some.mp h
    have hlt := (chainFrom_lt h).2
    refine chainFrom_eq_some.mpr ⟨hij, ?_, fun k hik hk => ?_⟩
    · rw [List.getElem?_append_left hlt, hj]
    · rw [List.getElem?_append_left (by omega)]
      exact hall k hik hk
  | none =>
    have hall := chainFrom_eq_none.mp h
    dsimp only
    split
    · rename_i hc
      refine chainFrom_eq_some.mpr ⟨hi, by simp [hc], fun k hik hk => ?_⟩
      rw [List.getElem?_append_left hk]
      exact hall k hik
    · rename_i hc
      refine chainFrom_eq_none.mpr fun k hik hk => ?_
      rcases Nat.lt_or_ge k bs.length with hlt | hge
      · rw [List.getElem?_append_left hlt] at hk
        exact hall k hik hk
      · rw [List.getElem?_append_right hge] at hk
        simp only [List.getElem?_singleton, Option.ite_none_right_eq_some, Option.some.injEq] at hk
        exact hc hk.2

/-- A chain has one last entry. -/
theorem chainFrom_last_unique (hi : bs[i]? = some b) (hj : bs[j]? = some b)
    (hil : chainFrom bs b (i + 1) = none) (hjl : chainFrom bs b (j + 1) = none) : i = j := by
  rcases Nat.lt_trichotomy i j with hlt | heq | hgt
  · exact absurd hj (chainFrom_eq_none.mp hil j hlt)
  · exact heq
  · exact absurd hi (chainFrom_eq_none.mp hjl i hgt)

/-- The field of an entry that leads to the next one. -/
def link : Option Nat → Int32
  | some j => num j
  | none => -1

end Ordinals

/-! ## Slots -/

section Slots

variable {bs addrs : List Nat} {n k b : Nat}

/-- The slot for the entry with some ordinal. -/
def slotFor (addrs : List Nat) (k : Nat) : Val :=
  match addrs[k]? with
  | some a => .ref a
  | none => .null

/-- The slot for the head of a chain. -/
def headFor (bs addrs : List Nat) (b : Nat) : Val :=
  match chainFrom bs b 0 with
  | some j => slotFor addrs j
  | none => .null

/-- The slots of a table with some number of buckets, given the buckets and the addresses of its
entries. -/
def slotsOf (n : Nat) (bs addrs : List Nat) : Array Val :=
  ((List.range n).map (headFor bs addrs) ++ (List.range n).map (slotFor addrs)).toArray

@[simp] theorem size_slotsOf : (slotsOf n bs addrs).size = 2 * n := by
  simp [slotsOf]
  omega

theorem slotsOf_head (hb : b < n) : (slotsOf n bs addrs)[b]? = some (headFor bs addrs b) := by
  rw [slotsOf, List.getElem?_toArray, List.getElem?_append_left (by simpa using hb)]
  simp [hb]

theorem slotsOf_entry (bs addrs : List Nat) (hk : k < n) :
    (slotsOf n bs addrs)[n + k]? = some (slotFor addrs k) := by
  rw [slotsOf, List.getElem?_toArray, List.getElem?_append_right (by simp)]
  simp [hk]

/-- An array that has the right heads and the right entries is that of the slots. -/
theorem eq_slotsOf {slots : Array Val} (hs : slots.size = 2 * n)
    (hh : ∀ b < n, slots[b]? = some (headFor bs addrs b))
    (he : ∀ k < n, slots[n + k]? = some (slotFor addrs k)) : slots = slotsOf n bs addrs := by
  apply Array.ext_getElem?
  intro k
  rcases Nat.lt_or_ge k n with hk | hk
  · rw [hh k hk, slotsOf_head hk]
  · rcases Nat.lt_or_ge k (2 * n) with hk' | hk'
    · have hkn : n + (k - n) = k := by omega
      have := he (k - n) (by omega)
      have h' := slotsOf_entry bs addrs (show k - n < n by omega)
      rw [hkn] at this h'
      rw [this, h']
    · rw [Array.getElem?_eq_none (by omega), Array.getElem?_eq_none (by simpa using hk')]

theorem slotsOf_nil : slotsOf n [] [] = Array.replicate (2 * n) .null := by
  symm
  apply eq_slotsOf (by simp)
  · intro b hb
    have : b < 2 * n := by omega
    simp [headFor, chainFrom, this]
  · intro k hk
    have : n + k < 2 * n := by omega
    simp [slotFor, this]

theorem slotFor_append {a : Nat} (hk : k < addrs.length) :
    slotFor (addrs ++ [a]) k = slotFor addrs k := by
  rw [slotFor, slotFor, List.getElem?_append_left hk]

theorem slotFor_length (addrs : List Nat) (a : Nat) :
    slotFor (addrs ++ [a]) addrs.length = .ref a := by
  simp [slotFor]

/-- The heads of the chains after an entry is appended: only an empty chain gets a new head. -/
theorem headFor_append {a c : Nat} (hl : bs.length = addrs.length) :
    headFor (bs ++ [c]) (addrs ++ [a]) b =
      if chainFrom bs b 0 = none ∧ c = b then .ref a else headFor bs addrs b := by
  rw [headFor, headFor, chainFrom_append (Nat.zero_le _)]
  cases h : chainFrom bs b 0 with
  | some j =>
    have hj := (chainFrom_lt h).2
    simp [slotFor_append (show j < addrs.length by omega)]
  | none =>
    by_cases hc : c = b
    · simp [hc, hl, slotFor_length]
    · simp [hc]

/-- The entries after one is appended. -/
theorem slotFor_append_eq {a : Nat} :
    slotFor (addrs ++ [a]) k = if k = addrs.length then .ref a else slotFor addrs k := by
  split
  · rename_i hk
    rw [hk, slotFor_length]
  · rename_i hk
    rcases Nat.lt_or_ge k addrs.length with hlt | hge
    · exact slotFor_append hlt
    · rw [slotFor, slotFor, List.getElem?_eq_none (by simp; omega), List.getElem?_eq_none hge]

/-- Appending an entry to a chain that is not empty stores it behind the other entries. -/
theorem slotsOf_append {a c j : Nat} (hl : bs.length = addrs.length)
    (hc : chainFrom bs c 0 = some j) :
    (slotsOf n bs addrs).setIfInBounds (n + addrs.length) (.ref a) =
      slotsOf n (bs ++ [c]) (addrs ++ [a]) := by
  apply eq_slotsOf
  · simp
  · intro b hb
    rw [Array.getElem?_setIfInBounds_ne (by omega), slotsOf_head hb, headFor_append hl, if_neg]
    rintro ⟨hnone, rfl⟩
    rw [hc] at hnone
    cases hnone
  · intro k hk
    rw [slotFor_append_eq]
    split
    · rename_i hk'
      rw [hk', Array.getElem?_setIfInBounds_self_of_lt (by simp; omega)]
    · rw [Array.getElem?_setIfInBounds_ne (by omega), slotsOf_entry _ _ hk]

/-- Appending an entry to an empty chain also makes it the head. -/
theorem slotsOf_append_head {a c : Nat} (hl : bs.length = addrs.length) (hcn : c < n)
    (hc : chainFrom bs c 0 = none) :
    ((slotsOf n bs addrs).setIfInBounds (n + addrs.length) (.ref a)).setIfInBounds c (.ref a) =
      slotsOf n (bs ++ [c]) (addrs ++ [a]) := by
  apply eq_slotsOf
  · simp
  · intro b hb
    rw [headFor_append hl]
    split
    · rename_i hb'
      rw [← hb'.2, Array.getElem?_setIfInBounds_self_of_lt (by simp; omega)]
    · rename_i hb'
      have hcb : c ≠ b := by
        rintro rfl
        exact hb' ⟨hc, rfl⟩
      rw [Array.getElem?_setIfInBounds_ne hcb, Array.getElem?_setIfInBounds_ne (by omega),
        slotsOf_head hb]
  · intro k hk
    rw [slotFor_append_eq, Array.getElem?_setIfInBounds_ne (by omega)]
    split
    · rename_i hk'
      rw [hk', Array.getElem?_setIfInBounds_self_of_lt (by simp; omega)]
    · rw [Array.getElem?_setIfInBounds_ne (by omega), slotsOf_entry _ _ hk]

end Slots

/-! ## Entries -/

/-- An entry: its address, the operands for its key and its value, and the key. -/
structure Row where
  addr : Nat
  ref : Val
  key : Value
  value : Val

def Row.bucket (n : Nat) (r : Row) : Nat := r.key.hashKey.toNat % n

/-- The record of an entry that is followed by another one of its chain. -/
def Row.cell (r : Row) (next : Option Nat) : Cell :=
  .struct Shape.entry #[r.ref, r.value, .i32 r.key.hashKey.toInt32, .i32 (link next)]

/-- The slots and entries of a table with some number of buckets are on the heap. -/
structure Chained (h : Heap) (b n : Nat) (rows : List Row) : Prop where
  slots : h[b]? = some (.array Shape.buckets (slotsOf n (rows.map (Row.bucket n)) (rows.map Row.addr)))
  cells : ∀ (i : Nat) (r : Row), rows[i]? = some r →
    h[r.addr]? = some (r.cell (chainFrom (rows.map (Row.bucket n)) (r.bucket n) (i + 1)))
  nodup : (rows.map Row.addr).Nodup
  fits : rows.length ≤ n

section Append

variable {h : Heap} {b n : Nat} {rows : List Row}

/-- Entries and slots are different cells. -/
theorem Chained.addr_ne (hc : Chained h b n rows) {r : Row} (hr : r ∈ rows) : r.addr ≠ b := by
  obtain ⟨i, hi⟩ := List.mem_iff_getElem?.mp hr
  exact ne_of_type (hc.cells i r hi) hc.slots (show Shape.entry ≠ Shape.buckets by decide)

theorem Chained.row_eq (hc : Chained h b n rows) {i j : Nat} {r s : Row} (hr : rows[i]? = some r)
    (hs : rows[j]? = some s) (ha : r.addr = s.addr) : i = j := by
  have hi : i < (rows.map Row.addr).length := by
    rw [List.length_map]
    exact (List.getElem?_eq_some_iff.mp hr).1
  refine (List.getElem?_inj hi hc.nodup).mp ?_
  rw [List.getElem?_map, List.getElem?_map, hr, hs, Option.map_some, Option.map_some, ha]

/-- An entry that is appended has nothing behind it. -/
theorem chainFrom_last (bs : List Nat) (c b : Nat) :
    chainFrom (bs ++ [c]) b (bs.length + 1) = none := by
  refine chainFrom_eq_none.mpr fun k hk => ?_
  rw [List.getElem?_eq_none (by simp; omega)]
  exact nofun

/-- The heap of a table after an entry was appended to its chains: the slots are those of the longer
list, and the entries lead on as the longer list says. -/
theorem Chained.append {h' : Heap} {r : Row} (hc : Chained h b n rows) (hlen : rows.length < n)
    (hfresh : r.addr ∉ rows.map Row.addr)
    (hslots : h'[b]? = some (.array Shape.buckets
      (slotsOf n (rows.map (Row.bucket n) ++ [r.bucket n]) (rows.map Row.addr ++ [r.addr]))))
    (hnew : h'[r.addr]? = some (r.cell none))
    (hcells : ∀ (i : Nat) (s : Row), rows[i]? = some s →
      h'[s.addr]? = some (s.cell (match chainFrom (rows.map (Row.bucket n)) (s.bucket n) (i + 1) with
        | some j => some j
        | none => if r.bucket n = s.bucket n then some rows.length else none))) :
    Chained h' b n (rows ++ [r]) where
  slots := by simpa using hslots
  cells i s hs := by
    rcases Nat.lt_or_ge i rows.length with hlt | hge
    · rw [List.getElem?_append_left hlt] at hs
      rw [hcells i s hs, List.map_append, List.map_singleton,
        chainFrom_append (by simpa using hlt), List.length_map]
    · rw [List.getElem?_append_right hge] at hs
      obtain ⟨hi, rfl⟩ : i - rows.length = 0 ∧ r = s := by
        simpa [List.getElem?_singleton] using hs
      obtain rfl : i = rows.length := by omega
      have hlast := chainFrom_last (rows.map (Row.bucket n)) (r.bucket n) (r.bucket n)
      rw [List.length_map] at hlast
      rw [hnew, List.map_append, List.map_singleton, hlast]
  nodup := by
    rw [List.map_append, List.map_singleton]
    exact hc.nodup.append (List.nodup_singleton _) (by simpa using hfresh)
  fits := by
    rw [List.length_append, List.length_singleton]
    omega

end Append

/-! ## Frames -/

/-- All cells outside of some addresses are still there. -/
def Keeps (S : List Nat) (h h' : Heap) : Prop :=
  ∀ (a : Nat) (c : Cell), h[a]? = some c → a ∉ S → h'[a]? = some c

namespace Keeps

variable {S S' : List Nat} {h h' h'' : Heap}

theorem refl (S : List Nat) (h : Heap) : Keeps S h h := fun _ _ hc _ => hc

theorem trans (h₁ : Keeps S h h') (h₂ : Keeps S h' h'') : Keeps S h h'' :=
  fun a c hc hs => h₂ a c (h₁ a c hc hs) hs

theorem mono (h₁ : Keeps S h h') (hs : S ⊆ S') : Keeps S' h h' :=
  fun a c hc ha => h₁ a c hc fun hm => ha (hs hm)

theorem of_extends (h₁ : Extends h h') : Keeps S h h' := fun a c hc _ => h₁ a c hc

theorem setField {a i : Nat} {v : Val} (ha : a ∈ S) : Keeps S h (h.setField a i v) := by
  intro b c hc hb
  have hne : b ≠ a := fun he => hb (he ▸ ha)
  rwa [Heap.setField_other hne]

theorem setElem {a i : Nat} {v : Val} (ha : a ∈ S) : Keeps S h (h.setElem a i v) := by
  intro b c hc hb
  have hne : b ≠ a := fun he => hb (he ▸ ha)
  rwa [Heap.setElem_other hne]

/-- An address without a cell had none before, or what was there may have changed. -/
theorem fresh (hk : Keeps S h h') {a : Nat} (ha : h'[a]? = none) : a ∈ S ∨ h[a]? = none := by
  by_contra hno
  rw [not_or] at hno
  obtain ⟨c, hc⟩ := Option.ne_none_iff_exists'.mp hno.2
  rw [hk a c hc hno.1] at ha
  cases ha

/-- Cells that were made later do not matter for the cells from before. -/
theorem step (h₁ : Keeps S h h') (h₂ : Keeps S' h' h'') (hs : ∀ a ∈ S', a ∈ S ∨ h[a]? = none) :
    Keeps S h h'' := by
  intro a c hc ha
  refine h₂ a c (h₁ a c hc ha) fun hm => ?_
  rcases hs a hm with hm | hm
  · exact ha hm
  · rw [hm] at hc
    cases hc

end Keeps

/-- Stores elsewhere leave the chains. -/
theorem Chained.keeps {S : List Nat} {h h' : Heap} {b n : Nat} {rows : List Row}
    (hc : Chained h b n rows) (hk : Keeps S h h') (hb : b ∉ S)
    (hr : ∀ r ∈ rows, r.addr ∉ S) : Chained h' b n rows where
  slots := hk _ _ hc.slots hb
  cells i r hi := hk _ _ (hc.cells i r hi) (hr r (List.mem_of_getElem? hi))
  nodup := hc.nodup
  fits := hc.fits

end HeapScript.Library
