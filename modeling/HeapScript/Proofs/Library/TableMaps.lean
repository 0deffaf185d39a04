import HeapScript.Proofs.Library.Tables

/-!
# Hash tables as maps

A table is a list of keys and values in insertion order. Inserting replaces the value of a key that
is there and appends a new key; nothing else on the heap changes.
-/

namespace HeapScript.Library

open Machine Machine.Processor Code Execution

variable {m : Processor Output} {l : Links} {d k : Nat} {h : Heap} {w : Output} {Q : Post Output}

/-! ## Tables as maps -/

/-- What a table holds: its slots, the number of its buckets, its entries in insertion order and the
next free integer key. -/
structure Content where
  buckets : Nat
  size : Nat
  rows : List Row
  next : Int64

/-- The cells that belong to a table. -/
def Content.owned (s : Content) (t : Nat) : List Nat := t :: s.buckets :: s.rows.map Row.addr

/-- The keys and values of a table in insertion order. -/
def Content.pairs (s : Content) : List (Value × Val) := s.rows.map fun r => (r.key, r.value)

structure Table (h : Heap) (t : Nat) (s : Content) : Prop where
  cell : h[t]? = some (tableCell s.buckets s.size s.rows.length s.next)
  chained : Chained h s.buckets s.size s.rows
  keyed : Keyed h s.rows
  size : ∃ e, 4 ≤ e ∧ e ≤ 29 ∧ s.size = 2 ^ e

theorem Table.typeOf {t : Nat} {s : Content} (ht : Table h t s) :
    h.typeOf (.ref t) = Shape.hash := by
  simp [Heap.typeOf, ht.cell, tableCell, Cell.type]

theorem typeOf_dense {r : Nat} {elems : Array Val} (hd : h[r]? = some (.array Shape.dense elems)) :
    h.typeOf (.ref r) = Shape.dense := by
  simp [Heap.typeOf, hd, Cell.type]

@[simp] theorem dense_ne_hash : Shape.dense ≠ Shape.hash := by decide

def hasKey (ps : List (Value × Val)) (x : Value) : Bool := ps.any fun p => p.1.strictEq x

/-- Stores a value under a key: in its place if there is one, else at the end. -/
def put (ps : List (Value × Val)) (x : Value) (v : Val) : List (Value × Val) :=
  if hasKey ps x then ps.map fun p => if p.1.strictEq x then (p.1, v) else p else ps ++ [(x, v)]

/-- The next free integer key after a new key. Only an integer that is not below it changes it. -/
def nextBehind (next : Int64) : Value → Int64
  | .int i => if next ≤ i then i + 1 else next
  | _ => next

/-- The next free integer key after a value is stored under a key. -/
def nextAfter (ps : List (Value × Val)) (next : Int64) (x : Value) : Int64 :=
  if hasKey ps x then next else nextBehind next x

section Insert

variable {t : Nat} {s : Content} {u v : Val} {x : Value}

theorem Table.size_bounds (ht : Table h t s) : 0 < s.size ∧ s.size ≤ 2 ^ 29 := by
  obtain ⟨e, -, he, hs⟩ := ht.size
  rw [hs]
  exact ⟨Nat.two_pow_pos e, Nat.pow_le_pow_right (by decide) he⟩

/-- The cells of a table are no values and no strings. -/
theorem Table.owned_type (ht : Table h t s) {a : Nat} (ha : a ∈ s.owned t) {c : Cell}
    (hc : h[a]? = some c) : c.type ≠ Shape.value ∧ c.type ≠ Shape.bytes := by
  simp only [Content.owned, List.mem_cons, List.mem_map] at ha
  rcases ha with rfl | rfl | ⟨r, hr, rfl⟩
  · rw [ht.cell] at hc
    cases hc
    exact (by decide : Shape.hash ≠ Shape.value ∧ Shape.hash ≠ Shape.bytes)
  · rw [ht.chained.slots] at hc
    cases hc
    exact (by decide : Shape.buckets ≠ Shape.value ∧ Shape.buckets ≠ Shape.bytes)
  · obtain ⟨i, hi⟩ := List.mem_iff_getElem?.mp hr
    rw [ht.chained.cells i r hi] at hc
    cases hc
    exact (by decide : Shape.entry ≠ Shape.value ∧ Shape.entry ≠ Shape.bytes)

/-- Stores into cells that are no values and no strings leave the keys. -/
theorem Boxed.keeps {S : List Nat} {h' : Heap} (hu : Boxed h u x) (hx : IsKey x) (hk : Keeps S h h')
    (hs : ∀ a ∈ S, ∀ c, h[a]? = some c → c.type ≠ Shape.value ∧ c.type ≠ Shape.bytes) :
    Boxed h' u x := by
  cases hu with
  | int ha => exact .int (hk _ _ ha fun hm => (hs _ hm _ ha).1 rfl)
  | str ha hb hl =>
    obtain ⟨b, rfl, hb⟩ := hb
    exact .str (hk _ _ ha fun hm => (hs _ hm _ ha).1 rfl)
      ⟨b, rfl, hk _ _ hb fun hm => (hs _ hm _ hb).2 rfl⟩ hl
  | null | bool | float | array | object => exact hx.elim

/-- The record of a table and its other cells are different cells. -/
theorem Table.cell_ne (ht : Table h t s) :
    s.buckets ≠ t ∧ ∀ r ∈ s.rows, r.addr ≠ t := by
  refine ⟨ne_of_type ht.chained.slots ht.cell (show Shape.buckets ≠ Shape.hash by decide),
    fun r hr => ?_⟩
  obtain ⟨i, hi⟩ := List.mem_iff_getElem?.mp hr
  exact ne_of_type (ht.chained.cells i r hi) ht.cell (show Shape.entry ≠ Shape.hash by decide)

theorem Keyed.keeps {S : List Nat} {h' : Heap} {rows : List Row} (hr : Keyed h rows)
    (hk : Keeps S h h')
    (hs : ∀ a ∈ S, ∀ c, h[a]? = some c → c.type ≠ Shape.value ∧ c.type ≠ Shape.bytes) :
    Keyed h' rows where
  keys r hm := ⟨(hr.keys r hm).1, (hr.keys r hm).2.keeps (hr.keys r hm).1 hk hs⟩
  distinct := hr.distinct

theorem Table.extends {h' : Heap} (ht : Table h t s) (he : Extends h h') : Table h' t s where
  cell := he _ _ ht.cell
  chained := ht.chained.keeps (Keeps.of_extends he) List.not_mem_nil fun _ _ => List.not_mem_nil
  keyed := ht.keyed.keeps (Keeps.of_extends he) fun _ ha => absurd ha List.not_mem_nil
  size := ht.size

/-- A store of the next free key into the record of a table. -/
theorem Table.setNext (ht : Table h t s) (next : Int64) :
    Table (h.setField t 3 (.i64 next)) t { s with next := next } := by
  have hk : Keeps [t] h (h.setField t 3 (.i64 next)) := .setField (by simp)
  refine ⟨?_, ?_, ?_, ht.size⟩
  · rw [Heap.setField_same ht.cell]
    rfl
  · refine ht.chained.keeps hk (by simpa using ht.cell_ne.1) fun r hr => ?_
    simpa using ht.cell_ne.2 r hr
  · refine ht.keyed.keeps hk fun a ha c => ht.owned_type ?_
    rw [List.mem_singleton.mp ha]
    exact List.mem_cons_self ..

/-- The last part of an insertion: moves the next free key behind a new one. -/
def moveNext : Code :=
  seq [
    tagIs 1 .int, when (seq [
      valueField 1 .int, load 0, hashField .nextKey, [.i64Rel .geS],
        when (seq [load 0, valueField 1 .int, const64 1, [.i64 .add], setHashField .nextKey])])]

theorem moveNext_wp {f : String} {ls : List Val} (ht : Table h t s) (hu : Boxed h u x)
    (hx : IsKey x)
    (hq : ∀ h', Table h' t { s with next := nextBehind s.next x } → Keeps [t] h h' →
      Q.returned [] h' w) :
    m.wp ⟨f, 0, d⟩ moveNext [] Q ⟨h, w, .ref t :: u :: ls, []⟩ := by
  have hcell := ht.cell
  simp only [tableCell] at hcell
  cases hu with
  | @int a i ha =>
    by_cases hle : s.next ≤ i
    · simp [moveNext, ha, valueCell, hcell, hle]
      simp only [nextBehind, if_pos hle] at hq
      exact hq _ (ht.setNext (i + 1)) (.setField (by simp))
    · simp [moveNext, ha, valueCell, hcell, hle]
      simp only [nextBehind, if_neg hle] at hq
      exact hq _ ht (.refl _ _)
  | str ha =>
    simp [moveNext, ha, valueCell]
    exact hq _ ht (.refl _ _)
  | null | bool | float | array | object => exact hx.elim

/-- The middle part of an insertion: makes the entry and links it. -/
def linkNew (l : Links) : Code :=
  seq [
    load 0, hashField .count, store 5,
    load 1, load 2, load 3, const32 (-1), [.structNew Shape.entry], store 4,
    load 0, load 5, const32 1, [.i32 .add], setHashField .count,
    load 0, load 4, load 5, l.call .hashLink]

theorem hasKey_pairs (ht : Keyed h s.rows) (hx : IsKey x) :
    hasKey s.pairs x = true ↔ ∃ r ∈ s.rows, r.key = x := by
  simp only [hasKey, Content.pairs, List.any_map, List.any_eq_true, Function.comp_apply]
  refine exists_congr fun r => and_congr_right fun hr => ?_
  exact strictEq_iff (ht.keys r hr).1 hx

/-- An entry for a new key goes behind the others. -/
theorem linkNew_wp (hi : Installed m l) (hr : Room m d (k + 1)) {f : String} {tail : Code}
    (ht : Table h t s) (hlen : s.rows.length < s.size) (hu : Boxed h u x) (hx : IsKey x)
    (hnew : ∀ r ∈ s.rows, r.key ≠ x)
    (hq : ∀ h', Table h' t { s with rows := s.rows ++ [⟨h.size, u, x, v⟩] } →
      Keeps (s.owned t) h h' →
      m.wp ⟨f, 0, d⟩ tail [] Q ⟨h', w, [.ref t, u, v, .i32 x.hashKey.toInt32, .ref h.size,
        .i32 (num s.rows.length)], []⟩) :
    m.wp ⟨f, 0, d⟩ (linkNew l ++ tail) [] Q
      ⟨h, w, [.ref t, u, v, .i32 x.hashKey.toInt32, .null, .i32 0], []⟩ := by
  have hcell := ht.cell
  have hn := ht.size_bounds
  let r : Row := ⟨h.size, u, x, v⟩
  obtain ⟨h₁, hh₁⟩ : ∃ h₁ : Heap, Array.push h (.struct Shape.entry
    #[u, v, .i32 x.hashKey.toInt32, .i32 (-1)]) = h₁ := ⟨_, rfl⟩
  have hext : Extends h h₁ := hh₁ ▸ .push h _
  have ht₁ := hext _ _ hcell
  obtain ⟨h₂, hh₂⟩ : ∃ h₂ : Heap, h₁.setField t 2 (.i32 (num (s.rows.length + 1))) = h₂ := ⟨_, rfl⟩
  have hk₂ : Keeps [t] h h₂ := (Keeps.of_extends hext).trans (hh₂ ▸ .setField (by simp))
  have ht₂ : h₂[t]? = some (tableCell s.buckets s.size (s.rows.length + 1) s.next) := by
    rw [← hh₂, Heap.setField_same ht₁]
    rfl
  have hr₂ : h₂[r.addr]? = some (r.cell none) := by
    rw [← hh₂, Heap.setField_other (ne_size hcell).symm, ← hh₁]
    exact getElem?_push_size h _
  have hc₂ : Chained h₂ s.buckets s.size s.rows := by
    refine ht.chained.keeps hk₂ (by simpa using ht.cell_ne.1) fun q hq => ?_
    simpa using ht.cell_ne.2 q hq
  have hfresh : r.addr ∉ s.rows.map Row.addr := by
    intro hm
    obtain ⟨q, hq, ha⟩ := List.mem_map.mp hm
    obtain ⟨i, hi⟩ := List.mem_iff_getElem?.mp hq
    exact ne_size (ht.chained.cells i q hi) ha
  simp only [tableCell] at hcell ht₁
  simp [linkNew, hcell, hi.entry, wp_call_routine hi, hh₁, ht₁, hh₂]
  refine hashLink_calls (r := r) hi hr ht₂ hc₂ hn.2 hlen hfresh hr₂ fun h₃ hc₃ hk₃ => ?_
  have hkeep : Keeps (s.owned t) h h₃ :=
    (hk₂.mono (by simp [Content.owned])).trans (hk₃.mono (by simp [Content.owned]))
  have ht₃ : h₃[t]? = some (tableCell s.buckets s.size (s.rows.length + 1) s.next) := by
    refine hk₃ _ _ ht₂ ?_
    simp only [List.mem_cons, List.mem_map, not_or, not_exists, not_and]
    exact ⟨ht.cell_ne.1.symm, ht.cell_ne.2⟩
  have hkeys₃ : Keyed h₃ (s.rows ++ [r]) := by
    have hold := ht.keyed.keeps hkeep fun a ha c => ht.owned_type ha
    refine ⟨fun q hq => ?_, ?_⟩
    · rcases List.mem_append.mp hq with hq | hq
      · exact hold.keys q hq
      · obtain rfl := List.mem_singleton.mp hq
        exact ⟨hx, hu.keeps hx hkeep fun a ha c => ht.owned_type ha⟩
    · rw [List.map_append, List.map_singleton]
      refine ht.keyed.distinct.append (List.nodup_singleton _) ?_
      simpa using hnew
  simp
  exact hq h₃ ⟨by simpa using ht₃, hc₃, hkeys₃, ht.size⟩ hkeep

/-- The entries with a new value under a key. -/
def setValue (rows : List Row) (x : Value) (v : Val) : List Row :=
  rows.map fun q => if q.key.strictEq x then { q with value := v } else q

theorem map_setValue {α : Type} (f : Row → α) (hf : ∀ q v, f { q with value := v } = f q)
    (rows : List Row) : (setValue rows x v).map f = rows.map f := by
  rw [setValue, List.map_map]
  refine List.map_congr_left fun q _ => ?_
  rw [Function.comp_apply]
  split
  · exact hf q v
  · rfl

theorem getElem?_setValue {rows : List Row} {i : Nat} {q : Row} (hq : (setValue rows x v)[i]? = some q) :
    ∃ q₀, rows[i]? = some q₀ ∧ q = if q₀.key.strictEq x then { q₀ with value := v } else q₀ := by
  rw [setValue, List.getElem?_map, Option.map_eq_some_iff] at hq
  obtain ⟨q₀, h₀, rfl⟩ := hq
  exact ⟨q₀, h₀, rfl⟩

/-- A store of a value into the entry of a key. -/
theorem Table.setValue (ht : Table h t s) {r : Row} (hr : r ∈ s.rows) (v : Val) :
    Table (h.setField r.addr 1 v) t { s with rows := setValue s.rows r.key v } := by
  have hk : Keeps [r.addr] h (h.setField r.addr 1 v) := .setField (by simp)
  have hrkey := (ht.keyed.keys r hr).1
  have hbuckets := map_setValue (x := r.key) (v := v) (Row.bucket s.size) (fun _ _ => rfl) s.rows
  have haddrs := map_setValue (x := r.key) (v := v) Row.addr (fun _ _ => rfl) s.rows
  have hkeys := map_setValue (x := r.key) (v := v) Row.key (fun _ _ => rfl) s.rows
  refine ⟨?_, ⟨?_, fun i q hq => ?_, ?_, ?_⟩, ⟨fun q hq => ?_, ?_⟩, ht.size⟩
  · rw [Heap.setField_other (ht.cell_ne.2 r hr).symm, ht.cell]
    simp [Library.setValue]
  · rw [Heap.setField_other (ht.chained.addr_ne hr).symm, ht.chained.slots, hbuckets, haddrs]
  · obtain ⟨q₀, h₀, rfl⟩ := getElem?_setValue hq
    have hcell := ht.chained.cells i q₀ h₀
    have hmem : q₀ ∈ s.rows := List.mem_of_getElem? h₀
    rw [hbuckets]
    split
    · rename_i heq
      rw [strictEq_iff (ht.keyed.keys q₀ hmem).1 hrkey] at heq
      obtain rfl := List.inj_on_of_nodup_map ht.keyed.distinct hmem hr heq
      rw [Heap.setField_same hcell]
      rfl
    · rename_i hne
      have haddr : q₀.addr ≠ r.addr := by
        intro ha
        obtain rfl := List.inj_on_of_nodup_map ht.chained.nodup hmem hr ha
        exact hne ((strictEq_iff hrkey hrkey).mpr rfl)
      rw [Heap.setField_other haddr, hcell]
  · rw [haddrs]
    exact ht.chained.nodup
  · simpa [Library.setValue] using ht.chained.fits
  · obtain ⟨i, hi⟩ := List.mem_iff_getElem?.mp hq
    obtain ⟨q₀, h₀, rfl⟩ := getElem?_setValue hi
    have hmem : q₀ ∈ s.rows := List.mem_of_getElem? h₀
    have hkeep := (ht.keyed.keeps hk fun a ha c => ht.owned_type ?_).keys q₀ hmem
    · split <;> exact hkeep
    · rw [List.mem_singleton.mp ha]
      simp [Content.owned, List.mem_map_of_mem hr]
  · rw [hkeys]
    exact ht.keyed.distinct

theorem pairs_setValue (rows : List Row) :
    (setValue rows x v).map (fun r => (r.key, r.value)) =
      (rows.map fun r => (r.key, r.value)).map fun p => if p.1.strictEq x then (p.1, v) else p := by
  rw [setValue, List.map_map, List.map_map]
  refine List.map_congr_left fun q _ => ?_
  simp only [Function.comp_apply]
  split <;> rfl

theorem hashInsert_code : (hashInsert l).code =
    seq [load 1, l.call .hashKey, store 3,
      load 0, load 1, load 3, l.call .hashFind, keep 4, [.refIsNull, .i32Eqz],
        when (give (load 4 ++ load 2 ++ setEntryField .value)),
      load 0, hashField .count, load 0, hashField .bucketCount, [.i32 .geS],
        when (load 0 ++ l.call .hashGrow)] ++ (linkNew l ++ moveNext) := by
  simp [hashInsert, linkNew, moveNext, seq]

/-- What an insertion leaves: the table with the value under the key, in old and new cells. -/
structure Inserted (h : Heap) (t : Nat) (s : Content) (x : Value) (v : Val) (h' : Heap) (s' : Content) :
    Prop where
  table : Table h' t s'
  pairs : s'.pairs = put s.pairs x v
  next : s'.next = nextAfter s.pairs s.next x
  owned : ∀ a ∈ s'.owned t, a ∈ s.owned t ∨ h[a]? = none
  keeps : Keeps (s.owned t) h h'

/-- A new key is stored in a table with a free ordinal, be it the table from before or that table
after it was grown. -/
theorem insertNew_wp (hi : Installed m l) (hr : Room m d (k + 1)) {f : String} (ht : Table h t s)
    (hu : Boxed h u x) (hx : IsKey x) (hnew : ∀ r ∈ s.rows, r.key ≠ x) {h₁ : Heap} {s₁ : Content}
    (ht₁ : Table h₁ t s₁) (hrows : s₁.rows = s.rows) (hnext : s₁.next = s.next)
    (hlen : s₁.rows.length < s₁.size)
    (howned : ∀ a ∈ s₁.owned t, a ∈ s.owned t ∨ h[a]? = none) (hk : Keeps (s.owned t) h h₁)
    (hq : ∀ h' s', Inserted h t s x v h' s' → Q.returned [] h' w) :
    m.wp ⟨f, 0, d⟩ (linkNew l ++ moveNext) [] Q
      ⟨h₁, w, [.ref t, u, v, .i32 x.hashKey.toInt32, .null, .i32 0], []⟩ := by
  have hhas : hasKey s.pairs x = false := by
    rw [← Bool.not_eq_true, hasKey_pairs ht.keyed hx]
    rintro ⟨r, hr, he⟩
    exact hnew r hr he
  have hu₁ : Boxed h₁ u x := hu.keeps hx hk fun a ha c => ht.owned_type ha
  refine linkNew_wp hi hr ht₁ hlen hu₁ hx (hrows ▸ hnew) fun h₂ ht₂ hk₂ => ?_
  have hu₂ : Boxed h₂ u x := hu₁.keeps hx hk₂ fun a ha c => ht₁.owned_type ha
  refine moveNext_wp ht₂ hu₂ hx fun h₃ ht₃ hk₃ => ?_
  have hfresh : h₁.size ∈ s.owned t ∨ h[h₁.size]? = none := hk.fresh (by simp)
  refine hq _ _ ⟨ht₃, ?_, ?_, fun a ha => ?_, ?_⟩
  · rw [put, if_neg (by simp [hhas])]
    simp [Content.pairs, hrows]
  · rw [nextAfter, if_neg (by simp [hhas]), ← hnext]
  · simp only [Content.owned, List.map_append, List.map_singleton, List.mem_cons,
      List.mem_append, List.not_mem_nil, or_false] at ha
    rcases ha with rfl | rfl | ha | rfl
    · exact howned _ (by simp [Content.owned])
    · exact howned _ (by simp [Content.owned])
    · exact howned _ (by simp only [Content.owned, List.mem_cons, ha, or_true])
    · exact hfresh
  · refine (hk.step hk₂ howned).step hk₃ fun a ha => .inl ?_
    rw [List.mem_singleton.mp ha]
    simp [Content.owned]

/-- A table below the limit can be grown. -/
theorem Table.double (ht : Table h t s) (hsize : s.size < 2 ^ 29) :
    ∃ e, 4 ≤ e ∧ e ≤ 29 ∧ 2 * s.size = 2 ^ e := by
  obtain ⟨e, he, -, hs⟩ := ht.size
  have hlt : e < 29 := (Nat.pow_lt_pow_iff_right (by decide : 1 < 2)).mp (hs ▸ hsize)
  exact ⟨e + 1, by omega, hlt, by rw [hs, Nat.pow_succ, Nat.mul_comm]⟩

theorem Table.double_le (ht : Table h t s) (hsize : s.size < 2 ^ 29) : 2 * s.size ≤ 2 ^ 29 := by
  obtain ⟨e, -, he, hs⟩ := ht.double hsize
  rw [hs]
  exact Nat.pow_le_pow_right (by decide) he

theorem Table.grown (ht : Table h t s) (hsize : s.size < 2 ^ 29) {h' : Heap}
    (hcell : h'[t]? = some (tableCell h.size (2 * s.size) s.rows.length s.next))
    (hc : Chained h' h.size (2 * s.size) s.rows) (hk : Keeps (t :: s.rows.map Row.addr) h h') :
    Table h' t { s with buckets := h.size, size := 2 * s.size } := by
  refine ⟨hcell, hc, ht.keyed.keeps hk fun a ha c => ht.owned_type ?_, ht.double hsize⟩
  rcases List.mem_cons.mp ha with rfl | ha <;> simp only [Content.owned, List.mem_cons, true_or]
  exact .inr (.inr ha)

/-- A key has no room in a table: it is a new one, and the table has as many as it can have. -/
def Full (ps : List (Value × Val)) (x : Value) : Prop := hasKey ps x = false ∧ 2 ^ 29 ≤ ps.length

/-- An insertion stores the value under the key. Only in a full table it ends the run, and then the
heap is as before. -/
theorem hashInsert_total (hi : Installed m l) (hr : Room m d (k + 4)) (ht : Table h t s)
    (hu : Boxed h u x) (hx : IsKey x)
    (hq : ∀ h' s', Inserted h t s x v h' s' → Q.returned [] h' w)
    (hfull : Full s.pairs x → ∀ f, Q.trapped f .negativeLength h w) :
    m.Calls d (l.index .hashInsert) [.ref t, u, v] h w Q := by
  have hr' := hr.inner
  have hcell := ht.cell
  have hbounds := ht.size_bounds
  have hfits := ht.chained.fits
  refine calls_routine hi hr ?_
  have hlocals : (Routine.body l .hashInsert).locals.map Val.zero = [.i32 0, .null, .i32 0] := rfl
  have hcode : (Routine.body l .hashInsert).code = (hashInsert l).code := rfl
  rw [hlocals, hcode, hashInsert_code]
  obtain ⟨tail, htail⟩ : ∃ tail, tail = linkNew l ++ moveNext := ⟨_, rfl⟩
  rw [← htail]
  simp only [tableCell] at hcell
  simp [wp_call_routine hi]
  refine hashKey_calls (k := k + 1) hi hr' hu hx ?_
  simp [wp_call_routine hi]
  refine hashFind_calls (k := k) hi hr' ht.chained ht.keyed hbounds hcell hu hx ?_
  by_cases hex : ∃ r ∈ s.rows, r.key = x
  · obtain ⟨r, hmem, rfl⟩ := hex
    have hhas : hasKey s.pairs r.key = true := (hasKey_pairs ht.keyed hx).mpr ⟨r, hmem, rfl⟩
    obtain ⟨i, hrow⟩ := List.mem_iff_getElem?.mp hmem
    have hrcell := ht.chained.cells i r hrow
    simp [ht.keyed.found hmem, hrcell, Row.cell]
    have howned : r.addr ∈ s.owned t := by simp [Content.owned, List.mem_map_of_mem hmem]
    refine hq _ _ ⟨ht.setValue hmem v, ?_, ?_, fun a ha => .inl ?_, .setField howned⟩
    · rw [put, if_pos hhas]
      exact pairs_setValue s.rows
    · rw [nextAfter, if_pos hhas]
    · simpa [Content.owned, map_setValue Row.addr (fun _ _ => rfl)] using ha
  · have hnew : ∀ r ∈ s.rows, r.key ≠ x := fun r hr he => hex ⟨r, hr, he⟩
    have hlt : s.rows.length < 2 ^ 31 := by omega
    simp [found_none hx (fun r hr => (ht.keyed.keys r hr).1) hnew, hcell,
      num_le_num (show s.size < 2 ^ 31 by omega) hlt, wp_call_routine hi, htail]
    split
    · rename_i hrows
      by_cases hsize : s.size < 2 ^ 29
      · refine hashGrow_calls (k := k + 1) hi hr' ht.cell ht.chained (ht.double_le hsize)
          fun h₁ hcell₁ hc₁ hk₁ => ?_
        have ht₁ := ht.grown hsize hcell₁ hc₁ hk₁
        simp
        refine insertNew_wp (k := k + 2) hi hr' ht hu hx hnew ht₁ rfl rfl ?_ (fun a ha => ?_)
          (hk₁.mono ?_) hq
        · dsimp only
          omega
        · simp only [Content.owned, List.mem_cons] at ha ⊢
          rcases ha with rfl | rfl | ha
          · exact .inl (.inl rfl)
          · exact .inr (by simp)
          · exact .inl (.inr (.inr ha))
        · simp [Content.owned]
      · refine hashGrow_traps (k := k + 1) hi hr' ht.cell (by omega) (by omega) (hfull ⟨?_, ?_⟩)
        · rw [← Bool.not_eq_true, hasKey_pairs ht.keyed hx]
          exact hex
        · rw [Content.pairs, List.length_map]
          omega
    · rename_i hroom
      exact insertNew_wp (k := k + 2) hi hr' ht hu hx hnew ht rfl rfl (by omega) (fun a ha => .inl ha)
        (.refl _ _) hq

theorem hashInsert_calls (hi : Installed m l) (hr : Room m d (k + 4)) (ht : Table h t s)
    (hcount : s.rows.length < 2 ^ 29) (hu : Boxed h u x) (hx : IsKey x)
    (hq : ∀ h' s', Inserted h t s x v h' s' → Q.returned [] h' w) :
    m.Calls d (l.index .hashInsert) [.ref t, u, v] h w Q := by
  refine hashInsert_total hi hr ht hu hx hq fun hfull => ?_
  have hlen := hfull.2
  rw [Content.pairs, List.length_map] at hlen
  omega

end Insert

/-! ## Lookups -/

section Lookup

variable {t : Nat} {s : Content} {u : Val} {x : Value}

/-- The value under a key, a null reference if there is none. -/
def valueUnder (ps : List (Value × Val)) (x : Value) : Val :=
  match ps.find? fun p => p.1.strictEq x with
  | some p => p.2
  | none => .null

theorem hashLookup_calls (hi : Installed m l) (hr : Room m d (k + 4)) (ht : Table h t s)
    (hu : Boxed h u x) (hx : IsKey x) (hq : Q.returned [valueUnder s.pairs x] h w) :
    m.Calls d (l.index .hashLookup) [.ref t, u] h w Q := by
  have hr' := hr.inner
  have hcell := ht.cell
  simp only [tableCell] at hcell
  refine calls_routine hi hr ?_
  simp [Routine.body, hashLookup, Routine.results, wp_call_routine hi]
  refine hashKey_calls (k := k + 1) hi hr' hu hx ?_
  simp [wp_call_routine hi]
  refine hashFind_calls (k := k) hi hr' ht.chained ht.keyed ht.size_bounds hcell hu hx ?_
  simp only [valueUnder, Content.pairs, List.find?_map, Function.comp_def] at hq
  unfold found
  cases hf : s.rows.find? fun r => r.key.strictEq x with
  | none =>
    rw [hf] at hq
    simpa using hq
  | some r =>
    rw [hf] at hq
    obtain ⟨i, hrow⟩ := List.mem_iff_getElem?.mp (List.mem_of_find?_eq_some hf)
    simpa [ht.chained.cells i r hrow, Row.cell] using hq

end Lookup

end HeapScript.Library
