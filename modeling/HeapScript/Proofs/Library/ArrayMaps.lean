import HeapScript.Proofs.Library.DenseItems

/-!
# Arrays as ordered maps

An array is dense, a list of elements with holes, or a hash table with its pairs in insertion order.
Each routine on arrays does on the heap what the operation of that name does on these.
-/

namespace HeapScript.Library

open Machine Machine.Processor Code Execution

variable {m : Processor Output} {l : Links} {d k : Nat} {h : Heap} {w : Output} {Q : Post Output}

/-! ## What an array holds -/

/-- What an array holds: a list of elements with holes, or pairs in insertion order with the next free
integer key. -/
inductive Items where
  | dense (items : List (Option Val))
  | hash (pairs : List (Value × Val)) (next : Int64)

namespace Items

def pairs : Items → List (Value × Val)
  | dense items => entriesOf items
  | hash ps _ => ps

/-- The next free integer key after all these keys were stored in an empty table. -/
def nextOf (ps : List (Value × Val)) : Int64 := ps.foldl (fun next p => nextBehind next p.1) 0

/-- The hash table that a dense list becomes when it gets a key that is no index. -/
def promote (items : List (Option Val)) (x : Value) (v : Val) : Items :=
  hash (entriesOf items ++ [(x, v)]) (nextBehind (nextOf (entriesOf items)) x)

/-- Stores under an integer. -/
def setInt (s : Items) (i : Int64) (v : Val) : Items :=
  match s with
  | dense items =>
    if i < 0 then promote items (.int i) v else dense (setAt items i.toNatClampNeg v)
  | hash ps next => hash (put ps (.int i) v) (nextAfter ps next (.int i))

/-- Stores under a key. -/
def set (s : Items) (x : Value) (v : Val) : Items :=
  match s, x with
  | s, .int i => s.setInt i v
  | dense items, x => promote items x v
  | hash ps next, x => hash (put ps x v) (nextAfter ps next x)

/-- The integer that the next element is appended under. -/
def free : Items → Int64
  | dense items => Int64.ofNat items.length
  | hash _ next => next

/-- Appends. -/
def push (s : Items) (v : Val) : Items := s.setInt s.free v

/-- The value under a key. -/
def get (s : Items) (x : Value) : Option Val :=
  match s with
  | hash ps _ => (ps.find? fun p => p.1.strictEq x).map Prod.snd
  | dense items =>
    match x with
    | .int i => if i < 0 then none else items[i.toNatClampNeg]?.join
    | _ => none

/-- The length: up to the last index of a list, the number of pairs of a table. -/
def length : Items → Nat
  | dense items => items.length
  | hash ps _ => ps.length

/-- A key may be stored under: there is room for it, in a list also for what is in front of it. -/
def Allows (s : Items) (x : Value) : Prop :=
  s.pairs.length < 2 ^ 29 ∧ ∀ items i, s = dense items → x = .int i → i ≤ denseMaxIndex

/-- Whether a store under a key makes a table of a list. -/
def promotes : Items → Value → Bool
  | dense _, .int i => i < 0
  | dense _, _ => true
  | hash _ _, _ => false

/-- A store under a key finds no room for it: in a table, or in the one that a list is made into. -/
def Full (s : Items) (x : Value) : Prop :=
  Library.Full s.pairs x ∧ ∀ items, s = dense items → s.promotes x = true

/-- A key is an index that no list can have. -/
def Beyond (s : Items) (x : Value) : Prop :=
  ∃ items i, s = dense items ∧ x = .int i ∧ denseMaxIndex < i

theorem not_beyond_hash {ps : List (Value × Val)} {next : Int64} (x : Value) :
    ¬ (hash ps next).Beyond x := by
  rintro ⟨items, i, hs, -⟩
  cases hs

theorem not_beyond_int {s : Items} {i : Int64} (hi : ¬ denseMaxIndex < i) : ¬ s.Beyond (.int i) := by
  rintro ⟨items, j, -, hx, hmax⟩
  cases hx
  exact hi hmax

theorem not_beyond_str {s : Items} {bs : Bytes} : ¬ s.Beyond (.str bs) := by
  rintro ⟨items, i, -, hx, -⟩
  cases hx

theorem Allows.not_full {s : Items} {x : Value} (hs : s.Allows x) : ¬ s.Full x := by
  rintro ⟨⟨-, hlen⟩, -⟩
  have hlt := hs.1
  omega

theorem Allows.not_beyond {s : Items} {x : Value} (hs : s.Allows x) : ¬ s.Beyond x := by
  rintro ⟨items, i, hdense, hx, hmax⟩
  exact Int64.not_lt.mpr (hs.2 items i hdense hx) hmax

end Items

/-- An array value on the heap, what it holds and the cells that a store may change. -/
inductive ArrayAt (h : Heap) (a : Nat) : Items → List Nat → Prop
  | dense {r cap : Nat} {items : List (Option Val)}
    (ha : h[a]? = some (valueCell .array (Int64.ofNat items.length) 0 .null (.ref r)))
    (hr : h[r]? = some (.array Shape.dense (elemsOf cap items)))
    (hlen : items.length ≤ cap) (hcap : cap < 2 ^ 31)
    (hitems : ∀ v, some v ∈ items → ∃ b, v = .ref b) : ArrayAt h a (.dense items) [a, r]
  | hash {t : Nat} {s : Content} (ha : h[a]? = some (valueCell .array 0 0 .null (.ref t)))
    (ht : Table h t s) (hvalues : ∀ p ∈ s.pairs, ∃ b, p.2 = .ref b) :
    ArrayAt h a (.hash s.pairs s.next) (s.owned t)

/-- A dense array value, the array of its elements and the length of that one. -/
structure DenseAt (h : Heap) (a r cap : Nat) (items : List (Option Val)) : Prop where
  value : h[a]? = some (valueCell .array (Int64.ofNat items.length) 0 .null (.ref r))
  cells : h[r]? = some (.array Shape.dense (elemsOf cap items))
  fits : items.length ≤ cap
  bound : cap < 2 ^ 31
  refs : ∀ v, some v ∈ items → ∃ b, v = .ref b

theorem DenseAt.array {a r cap : Nat} {items : List (Option Val)} (hd : DenseAt h a r cap items) :
    ArrayAt h a (.dense items) [a, r] :=
  .dense hd.value hd.cells hd.fits hd.bound hd.refs

/-- What a store leaves: an array with the new contents in old and new cells, and all else. -/
structure Written (h : Heap) (S : List Nat) (h' : Heap) (a : Nat) (s : Items) : Prop where
  array : ∃ S', ArrayAt h' a s S' ∧ ∀ b ∈ S', b ∈ S ∨ h[b]? = none
  keeps : Keeps S h h'

/-- Where a store into an array leaves the new contents: in the cells of that array, or in a copy that
has new cells only. -/
inductive Landed (h : Heap) (a : Nat) (S : List Nat) (h' : Heap) (s : Items) : Bool → Nat → Prop
  | inPlace (hw : Written h S h' a s) : Landed h a S h' s false a
  | copied {p : Nat} (hp : h[p]? = none) (hw : Written h [] h' p s) : Landed h a S h' s true p

theorem Written.mono {S T : List Nat} {h' : Heap} {a : Nat} {s : Items} (hw : Written h S h' a s)
    (hS : S ⊆ T) : Written h T h' a s := by
  obtain ⟨S', ha, hS'⟩ := hw.array
  exact ⟨⟨S', ha, fun b hb => (hS' b hb).imp_left (@hS b)⟩, hw.keeps.mono hS⟩

theorem Landed.written {S : List Nat} {h' : Heap} {a a' : Nat} {s : Items} {copy : Bool}
    (hl : Landed h a S h' s copy a') : Written h S h' a' s := by
  cases hl with
  | inPlace hw => exact hw
  | copied _ hw => exact hw.mono (List.nil_subset S)

/-! ## Indices in machine words -/

section Words

variable {n : Nat}

theorem not_ofNat_lt_zero (hn : n < 2 ^ 63) : ¬ Int64.ofNat n < 0 := by
  have := Int64.ofNat_lt_iff_lt hn (b := 0) (by decide)
  simpa using this

theorem toNatClampNeg_ofNat (hn : n < 2 ^ 63) : (Int64.ofNat n).toNatClampNeg = n := by
  rw [Int64.toNatClampNeg, Int64.toInt_ofNat_of_lt hn, Int.toNat_natCast]

/-- An integer that is no negative number is an index. -/
theorem exists_index {i : Int64} (h0 : ¬ i < 0) : ∃ n, n < 2 ^ 63 ∧ i = Int64.ofNat n := by
  have hlt := Int64.toInt_lt i
  rw [Int64.lt_iff_toInt_lt, Int64.toInt_zero] at h0
  refine ⟨i.toInt.toNat, by omega, ?_⟩
  apply Int64.toInt_inj.mp
  rw [Int64.toInt_ofNat_of_lt (by omega)]
  omega

end Words

/-! ## Promotion -/

section Promote

variable {a r cap : Nat} {items : List (Option Val)}

@[simp] theorem nests_promoteStep {d tbl i e n : Nat} : Nests (promoteStep l d tbl i e n) [] := by
  simp [promoteStep]

/-- A fresh table holds the elements in front of an index, and all cells from before are there. -/
structure Moved (h : Heap) (items : List (Option Val)) (i : Nat) (H : Heap) (t : Nat) (s : Content) :
    Prop where
  table : Table H t s
  pairs : s.pairs = entriesOf (items.take i)
  next : s.next = Items.nextOf (entriesOf (items.take i))
  fresh : ∀ b ∈ s.owned t, h[b]? = none
  extends_ : Extends h H

theorem length_entriesOf_take_le (items : List (Option Val)) (i : Nat) :
    (entriesOf (items.take i)).length ≤ (entriesOf items).length := by
  conv_rhs => rw [← List.take_append_drop i items]
  simp only [entriesOf, List.zipIdx_append, List.filterMap_append, List.length_append]
  omega

/-- The table after an element was stored in it. -/
theorem Moved.insert {H H' H'' : Heap} {t i : Nat} {s s' : Content} {v : Val}
    (hm : Moved h items i H t s) (hv : items[i]? = some (some v)) (hlen : items.length < 2 ^ 31)
    (he : Extends H H') (hins : Inserted H' t s (indexKey i) v H'' s') :
    Moved h items (i + 1) H'' t s' := by
  have hi := (List.getElem?_eq_some_iff.mp hv).1
  have hnew : hasKey s.pairs (indexKey i) = false := by
    rw [hm.pairs]
    refine hasKey_entriesOf trivial fun j hj heq => ?_
    rw [List.length_take] at hj
    have := (indexKey_inj (by omega) (by omega)).mp heq
    omega
  have htake := entriesOf_take hv
  refine ⟨hins.table, ?_, ?_, fun b hb => ?_, fun b c hc => ?_⟩
  · rw [hins.pairs, put, hnew, htake, hm.pairs]
    rfl
  · rw [hins.next, nextAfter, hnew, htake, hm.next]
    simp [Items.nextOf]
  · rcases hins.owned b hb with hb | hb
    · exact hm.fresh b hb
    · exact hm.extends_.fresh (he.fresh hb)
  · refine hins.keeps b c (he b c (hm.extends_ b c hc)) fun hb => ?_
    rw [hm.fresh b hb] at hc
    cases hc

/-- An element that finds no room in the table is one of too many. -/
theorem Moved.length_gt {H : Heap} {t i : Nat} {s : Content} {x : Value} {v : Val}
    (hm : Moved h items i H t s) (hv : items[i]? = some (some v)) (hfull : Full s.pairs x) :
    2 ^ 29 < (entriesOf items).length := by
  have htake := entriesOf_take hv
  have hle := length_entriesOf_take_le items (i + 1)
  have hlen := hfull.2
  rw [htake, ← hm.pairs] at hle
  simp only [Option.map_some, Option.toList_some, List.length_append, List.length_singleton] at hle
  omega

theorem promoteStep_round (hi : Installed m l) (hr : Room m d (k + 4)) {f : String}
    {tail : Code} {t : Nat}
    (hd : h[r]? = some (.array Shape.dense (elemsOf cap items))) (hlen : items.length ≤ cap)
    (hcap : cap < 2 ^ 31) (hitems : ∀ v, some v ∈ items → ∃ b, v = .ref b)
    (hmany : 2 ^ 29 < (entriesOf items).length → ∀ g H, Extends h H →
      Q.trapped g .negativeLength H w)
    (hq : ∀ H s e, Moved h items items.length H t s → m.wp ⟨f, 1, d⟩ tail [] Q
      ⟨H, w, [.ref a, .ref r, .ref t, .i64 (Int64.ofNat items.length), e,
        .i64 (Int64.ofNat items.length)], []⟩)
    {i : Nat} {H : Heap} {s : Content} {e : Val} (hile : i ≤ items.length)
    (hm : Moved h items i H t s) :
    Round m ⟨f, 1, d⟩ (promoteStep l 1 2 3 4 5) tail [] Q []
      ⟨H, w, [.ref a, .ref r, .ref t, .i64 (Int64.ofNat i), e,
        .i64 (Int64.ofNat items.length)], []⟩ := by
  induction hj : items.length - i generalizing i H s e with
  | zero =>
    obtain rfl : i = items.length := by omega
    intro K hK
    simp [promoteStep, round_leave hK]
    exact hq H s e hm
  | succ j ih =>
    intro K hK
    have hlt : i < items.length := by omega
    have hle : ¬ Int64.ofNat items.length ≤ Int64.ofNat i := by
      rw [Int64.ofNat_le_iff_le (by omega) (by omega)]
      omega
    have hstep : Int64.ofNat i + 1 = Int64.ofNat (i + 1) := (Int64.ofNat_add i 1).symm
    have hget := getElem?_elemsOf items (show i < cap by omega)
    have hd' := hm.extends_ _ _ hd
    obtain ⟨o, ho⟩ : ∃ o, items[i]? = some o := ⟨_, List.getElem?_eq_getElem hlt⟩
    simp only [ho, Option.join_some] at hget
    have hmod : i % 4294967296 = i := Nat.mod_eq_of_lt (by omega)
    cases o with
    | none =>
      have hm' : Moved h items (i + 1) H t s := by
        have htake := entriesOf_take ho
        simp only [Option.map_none, Option.toList_none, List.append_nil] at htake
        exact ⟨hm.table, htake ▸ hm.pairs, htake ▸ hm.next, hm.fresh, hm.extends_⟩
      simp [promoteStep, hle, hd', hmod, hget, slot]
      rw [hstep]
      exact round_again hK (ih (by omega) hm' (by omega))
    | some v =>
      obtain ⟨b, rfl⟩ := hitems v (List.mem_of_getElem? ho)
      simp [promoteStep, hle, hd', hmod, hget, slot, wp_call_routine hi]
      refine newInt_calls (k := k + 3) hi hr ?_
      simp [wp_call_routine hi]
      have hext := Extends.push H (valueCell .int (Int64.ofNat i) 0 .null .null)
      refine hashInsert_total (x := indexKey i) hi hr (hm.table.extends hext)
        (.int (getElem?_push_size _ _)) trivial (fun H' s' hins => ?_) fun hfull g => ?_
      · simp
        rw [hstep]
        exact round_again hK (ih (by omega) (hm.insert ho (by omega) hext hins) (by omega))
      · exact hmany (hm.length_gt ho hfull) g _ (hm.extends_.trans hext)

/-- What a promotion leaves: an array value with a fresh table that holds the elements. -/
structure Promoted (h : Heap) (items : List (Option Val)) (h' : Heap) (p t : Nat) (s : Content) :
    Prop where
  cell : h'[p]? = some (valueCell .array 0 0 .null (.ref t))
  new : h[p]? = none
  moved : Moved h items items.length h' t s

/-- A table that is full after a promotion has all elements of the list. -/
theorem Promoted.full {h' : Heap} {p t : Nat} {s : Content} {x : Value}
    (hp : Promoted h items h' p t s) (hf : Full s.pairs x) : Full (entriesOf items) x := by
  have hpairs := hp.moved.pairs
  rw [List.take_length] at hpairs
  exact hpairs ▸ hf

theorem arrPromote_calls (hi : Installed m l) (hr : Room m d (k + 5)) {S : List Nat}
    (ha : ArrayAt h a (.dense items) S)
    (hmany : 2 ^ 29 < (entriesOf items).length → ∀ g H, Extends h H →
      Q.trapped g .negativeLength H w)
    (hq : ∀ h' p t s, Promoted h items h' p t s → Q.returned [.ref p] h' w) :
    m.Calls d (l.index .arrPromote) [.ref a] h w Q := by
  have hr' := hr.inner
  cases ha with
  | @dense r cap _ ha hd hlen hcap hitems =>
    simp only [valueCell] at ha
    refine calls_routine hi hr ?_
    obtain ⟨n, hn⟩ : ∃ n, Int64.ofNat items.length = n := ⟨_, rfl⟩
    simp [Routine.body, arrPromote, Routine.results, ha, hd, Heap.typeOf, Cell.type, hn,
      wp_call_routine hi]
    refine hashNew_calls (n := 16) (k := k + 3) hi hr' (by decide) fun H hext ht hc => ?_
    simp
    rw [← hn]
    refine promoteStep_round (i := 0) (s := ⟨h.size, 16, [], 0⟩) (Q := Q.later) hi hr' hd hlen hcap
      hitems hmany (fun H s e hm => ?_) (Nat.zero_le _) ?_
    · have hpush := Extends.push H (valueCell .array 0 0 .null (.ref (h.size + 1)))
      simp [hi.value]
      exact hq _ _ _ s ⟨getElem?_push_size _ _, hm.extends_.fresh (by simp), hm.table.extends hpush,
        hm.pairs, hm.next, hm.fresh, hm.extends_.trans hpush⟩
    · refine ⟨⟨ht, hc, ⟨by simp, by simp⟩, 4, by omega, by omega, rfl⟩, rfl, rfl, fun b hb => ?_, hext⟩
      simp only [Content.owned, List.map_nil, List.mem_cons, List.not_mem_nil, or_false] at hb
      rcases hb with rfl | rfl <;> simp

end Promote

/-! ## Stores into tables -/

section Insert

variable {h₁ h' : Heap} {a t : Nat} {S : List Nat} {s s' : Content} {x : Value} {v : Val}

theorem mem_put {ps : List (Value × Val)} {p : Value × Val} (hp : p ∈ put ps x v) :
    p.2 = v ∨ p ∈ ps := by
  unfold put at hp
  split at hp
  · obtain ⟨q, hq, rfl⟩ := List.mem_map.mp hp
    split
    · exact .inl rfl
    · exact .inr hq
  · rcases List.mem_append.mp hp with hp | hp
    · exact .inr hp
    · exact .inl (congrArg Prod.snd (List.mem_singleton.mp hp))

/-- The array of a table after an insertion, where the table is that of an array from before or was
made for it. -/
theorem Written.of_inserted (he : Keeps S h h₁)
    (ha : h₁[a]? = some (valueCell .array 0 0 .null (.ref t)))
    (ht : Table h₁ t s) (hvalues : ∀ p ∈ s.pairs, ∃ b, p.2 = .ref b) (hv : ∃ b, v = .ref b)
    (hS : ∀ b ∈ s.owned t, b ∈ S ∨ h[b]? = none) (hins : Inserted h₁ t s x v h' s') :
    Written h S h' a (.hash (put s.pairs x v) (nextAfter s.pairs s.next x)) := by
  have hcell : h'[a]? = some (valueCell .array 0 0 .null (.ref t)) :=
    hins.keeps _ _ ha fun hm => (ht.owned_type hm ha).1 rfl
  have harray : ArrayAt h' a (.hash s'.pairs s'.next) (s'.owned t) := by
    refine .hash hcell hins.table fun p hp => ?_
    rw [hins.pairs] at hp
    rcases mem_put hp with hp | hp
    · exact hp ▸ hv
    · exact hvalues p hp
  rw [hins.pairs, hins.next] at harray
  refine ⟨⟨_, harray, fun b hb => ?_⟩, he.step hins.keeps hS⟩
  rcases hins.owned b hb with hb | hb
  · exact hS b hb
  · exact he.fresh hb

/-- The array of a table that was made from a dense one, after an insertion of a new key. -/
theorem Written.of_promoted {items : List (Option Val)} {p : Nat} {h₂ : Heap}
    (hp : Promoted h items h₁ p t s) (he : Extends h₁ h₂)
    (hitems : ∀ v, some v ∈ items → ∃ b, v = .ref b) (hv : ∃ b, v = .ref b)
    (hnew : hasKey (entriesOf items) x = false) (hins : Inserted h₂ t s x v h' s') :
    Written h S h' p (.promote items x v) := by
  have hpairs := hp.moved.pairs
  have hnext := hp.moved.next
  rw [List.take_length] at hpairs hnext
  have hput : Items.promote items x v = .hash (put s.pairs x v) (nextAfter s.pairs s.next x) := by
    rw [hpairs, hnext, put, nextAfter, hnew]
    rfl
  rw [hput]
  refine .of_inserted (.of_extends (hp.moved.extends_.trans he)) (he _ _ hp.cell)
    (hp.moved.table.extends he) (fun q hq => ?_) hv (fun b hb => .inr (hp.moved.fresh b hb)) hins
  rw [hpairs] at hq
  obtain ⟨i, u, hu, rfl⟩ := mem_entriesOf.mp hq
  exact hitems u (List.mem_of_getElem? hu)

end Insert

/-! ## Stores -/

section Store

variable {a r cap : Nat} {items : List (Option Val)} {v : Val} {f : String}

/-- The last part of a store into a dense array: the element and the length. -/
def storeDense : Code :=
  seq [
    load 4, load 1, [.i32WrapI64], load 2, [.arraySet Shape.dense],
    load 1, valueField 0 .int, [.i64Rel .geS],
      when (seq [load 0, load 1, const64 1, [.i64 .add], setValueField .int]),
    load 0]

theorem storeDense_wp (hi : Installed m l) {i : Nat} {ls : List Val} {p : Val}
    (hd : DenseAt h a r cap items) (hv : ∃ b, v = .ref b) (hic : i < cap)
    (hq : ∀ h', DenseAt h' a r cap (setAt items i v) → Keeps [a, r] h h' →
      Q.returned [.ref a] h' w) :
    m.wp ⟨f, 1, d⟩ storeDense [] Q
      ⟨h, w, .ref a :: .i64 (Int64.ofNat i) :: v :: p :: .ref r :: ls, []⟩ := by
  obtain ⟨ha, hr, hlen, hcap, hitems⟩ := hd
  have har : a ≠ r := ne_of_type ha hr (show Shape.value ≠ Shape.dense by decide)
  have hmod : i % 4294967296 = i := Nat.mod_eq_of_lt (by omega)
  obtain ⟨h₁, hh₁⟩ : ∃ h₁ : Heap, h.setElem r i v = h₁ := ⟨_, rfl⟩
  have hk₁ : Keeps [a, r] h h₁ := hh₁ ▸ .setElem (by simp)
  have ha₁ : h₁[a]? = some (valueCell .array (Int64.ofNat items.length) 0 .null (.ref r)) := by
    rw [← hh₁, Heap.setElem_other har, ha]
  have hr₁ : h₁[r]? = some (.array Shape.dense (elemsOf cap (setAt items i v))) := by
    rw [← hh₁, Heap.setElem_same hr, elemsOf_setAt hic]
  have hitems₁ : ∀ u, some u ∈ setAt items i v → ∃ b, u = .ref b := by
    intro u hu
    rcases mem_setAt hu with rfl | hu
    · exact hv
    · exact hitems u hu
  have hle := Int64.ofNat_le_iff_le (a := items.length) (b := i) (by omega) (by omega)
  have ha₁' := ha₁
  simp only [valueCell] at ha₁'
  have hlength := length_setAt items i v
  simp [storeDense, hr, hmod, hic, hi.dense, stored?, hh₁, ha₁', hle]
  split <;> rename_i hil
  · rw [if_neg (by omega)] at hlength
    have hr₂ := hr₁
    rw [← Heap.setField_other har.symm] at hr₂
    refine hq _ ⟨?_, hr₂, by omega, hcap, hitems₁⟩ (hk₁.trans (.setField (by simp)))
    rw [Heap.setField_same ha₁, hlength, Int64.ofNat_add]
    rfl
  · rw [if_pos (by omega)] at hlength
    exact hq _ ⟨hlength ▸ ha₁, hr₁, by omega, hcap, hitems₁⟩ hk₁

/-- The middle part of a store that grows a dense array: a longer array with the old elements. -/
def moveCells : Code :=
  seq [
    load 6, [.arrayNewDefault Shape.dense], store 7,
    load 7, const32 0, load 4, const32 0, load 5, [.arrayCopy Shape.dense Shape.dense],
    load 0, load 7, setValueField .ref,
    load 7, store 4]

@[simp] theorem nests_moveCells : Nests moveCells [] := by simp [moveCells]

theorem moveCells_wp (hi : Installed m l) {cap' : Nat} {rest : Code} {conts : List Cont}
    {i p nd : Val} (hd : DenseAt h a r cap items) (hcap : cap ≤ cap') (hcap' : cap' < 2 ^ 31)
    (hq : ∀ h', DenseAt h' a h.size cap' items → Keeps [a] h h' →
      m.wp ⟨f, 1, d⟩ rest conts Q ⟨h', w, [.ref a, i, v, p, .ref h.size, .i32 (num cap),
        .i32 (num cap'), .ref h.size], []⟩) :
    m.wp ⟨f, 1, d⟩ (moveCells ++ rest) conts Q
      ⟨h, w, [.ref a, i, v, p, .ref r, .i32 (num cap), .i32 (num cap'), nd], []⟩ := by
  obtain ⟨ha, hr, hlen, -, hitems⟩ := hd
  have hpos := not_num_lt_zero hcap'
  have hpos₀ := not_num_lt_zero (show cap < 2 ^ 31 by omega)
  have hsize : a ≠ h.size := ne_size ha
  obtain ⟨h₁, hh₁⟩ : ∃ h₁ : Heap,
    Array.push h (.array Shape.dense (elemsOf cap' items)) = h₁ := ⟨_, rfl⟩
  have hext : Extends h h₁ := hh₁ ▸ .push h _
  have ha₁ := hext _ _ ha
  have hnew := getElem?_push_size h (.array Shape.dense (Array.replicate cap' .null))
  have hold := Extends.push h (.array Shape.dense (Array.replicate cap' .null)) _ _ hr
  have hextract : (elemsOf cap items).extract 0 cap = elemsOf cap items := by
    have : (elemsOf cap items).extract 0 (elemsOf cap items).size = elemsOf cap items :=
      Array.extract_size
    rwa [size_elemsOf] at this
  have hwrite := write_elemsOf hlen hcap
  have ha₁' := ha₁
  simp only [valueCell] at ha₁'
  simp [moveCells, hpos, hi.dense, hold, toInt_num hcap', toInt_num (show cap < 2 ^ 31 by omega),
    hextract, hwrite, hh₁, ha₁']
  rw [if_neg (by omega)]
  refine hq _ ⟨?_, ?_, by omega, hcap', hitems⟩ ((Keeps.of_extends hext).trans (.setField (by simp)))
  · rw [Heap.setField_same ha₁]
    rfl
  · rw [Heap.setField_other hsize.symm, ← hh₁, getElem?_push_size]

/-- The length that the array of a dense array value grows to for an index, in machine words: twice its
own, or what the index needs if that is more. -/
def grownLength (length index : Int32) : Int32 :=
  if 2 * length < index + 1 then index + 1 else 2 * length

theorem grownLength_num (cap n : Nat) : grownLength (num cap) (num n) =
    if num (2 * cap) < num (n + 1) then num (n + 1) else num (2 * cap) := by
  have htwice : 2 * num cap = num (2 * cap) := (Int32.ofNat_mul 2 cap).symm
  rw [grownLength, htwice, num_add_one]

/-- The length has room for the index, also where twice the old one is no 32-bit number. -/
theorem grownLength_fits {n : Nat} (hn : cap ≤ n) (hmax : n + 1 < 2 ^ 31) :
    ∃ cap', grownLength (num cap) (num n) = num cap' ∧ n < cap' ∧ cap' < 2 ^ 31 := by
  rw [grownLength_num]
  split <;> rename_i hlt
  · exact ⟨n + 1, rfl, by omega, hmax⟩
  · rcases Nat.lt_or_ge (2 * cap) (2 ^ 31) with hfits | hbig
    · rw [num_lt_num hfits hmax] at hlt
      exact ⟨2 * cap, rfl, by omega, hfits⟩
    · have hneg := num_lt_zero hbig (show 2 * cap < 2 ^ 32 by omega)
      have hpos := not_num_lt_zero hmax
      rw [Int32.not_lt] at hpos
      exact absurd (Int32.lt_of_lt_of_le hneg hpos) hlt

/-- The array of the elements after a store under an index: the one from before if the index is in it,
else a new one of the length that was computed. -/
inductive Backing (h : Heap) (r cap n : Nat) : Nat → Nat → Prop
  | same (hn : n < cap) : Backing h r cap n r cap
  | grown {r' cap' : Nat} (hn : cap ≤ n) (hr : h[r']? = none)
    (hc : grownLength (num cap) (num n) = num cap') (hlt : n < cap') : Backing h r cap n r' cap'

/-- The part of a store under an index of a dense array. -/
def setDense (l : Links) : Code :=
  seq [
    load 1, const64 denseMaxIndex, [.i64Rel .gtS], when (l.call .illegalOffset),
    denseOf 0, store 4,
    load 4, [.arrayLen], store 5,
    load 1, load 5, [.i64ExtendI32U, .i64Rel .geS], when (seq [
      load 5, const32 1, [.i32 .shl], store 6,
      load 1, [.i32WrapI64], const32 1, [.i32 .add], load 6, [.i32 .gtS],
        when (seq [load 1, [.i32WrapI64], const32 1, [.i32 .add], store 6]),
      moveCells]),
    storeDense]

theorem setDense_wp (hi : Installed m l) {n : Nat} (hd : DenseAt h a r cap items)
    (hv : ∃ b, v = .ref b) (hn : n + 1 < 2 ^ 31)
    (hq : ∀ h' r' cap', DenseAt h' a r' cap' (setAt items n v) → Backing h r cap n r' cap' →
      Keeps [a, r] h h' → Q.returned [.ref a] h' w) :
    m.wp ⟨f, 1, d⟩ (setDense l) [] Q
      ⟨h, w, [.ref a, .i64 (Int64.ofNat n), v, .null, .null, .i32 0, .i32 0, .null], []⟩ := by
  obtain ⟨ha, hr, hlen, hcap, hitems⟩ := hd
  have htype := typeOf_dense hr
  have hmax : ¬ denseMaxIndex < Int64.ofNat n := by
    rw [Int64.not_lt]
    exact (Int64.ofNat_le_iff_le (b := 2147483646) (by omega) (by decide)).mpr (by omega)
  have hgrow : Int64.ofNat cap ≤ Int64.ofNat n ↔ cap ≤ n := Int64.ofNat_le_iff_le (by omega) (by omega)
  have hextend : extendU (num cap) = Int64.ofNat cap := extendU_num (by omega)
  have ha' := ha
  simp only [valueCell] at ha'
  have hnext : Int32.ofNat n + 1 = num (n + 1) := num_add_one n
  -- whichever length is chosen, the elements are moved and the store goes to the longer array
  have hmove (hcn : cap ≤ n) {c : Int32} (hc : grownLength (num cap) (num n) = c) :
      m.wp ⟨f, 1, d⟩ moveCells [Cont.block (seq [storeDense]) 0 0] Q
        ⟨h, w, [.ref a, .i64 (Int64.ofNat n), v, .null, .ref r, .i32 (num cap), .i32 c,
          .null], []⟩ := by
    obtain ⟨cap', hcap', hlt, hbound⟩ := grownLength_fits hcn hn
    rw [← hc, hcap', ← List.append_nil moveCells]
    refine moveCells_wp hi ⟨ha, hr, hlen, hcap, hitems⟩ (by omega) hbound fun h₁ hd₁ hk₁ => ?_
    simp
    refine storeDense_wp hi hd₁ hv hlt fun h' hd' hk => ?_
    refine hq h' _ _ hd' (.grown hcn (by simp) hcap' hlt) ((hk₁.mono ?_).step hk ?_) <;> simp
  simp [setDense, hmax, ha', htype, hr, hextend, hgrow, num_shl_one, hnext]
  split <;> rename_i hcn
  · split <;> rename_i hlt
    · refine hmove hcn ?_
      rw [grownLength_num, if_pos hlt]
    · refine hmove hcn ?_
      rw [grownLength_num, if_neg hlt]
  · refine storeDense_wp hi ⟨ha, hr, hlen, hcap, hitems⟩ hv (by omega) fun h' hd' hk => ?_
    exact hq h' _ _ hd' (.same (by omega)) hk

/-- A store under an index that is beyond those of a dense array ends the run before anything is
stored. -/
theorem setDense_traps (hi : Installed m l) (hr : Room m d (k + 1)) {i : Int64} {ls : List Val}
    {arr : Val} (hmax : denseMaxIndex < i)
    (hq : Q.trapped "rt.illegal_offset" .unreachable h w) :
    m.wp ⟨f, 1, d⟩ (setDense l) [] Q ⟨h, w, arr :: .i64 i :: ls, []⟩ := by
  simp [setDense, hmax, wp_call_routine hi]
  refine illegalOffset_calls hi hr ?_
  exact hq

theorem hasKey_negative {i : Int64} (hlen : items.length < 2 ^ 31) (hneg : i < 0) :
    hasKey (entriesOf items) (.int i) = false := by
  refine hasKey_entriesOf trivial fun j hj heq => ?_
  rw [← Value.int.inj heq] at hneg
  exact not_ofNat_lt_zero (by omega) hneg

theorem arrSetInt_code : (arrSetInt l).code =
    seq [
      load 0, l.call .isHash,
        when (give (seq [tableOf 0, load 1, l.call .newInt, load 2, l.call .hashInsert, load 0])),
      load 1, const64 0, [.i64Rel .ltS], when (seq [
        load 0, l.call .arrPromote, store 3,
        tableOf 3, load 1, l.call .newInt, load 2, l.call .hashInsert,
        give (load 3)])] ++ setDense l := by
  simp [arrSetInt, setDense, moveCells, storeDense, seq]

section SetInt

variable {S : List Nat} {s : Items} {i : Int64}

/-- A store under an integer that is not negative comes to the part for dense arrays. -/
theorem arrSetInt_list (hi : Installed m l) (hr : Room m d (k + 6)) {n : Int64} {elems : Array Val}
    (ha : h[a]? = some (valueCell .array n 0 .null (.ref r)))
    (hd : h[r]? = some (.array Shape.dense elems)) (hpos : ¬ i < 0)
    (hq : m.wp ⟨"rt.arr_set_int", 1, d + 1⟩ (setDense l) [] Q.later
      ⟨h, w, [.ref a, .i64 i, v, .null, .null, .i32 0, .i32 0, .null], []⟩) :
    m.Calls d (l.index .arrSetInt) [.ref a, .i64 i, v] h w Q := by
  have hr' := hr.inner
  refine calls_routine hi hr ?_
  have hlocals : (Routine.body l .arrSetInt).locals.map Val.zero =
    [.null, .null, .i32 0, .i32 0, .null] := rfl
  have hcode : (Routine.body l .arrSetInt).code = (arrSetInt l).code := rfl
  rw [hlocals, hcode, arrSetInt_code]
  have htype := typeOf_dense hd
  simp [wp_call_routine hi]
  refine isHash_calls (k := k + 4) hi hr' ha ?_
  simp [htype, hpos]
  exact hq

/-- A store under an index of a dense array. -/
theorem arrSetInt_dense (hi : Installed m l) (hr : Room m d (k + 6)) {n : Nat}
    (hd : DenseAt h a r cap items) (hv : ∃ b, v = .ref b) (hn : n + 1 < 2 ^ 31)
    (hq : ∀ h' r' cap', DenseAt h' a r' cap' (setAt items n v) → Backing h r cap n r' cap' →
      Keeps [a, r] h h' → Q.returned [.ref a] h' w) :
    m.Calls d (l.index .arrSetInt) [.ref a, .i64 (Int64.ofNat n), v] h w Q :=
  arrSetInt_list hi hr hd.value hd.cells (not_ofNat_lt_zero (by omega))
    (setDense_wp hi hd hv hn hq)

/-- A store under an index leaves the array in its place. -/
theorem Backing.landed {n r' cap' : Nat} {h' : Heap} (hd' : DenseAt h' a r' cap' (setAt items n v))
    (hb : Backing h r cap n r' cap') (hk : Keeps [a, r] h h') :
    Landed h a [a, r] h' (.dense (setAt items n v)) false a := by
  refine .inPlace ⟨⟨_, hd'.array, fun b hmem => ?_⟩, hk⟩
  rcases List.mem_cons.mp hmem with rfl | hmem
  · exact .inl (by simp)
  · rw [List.mem_singleton.mp hmem]
    cases hb with
    | same => exact .inl (by simp)
    | grown _ hr => exact .inr hr

/-- A store under an integer: it returns the array with the new contents, in its place or in a copy.
It ends the run if there is no room, or under an index beyond those of a dense array. Then all cells
from before are as they were. -/
theorem arrSetInt_total (hi : Installed m l) (hr : Room m d (k + 6)) (ha : ArrayAt h a s S)
    (hv : ∃ b, v = .ref b)
    (hq : ¬ s.Beyond (.int i) → ∀ h' a', Landed h a S h' (s.setInt i v) (s.promotes (.int i)) a' →
      Q.returned [.ref a'] h' w)
    (hfull : s.Full (.int i) → ∀ g h', Extends h h' → Q.trapped g .negativeLength h' w)
    (hbeyond : s.Beyond (.int i) → Q.trapped "rt.illegal_offset" .unreachable h w) :
    m.Calls d (l.index .arrSetInt) [.ref a, .i64 i, v] h w Q := by
  have hr' := hr.inner
  have hlocals : (Routine.body l .arrSetInt).locals.map Val.zero =
    [.null, .null, .i32 0, .i32 0, .null] := rfl
  have hcode : (Routine.body l .arrSetInt).code = (arrSetInt l).code := rfl
  cases ha with
  | @hash t s ha ht hvalues =>
    have ha' := ha
    simp only [valueCell] at ha'
    have htype := ht.typeOf
    have hext := Extends.push h (valueCell .int i 0 .null .null)
    refine calls_routine hi hr ?_
    rw [hlocals, hcode, arrSetInt_code]
    simp [wp_call_routine hi]
    refine isHash_calls (k := k + 4) hi hr' ha ?_
    simp [htype, ha', wp_call_routine hi]
    refine newInt_calls (k := k + 4) hi hr' ?_
    simp [wp_call_routine hi]
    refine hashInsert_total (k := k + 1) (x := .int i) hi hr' (ht.extends hext)
      (.int (getElem?_push_size _ _)) trivial (fun h' s' hins => ?_) fun hf g => ?_
    · simp
      exact hq (Items.not_beyond_hash _) h' a (.inPlace (.of_inserted (.of_extends hext) (hext _ _ ha)
        (ht.extends hext) hvalues hv (fun b hb => .inl hb) hins))
    · exact hfull ⟨hf, fun items hs => by cases hs⟩ g _ hext
  | @dense r cap items ha hd hlen hcap hitems =>
    by_cases hneg : i < 0
    · have hpromotes : (Items.dense items).promotes (.int i) = true := decide_eq_true hneg
      have hnew : hasKey (entriesOf items) (.int i) = false := hasKey_negative (by omega) hneg
      have htype := typeOf_dense hd
      have hbelow : ¬ denseMaxIndex < i := fun hmax => Int64.lt_irrefl (Int64.lt_trans hneg
        (Int64.lt_trans (show 0 < denseMaxIndex by decide) hmax))
      simp only [Items.setInt, if_pos hneg, hpromotes] at hq
      refine calls_routine hi hr ?_
      rw [hlocals, hcode, arrSetInt_code]
      simp [wp_call_routine hi]
      refine isHash_calls (k := k + 4) hi hr' ha ?_
      simp [htype, hneg, wp_call_routine hi]
      refine arrPromote_calls (k := k) hi hr' (.dense ha hd hlen hcap hitems) (fun hmany g H he => ?_)
        fun h₁ p t s hp => ?_
      · exact hfull ⟨⟨hnew, hmany.le⟩, fun _ _ => hpromotes⟩ g H he
      have hp' := hp.cell
      simp only [valueCell] at hp'
      have htype₁ := hp.moved.table.typeOf
      have hext := Extends.push h₁ (valueCell .int i 0 .null .null)
      simp [hp', htype₁, wp_call_routine hi]
      refine newInt_calls (k := k + 4) hi hr' ?_
      simp [wp_call_routine hi]
      refine hashInsert_total (k := k + 1) (x := .int i) hi hr' (hp.moved.table.extends hext)
        (.int (getElem?_push_size _ _)) trivial (fun h' s' hins => ?_) fun hf g => ?_
      · simp
        exact hq (Items.not_beyond_int hbelow) h' p
          (.copied hp.new (.of_promoted hp hext hitems hv hnew hins))
      · exact hfull ⟨hp.full hf, fun _ _ => hpromotes⟩ g _ (hp.moved.extends_.trans hext)
    · have hpromotes : (Items.dense items).promotes (.int i) = false := decide_eq_false hneg
      simp only [Items.setInt, if_neg hneg, hpromotes] at hq
      by_cases hmax : denseMaxIndex < i
      · exact arrSetInt_list hi hr ha hd hneg
          (setDense_traps hi hr' hmax (hbeyond ⟨items, i, rfl, rfl, hmax⟩))
      · obtain ⟨n, hn, rfl⟩ := exists_index hneg
        have hle : n ≤ 2147483646 :=
          (Int64.ofNat_le_iff_le hn (by decide)).mp (Int64.not_lt.mp hmax)
        rw [toNatClampNeg_ofNat hn] at hq
        exact arrSetInt_dense hi hr ⟨ha, hd, hlen, hcap, hitems⟩ hv (by omega)
          fun h' r' cap' hd' hb hk => hq (Items.not_beyond_int hmax) h' a (hb.landed hd' hk)

end SetInt

theorem ArrayAt.extends {h' : Heap} {S : List Nat} {s : Items} (ha : ArrayAt h a s S)
    (he : Extends h h') : ArrayAt h' a s S := by
  cases ha with
  | dense ha hr hlen hcap hitems => exact .dense (he _ _ ha) (he _ _ hr) hlen hcap hitems
  | hash ha ht hvalues => exact .hash (he _ _ ha) (ht.extends he) hvalues

/-- A store after cells were made is a store. -/
theorem Written.of_extends {h₁ h' : Heap} {S : List Nat} {s : Items} (he : Extends h h₁)
    (hw : Written h₁ S h' a s) : Written h S h' a s := by
  obtain ⟨S', harr, hS'⟩ := hw.array
  refine ⟨⟨S', harr, fun b hb => ?_⟩, (Keeps.of_extends he).trans hw.keeps⟩
  exact (hS' b hb).imp_right he.fresh

theorem Landed.of_extends {h₁ h' : Heap} {S : List Nat} {s : Items} {copy : Bool} {a' : Nat}
    (he : Extends h h₁) (hl : Landed h₁ a S h' s copy a') : Landed h a S h' s copy a' := by
  cases hl with
  | inPlace hw => exact .inPlace (hw.of_extends he)
  | copied hp hw => exact .copied (he.fresh hp) (hw.of_extends he)

theorem hasKey_str {bs : Bytes} : hasKey (entriesOf items) (.str bs) = false :=
  hasKey_entriesOf trivial fun _ _ => nofun

/-- The part of a store behind the normalization of its key. -/
def setUnder (l : Links) : Code :=
  seq [
    load 0, l.call .isHash,
      when (give (seq [tableOf 0, load 3, load 2, l.call .hashInsert, load 0])),
    tagIs 3 .int,
      when (give (seq [load 0, valueField 3 .int, load 2, l.call .arrSetInt])),
    load 0, l.call .arrPromote, store 4,
    tableOf 4, load 3, load 2, l.call .hashInsert,
    load 4]

theorem setUnder_wp (hi : Installed m l) (hr : Room m d (k + 6)) {S : List Nat} {s : Items}
    {u key : Val} {x : Value} (ha : ArrayAt h a s S) (hk : Boxed h key x) (hx : IsKey x)
    (hv : ∃ b, v = .ref b)
    (hq : ¬ s.Beyond x → ∀ h' a', Landed h a S h' (s.set x v) (s.promotes x) a' →
      Q.returned [.ref a'] h' w)
    (hfull : s.Full x → ∀ g h', Extends h h' → Q.trapped g .negativeLength h' w)
    (hbeyond : s.Beyond x → Q.trapped "rt.illegal_offset" .unreachable h w) :
    m.wp ⟨f, 1, d⟩ (setUnder l) [] Q ⟨h, w, [.ref a, u, v, key, .null], []⟩ := by
  have hwhole := ha
  cases ha with
  | @hash t s ha ht hvalues =>
    have ha' := ha
    simp only [valueCell] at ha'
    have htype := ht.typeOf
    have hset : (Items.hash s.pairs s.next).set x v =
        .hash (put s.pairs x v) (nextAfter s.pairs s.next x) := by
      cases x <;> rfl
    rw [hset] at hq
    simp [setUnder, wp_call_routine hi]
    refine isHash_calls (k := k + 5) hi hr ha ?_
    simp [htype, ha', wp_call_routine hi]
    refine hashInsert_total (k := k + 2) hi hr ht hk hx (fun h' s' hins => ?_) fun hf g => ?_
    · simp
      exact hq (Items.not_beyond_hash _) h' a
        (.inPlace (.of_inserted (.refl _ _) ha ht hvalues hv (fun b hb => .inl hb) hins))
    · exact hfull ⟨hf, fun items hs => by cases hs⟩ g _ (.refl h)
  | @dense r cap items ha hd hlen hcap hitems =>
    have htype := typeOf_dense hd
    have hk' := hk
    simp [setUnder, wp_call_routine hi]
    refine isHash_calls (k := k + 5) hi hr ha ?_
    cases hk' with
    | @int b i hb =>
      simp only [valueCell] at hb
      simp [htype, hb, wp_call_routine hi]
      refine arrSetInt_total (k := k) hi hr hwhole hv (fun hno h' a' hl => ?_) hfull hbeyond
      simp
      exact hq hno h' a' hl
    | @str b _ bs hb =>
      simp only [valueCell] at hb
      simp [htype, hb, wp_call_routine hi]
      refine arrPromote_calls (k := k + 1) hi hr hwhole (fun hmany g H he => ?_) fun h₁ p t s hp => ?_
      · exact hfull ⟨⟨hasKey_str, hmany.le⟩, fun _ _ => rfl⟩ g H he
      have hp' := hp.cell
      simp only [valueCell] at hp'
      have htype₁ := hp.moved.table.typeOf
      simp [hp', htype₁, wp_call_routine hi]
      refine hashInsert_total (k := k + 2) hi hr hp.moved.table (hk.mono hp.moved.extends_) hx
        (fun h' s' hins => ?_) fun hf g => ?_
      · simp
        exact hq Items.not_beyond_str h' p
          (.copied hp.new (.of_promoted hp (.refl _) hitems hv hasKey_str hins))
      · exact hfull ⟨hp.full hf, fun _ _ => rfl⟩ g _ hp.moved.extends_
    | null | bool | float | array | object => exact hx.elim

/-- A store under a key: as under an integer, and a value that stands for no key ends the run, too. -/
theorem arrSet_total (hi : Installed m l) (hr : Room m d (k + 7)) {S : List Nat} {s : Items}
    {u : Val} {x : Value} (ha : ArrayAt h a s S) (hu : Boxed h u x) (hv : ∃ b, v = .ref b)
    (hq : HasKey x → ¬ s.Beyond x.normalizeKey → ∀ h' a',
      Landed h a S h' (s.set x.normalizeKey v) (s.promotes x.normalizeKey) a' →
      Q.returned [.ref a'] h' w)
    (hfull : HasKey x → s.Full x.normalizeKey → ∀ g h', Extends h h' →
      Q.trapped g .negativeLength h' w)
    (hillegal : ¬ HasKey x ∨ s.Beyond x.normalizeKey → ∀ h', Extends h h' →
      Q.trapped "rt.illegal_offset" .unreachable h' w) :
    m.Calls d (l.index .arrSet) [.ref a, u, v] h w Q := by
  have hr' := hr.inner
  refine calls_routine hi hr ?_
  have hlocals : (Routine.body l .arrSet).locals.map Val.zero = [.null, .null] := rfl
  have hcode : (Routine.body l .arrSet).code =
      seq [load 1, l.call .normalizeKey, store 3] ++ setUnder l := by
    simp [Routine.body, arrSet, setUnder, seq]
  rw [hlocals, hcode]
  simp [wp_call_routine hi]
  refine normalizeKey_calls (k := k + 4) hi hr' hu (fun hx key h₁ hext hkey => ?_) fun hx => ?_
  · simp
    exact setUnder_wp hi hr' (ha.extends hext) hkey hx.isKey_normalizeKey hv
      (fun hno h' a' hl => hq hx hno h' a' (hl.of_extends hext))
      (fun hf g h' he => hfull hx hf g h' (hext.trans he)) fun hb => hillegal (.inr hb) _ hext
  · exact hillegal (.inl hx) _ (.refl h)

/-- Appending is a store under the next free integer. -/
theorem arrPush_total (hi : Installed m l) (hr : Room m d (k + 7)) {S : List Nat} {s : Items}
    (ha : ArrayAt h a s S) (hv : ∃ b, v = .ref b)
    (hq : ¬ s.Beyond (.int s.free) → ∀ h' a',
      Landed h a S h' (s.push v) (s.promotes (.int s.free)) a' → Q.returned [.ref a'] h' w)
    (hfull : s.Full (.int s.free) → ∀ g h', Extends h h' → Q.trapped g .negativeLength h' w)
    (hbeyond : s.Beyond (.int s.free) → Q.trapped "rt.illegal_offset" .unreachable h w) :
    m.Calls d (l.index .arrPush) [.ref a, v] h w Q := by
  have hr' := hr.inner
  have hwhole := ha
  refine calls_routine hi hr ?_
  cases ha with
  | @hash t s ha ht hvalues =>
    have ha' := ha
    simp only [valueCell] at ha'
    have hcell := ht.cell
    simp only [tableCell] at hcell
    have htype := ht.typeOf
    have hext := Extends.push h (valueCell .int s.next 0 .null .null)
    simp [Routine.body, arrPush, Routine.results, wp_call_routine hi]
    refine isHash_calls (k := k + 5) hi hr' ha ?_
    simp [htype, ha', hcell, wp_call_routine hi]
    refine newInt_calls (k := k + 5) hi hr' ?_
    simp [wp_call_routine hi]
    refine hashInsert_total (k := k + 2) (x := .int s.next) hi hr' (ht.extends hext)
      (.int (getElem?_push_size _ _)) trivial (fun h' s' hins => ?_) fun hf g => ?_
    · simp
      exact hq (Items.not_beyond_hash _) h' a (.inPlace (.of_inserted (.of_extends hext) (hext _ _ ha)
        (ht.extends hext) hvalues hv (fun b hb => .inl hb) hins))
    · exact hfull ⟨hf, fun items hs => by cases hs⟩ g _ hext
  | @dense r cap items ha hd hlen hcap hitems =>
    have ha' := ha
    simp only [valueCell] at ha'
    have htype := typeOf_dense hd
    simp [Routine.body, arrPush, Routine.results, wp_call_routine hi]
    refine isHash_calls (k := k + 5) hi hr' ha ?_
    simp [htype, ha', wp_call_routine hi]
    refine arrSetInt_total (k := k) hi hr' hwhole hv (fun hno h' a' hl => ?_) hfull hbeyond
    simp
    exact hq hno h' a' hl

end Store

/-! ## Reads -/

section Read

variable {a : Nat} {S : List Nat} {s : Items}

theorem arrNew_calls (hi : Installed m l) (hr : Room m d (k + 1))
    (hq : ∀ h' a S, Extends h h' → ArrayAt h' a (.dense []) S → Q.returned [.ref a] h' w) :
    m.Calls d (l.index .arrNew) [] h w Q := by
  refine calls_routine hi hr ?_
  have hnew : Array.replicate 8 Val.null = elemsOf 8 [] := rfl
  simp [Routine.body, arrNew, Routine.results, denseCapacity, hi.dense, hi.value]
  rw [hnew]
  have hcells := getElem?_push_size h (.array Shape.dense (elemsOf 8 []))
  exact hq _ _ _ ((Extends.push _ _).trans (.push _ _)) (.dense (getElem?_push_at (by simp) _)
    (Extends.push _ _ _ _ hcells) (by simp) (by decide) (by simp))

/-- The operand for an answer: the value itself, or a new null if there is none. -/
def Answered (h : Heap) (o : Option Val) (v : Val) : Prop :=
  match o with
  | some u => v = u
  | none => Boxed h v .null

/-- The answer of a table. -/
theorem valueUnder_eq (ps : List (Value × Val)) (next : Int64) (x : Value) :
    valueUnder ps x = slot ((Items.hash ps next).get x) := by
  simp only [valueUnder, Items.get]
  cases ps.find? fun p => p.1.strictEq x <;> rfl

theorem Items.get_hash_ref {ps : List (Value × Val)} {next : Int64} {x : Value} {v : Val}
    (hps : ∀ p ∈ ps, ∃ b, p.2 = .ref b) (hv : (Items.hash ps next).get x = some v) :
    ∃ b, v = .ref b := by
  obtain ⟨p, hp, rfl⟩ := Option.map_eq_some_iff.mp hv
  exact hps p (List.mem_of_find?_eq_some hp)

theorem arrGetInt_calls (hi : Installed m l) (hr : Room m d (k + 5)) {i : Int64}
    (ha : ArrayAt h a s S)
    (hq : ∀ h' v, Extends h h' → Answered h' (s.get (.int i)) v → Q.returned [v] h' w) :
    m.Calls d (l.index .arrGetInt) [.ref a, .i64 i] h w Q := by
  have hr' := hr.inner
  refine calls_routine hi hr ?_
  cases ha with
  | @hash t s ha ht hvalues =>
    have ha' := ha
    simp only [valueCell] at ha'
    have htype := ht.typeOf
    have hext := Extends.push h (valueCell .int i 0 .null .null)
    simp [Routine.body, arrGetInt, nullUnlessArray, nullIfMissing, Routine.results, ha',
      wp_call_routine hi]
    refine isHash_calls (k := k + 3) hi hr' ha ?_
    simp [htype, ha', wp_call_routine hi]
    refine newInt_calls (k := k + 3) hi hr' ?_
    simp [wp_call_routine hi]
    refine hashLookup_calls (k := k) (x := .int i) hi hr' (ht.extends hext)
      (.int (getElem?_push_size _ _)) trivial ?_
    rw [valueUnder_eq _ s.next]
    cases hget : (Items.hash s.pairs s.next).get (.int i) with
    | none =>
      simp [slot, wp_call_routine hi]
      refine newNull_calls (k := k + 3) hi hr' ?_
      rw [hget] at hq
      simp
      exact hq _ _ (hext.trans (.push _ _)) (.null (getElem?_push_at (by simp) _))
    | some v =>
      obtain ⟨b, rfl⟩ := Items.get_hash_ref hvalues hget
      simp [slot]
      rw [hget] at hq
      exact hq _ _ hext rfl
  | @dense r cap items ha hd hlen hcap hitems =>
    have ha' := ha
    simp only [valueCell] at ha'
    have htype := typeOf_dense hd
    have hnull (hget : (Items.dense items).get (.int i) = none) :
        Q.returned [.ref h.size] (h.push (valueCell .null 0 0 .null .null)) w :=
      hq _ _ (.push _ _) (hget ▸ .null (getElem?_push_size _ _))
    simp [Routine.body, arrGetInt, nullUnlessArray, nullIfMissing, Routine.results, ha',
      wp_call_routine hi]
    refine isHash_calls (k := k + 3) hi hr' ha ?_
    by_cases hneg : i < 0
    · simp [htype, hneg, wp_call_routine hi]
      refine newNull_calls (k := k + 3) hi hr' ?_
      simp
      exact hnull (if_pos hneg)
    · obtain ⟨n, hn, rfl⟩ := exists_index hneg
      have hget : (Items.dense items).get (.int (Int64.ofNat n)) = items[n]?.join := by
        simp only [Items.get, if_neg hneg, toNatClampNeg_ofNat hn]
      have hle := Int64.ofNat_le_iff_le (a := items.length) (b := n) (by omega) hn
      rw [hget] at hq hnull
      rcases Nat.lt_or_ge n items.length with hlt | hge
      · have hmod : n % 4294967296 = n := Nat.mod_eq_of_lt (by omega)
        have hnot : ¬ items.length ≤ n := by omega
        have helem := getElem?_elemsOf items (show n < cap by omega)
        cases ho : items[n]?.join with
        | none =>
          rw [ho] at helem
          simp [htype, hneg, ha', hle, hnot, hd, hmod, helem, slot, wp_call_routine hi]
          refine newNull_calls (k := k + 3) hi hr' ?_
          simp
          exact hnull ho
        | some v =>
          obtain ⟨b, rfl⟩ := hitems v (List.mem_of_getElem? (Option.join_eq_some_iff.mp ho))
          rw [ho] at helem hq
          simp [htype, hneg, ha', hle, hnot, hd, hmod, helem, slot]
          exact hq _ _ (.refl h) rfl
      · simp [htype, hneg, ha', hle, hge, wp_call_routine hi]
        refine newNull_calls (k := k + 3) hi hr' ?_
        simp
        exact hnull (by rw [List.getElem?_eq_none hge]; rfl)

theorem arrGet_calls (hi : Installed m l) (hr : Room m d (k + 6)) {u : Val} {x : Value}
    (ha : ArrayAt h a s S) (hu : Boxed h u x) (hx : HasKey x)
    (hq : ∀ h' v, Extends h h' → Answered h' (s.get x.normalizeKey) v → Q.returned [v] h' w) :
    m.Calls d (l.index .arrGet) [.ref a, u] h w Q := by
  have hr' := hr.inner
  refine calls_routine hi hr ?_
  cases ha with
  | @hash t s ha ht hvalues =>
    have ha' := ha
    simp only [valueCell] at ha'
    simp [Routine.body, arrGet, nullUnlessArray, nullIfMissing, Routine.results, ha',
      wp_call_routine hi]
    refine normalizeKey_calls (k := k + 3) hi hr' hu (fun _ key h₁ hext hkey => ?_) (absurd hx)
    have ht₁ := ht.extends hext
    have ha₁ := hext _ _ ha'
    have htype := ht₁.typeOf
    simp [wp_call_routine hi]
    refine isHash_calls (k := k + 4) hi hr' (hext _ _ ha) ?_
    simp [htype, ha₁, wp_call_routine hi]
    refine hashLookup_calls (k := k + 1) hi hr' ht₁ hkey hx.isKey_normalizeKey ?_
    rw [valueUnder_eq _ s.next]
    cases hget : (Items.hash s.pairs s.next).get x.normalizeKey with
    | none =>
      simp [slot, wp_call_routine hi]
      refine newNull_calls (k := k + 4) hi hr' ?_
      rw [hget] at hq
      simp
      exact hq _ _ (hext.trans (.push _ _)) (.null (getElem?_push_size _ _))
    | some v =>
      obtain ⟨b, rfl⟩ := Items.get_hash_ref hvalues hget
      simp [slot]
      rw [hget] at hq
      exact hq _ _ hext rfl
  | @dense r cap items ha hd hlen hcap hitems =>
    have ha' := ha
    simp only [valueCell] at ha'
    simp [Routine.body, arrGet, nullUnlessArray, nullIfMissing, Routine.results, ha',
      wp_call_routine hi]
    refine normalizeKey_calls (k := k + 3) hi hr' hu (fun _ key h₁ hext hkey => ?_) (absurd hx)
    have hd₁ := hext _ _ hd
    have htype := typeOf_dense hd₁
    have hisKey := hx.isKey_normalizeKey
    simp [wp_call_routine hi]
    refine isHash_calls (k := k + 4) hi hr' (hext _ _ ha) ?_
    generalize x.normalizeKey = y at hq hkey hisKey
    cases hkey with
    | int hb =>
      simp only [valueCell] at hb
      simp [htype, hb, wp_call_routine hi]
      refine arrGetInt_calls (k := k) hi hr' (.dense (hext _ _ ha) hd₁ hlen hcap hitems)
        fun h' v hext' hv => ?_
      simp
      exact hq h' v (hext.trans hext') hv
    | str hb =>
      simp only [valueCell] at hb
      simp [htype, hb, wp_call_routine hi]
      refine newNull_calls (k := k + 4) hi hr' ?_
      simp
      exact hq _ _ (hext.trans (.push _ _)) (.null (getElem?_push_size _ _))
    | null | bool | float | array | object => exact hisKey.elim

theorem arrLength_calls (hi : Installed m l) (hr : Room m d (k + 2)) (ha : ArrayAt h a s S)
    (hq : Q.returned [.i64 (Int64.ofNat s.length)] h w) :
    m.Calls d (l.index .arrCount) [.ref a] h w Q := by
  cases ha with
  | dense ha hd => exact arrCount_calls hi hr ha (.dense hd) hq
  | @hash t s ha ht =>
    have hfits := ht.chained.fits
    have hsize := ht.size_bounds.2
    have hlen : (num s.rows.length).toInt64 = Int64.ofNat s.pairs.length := by
      apply Int64.toInt_inj.mp
      rw [Int32.toInt_toInt64, toInt_num (by omega), Content.pairs, List.length_map,
        Int64.toInt_ofNat_of_lt (by omega)]
    exact arrCount_calls hi hr ha (.hash ht.cell) (hlen ▸ hq)

end Read

end HeapScript.Library
