import HeapScript.Proofs.Compile.Assembly
import HeapScript.Proofs.Execution.Decoding
import HeapScript.Proofs.Library.ArrayMaps

/-!
# Arrays refine ordered maps

Every array that the routines make from an empty one holds what the same operations on `Items` give.
It decodes to these pairs in the order of an iteration, and the routines that read it answer from
them.
-/

namespace HeapScript.Library

open Machine Machine.Processor Code Execution Compile

/-! ## Decoding -/

section Decoding

variable {h : Heap} {a : Nat} {s : Items} {S : List Nat}

def decodePairs (decode : Val → Decode Value) (ps : List (Value × Val)) :
    Decode (List (Value × Value)) :=
  ps.mapM fun p => do return (p.1, ← decode p.2)

theorem decodePairs_cons (decode : Val → Decode Value) (p : Value × Val) (ps : List (Value × Val)) :
    decodePairs decode (p :: ps) = (do
      let value ← decode p.2
      return (p.1, value) :: (← decodePairs decode ps)) := by
  simp [decodePairs]

/-- The elements of a dense array from an index on. -/
theorem denseEntries_eq (decode : Val → Decode Value) {cap : Nat} {items rest : List (Option Val)}
    (pre : List (Option Val)) (hsplit : items = pre ++ rest) (hlen : items.length ≤ cap)
    (hitems : ∀ v, some v ∈ items → ∃ b, v = .ref b) :
    Decode.denseEntries decode (elemsOf cap items) rest.length pre.length =
      decodePairs decode ((rest.zipIdx pre.length).filterMap fun p =>
        p.1.map fun v => (indexKey p.2, v)) := by
  induction rest generalizing pre with
  | nil => rfl
  | cons o rest ih =>
    have hlt : pre.length < cap := by
      rw [hsplit, List.length_append, List.length_cons] at hlen
      omega
    have helem : (elemsOf cap items)[pre.length]? = some (slot o) := by
      rw [getElem?_elemsOf _ hlt, hsplit, List.getElem?_append_right (Nat.le_refl _), Nat.sub_self]
      rfl
    have hrest := ih (pre ++ [o]) (by rw [hsplit, List.append_assoc, List.singleton_append])
    rw [List.length_append, List.length_singleton] at hrest
    rw [List.length_cons, Decode.denseEntries, helem, List.zipIdx_cons]
    cases o with
    | none =>
      simp only [List.filterMap_cons, Option.map_none]
      rw [← hrest]
      rfl
    | some v =>
      obtain ⟨b, rfl⟩ := hitems v (by rw [hsplit]; simp)
      simp only [List.filterMap_cons, Option.map_some]
      rw [decodePairs_cons, ← hrest]
      rfl

/-- The entries of a table from an ordinal on. Their keys decode to themselves, except at a depth where
nothing decodes. -/
theorem hashEntries_eq (dec : Val → Decode Value) {t : Nat} {c : Content} {rest : List Row}
    (pre : List Row) (ht : Table h t c) (hsplit : c.rows = pre ++ rest)
    (hdec : ∀ r ∈ c.rows, dec r.ref = .ok r.key ∨ ∀ v, dec v = .error .broken) :
    Decode.hashEntries h dec
        (slotsOf c.size (c.rows.map (Row.bucket c.size)) (c.rows.map Row.addr)) rest.length
        ((c.size + pre.length : Nat) : Int) =
      decodePairs dec (rest.map fun r => (r.key, r.value)) := by
  induction rest generalizing pre with
  | nil => rfl
  | cons r rest ih =>
    have hrow : c.rows[pre.length]? = some r := by rw [hsplit]; simp
    have hfits := ht.chained.fits
    have hlt : pre.length < c.size := by
      rw [hsplit, List.length_append, List.length_cons] at hfits
      omega
    have hslot : (slotsOf c.size (c.rows.map (Row.bucket c.size))
        (c.rows.map Row.addr))[c.size + pre.length]? = some (.ref r.addr) := by
      rw [slotsOf_entry _ _ hlt]
      simp [slotFor, hrow]
    have hcell := ht.chained.cells _ r hrow
    have hstruct : h.struct? (.ref r.addr) = some (r.addr, #[r.ref, r.value,
        .i32 r.key.hashKey.toInt32, .i32 (link (chainFrom (c.rows.map (Row.bucket c.size))
          (r.bucket c.size) (pre.length + 1)))]) := by
      simp [Heap.struct?, hcell, Row.cell]
    have hrest := ih (pre ++ [r]) (by rw [hsplit, List.append_assoc, List.singleton_append])
    rw [List.length_append, List.length_singleton, ← Nat.add_assoc, Int.natCast_add, Nat.cast_one]
      at hrest
    have hpos : ¬ ((c.size + pre.length : Nat) : Int) < 0 := by omega
    rw [List.length_cons, List.map_cons, decodePairs_cons, ← hrest, Decode.hashEntries, if_neg hpos,
      Int.toNat_natCast, hslot]
    have hkeyField : Decode.field #[r.ref, r.value, .i32 r.key.hashKey.toInt32,
        .i32 (link (chainFrom (c.rows.map (Row.bucket c.size)) (r.bucket c.size)
          (pre.length + 1)))] EntryField.key.index = .ok r.ref := rfl
    rcases hdec r (List.mem_of_getElem? hrow) with hkey | hnone
    · simp only [Decode.need, bind, Except.bind, hstruct, hkeyField, hkey]
      rfl
    · simp only [Decode.need, bind, Except.bind, hstruct, hkeyField, hnone]

section Entries

variable (dec : Val → Decode Value) {tag : Int32} {n : Int64} {x : Float} {str : Val}

theorem entries_dense {r : Nat} {elems : Array Val} (hr : h[r]? = some (.array Shape.dense elems)) :
    Decode.entries h dec #[.i32 tag, .i64 n, .f64 x, str, .ref r] =
      Decode.denseEntries dec elems n.toInt.toNat 0 := by
  have hfield : Decode.field #[.i32 tag, .i64 n, .f64 x, str, .ref r] ValueField.ref.index =
    .ok (.ref r) := rfl
  simp only [Decode.entries, hfield, bind, Except.bind, Heap.array?, hr]
  rfl

theorem entries_table {t b : Nat} {size count : Int32} {next : Int64} {slots : Array Val}
    (ht : h[t]? = some (.struct Shape.hash #[.ref b, .i32 size, .i32 count, .i64 next]))
    (hb : h[b]? = some (.array Shape.buckets slots)) :
    Decode.entries h dec #[.i32 tag, .i64 n, .f64 x, str, .ref t] =
      Decode.hashEntries h dec slots count.toInt.toNat size.toInt := by
  have hfield : Decode.field #[.i32 tag, .i64 n, .f64 x, str, .ref t] ValueField.ref.index =
    .ok (.ref t) := rfl
  have hbuckets : Decode.field #[.ref b, .i32 size, .i32 count, .i64 next] HashField.buckets.index =
    .ok (.ref b) := rfl
  have hslots : Decode.array h #[.ref b, .i32 size, .i32 count, .i64 next] HashField.buckets.index =
      .ok slots := by
    simp only [Decode.array, hbuckets, bind, Except.bind, Heap.array?, hb]
    rfl
  simp only [Decode.entries, hfield, bind, Except.bind, Heap.array?, Heap.struct?, ht, hslots]
  rfl

theorem entries_hash {t : Nat} {c : Content} (ht : Table h t c) :
    Decode.entries h dec #[.i32 tag, .i64 n, .f64 x, str, .ref t] =
      Decode.hashEntries h dec (slotsOf c.size (c.rows.map (Row.bucket c.size))
        (c.rows.map Row.addr)) c.rows.length c.size := by
  have hsize := ht.size_bounds.2
  have hfits := ht.chained.fits
  rw [entries_table dec ht.cell ht.chained.slots, toInt_num (by omega), toInt_num (by omega),
    Int.toNat_natCast]

end Entries

/-- The record of an array decodes to its entries. -/
theorem value_array {n : Int64} {r : Val} (ha : h[a]? = some (valueCell .array n 0 .null r))
    {es : Decode (List (Value × Value))} {depth : Nat}
    (he : Decode.entries h (Decode.value h depth) #[.i32 Tag.array.code, .i64 n, .f64 0, .null, r] =
      es) :
    Decode.value h (depth + 1) (.ref a) = es.map (.array (a + 1)) := by
  have hrec : Decode.record h (Decode.value h depth) a
      #[.i32 Tag.array.code, .i64 n, .f64 0, .null, r] =
        (do return .array (a + 1) (← Decode.entries h (Decode.value h depth)
          #[.i32 Tag.array.code, .i64 n, .f64 0, .null, r])) := rfl
  rw [value_record ha, hrec, he]
  cases es <;> rfl

theorem IsKey.hasKey {x : Value} (hx : IsKey x) : HasKey x := by
  cases x <;> trivial

/-- Decoding an array is decoding the values of its pairs, in order. -/
theorem ArrayAt.value_eq (ha : ArrayAt h a s S) (depth : Nat) :
    Decode.value h (depth + 1) (.ref a) =
      (decodePairs (Decode.value h depth) s.pairs).map (.array (a + 1)) := by
  cases ha with
  | @dense r cap items ha hd hlen hcap hitems =>
    refine value_array ha ?_
    rw [entries_dense _ hd, Int64.toInt_ofNat_of_lt (by omega), Int.toNat_natCast]
    exact denseEntries_eq _ [] rfl hlen hitems
  | @hash t c ha ht hvalues =>
    refine value_array ha ?_
    rw [entries_hash _ ht]
    refine hashEntries_eq _ [] ht rfl fun r hr => ?_
    cases depth with
    | zero => exact .inr fun _ => rfl
    | succ depth =>
      obtain ⟨hkey, hbox⟩ := ht.keyed.keys r hr
      exact .inl (Boxed.value_eq hbox hkey.hasKey depth)

theorem ArrayAt.decode_eq (ha : ArrayAt h a s S) :
    decode h (.ref a) = (decodePairs (Decode.value h h.size) s.pairs).map (.array (a + 1)) :=
  ha.value_eq h.size

end Decoding

/-! ## Arrays made by the routines -/

/-- The arrays that come from an empty one by stores, with what they should hold. Between the calls
other cells may be made. -/
inductive Reached (m : Processor Output) (l : Links) : World Output → Nat → Items → Prop
  | new {w w' : World Output} {a : Nat}
    (h : m.Ends w (l.index .arrNew) [] (.returned [.ref a]) w') : Reached m l w' a (.dense [])
  | more {w w' : World Output} {a : Nat} {s : Items} (h : Reached m l w a s)
    (he : Extends w.heap w'.heap) : Reached m l w' a s
  | set {w w' : World Output} {a b a' : Nat} {s : Items} {u : Val} {x : Value}
    (h : Reached m l w a s) (hu : Boxed w.heap u x) (hx : HasKey x) (hs : s.Allows x.normalizeKey)
    (he : m.Ends w (l.index .arrSet) [.ref a, u, .ref b] (.returned [.ref a']) w') :
    Reached m l w' a' (s.set x.normalizeKey (.ref b))
  | setInt {w w' : World Output} {a b a' : Nat} {s : Items} {i : Int64}
    (h : Reached m l w a s) (hs : s.Allows (.int i))
    (he : m.Ends w (l.index .arrSetInt) [.ref a, .i64 i, .ref b] (.returned [.ref a']) w') :
    Reached m l w' a' (s.setInt i (.ref b))
  | push {w w' : World Output} {a b a' : Nat} {s : Items} (h : Reached m l w a s)
    (hs : s.Allows (.int s.free))
    (he : m.Ends w (l.index .arrPush) [.ref a, .ref b] (.returned [.ref a']) w') :
    Reached m l w' a' (s.push (.ref b))

/-- A call of a routine that stores returns an array with the new contents, and the values without
parts are still there. -/
def Stores (m : Processor Output) (l : Links) (w : World Output) (r : Routine) (args : List Val)
    (s : Items) : Prop :=
  ∃ a w', m.Ends w (l.index r) args (.returned [.ref a]) w' ∧ Reached m l w' a s ∧
    ∀ u x, HasKey x → Boxed w.heap u x → Boxed w'.heap u x

/-- A call of a routine that reads returns the value, or a new null if there is none, and keeps all
that is on the heap. -/
def Reads (m : Processor Output) (l : Links) (w : World Output) (r : Routine) (args : List Val)
    (o : Option Val) : Prop :=
  ∃ v w', m.Ends w (l.index r) args (.returned [v]) w' ∧ Answered w'.heap o v ∧
    Extends w.heap w'.heap

section Calls

variable {m : Processor Output} {l : Links} {w : World Output} {a b : Nat} {s : Items} {S : List Nat}

/-- Stores into an array leave the values without parts. -/
theorem ArrayAt.boxed_keeps {h h' : Heap} (ha : ArrayAt h a s S) (hk : Keeps S h h') {u : Val}
    {x : Value} (hx : HasKey x) (hu : Boxed h u x) : Boxed h' u x := by
  -- the cells of an array are its own record, which has a reference, and cells that are no values
  have hvalue {c : Nat} {t : Tag} {i : Int64} {f : Float} {str : Val}
      (hc : h[c]? = some (valueCell t i f str .null)) : c ∉ S := by
    intro hm
    cases ha with
    | dense ha hd =>
      rcases List.mem_cons.mp hm with rfl | hm
      · rw [ha] at hc
        simp [valueCell] at hc
      · rw [List.mem_singleton.mp hm, hd] at hc
        cases hc
    | hash ha ht => exact (ht.owned_type hm hc).1 rfl
  have hbytes {c : Nat} {elems : Array Val} (hc : h[c]? = some (.array Shape.bytes elems)) :
      c ∉ S := by
    intro hm
    cases ha with
    | dense ha hd =>
      rcases List.mem_cons.mp hm with rfl | hm
      · rw [ha] at hc
        cases hc
      · rw [List.mem_singleton.mp hm, hd] at hc
        cases hc
    | hash ha ht => exact (ht.owned_type hm hc).2 rfl
  cases hu with
  | null hc => exact .null (hk _ _ hc (hvalue hc))
  | bool hc => exact .bool (hk _ _ hc (hvalue hc))
  | int hc => exact .int (hk _ _ hc (hvalue hc))
  | float hc => exact .float (hk _ _ hc (hvalue hc))
  | str hc hs hl =>
    obtain ⟨y, rfl, hy⟩ := hs
    exact .str (hk _ _ hc (hvalue hc)) ⟨y, rfl, hk _ _ hy (hbytes hy)⟩ hl
  | array | object => exact hx.elim

theorem Ready.arrNew (hm : Ready m l) (w : World Output) :
    ∃ a w', m.Ends w (l.index .arrNew) [] (.returned [.ref a]) w' ∧
      ∃ S, ArrayAt w'.heap a (.dense []) S := by
  have hcall : m.Calls 0 (l.index .arrNew) [] w.heap w.host (returning w.host
      fun vs h => ∃ a, vs = [.ref a] ∧ ∃ S, ArrayAt h a (.dense []) S) :=
    arrNew_calls (k := 0) hm.installed (hm.room.mono (by decide))
      fun h' a S _ ha => ⟨⟨a, rfl, S, ha⟩, rfl⟩
  obtain ⟨vs, w', hends, ⟨a, rfl, hS⟩, -⟩ := hm.returns rfl hcall
  exact ⟨a, w', hends, hS⟩

/-- What the rules say of a store, for a whole call. -/
theorem Ready.written (hm : Ready m l) {r : Routine} {args : List Val}
    (hlen : r.params.length = args.length)
    (hcall : m.Calls 0 (l.index r) args w.heap w.host (returning w.host
      fun vs h => ∃ a', vs = [.ref a'] ∧ Written w.heap S h a' s)) :
    ∃ a' w', m.Ends w (l.index r) args (.returned [.ref a']) w' ∧ Written w.heap S w'.heap a' s := by
  obtain ⟨vs, w', hends, ⟨a', rfl, hw⟩, -⟩ := hm.returns hlen hcall
  exact ⟨a', w', hends, hw⟩

theorem Ready.arrSet (hm : Ready m l) (ha : ArrayAt w.heap a s S) {u : Val} {x : Value}
    (hu : Boxed w.heap u x) (hx : HasKey x) (hs : s.Allows x.normalizeKey) :
    ∃ a' w', m.Ends w (l.index .arrSet) [.ref a, u, .ref b] (.returned [.ref a']) w' ∧
      Written w.heap S w'.heap a' (s.set x.normalizeKey (.ref b)) :=
  hm.written rfl (arrSet_total (k := 0) hm.installed (hm.room.mono (by decide)) ha hu ⟨b, rfl⟩
    (fun _ _ _ a' hl => ⟨⟨a', rfl, hl.written⟩, rfl⟩) (fun _ hf => absurd hf hs.not_full)
    fun hno => absurd hno (not_or.mpr ⟨not_not.mpr hx, hs.not_beyond⟩))

theorem Ready.arrSetInt (hm : Ready m l) (ha : ArrayAt w.heap a s S) {i : Int64}
    (hs : s.Allows (.int i)) :
    ∃ a' w', m.Ends w (l.index .arrSetInt) [.ref a, .i64 i, .ref b] (.returned [.ref a']) w' ∧
      Written w.heap S w'.heap a' (s.setInt i (.ref b)) :=
  hm.written rfl (arrSetInt_total (k := 0) hm.installed (hm.room.mono (by decide)) ha ⟨b, rfl⟩
    (fun _ _ a' hl => ⟨⟨a', rfl, hl.written⟩, rfl⟩) (fun hf => absurd hf hs.not_full)
    fun hno => absurd hno hs.not_beyond)

theorem Ready.arrPush (hm : Ready m l) (ha : ArrayAt w.heap a s S) (hs : s.Allows (.int s.free)) :
    ∃ a' w', m.Ends w (l.index .arrPush) [.ref a, .ref b] (.returned [.ref a']) w' ∧
      Written w.heap S w'.heap a' (s.push (.ref b)) :=
  hm.written rfl (arrPush_total (k := 0) hm.installed (hm.room.mono (by decide)) ha ⟨b, rfl⟩
    (fun _ _ a' hl => ⟨⟨a', rfl, hl.written⟩, rfl⟩) (fun hf => absurd hf hs.not_full)
    fun hno => absurd hno hs.not_beyond)

/-- An array that the routines made holds what it should. -/
theorem Reached.array (hm : Ready m l) (h : Reached m l w a s) : ∃ S, ArrayAt w.heap a s S := by
  induction h with
  | @new w w' a h =>
    obtain ⟨a', w'', hends, hS⟩ := hm.arrNew w
    obtain ⟨he, rfl⟩ := hends.unique h
    cases he
    exact hS
  | more _ he ih =>
    obtain ⟨S, ha⟩ := ih
    exact ⟨S, ha.extends he⟩
  | set _ hu hx hs hends ih =>
    obtain ⟨S, ha⟩ := ih
    obtain ⟨a₁, w₁, hends₁, hw⟩ := hm.arrSet ha hu hx hs
    obtain ⟨he, rfl⟩ := hends₁.unique hends
    cases he
    obtain ⟨S', hS', -⟩ := hw.array
    exact ⟨S', hS'⟩
  | setInt _ hs hends ih =>
    obtain ⟨S, ha⟩ := ih
    obtain ⟨a₁, w₁, hends₁, hw⟩ := hm.arrSetInt ha hs
    obtain ⟨he, rfl⟩ := hends₁.unique hends
    cases he
    obtain ⟨S', hS', -⟩ := hw.array
    exact ⟨S', hS'⟩
  | push _ hs hends ih =>
    obtain ⟨S, ha⟩ := ih
    obtain ⟨a₁, w₁, hends₁, hw⟩ := hm.arrPush ha hs
    obtain ⟨he, rfl⟩ := hends₁.unique hends
    cases he
    obtain ⟨S', hS', -⟩ := hw.array
    exact ⟨S', hS'⟩

/-- What the rules say of a store, for the arrays that are reached. -/
theorem ArrayAt.stores (ha : ArrayAt w.heap a s S) {r : Routine} {args : List Val} {s' : Items}
    (hw : ∃ a' w', m.Ends w (l.index r) args (.returned [.ref a']) w' ∧
      Written w.heap S w'.heap a' s')
    (hr : ∀ a' w', m.Ends w (l.index r) args (.returned [.ref a']) w' → Reached m l w' a' s') :
    Stores m l w r args s' := by
  obtain ⟨a', w', hends, hw⟩ := hw
  exact ⟨a', w', hends, hr a' w' hends, fun u x hx hu => ha.boxed_keeps hw.keeps hx hu⟩

/-- What the rules say of a read, for a whole call. -/
theorem Ready.reads (hm : Ready m l) {r : Routine} {args : List Val} {o : Option Val}
    (hlen : r.params.length = args.length)
    (hcall : m.Calls 0 (l.index r) args w.heap w.host (returning w.host
      fun vs h => ∃ v, vs = [v] ∧ Extends w.heap h ∧ Answered h o v)) : Reads m l w r args o := by
  obtain ⟨vs, w', hends, ⟨v, rfl, hext, hv⟩, -⟩ := hm.returns hlen hcall
  exact ⟨v, w', hends, hv, hext⟩

theorem Ready.arrGet (hm : Ready m l) (ha : ArrayAt w.heap a s S) {u : Val} {x : Value}
    (hu : Boxed w.heap u x) (hx : HasKey x) :
    Reads m l w .arrGet [.ref a, u] (s.get x.normalizeKey) :=
  hm.reads rfl (arrGet_calls (k := 0) hm.installed (hm.room.mono (by decide)) ha hu hx
    fun _ v hext hv => ⟨⟨v, rfl, hext, hv⟩, rfl⟩)

theorem Ready.arrGetInt (hm : Ready m l) (ha : ArrayAt w.heap a s S) (i : Int64) :
    Reads m l w .arrGetInt [.ref a, .i64 i] (s.get (.int i)) :=
  hm.reads rfl (arrGetInt_calls (k := 0) hm.installed (hm.room.mono (by decide)) ha
    fun _ v hext hv => ⟨⟨v, rfl, hext, hv⟩, rfl⟩)

theorem Ready.arrCount (hm : Ready m l) (ha : ArrayAt w.heap a s S) :
    ∃ w', m.Ends w (l.index .arrCount) [.ref a] (.returned [.i64 (Int64.ofNat s.length)]) w' ∧
      w'.heap = w.heap := by
  have hcall : m.Calls 0 (l.index .arrCount) [.ref a] w.heap w.host (returning w.host
      fun vs h => vs = [.i64 (Int64.ofNat s.length)] ∧ h = w.heap) :=
    arrLength_calls (k := 0) hm.installed (hm.room.mono (by decide)) ha ⟨⟨rfl, rfl⟩, rfl⟩
  obtain ⟨vs, w', hends, ⟨rfl, hheap⟩, -⟩ := hm.returns rfl hcall
  exact ⟨w', hends, hheap⟩

end Calls

/-! ## Refinement -/

section Refinement

variable {h : Heap} {a : Nat} {s : Items} {S : List Nat}

theorem nodup_entriesOf {items : List (Option Val)} (hlen : items.length < 2 ^ 31) :
    ((entriesOf items).map Prod.fst).Nodup := by
  have hidx : items.zipIdx.Pairwise fun p q => p.2 ≠ q.2 := by
    have := List.nodup_zipIdx_map_snd items
    rwa [List.nodup_iff_pairwise_ne, List.pairwise_map] at this
  rw [List.nodup_iff_pairwise_ne, List.pairwise_map, entriesOf, List.pairwise_filterMap]
  refine hidx.imp_of_mem fun {p q} hp hq hne e he f hf => ?_
  obtain ⟨v, -, rfl⟩ := Option.map_eq_some_iff.mp he
  obtain ⟨u, -, rfl⟩ := Option.map_eq_some_iff.mp hf
  have hpl := List.snd_lt_of_mem_zipIdx hp
  have hql := List.snd_lt_of_mem_zipIdx hq
  exact fun heq => hne ((indexKey_inj (by omega) (by omega)).mp heq)

theorem ArrayAt.nodup (ha : ArrayAt h a s S) : (s.pairs.map Prod.fst).Nodup := by
  cases ha with
  | dense _ _ hlen hcap => exact nodup_entriesOf (by omega)
  | hash _ ht =>
    rw [Items.pairs, Content.pairs, List.map_map]
    exact ht.keyed.distinct

/-- An array whose values have no parts decodes to its keys and these values. -/
theorem ArrayAt.decode_plain (ha : ArrayAt h a s S) {es : List (Value × Value)}
    (hes : List.Forall₂ (fun p e => p.1 = e.1 ∧ HasKey e.2 ∧ Boxed h p.2 e.2) s.pairs es) :
    decode h (.ref a) = .ok (.array (a + 1) es) := by
  have hdepth : ∃ depth, h.size = depth + 1 := by
    have : a < h.size := by
      cases ha with
      | dense ha => exact (Array.getElem?_eq_some_iff.mp ha).1
      | hash ha => exact (Array.getElem?_eq_some_iff.mp ha).1
    exact ⟨h.size - 1, by omega⟩
  obtain ⟨depth, hdepth⟩ := hdepth
  have hpairs : decodePairs (Decode.value h h.size) s.pairs = .ok es := by
    rw [hdepth]
    generalize s.pairs = ps at hes
    induction hes with
    | nil => rfl
    | @cons p e ps es hpe _ ih =>
      obtain ⟨hkey, hx, hbox⟩ := hpe
      rw [decodePairs_cons, ih, Boxed.value_eq hbox hx depth, hkey]
      rfl
  rw [ha.decode_eq, hpairs]
  rfl

end Refinement

/-- On the machine of every compiled program, an array that comes from an empty one by stores holds
what these stores give on `Items`: its keys differ, it decodes to its pairs in order, reading it gives
the value under a key or a new null, and its count is the length. Every further store ends, with the
array that it should give, as long as the indices and the number of pairs are within bounds. -/
theorem arrays_refine_ordered_maps {p : Program} {o : Options} {c : Compiled}
    (hc : (Program.compile p o).outcome = .ok c) :
    ∃ m, machineFor c 0 = .ok m ∧
      (∀ w, ∃ a w', m.Ends w (c.links.index .arrNew) [] (.returned [.ref a]) w') ∧
      ∀ w a s, Reached m c.links w a s →
        (s.pairs.map Prod.fst).Nodup ∧
        decode w.heap (.ref a) =
          (decodePairs (Decode.value w.heap w.heap.size) s.pairs).map (.array (a + 1)) ∧
        (∀ es, List.Forall₂ (fun p e => p.1 = e.1 ∧ HasKey e.2 ∧ Boxed w.heap p.2 e.2) s.pairs es →
          decode w.heap (.ref a) = .ok (.array (a + 1) es)) ∧
        (∀ u x, Boxed w.heap u x → HasKey x →
          Reads m c.links w .arrGet [.ref a, u] (s.get x.normalizeKey)) ∧
        (∀ i, Reads m c.links w .arrGetInt [.ref a, .i64 i] (s.get (.int i))) ∧
        (∃ w', m.Ends w (c.links.index .arrCount) [.ref a]
          (.returned [.i64 (Int64.ofNat s.length)]) w' ∧ w'.heap = w.heap) ∧
        (∀ u x b, Boxed w.heap u x → HasKey x → s.Allows x.normalizeKey →
          Stores m c.links w .arrSet [.ref a, u, .ref b] (s.set x.normalizeKey (.ref b))) ∧
        (∀ i b, s.Allows (.int i) →
          Stores m c.links w .arrSetInt [.ref a, .i64 i, .ref b] (s.setInt i (.ref b))) ∧
        ∀ b, s.Allows (.int s.free) →
          Stores m c.links w .arrPush [.ref a, .ref b] (s.push (.ref b)) := by
  obtain ⟨m, hm, hready⟩ := ready_of_compiled hc
  refine ⟨m, hm, fun w => ?_, fun w a s hreached => ?_⟩
  · obtain ⟨a, w', hends, -⟩ := hready.arrNew w
    exact ⟨a, w', hends⟩
  · obtain ⟨S, ha⟩ := hreached.array hready
    refine ⟨ha.nodup, ha.decode_eq, fun es => ha.decode_plain, fun u x => hready.arrGet ha,
      hready.arrGetInt ha, hready.arrCount ha, fun u x b hu hx hs => ?_, fun i b hs => ?_,
      fun b hs => ?_⟩
    · exact ha.stores (hready.arrSet ha hu hx hs) fun a' w' => .set hreached hu hx hs
    · exact ha.stores (hready.arrSetInt ha hs) fun a' w' => .setInt hreached hs
    · exact ha.stores (hready.arrPush ha hs) fun a' w' => .push hreached hs

/-- Storing 7 under index 2 of an empty array leaves two holes. Storing it under a negative index then
makes the array a table with the pairs in that order. -/
theorem array_with_holes_promoted :
    ∃ c m w a b, (Program.compile [] {}).outcome = .ok c ∧ machineFor c 0 = .ok m ∧
      Reached m c.links w a (.hash [(.int 2, .ref b), (.int (-1), .ref b)] 3) ∧
      decode w.heap (.ref a) = .ok (.array (a + 1) [(.int 2, .int 7), (.int (-1), .int 7)]) := by
  obtain ⟨c, hc⟩ := compile_nothing
  obtain ⟨m, hm, hnew, hall⟩ := arrays_refine_ordered_maps hc
  obtain ⟨a₁, w₁, hends⟩ := hnew ⟨#[], #[], 0⟩
  let w₂ : World Output := ⟨w₁.heap.push (valueCell .int 7 0 .null .null), #[], 0⟩
  have hreached₂ : Reached m c.links w₂ a₁ (.dense []) := (Reached.new hends).more (.push _ _)
  have hbox₂ : Boxed w₂.heap (.ref w₁.heap.size) (.int 7) := .int (getElem?_push_size _ _)
  have hallows₂ : (Items.dense []).Allows (.int 2) := by
    refine ⟨by decide, fun items i _ hi => ?_⟩
    cases hi
    decide
  obtain ⟨-, -, -, -, -, -, -, hset₂, -⟩ := hall w₂ a₁ _ hreached₂
  obtain ⟨a₃, w₃, -, hreached₃, hkeep₃⟩ := hset₂ 2 w₁.heap.size hallows₂
  have hbox₃ := hkeep₃ _ (.int 7) trivial hbox₂
  have hallows₃ : ((Items.dense []).setInt 2 (.ref w₁.heap.size)).Allows (.int (-1)) := by
    refine ⟨by simp [Items.setInt, Items.pairs, setAt, entriesOf], fun items i _ hi => ?_⟩
    cases hi
    decide
  obtain ⟨-, -, -, -, -, -, -, hset₃, -⟩ := hall w₃ a₃ _ hreached₃
  obtain ⟨a₄, w₄, -, hreached₄, hkeep₄⟩ := hset₃ (-1) w₁.heap.size hallows₃
  have hbox₄ := hkeep₄ _ (.int 7) trivial hbox₃
  have hstate : ((Items.dense []).setInt 2 (.ref w₁.heap.size)).setInt (-1) (.ref w₁.heap.size) =
      .hash [(.int 2, .ref w₁.heap.size), (.int (-1), .ref w₁.heap.size)] 3 := rfl
  rw [hstate] at hreached₄
  obtain ⟨-, -, hdecode, -⟩ := hall w₄ a₄ _ hreached₄
  refine ⟨c, m, w₄, a₄, _, hc, hm, hreached₄, hdecode _ ?_⟩
  exact .cons ⟨rfl, trivial, hbox₄⟩ (.cons ⟨rfl, trivial, hbox₄⟩ .nil)

end HeapScript.Library
