import HeapScript.Proofs.Library.StoreEffects

/-!
# Stores into dense arrays at every size

A dense array keeps its elements in an array of cells that grows in 32-bit arithmetic. Twice its length
may be no 32-bit number; the comparison with the length that the index needs then takes the other one, so
that no store under an index up to the largest one is out of bounds.

The last element of a list that stores made is never a hole. The length that truth is read off is
therefore zero only if there is no element at all.
-/

namespace HeapScript.Library

open Machine Machine.Processor Code Execution Compile

/-! ## Lists that end in an element -/

/-- The last element of a list is no hole. -/
def Tight (items : List (Option Val)) : Prop := items.getLast? ≠ some none

section Tight

variable {items : List (Option Val)} {i : Nat} {v : Val}

theorem tight_nil : Tight [] := by
  intro h
  cases h

theorem Tight.setAt (ht : Tight items) (i : Nat) (v : Val) : Tight (setAt items i v) := by
  unfold Library.setAt
  split
  · rename_i hi
    rw [Tight, List.getLast?_eq_getElem?, List.length_set, List.getElem?_set]
    by_cases hlast : i = items.length - 1
    · rw [if_pos hlast, if_pos hi]
      intro h
      cases h
    · rw [if_neg hlast, ← List.getLast?_eq_getElem?]
      exact ht
  · rw [Tight, List.getLast?_concat]
    intro h
    cases h

/-- Such a list has an element unless it is empty. -/
theorem Tight.any_isSome (ht : Tight items) : items.any Option.isSome = !items.isEmpty := by
  cases hlast : items.getLast? with
  | none =>
    rw [List.getLast?_eq_none_iff.mp hlast]
    rfl
  | some o =>
    have hmem := List.mem_of_getLast? hlast
    have hsome : o.isSome = true := by
      cases o with
      | none => exact absurd hlast ht
      | some v => rfl
    rw [List.any_eq_true.mpr ⟨o, hmem, hsome⟩, List.isEmpty_eq_false_iff.mpr (List.ne_nil_of_mem hmem)]
    rfl

/-- The pairs of a list are its elements. -/
theorem isEmpty_entriesOf (items : List (Option Val)) :
    (entriesOf items).isEmpty = !items.any Option.isSome := by
  rw [Bool.eq_iff_iff, Bool.not_eq_true', List.any_eq_false, List.isEmpty_iff,
    List.eq_nil_iff_forall_not_mem]
  constructor
  · intro hnone o ho hsome
    obtain ⟨v, rfl⟩ := Option.isSome_iff_exists.mp hsome
    obtain ⟨i, hi⟩ := List.mem_iff_getElem?.mp ho
    exact hnone _ (mem_entriesOf.mpr ⟨i, v, hi, rfl⟩)
  · intro hnone p hp
    obtain ⟨i, v, hi, rfl⟩ := mem_entriesOf.mp hp
    exact hnone _ (List.mem_of_getElem? hi) rfl

end Tight

namespace Items

/-- A list ends in an element. Nothing is asked of a table. -/
def Tight : Items → Prop
  | dense items => Library.Tight items
  | hash _ _ => True

variable {s : Items}

theorem Tight.setInt (ht : s.Tight) (i : Int64) (v : Val) : (s.setInt i v).Tight := by
  cases s with
  | hash ps next => trivial
  | dense items =>
    simp only [Items.setInt]
    split
    · trivial
    · exact Library.Tight.setAt ht _ v

theorem Tight.set (ht : s.Tight) (x : Value) (v : Val) : (s.set x v).Tight := by
  cases x with
  | int i => exact ht.setInt i v
  | null | bool | float | str | array | object => cases s <;> trivial

end Items

/-! ## Arrays of any size -/

/-- The arrays that come from an empty one by stores that return, with what they should hold. Between
the calls anything may happen that leaves the array. -/
inductive Filled (m : Processor Output) (l : Links) : World Output → Nat → Items → Prop
  | new {w w' : World Output} {a : Nat}
    (h : m.Ends w (l.index .arrNew) [] (.returned [.ref a]) w') : Filled m l w' a (.dense [])
  | more {w w' : World Output} {a : Nat} {s : Items} (h : Filled m l w a s)
    (hk : ∀ S, ArrayAt w.heap a s S → ∃ S', ArrayAt w'.heap a s S') : Filled m l w' a s
  | store {w w' : World Output} {a a' : Nat} {s s' : Items} {r : Routine} {args : List Val}
    (h : Filled m l w a s) (hc : StoreCall w.heap a s r args s')
    (he : m.Ends w (l.index r) args (.returned [.ref a']) w') : Filled m l w' a' s'

section Filled

variable {m : Processor Output} {l : Links} {w : World Output} {a : Nat} {s : Items} {S : List Nat}

theorem StoreEnding.array {h h' : Heap} {a' : Nat}
    (he : StoreEnding h a S s h' (.returned [.ref a'])) : ∃ S', ArrayAt h' a' s S' := by
  cases he with
  | inPlace ha => exact ha
  | copied _ ha => exact ha

theorem Filled.array (hm : Ready m l) (h : Filled m l w a s) : ∃ S, ArrayAt w.heap a s S := by
  induction h with
  | @new w w' a h =>
    obtain ⟨a', w'', hends, hS⟩ := hm.arrNew w
    obtain ⟨he, rfl⟩ := hends.unique h
    cases he
    exact hS
  | more _ hk ih =>
    obtain ⟨S, ha⟩ := ih
    exact hk S ha
  | store _ hc he ih =>
    obtain ⟨S, ha⟩ := ih
    obtain ⟨ending, w'', hends, hending⟩ := hc.ends hm ha
    obtain ⟨rfl, rfl⟩ := hends.unique he
    exact hending.array

theorem Filled.tight (h : Filled m l w a s) : s.Tight := by
  induction h with
  | new => exact tight_nil
  | more _ _ ih => exact ih
  | store _ hc _ ih =>
    cases hc with
    | set => exact ih.set _ _
    | setInt => exact ih.setInt _ _
    | push => exact ih.setInt _ _

theorem ArrayAt.denseAt {h : Heap} {items : List (Option Val)} (ha : ArrayAt h a (.dense items) S) :
    ∃ r cap, DenseAt h a r cap items := by
  cases ha with
  | dense ha hr hlen hcap hitems => exact ⟨_, _, ha, hr, hlen, hcap, hitems⟩

/-- What a store under an index leaves, for a whole call. -/
theorem Ready.arrSetInt_dense (hm : Ready m l) {r cap n b : Nat} {items : List (Option Val)}
    (hd : DenseAt w.heap a r cap items) (hn : n + 1 < 2 ^ 31) :
    ∃ w' r' cap', m.Ends w (l.index .arrSetInt) [.ref a, .i64 (Int64.ofNat n), .ref b]
      (.returned [.ref a]) w' ∧ DenseAt w'.heap a r' cap' (setAt items n (.ref b)) ∧
      Backing w.heap r cap n r' cap' := by
  have hcall : m.Calls 0 (l.index .arrSetInt) [.ref a, .i64 (Int64.ofNat n), .ref b] w.heap w.host
      (returning w.host fun vs h => vs = [.ref a] ∧ ∃ r' cap',
        DenseAt h a r' cap' (setAt items n (.ref b)) ∧ Backing w.heap r cap n r' cap') :=
    Library.arrSetInt_dense (k := 0) hm.installed (hm.room.mono (by decide)) hd ⟨b, rfl⟩ hn
      fun h' r' cap' hd' hb _ => ⟨⟨rfl, r', cap', hd', hb⟩, rfl⟩
  obtain ⟨vs, w', hends, ⟨rfl, r', cap', hd', hb⟩, -⟩ := hm.returns rfl hcall
  exact ⟨w', r', cap', hends, hd', hb⟩

/-- The truth of a dense array is read off its length. -/
theorem Ready.toBool_dense (hm : Ready m l) {r cap : Nat} {items : List (Option Val)}
    (hd : DenseAt w.heap a r cap items) :
    ∃ w', m.Ends w (l.index .toBool) [.ref a] (.returned [.i32 (flag !items.isEmpty)]) w' := by
  -- of the array only its length matters, so that any pairs will do that are as empty as the list
  let es : List (Value × Value) := items.map fun _ => (.null, .null)
  have hlen := hd.fits
  have hbound := hd.bound
  have hempty : es = [] ↔ Int64.ofNat items.length = 0 := by
    rw [List.map_eq_nil_iff, ← List.length_eq_zero_iff]
    constructor
    · intro h0
      rw [h0]
      rfl
    · intro h0
      have := congrArg Int64.toInt h0
      rw [Int64.toInt_ofNat_of_lt (by omega)] at this
      exact Int.natCast_eq_zero.mp this
  have hbox : Boxed w.heap (.ref a) (.array (a + 1) es) := .array hd.value (.dense hd.cells) hempty
  have htruth : (Value.array (a + 1) es).toBool = !items.isEmpty := by
    simp only [Value.toBool, es, List.isEmpty_map]
  have hcall : m.Calls 0 (l.index .toBool) [.ref a] w.heap w.host
      (returning w.host fun vs _ => vs = [.i32 (flag !items.isEmpty)]) :=
    toBool_calls (k := 0) hm.installed (hm.room.mono (by decide)) hbox (htruth ▸ ⟨rfl, rfl⟩)
  obtain ⟨vs, w', hends, rfl, -⟩ := hm.returns rfl hcall
  exact ⟨w', hends⟩

end Filled

/-! ## Truth -/

theorem length_decodePairs {dec : Val → Decode Value} {ps : List (Value × Val)}
    {es : List (Value × Value)} (h : decodePairs dec ps = .ok es) : es.length = ps.length := by
  induction ps generalizing es with
  | nil =>
    cases h
    rfl
  | cons p ps ih =>
    rw [decodePairs_cons] at h
    cases hv : dec p.2 with
    | error e =>
      rw [hv] at h
      cases h
    | ok v =>
      cases hps : decodePairs dec ps with
      | error e =>
        rw [hv, hps] at h
        cases h
      | ok es' =>
        rw [hv, hps] at h
        cases h
        rw [List.length_cons, List.length_cons, ih hps]

/-- A list decodes to an array that is true exactly if it has an element. -/
theorem ArrayAt.decode_toBool {h : Heap} {a : Nat} {S : List Nat} {items : List (Option Val)}
    (ha : ArrayAt h a (.dense items) S) {x : Value} (hx : decode h (.ref a) = .ok x) :
    x.toBool = items.any Option.isSome := by
  rw [ha.decode_eq] at hx
  cases hes : decodePairs (Decode.value h h.size) (Items.dense items).pairs with
  | error e =>
    rw [hes] at hx
    cases hx
  | ok es =>
    rw [hes] at hx
    cases hx
    have hlen := length_decodePairs hes
    have hempty : es.isEmpty = (entriesOf items).isEmpty := by
      rw [Bool.eq_iff_iff, List.isEmpty_iff_length_eq_zero, List.isEmpty_iff_length_eq_zero, hlen]
      rfl
    rw [Value.toBool, hempty, isEmpty_entriesOf, Bool.not_not]

/-- On the machine of every compiled program, a store of a value under any index up to the largest one
into a dense array that ends in an element returns that array. It holds the value under the index and
all other elements as before, ends in an element again and has the length that it should. The cells are
those from before if the index is in them, and else new ones, of a length that was computed in 32-bit
arithmetic and has room for the index. The truth of every dense array that stores made is whether it
has an element, which is the truth of the array it decodes to. -/
theorem dense_stores_in_bounds {p : Program} {o : Options} {c : Compiled}
    (hc : (Program.compile p o).outcome = .ok c) :
    ∃ m, machineFor c 0 = .ok m ∧
      (∀ w a r cap items n b, DenseAt w.heap a r cap items → Tight items → n ≤ 2 ^ 31 - 2 →
        ∃ w' r' cap' items', m.Ends w (c.links.index .arrSetInt)
            [.ref a, .i64 (Int64.ofNat n), .ref b] (.returned [.ref a]) w' ∧
          DenseAt w'.heap a r' cap' items' ∧ Tight items' ∧
          items'.length = max items.length (n + 1) ∧
          (∀ j, items'[j]?.join = if j = n then some (.ref b) else items[j]?.join) ∧
          (n < cap → r' = r ∧ cap' = cap) ∧
          (cap ≤ n → w.heap[r']? = none ∧ grownLength (num cap) (num n) = num cap' ∧ n < cap' ∧
            cap' ≤ 2 ^ 31 - 1)) ∧
      ∀ w a items, Filled m c.links w a (.dense items) →
        (∃ r cap, DenseAt w.heap a r cap items) ∧ Tight items ∧
        (∃ w', m.Ends w (c.links.index .toBool) [.ref a]
          (.returned [.i32 (flag (items.any Option.isSome))]) w') ∧
        ∀ x, decode w.heap (.ref a) = .ok x → x.toBool = items.any Option.isSome := by
  obtain ⟨m, hm, hready⟩ := ready_of_compiled hc
  refine ⟨m, hm, fun w a r cap items n b hd ht hn => ?_, fun w a items hmade => ?_⟩
  · obtain ⟨w', r', cap', hends, hd', hback⟩ := hready.arrSetInt_dense (n := n) (b := b) hd (by omega)
    have hlength := length_setAt items n (.ref b)
    have hbound := hd'.bound
    refine ⟨w', r', cap', _, hends, hd', ht.setAt n _, ?_, fun j => getElem?_setAt, fun hin => ?_,
      fun hout => ?_⟩
    · rw [hlength]
      split <;> omega
    · cases hback with
      | same => exact ⟨rfl, rfl⟩
      | grown hge => omega
    · cases hback with
      | same hlt => omega
      | grown _ hr hc hlt => exact ⟨hr, hc, hlt, by omega⟩
  · obtain ⟨S, ha⟩ := hmade.array hready
    obtain ⟨r, cap, hd⟩ := ha.denseAt
    have ht : Tight items := hmade.tight
    obtain ⟨w', hends⟩ := hready.toBool_dense hd
    refine ⟨⟨r, cap, hd⟩, ht, ⟨w', ?_⟩, fun x => ha.decode_toBool⟩
    rw [ht.any_isSome]
    exact hends

/-- A value is stored under the largest index of an array that was empty. -/
theorem store_under_largest_index :
    ∃ c m w a r cap, (Program.compile [] {}).outcome = .ok c ∧ machineFor c 0 = .ok m ∧
      DenseAt w.heap a r cap [] ∧
      ∀ b, ∃ w' r' cap' items', m.Ends w (c.links.index .arrSetInt)
          [.ref a, .i64 (Int64.ofNat 2147483646), .ref b] (.returned [.ref a]) w' ∧
        DenseAt w'.heap a r' cap' items' ∧ items'.length = 2147483647 := by
  obtain ⟨c, hc⟩ := compile_nothing
  obtain ⟨m, hm, hstore, -⟩ := dense_stores_in_bounds hc
  obtain ⟨m', hm', hready⟩ := ready_of_compiled hc
  cases hm.symm.trans hm'
  obtain ⟨a, w, -, S, ha⟩ := hready.arrNew ⟨#[], #[], 0⟩
  obtain ⟨r, cap, hd⟩ := ha.denseAt
  refine ⟨c, m, w, a, r, cap, hc, hm, hd, fun b => ?_⟩
  obtain ⟨w', r', cap', items', hends, hd', -, hlength, -⟩ :=
    hstore w a r cap [] 2147483646 b hd tight_nil (by decide)
  exact ⟨w', r', cap', items', hends, hd', hlength⟩

end HeapScript.Library
