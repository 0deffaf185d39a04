import HeapScript.Proofs.Library.ArrayRefinement

/-!
# The routines of an iteration

An iteration takes the length of an array and then asks for the key and the value at each position
below it. A position of a table has the key and the value of an entry, in insertion order. A position of
a list has its index as key, and a value unless it is a hole.
-/

namespace HeapScript.Library

open Machine Machine.Processor Code Execution

variable {m : Processor Output} {l : Links} {d k : Nat} {h : Heap} {w : Output} {Q : Post Output}

/-! ## Positions -/

/-- The key and the value at a position; a hole of a list has a key and no value. -/
inductive Items.At : Items → Nat → Value → Option Val → Prop
  | dense {items : List (Option Val)} {p : Nat} {o : Option Val} (ho : items[p]? = some o) :
    Items.At (.dense items) p (indexKey p) o
  | hash {ps : List (Value × Val)} {next : Int64} {p : Nat} {x : Value} {v : Val}
    (hp : ps[p]? = some (x, v)) : Items.At (.hash ps next) p x (some v)

section Positions

variable {a p : Nat} {s : Items} {S : List Nat} {x : Value} {o : Option Val} {v : Val}

theorem ArrayAt.isKey_at (ha : ArrayAt h a s S) (hp : s.At p x o) : IsKey x := by
  cases hp with
  | dense => trivial
  | hash hp =>
    cases ha with
    | hash _ ht =>
      obtain ⟨r, hr, heq⟩ := List.mem_map.mp (List.mem_of_getElem? hp)
      cases heq
      exact (ht.keyed.keys r hr).1

/-- What a position gives is what its key gives. -/
theorem ArrayAt.get_at (ha : ArrayAt h a s S) (hp : s.At p x o) : s.get x = o := by
  cases hp with
  | @dense items _ _ ho =>
    cases ha with
    | dense _ _ hlen hcap =>
      have hlt := (List.getElem?_eq_some_iff.mp ho).1
      have hpos := not_ofNat_lt_zero (show p < 2 ^ 63 by omega)
      simp only [Items.get, indexKey, if_neg hpos, toNatClampNeg_ofNat (show p < 2 ^ 63 by omega), ho,
        Option.join_some]
  | @hash ps next _ _ v hp =>
    have hkey : IsKey x := ha.isKey_at (.hash hp)
    have hmem := List.mem_of_getElem? hp
    have hnodup := ha.nodup
    simp only [Items.pairs] at hnodup
    cases hf : ps.find? fun q => q.1.strictEq x with
    | none =>
      have := List.find?_eq_none.mp hf _ hmem
      rw [strictEq_iff hkey hkey] at this
      exact absurd rfl this
    | some q =>
      have hq := List.mem_of_find?_eq_some hf
      have heq : q.1.strictEq x = true :=
        List.find?_some (p := fun q : Value × Val => q.1.strictEq x) hf
      obtain ⟨j, hj⟩ := List.mem_iff_getElem?.mp hq
      rw [strictEq_iff (ha.isKey_at (.hash (x := q.1) (v := q.2) hj)) hkey] at heq
      have hsame := List.inj_on_of_nodup_map hnodup hq hmem heq
      simp only [Items.get, hf, hsame, Option.map_some]

/-! ## The routines of an iteration -/

theorem arrIterHas_calls (hi : Installed m l) (hr : Room m d (k + 2)) (ha : ArrayAt h a s S)
    (hp : s.At p x o) (hq : Q.returned [.i32 (if o.isSome then 1 else 0)] h w) :
    m.Calls d (l.index .arrIterHas) [.ref a, .i32 (num p)] h w Q := by
  have hr' := hr.inner
  refine calls_routine hi hr ?_
  cases ha with
  | @dense r cap items ha hd hlen hcap hitems =>
    cases hp with
    | dense ho =>
      have hlt := (List.getElem?_eq_some_iff.mp ho).1
      have ha' := ha
      simp only [valueCell] at ha'
      have htype := typeOf_dense hd
      have hmod : (num p).toUInt32.toNat = p := toNat_num (by omega)
      have helem := getElem?_elemsOf items (show p < cap by omega)
      rw [ho, Option.join_some] at helem
      simp [Routine.body, arrIterHas, Routine.results, wp_call_routine hi]
      refine isHash_calls (k := k) hi hr' ha ?_
      cases o with
      | none =>
        simp [htype, ha', hd, hmod, helem, slot]
        exact hq
      | some v =>
        obtain ⟨b, rfl⟩ := hitems v (List.mem_of_getElem? ho)
        simp [htype, ha', hd, hmod, helem, slot]
        exact hq
  | @hash t s ha ht =>
    cases hp with
    | hash =>
      have htype := ht.typeOf
      simp [Routine.body, arrIterHas, Routine.results, wp_call_routine hi]
      refine isHash_calls (k := k) hi hr' ha ?_
      simp [htype]
      exact hq

theorem arrIterEntry_calls (hi : Installed m l) (hr : Room m d (k + 1)) {t : Nat} {c : Content}
    {r : Row} (ha : h[a]? = some (valueCell .array 0 0 .null (.ref t))) (ht : Table h t c)
    (hp : c.rows[p]? = some r) (hq : Q.returned [.ref r.addr] h w) :
    m.Calls d (l.index .arrIterEntry) [.ref a, .i32 (num p)] h w Q := by
  refine calls_routine hi hr ?_
  have hcell := ht.cell
  simp only [tableCell] at hcell
  simp only [valueCell] at ha
  have htype := ht.typeOf
  have hlt : p < c.size := by
    have := (List.getElem?_eq_some_iff.mp hp).1
    have := ht.chained.fits
    omega
  have hsize := ht.size_bounds.2
  have hindex : ((num c.size).toUInt32.toNat + (num p).toUInt32.toNat) % 4294967296 = c.size + p := by
    rw [toNat_num (by omega), toNat_num (by omega), Nat.mod_eq_of_lt (by omega)]
  have hslot := slotsOf_entry (c.rows.map (Row.bucket c.size)) (c.rows.map Row.addr) hlt
  simp only [slotFor, List.getElem?_map, hp, Option.map_some] at hslot
  simp [Routine.body, arrIterEntry, Routine.results, ha, hcell, htype, ht.chained.slots, hindex, hslot]
  exact hq

theorem arrIterKey_calls (hi : Installed m l) (hr : Room m d (k + 2)) (ha : ArrayAt h a s S)
    (hp : s.At p x o) (hq : ∀ h' u, Extends h h' → Boxed h' u x → Q.returned [u] h' w) :
    m.Calls d (l.index .arrIterKey) [.ref a, .i32 (num p)] h w Q := by
  have hr' := hr.inner
  refine calls_routine hi hr ?_
  cases ha with
  | @dense r cap items ha hd hlen hcap hitems =>
    cases hp with
    | dense ho =>
      have hlt := (List.getElem?_eq_some_iff.mp ho).1
      have htype := typeOf_dense hd
      have hextend : extendU (num p) = Int64.ofNat p := extendU_num (by omega)
      simp [Routine.body, arrIterKey, Routine.results, wp_call_routine hi]
      refine isHash_calls (k := k) hi hr' ha ?_
      simp [htype, hextend, wp_call_routine hi]
      refine newInt_calls (k := k) hi hr' ?_
      simp
      exact hq _ _ (.push _ _) (.int (getElem?_push_size _ _))
  | @hash t c ha ht =>
    cases hp with
    | hash hp =>
      obtain ⟨r, hrow, heq⟩ := Option.map_eq_some_iff.mp ((List.getElem?_map ..).symm.trans hp)
      cases heq
      have htype := ht.typeOf
      have hentry := ht.chained.cells _ r hrow
      simp only [Row.cell] at hentry
      simp [Routine.body, arrIterKey, Routine.results, wp_call_routine hi]
      refine isHash_calls (k := k) hi hr' ha ?_
      simp [htype, wp_call_routine hi]
      refine arrIterEntry_calls (k := k) hi hr' ha ht hrow ?_
      simp [hentry]
      exact hq _ _ (.refl h) (ht.keyed.keys r (List.mem_of_getElem? hrow)).2

theorem arrIterValue_calls (hi : Installed m l) (hr : Room m d (k + 2)) (ha : ArrayAt h a s S)
    (hp : s.At p x (some v)) (hq : Q.returned [v] h w) :
    m.Calls d (l.index .arrIterValue) [.ref a, .i32 (num p)] h w Q := by
  have hr' := hr.inner
  refine calls_routine hi hr ?_
  cases ha with
  | @dense r cap items ha hd hlen hcap hitems =>
    cases hp with
    | dense ho =>
      have hlt := (List.getElem?_eq_some_iff.mp ho).1
      have ha' := ha
      simp only [valueCell] at ha'
      have htype := typeOf_dense hd
      have hmod : (num p).toUInt32.toNat = p := toNat_num (by omega)
      have helem := getElem?_elemsOf items (show p < cap by omega)
      rw [ho, Option.join_some] at helem
      simp [Routine.body, arrIterValue, Routine.results, wp_call_routine hi]
      refine isHash_calls (k := k) hi hr' ha ?_
      simp [htype, ha', hd, hmod, helem, slot]
      exact hq
  | @hash t c ha ht =>
    cases hp with
    | hash hp =>
      obtain ⟨r, hrow, heq⟩ := Option.map_eq_some_iff.mp ((List.getElem?_map ..).symm.trans hp)
      cases heq
      have htype := ht.typeOf
      have hentry := ht.chained.cells _ r hrow
      simp only [Row.cell] at hentry
      simp [Routine.body, arrIterValue, Routine.results, wp_call_routine hi]
      refine isHash_calls (k := k) hi hr' ha ?_
      simp [htype, wp_call_routine hi]
      refine arrIterEntry_calls (k := k) hi hr' ha ht hrow ?_
      simp [hentry]
      exact hq

end Positions

end HeapScript.Library
