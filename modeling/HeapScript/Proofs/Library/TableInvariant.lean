import HeapScript.Proofs.Compile.Assembly
import HeapScript.Proofs.Library.TableMaps

/-!
# The invariant of hash tables

Every table that the routines make is well linked: its slots hold the entries in insertion order,
each key once, and the chain of every bucket visits exactly the entries of that bucket, in order.
So a key is found if it is there, and looking for it ends.
-/

namespace HeapScript.Library

open Machine Machine.Processor Code Execution Compile

/-! ## Chains -/

/-- The ordinals that following the links visits, from the entry in a slot on. -/
inductive Walk (h : Heap) (slots : Array Val) (n : Nat) : Val → List Nat → Prop
  | empty : Walk h slots n .null []
  | last {e k : Nat} {key value hash : Val} (hk : slots[n + k]? = some (.ref e))
    (he : h[e]? = some (.struct Shape.entry #[key, value, hash, .i32 (-1)])) :
    Walk h slots n (.ref e) [k]
  | next {e k j : Nat} {key value hash v : Val} {ks : List Nat}
    (hk : slots[n + k]? = some (.ref e))
    (he : h[e]? = some (.struct Shape.entry #[key, value, hash, .i32 (num j)]))
    (hj : slots[n + j]? = some v) (hw : Walk h slots n v (j :: ks)) :
    Walk h slots n (.ref e) (k :: j :: ks)

/-- A table with some number of buckets holds these keys and values. -/
structure WellLinked (h : Heap) (t n : Nat) (ps : List (Value × Val)) : Prop where
  count : ps.length ≤ n ∧ n ≤ 2 ^ 29
  keys : (ps.map Prod.fst).Nodup
  cells : ∃ b next slots,
    h[t]? = some (.struct Shape.hash #[.ref b, .i32 (num n), .i32 (num ps.length), .i64 next]) ∧
    h[b]? = some (.array Shape.buckets slots) ∧ slots.size = 2 * n ∧
    (∀ i x v, ps[i]? = some (x, v) → ∃ e u link, slots[n + i]? = some (.ref e) ∧
      h[e]? = some (.struct Shape.entry #[u, v, .i32 x.hashKey.toInt32, .i32 link]) ∧
      IsKey x ∧ Boxed h u x) ∧
    (∀ i, ps.length ≤ i → i < n → slots[n + i]? = some .null) ∧
    ∀ c < n, ∃ v, slots[c]? = some v ∧ Walk h slots n v
      ((List.range ps.length).filter fun i => (ps[i]?.map fun p => p.1.hashKey.toNat % n) = some c)

def ordinals (bs : List Nat) (c i : Nat) : List Nat :=
  (List.range' i (bs.length - i)).filter fun j => bs[j]? = some c

theorem ordinals_none {bs : List Nat} {c i : Nat} (h : chainFrom bs c i = none) :
    ordinals bs c i = [] := by
  rw [ordinals, List.filter_eq_nil_iff]
  intro j hj
  simpa using chainFrom_eq_none.mp h j (List.mem_range'_1.mp hj).1

theorem ordinals_some {bs : List Nat} {c i k : Nat} (h : chainFrom bs c i = some k) :
    ordinals bs c i = k :: ordinals bs c (k + 1) := by
  obtain ⟨hik, hk, hbefore⟩ := chainFrom_eq_some.mp h
  have hlt := (chainFrom_lt h).2
  have hsplit : List.range' i (bs.length - i) =
      List.range' i (k - i) ++ k :: List.range' (k + 1) (bs.length - (k + 1)) := by
    rw [show bs.length - i = (k - i) + (bs.length - k) by omega, ← List.range'_append_1,
      show i + (k - i) = k by omega, show bs.length - k = (bs.length - (k + 1)) + 1 by omega,
      List.range'_succ]
  have hfront : (List.range' i (k - i)).filter (fun j => bs[j]? = some c) = [] := by
    rw [List.filter_eq_nil_iff]
    intro j hj
    have := List.mem_range'_1.mp hj
    simpa using hbefore j this.1 (by omega)
  rw [ordinals, hsplit, List.filter_append, hfront, List.nil_append, List.filter_cons]
  simp [hk, ordinals]

section Walks

variable {h : Heap} {b n : Nat} {rows : List Row}

/-- The chain from an entry on visits the entries of its bucket behind it. -/
theorem Chained.walk (hc : Chained h b n rows) {c i k : Nat}
    (hk : chainFrom (rows.map (Row.bucket n)) c i = some k) :
    Walk h (slotsOf n (rows.map (Row.bucket n)) (rows.map Row.addr)) n
      (slotFor (rows.map Row.addr) k) (ordinals (rows.map (Row.bucket n)) c i) := by
  induction hm : rows.length - i using Nat.strong_induction_on generalizing i k with
  | _ rest ih =>
    obtain ⟨hik, hrow, -⟩ := chainFrom_eq_some.mp hk
    obtain ⟨r, hrow, hb⟩ : ∃ r, rows[k]? = some r ∧ r.bucket n = c := by simpa using hrow
    have hlt : k < rows.length := (List.getElem?_eq_some_iff.mp hrow).1
    have hfits := hc.fits
    have hcell := hc.cells k r hrow
    have hslot := slotsOf_entry (rows.map (Row.bucket n)) (rows.map Row.addr)
      (show k < n by omega)
    have href : slotFor (rows.map Row.addr) k = .ref r.addr := by simp [slotFor, hrow]
    rw [href] at hslot ⊢
    rw [ordinals_some hk]
    rw [hb] at hcell
    cases hnext : chainFrom (rows.map (Row.bucket n)) c (k + 1) with
    | none =>
      rw [ordinals_none hnext]
      rw [hnext] at hcell
      exact .last hslot hcell
    | some j =>
      have hjlt := (chainFrom_lt hnext).2
      rw [List.length_map] at hjlt
      have hrest := ih (rows.length - (k + 1)) (by omega) hnext rfl
      rw [ordinals_some hnext] at hrest ⊢
      rw [hnext] at hcell
      exact .next hslot hcell (slotsOf_entry _ _ (by omega)) hrest

theorem Table.wellLinked {t : Nat} {s : Content} (ht : Table h t s) :
    WellLinked h t s.size s.pairs := by
  have hc := ht.chained
  have hlen : s.pairs.length = s.rows.length := by simp [Content.pairs]
  refine ⟨⟨hlen ▸ hc.fits, ht.size_bounds.2⟩, ?_, s.buckets, s.next, _, hlen ▸ ht.cell, hc.slots,
    size_slotsOf, fun i x v hi => ?_, fun i hi hin => ?_, fun c hcn => ?_⟩
  · rw [Content.pairs, List.map_map]
    exact ht.keyed.distinct
  · obtain ⟨r, hrow, hr⟩ : ∃ r, s.rows[i]? = some r ∧ (r.key, r.value) = (x, v) := by
      simpa [Content.pairs] using hi
    cases hr
    have hlt := (List.getElem?_eq_some_iff.mp hrow).1
    have hfits := hc.fits
    obtain ⟨hkey, hbox⟩ := ht.keyed.keys r (List.mem_of_getElem? hrow)
    refine ⟨r.addr, r.ref, _, ?_, hc.cells i r hrow, hkey, hbox⟩
    rw [slotsOf_entry _ _ (by omega)]
    simp [slotFor, hrow]
  · rw [slotsOf_entry _ _ hin, slotFor, List.getElem?_eq_none (by simpa [Content.pairs] using hi)]
  · refine ⟨_, slotsOf_head hcn, ?_⟩
    have hords : (List.range s.pairs.length).filter (fun i =>
        (s.pairs[i]?.map fun p => p.1.hashKey.toNat % s.size) = some c) =
          ordinals (s.rows.map (Row.bucket s.size)) c 0 := by
      rw [ordinals, List.length_map, Nat.sub_zero, ← List.range_eq_range', hlen]
      refine List.filter_congr fun i _ => ?_
      simp only [Content.pairs, List.getElem?_map, Option.map_map]
      rfl
    rw [hords, headFor]
    cases hk : chainFrom (s.rows.map (Row.bucket s.size)) c 0 with
    | none =>
      rw [ordinals_none hk]
      exact .empty
    | some k => exact hc.walk hk

end Walks

/-! ## Tables made by the routines -/

/-- The tables that come from an empty one with 16 buckets by insertions, with the keys and values
they should hold. Between the calls other cells may be made. -/
inductive Made (m : Processor Output) (l : Links) :
    World Output → Nat → List (Value × Val) → Prop
  | new {w w' : World Output} {t : Nat}
    (h : m.Ends w (l.index .hashNew) [.i32 16] (.returned [.ref t]) w') : Made m l w' t []
  | more {w w' : World Output} {t : Nat} {ps : List (Value × Val)} (h : Made m l w t ps)
    (he : Extends w.heap w'.heap) : Made m l w' t ps
  | insert {w w' : World Output} {t : Nat} {ps : List (Value × Val)} {u v : Val} {x : Value}
    (h : Made m l w t ps) (hlen : ps.length < 2 ^ 29) (hu : Boxed w.heap u x) (hx : IsKey x)
    (hi : m.Ends w (l.index .hashInsert) [.ref t, u, v] (.returned []) w') :
    Made m l w' t (put ps x v)

/-- Looking for a key ends without a change and gives its entry, or null if no entry has it. -/
def Finds (m : Processor Output) (l : Links) (w : World Output) (t : Nat)
    (ps : List (Value × Val)) (u : Val) (x : Value) : Prop :=
  ∃ v w', m.Ends w (l.index .hashFind) [.ref t, u, .i32 x.hashKey.toInt32] (.returned [v]) w' ∧
    w'.heap = w.heap ∧ w'.host = w.host ∧
    ((v = .null ∧ ∀ p ∈ ps, p.1 ≠ x) ∨
      ∃ e key value link, v = .ref e ∧ (x, value) ∈ ps ∧ Boxed w.heap key x ∧
        w.heap[e]? = some (.struct Shape.entry #[key, value, .i32 x.hashKey.toInt32, .i32 link]))

section Calls

variable {m : Processor Output} {l : Links} {w : World Output} {t : Nat} {s : Content}

theorem Ready.hashNew (hm : Ready m l) (w : World Output) :
    ∃ t w', m.Ends w (l.index .hashNew) [.i32 16] (.returned [.ref t]) w' ∧
      ∃ s, Table w'.heap t s ∧ s.pairs = [] := by
  have hcall : m.Calls 0 (l.index .hashNew) [.i32 (num 16)] w.heap w.host (returning w.host
      fun vs h => ∃ t, vs = [.ref t] ∧ ∃ s, Table h t s ∧ s.pairs = []) := by
    refine hashNew_calls (k := 0) hm.installed (hm.room.mono (by decide)) (by decide)
      fun h' _ ht hc => ⟨⟨_, rfl, ⟨w.heap.size, 16, [], 0⟩, ⟨ht, hc, ?_, ?_⟩, rfl⟩, rfl⟩
    · exact ⟨by simp, by simp⟩
    · exact ⟨4, by omega, by omega, rfl⟩
  obtain ⟨vs, w', hends, ⟨t, rfl, s, ht, hs⟩, -⟩ := hm.returns rfl hcall
  exact ⟨t, w', hends, s, ht, hs⟩

theorem Ready.hashInsert (hm : Ready m l) (ht : Table w.heap t s) (hlen : s.rows.length < 2 ^ 29)
    {u : Val} {x : Value} (hu : Boxed w.heap u x) (hx : IsKey x) (v : Val) :
    ∃ w', m.Ends w (l.index .hashInsert) [.ref t, u, v] (.returned []) w' ∧
      ∃ s', Inserted w.heap t s x v w'.heap s' := by
  have hcall : m.Calls 0 (l.index .hashInsert) [.ref t, u, v] w.heap w.host (returning w.host
      fun vs h => vs = [] ∧ ∃ s', Inserted w.heap t s x v h s') :=
    hashInsert_calls (k := 0) hm.installed (hm.room.mono (by decide)) ht hlen hu hx
      fun h' s' hs => ⟨⟨rfl, s', hs⟩, rfl⟩
  obtain ⟨vs, w', hends, ⟨rfl, hs⟩, -⟩ := hm.returns rfl hcall
  exact ⟨w', hends, hs⟩

theorem Ready.hashGrow (hm : Ready m l) (ht : Table w.heap t s) (hsize : s.size < 2 ^ 29) :
    ∃ w', m.Ends w (l.index .hashGrow) [.ref t] (.returned []) w' ∧
      Table w'.heap t { s with buckets := w.heap.size, size := 2 * s.size } := by
  have hcall : m.Calls 0 (l.index .hashGrow) [.ref t] w.heap w.host (returning w.host
      fun vs h => vs = [] ∧ Table h t { s with buckets := w.heap.size, size := 2 * s.size }) :=
    hashGrow_calls (k := 0) hm.installed (hm.room.mono (by decide)) ht.cell ht.chained
      (ht.double_le hsize) fun h' hcell hc hk => ⟨⟨rfl, ht.grown hsize hcell hc hk⟩, rfl⟩
  obtain ⟨vs, w', hends, ⟨rfl, ht'⟩, -⟩ := hm.returns rfl hcall
  exact ⟨w', hends, ht'⟩

theorem Ready.finds (hm : Ready m l) (ht : Table w.heap t s) {u : Val} {x : Value}
    (hu : Boxed w.heap u x) (hx : IsKey x) : Finds m l w t s.pairs u x := by
  have hcell := ht.cell
  simp only [tableCell] at hcell
  have hcall : m.Calls 0 (l.index .hashFind) [.ref t, u, .i32 x.hashKey.toInt32] w.heap w.host
      (returning w.host fun vs h => vs = [found s.rows x] ∧ h = w.heap) :=
    hashFind_calls (k := 0) hm.installed (hm.room.mono (by decide)) ht.chained ht.keyed
      ht.size_bounds hcell hu hx ⟨⟨rfl, rfl⟩, rfl⟩
  obtain ⟨vs, w', hends, ⟨rfl, hheap⟩, hhost⟩ := hm.returns rfl hcall
  refine ⟨_, w', hends, hheap, hhost, ?_⟩
  by_cases hex : ∃ r ∈ s.rows, r.key = x
  · obtain ⟨r, hr, rfl⟩ := hex
    obtain ⟨i, hrow⟩ := List.mem_iff_getElem?.mp hr
    refine .inr ⟨r.addr, r.ref, r.value, _, ht.keyed.found hr, List.mem_map_of_mem hr,
      (ht.keyed.keys r hr).2, ht.chained.cells i r hrow⟩
  · have hne : ∀ r ∈ s.rows, r.key ≠ x := fun r hr he => hex ⟨r, hr, he⟩
    refine .inl ⟨found_none hx (fun r hr => (ht.keyed.keys r hr).1) hne, fun p hp => ?_⟩
    obtain ⟨r, hr, rfl⟩ := List.mem_map.mp hp
    exact hne r hr

/-- A table that the routines made holds what it should. -/
theorem Made.table (hm : Ready m l) {ps : List (Value × Val)} (h : Made m l w t ps) :
    ∃ s, Table w.heap t s ∧ s.pairs = ps := by
  induction h with
  | @new w w' t h =>
    obtain ⟨t', w'', hends, s, ht, hs⟩ := hm.hashNew w
    obtain ⟨he, rfl⟩ := hends.unique h
    cases he
    exact ⟨s, ht, hs⟩
  | more _ he ih =>
    obtain ⟨s, ht, hs⟩ := ih
    exact ⟨s, ht.extends he, hs⟩
  | @insert w w' t ps u v x _ hlen hu hx hi ih =>
    obtain ⟨s, ht, rfl⟩ := ih
    have hlen' : s.rows.length < 2 ^ 29 := by simpa [Content.pairs] using hlen
    obtain ⟨w'', hends, s', hs'⟩ := hm.hashInsert ht hlen' hu hx v
    obtain ⟨-, rfl⟩ := hends.unique hi
    exact ⟨s', hs'.table, hs'.pairs⟩

end Calls

/-- On the machine of every compiled program, every table that comes from an empty one by insertions
is well linked as long as it has fewer than `2 ^ 29` entries. Finding a key in it ends with the entry
of the key or with null, a further insertion ends, and growing it keeps its entries and where they
are found. -/
theorem hash_table_invariant {p : Program} {o : Options} {c : Compiled}
    (hc : (Program.compile p o).outcome = .ok c) :
    ∃ m, machineFor c 0 = .ok m ∧
      (∀ w, ∃ t w', m.Ends w (c.links.index .hashNew) [.i32 16] (.returned [.ref t]) w') ∧
      ∀ w t ps, Made m c.links w t ps → ps.length < 2 ^ 29 →
        ∃ n, WellLinked w.heap t n ps ∧
          (∀ u x, Boxed w.heap u x → IsKey x → Finds m c.links w t ps u x) ∧
          (∀ u x v, Boxed w.heap u x → IsKey x →
            ∃ w', m.Ends w (c.links.index .hashInsert) [.ref t, u, v] (.returned []) w') ∧
          (n < 2 ^ 29 → ∃ w', m.Ends w (c.links.index .hashGrow) [.ref t] (.returned []) w' ∧
            WellLinked w'.heap t (2 * n) ps ∧
            ∀ u x, Boxed w'.heap u x → IsKey x → Finds m c.links w' t ps u x) := by
  obtain ⟨m, hm, hready⟩ := ready_of_compiled hc
  refine ⟨m, hm, fun w => ?_, fun w t ps hmade hlen => ?_⟩
  · obtain ⟨t, w', hends, -⟩ := hready.hashNew w
    exact ⟨t, w', hends⟩
  · obtain ⟨s, ht, rfl⟩ := hmade.table hready
    have hlen' : s.rows.length < 2 ^ 29 := by simpa [Content.pairs] using hlen
    refine ⟨s.size, ht.wellLinked, fun u x hu hx => hready.finds ht hu hx,
      fun u x v hu hx => ?_, fun hsize => ?_⟩
    · obtain ⟨w', hends, -⟩ := hready.hashInsert ht hlen' hu hx v
      exact ⟨w', hends⟩
    · obtain ⟨w', hends, ht'⟩ := hready.hashGrow ht hsize
      exact ⟨w', hends, ht'.wellLinked, fun u x hu hx => hready.finds ht' hu hx⟩

/-- A table with the key 5 that was stored twice has one entry, with the later value. -/
theorem hash_table_of_one_key :
    ∃ c m w t n, (Program.compile [] {}).outcome = .ok c ∧ machineFor c 0 = .ok m ∧
      Made m c.links w t [(.int 5, .ref 1)] ∧ WellLinked w.heap t n [(.int 5, .ref 1)] := by
  obtain ⟨c, hc⟩ := compile_nothing
  obtain ⟨m, hm, hnew, hall⟩ := hash_table_invariant hc
  let w₀ : World Output := ⟨#[valueCell .int 5 0 .null .null], #[], 0⟩
  obtain ⟨t, w₁, hends⟩ := hnew w₀
  let w₂ : World Output := ⟨w₁.heap.push (valueCell .int 5 0 .null .null), #[], 0⟩
  have hmade₂ : Made m c.links w₂ t [] := (Made.new hends).more (.push _ _)
  have hkey₂ : Boxed w₂.heap (.ref w₁.heap.size) (.int 5) := .int (getElem?_push_size _ _)
  obtain ⟨-, -, -, hinsert₂, -⟩ := hall w₂ t [] hmade₂ (by decide)
  obtain ⟨w₃, hends₃⟩ := hinsert₂ _ _ (.ref 0) hkey₂ trivial
  have hmade₃ := Made.insert hmade₂ (by decide) hkey₂ trivial hends₃
  let w₄ : World Output := ⟨w₃.heap.push (valueCell .int 5 0 .null .null), #[], 0⟩
  have hmade₄ : Made m c.links w₄ t [(.int 5, .ref 0)] := hmade₃.more (.push _ _)
  have hkey₄ : Boxed w₄.heap (.ref w₃.heap.size) (.int 5) := .int (getElem?_push_size _ _)
  obtain ⟨-, -, -, hinsert₄, -⟩ := hall w₄ t _ hmade₄ (by decide)
  obtain ⟨w₅, hends₅⟩ := hinsert₄ _ _ (.ref 1) hkey₄ trivial
  have hmade₅ : Made m c.links w₅ t [(.int 5, .ref 1)] :=
    Made.insert hmade₄ (by decide) hkey₄ trivial hends₅
  obtain ⟨n, hlinked, -⟩ := hall w₅ t _ hmade₅ (by decide)
  exact ⟨c, m, w₅, t, n, hc, hm, hmade₅, hlinked⟩

end HeapScript.Library
