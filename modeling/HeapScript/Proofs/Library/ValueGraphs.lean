import HeapScript.Proofs.Library.ArrayRefinement

/-!
# Values and their parts on the heap

A value on the heap may have parts: the elements of an array or the properties of an object. These are
values again, and a cycle is possible. A set of values that has all their parts and in which no two
share a cell is a well-formed part of the heap.

Decoding follows the parts to a depth. The values that decode to a depth are more with every step until
there are no more to come, and there are not more values than cells, so that the size of the heap is as
good as any larger depth.
-/

namespace HeapScript.Library

open Machine Machine.Processor Code Execution

/-! ## Results of a list -/

section MapM

variable {ε α β : Type} {f g : α → Except ε β}

theorem map_eq_ok {γ : Type} {k : β → γ} {x : Except ε β} {z : γ} :
    x.map k = .ok z ↔ ∃ y, x = .ok y ∧ k y = z := by
  cases x with
  | error e =>
    constructor
    · intro h
      cases h
    · rintro ⟨y, hy, -⟩
      cases hy
  | ok y =>
    constructor
    · intro h
      cases h
      exact ⟨y, rfl, rfl⟩
    · rintro ⟨y', hy, rfl⟩
      cases hy
      rfl

theorem mapM_congr {as : List α} (h : ∀ a ∈ as, f a = g a) : as.mapM f = as.mapM g := by
  induction as with
  | nil => rfl
  | cons a as ih =>
    rw [List.mapM_cons, List.mapM_cons, h a (by simp), ih fun b hb => h b (by simp [hb])]

theorem mapM_ok_cons {a : α} {as : List α} {bs : List β} :
    (a :: as).mapM f = .ok bs ↔ ∃ b bs', f a = .ok b ∧ as.mapM f = .ok bs' ∧ bs = b :: bs' := by
  rw [List.mapM_cons]
  constructor
  · intro h
    cases ha : f a with
    | error e =>
      rw [ha] at h
      cases h
    | ok b =>
      cases has : as.mapM f with
      | error e =>
        rw [ha, has] at h
        cases h
      | ok bs' =>
        rw [ha, has] at h
        cases h
        exact ⟨b, bs', rfl, rfl, rfl⟩
  · rintro ⟨b, bs', ha, has, rfl⟩
    rw [ha, has]
    rfl

/-- A list has a result if all its elements have one. -/
theorem mapM_isOk {as : List α} :
    (∃ bs, as.mapM f = .ok bs) ↔ ∀ a ∈ as, ∃ b, f a = .ok b := by
  induction as with
  | nil => exact ⟨fun _ a ha => absurd ha List.not_mem_nil, fun _ => ⟨[], rfl⟩⟩
  | cons a as ih =>
    simp only [mapM_ok_cons, List.forall_mem_cons, ← ih]
    constructor
    · rintro ⟨_, b, bs, ha, has, rfl⟩
      exact ⟨⟨b, ha⟩, bs, has⟩
    · rintro ⟨⟨b, ha⟩, bs, has⟩
      exact ⟨_, b, bs, ha, has, rfl⟩

theorem mapM_mono {as : List α} {bs : List β} (h : ∀ a ∈ as, ∀ b, f a = .ok b → g a = .ok b)
    (hf : as.mapM f = .ok bs) : as.mapM g = .ok bs := by
  induction as generalizing bs with
  | nil => exact hf
  | cons a as ih =>
    obtain ⟨b, bs', ha, has, rfl⟩ := mapM_ok_cons.mp hf
    exact mapM_ok_cons.mpr ⟨b, bs', h a (by simp) b ha, ih (fun c hc => h c (by simp [hc])) has, rfl⟩

theorem mapM_error {as : List α} {e : ε} (hf : as.mapM f = .error e) : ∃ a ∈ as, f a = .error e := by
  induction as with
  | nil => cases hf
  | cons a as ih =>
    rw [List.mapM_cons] at hf
    cases ha : f a with
    | error e' =>
      rw [ha] at hf
      cases hf
      exact ⟨a, by simp, ha⟩
    | ok b =>
      cases has : as.mapM f with
      | error e' =>
        rw [ha, has] at hf
        cases hf
        obtain ⟨c, hc, he⟩ := ih has
        exact ⟨c, by simp [hc], he⟩
      | ok bs =>
        rw [ha, has] at hf
        cases hf

theorem decodePairs_eq (dec : Val → Decode Value) (ps : List (Value × Val)) :
    decodePairs dec ps = ((ps.map Prod.snd).mapM dec).map ((ps.map Prod.fst).zip ·) := by
  induction ps with
  | nil => rfl
  | cons p ps ih =>
    rw [decodePairs_cons, ih, List.map_cons, List.map_cons, List.mapM_cons]
    cases dec p.2 with
    | error e => rfl
    | ok v => cases (ps.map Prod.snd).mapM dec <;> rfl

end MapM

/-! ## Views -/

/-- What a value on the heap is made of. -/
inductive View where
  | plain (x : Value)
  | array (s : Items)
  | object (classId : Int32) (props : List Val)

namespace View

def parts : View → List Val
  | plain _ => []
  | array s => s.pairs.map Prod.snd
  | object _ props => props

/-- The value at an address, from its decoded parts. -/
def build (b : Nat) (ys : List Value) : View → Value
  | plain x => x
  | array s => .array (b + 1) ((s.pairs.map Prod.fst).zip ys)
  | object classId _ => .object (b + 1) classId ys

end View

/-- A value on the heap is made of some parts, with its cells that stores may change. -/
inductive Viewed (h : Heap) (b : Nat) : View → List Nat → Prop
  | plain {x : Value} (hx : HasKey x) (hb : Boxed h (.ref b) x) : Viewed h b (.plain x) []
  | array {s : Items} {S : List Nat} (ha : ArrayAt h b s S) : Viewed h b (.array s) S
  | object {o r : Nat} {classId : Int32} {props : Array Val}
    (hb : h[b]? = some (valueCell .object 0 0 .null (.ref o)))
    (ho : h[o]? = some (.struct Shape.object #[.i32 classId, .ref r]))
    (hr : h[r]? = some (.array Shape.dense props)) : Viewed h b (.object classId props.toList) [r]

section Viewed

variable {h h' : Heap} {a b : Nat} {v : View} {s : Items} {S T : List Nat}

theorem ArrayAt.cell (ha : ArrayAt h a s S) :
    ∃ n r, h[a]? = some (valueCell .array n 0 .null r) := by
  cases ha with
  | dense ha | hash ha => exact ⟨_, _, ha⟩

theorem Viewed.cell (hv : Viewed h b v S) : ∃ t i x y r, h[b]? = some (valueCell t i x y r) := by
  cases hv with
  | plain hx hb =>
    cases hb with
    | null hb | bool hb | int hb | float hb | str hb => exact ⟨_, _, _, _, _, hb⟩
    | array | object => exact hx.elim
  | array ha =>
    obtain ⟨n, r, ha⟩ := ha.cell
    exact ⟨_, _, _, _, _, ha⟩
  | object hb => exact ⟨_, _, _, _, _, hb⟩

/-- The cells of an array are its own record and cells that only arrays have. -/
theorem ArrayAt.mem_type (ha : ArrayAt h a s S) {x : Nat} (hx : x ∈ S) :
    ∃ c, h[x]? = some c ∧ (x = a ∨ c.type = Shape.dense ∨ c.type = Shape.hash ∨
      c.type = Shape.buckets ∨ c.type = Shape.entry) := by
  cases ha with
  | dense ha hd =>
    rcases List.mem_cons.mp hx with rfl | hx
    · exact ⟨_, ha, .inl rfl⟩
    · rw [List.mem_singleton.mp hx]
      exact ⟨_, hd, .inr (.inl rfl)⟩
  | hash ha ht =>
    simp only [Content.owned, List.mem_cons, List.mem_map] at hx
    rcases hx with rfl | rfl | ⟨r, hr, rfl⟩
    · exact ⟨_, ht.cell, .inr (.inr (.inl rfl))⟩
    · exact ⟨_, ht.chained.slots, .inr (.inr (.inr (.inl rfl)))⟩
    · obtain ⟨i, hi⟩ := List.mem_iff_getElem?.mp hr
      exact ⟨_, ht.chained.cells i r hi, .inr (.inr (.inr (.inr rfl)))⟩

/-- The record of another value is none of them. -/
theorem ArrayAt.not_mem_value (ha : ArrayAt h a s S) (hne : b ≠ a) {c : Cell} (hc : h[b]? = some c)
    (ht : c.type = Shape.value) : b ∉ S := by
  intro hm
  obtain ⟨c', hc', hcase⟩ := ha.mem_type hm
  cases hc.symm.trans hc'
  rw [ht] at hcase
  rcases hcase with heq | hcase
  · exact hne heq
  · exact absurd hcase (by decide)

theorem Viewed.mem_some (hv : Viewed h b v S) {x : Nat} (hx : x ∈ S) : ∃ c, h[x]? = some c := by
  cases hv with
  | plain => exact absurd hx List.not_mem_nil
  | array ha =>
    obtain ⟨c, hc, -⟩ := ha.mem_type hx
    exact ⟨c, hc⟩
  | object _ _ hr =>
    rw [List.mem_singleton.mp hx]
    exact ⟨_, hr⟩

theorem Viewed.extends (hv : Viewed h b v S) (he : Extends h h') : Viewed h' b v S := by
  cases hv with
  | plain hx hb => exact .plain hx (hb.mono he)
  | array ha => exact .array (ha.extends he)
  | object hb ho hr => exact .object (he _ _ hb) (he _ _ ho) (he _ _ hr)

/-- Stores into one array leave another one that shares no cells with it. -/
theorem ArrayAt.keeps {s' : Items} (ha : ArrayAt h a s S) (hb : ArrayAt h b s' T) (hne : b ≠ a)
    (hd : T.Disjoint S) (hk : Keeps S h h') : ArrayAt h' b s' T := by
  cases hb with
  | dense hb hr hlen hcap hitems =>
    refine .dense (hk _ _ hb fun hm => hd (by simp) hm) (hk _ _ hr fun hm => hd (by simp) hm) hlen hcap
      hitems
  | @hash t c hb ht hvalues =>
    refine .hash (hk _ _ hb (ha.not_mem_value hne hb rfl)) ⟨?_, ?_, ?_, ht.size⟩ hvalues
    · exact hk _ _ ht.cell fun hm => hd (by simp [Content.owned]) hm
    · refine ht.chained.keeps hk (fun hm => hd (by simp [Content.owned]) hm) fun r hr hm => ?_
      exact hd (by simp [Content.owned, List.mem_map_of_mem hr]) hm
    · refine ⟨fun r hr => ?_, ht.keyed.distinct⟩
      obtain ⟨hkey, hbox⟩ := ht.keyed.keys r hr
      exact ⟨hkey, ha.boxed_keeps hk hkey.hasKey hbox⟩

/-- Stores into an array leave every other value that shares no cells with it. -/
theorem Viewed.keeps (ha : ArrayAt h a s S) (hv : Viewed h b v T) (hne : b ≠ a) (hd : T.Disjoint S)
    (hk : Keeps S h h') : Viewed h' b v T := by
  cases hv with
  | plain hx hb => exact .plain hx (ha.boxed_keeps hk hx hb)
  | array hb => exact .array (ha.keeps hb hne hd hk)
  | @object o r classId props hb ho hr =>
    have hobject : o ∉ S := by
      intro hm
      obtain ⟨c, hc, hcase⟩ := ha.mem_type hm
      cases ho.symm.trans hc
      rcases hcase with rfl | hcase
      · obtain ⟨n, r, ha⟩ := ha.cell
        cases ho.symm.trans ha
      · exact absurd hcase (show ¬ (Shape.object = Shape.dense ∨ Shape.object = Shape.hash ∨
          Shape.object = Shape.buckets ∨ Shape.object = Shape.entry) by decide)
    exact .object (hk _ _ hb (ha.not_mem_value hne hb rfl)) (hk _ _ ho hobject)
      (hk _ _ hr fun hm => hd (by simp) hm)

/-- A value decodes to what its parts decode to. -/
theorem Viewed.value_eq (hv : Viewed h b v S) (depth : Nat) :
    Decode.value h (depth + 1) (.ref b) =
      (v.parts.mapM (Decode.value h depth)).map (v.build b ·) := by
  cases hv with
  | plain hx hb => exact Boxed.value_eq hb hx depth
  | array ha =>
    rw [ha.value_eq, decodePairs_eq, View.parts]
    cases (List.map Prod.snd _).mapM (Decode.value h depth) <;> rfl
  | @object o r classId props hb ho hr =>
    have hrecord : Decode.record h (Decode.value h depth) b
        #[.i32 Tag.object.code, .i64 0, .f64 0, .null, .ref o] =
          (Decode.object h (Decode.value h depth)
            #[.i32 Tag.object.code, .i64 0, .f64 0, .null, .ref o]).map
              fun q => .object (b + 1) q.1 q.2 := by
      change Decode.object h (Decode.value h depth) _ >>= _ = _
      cases Decode.object h (Decode.value h depth) _ <;> rfl
    have hprops : Decode.array h #[.i32 classId, .ref r] ObjectField.props.index = .ok props := by
      have hfield : Decode.field #[.i32 classId, .ref r] ObjectField.props.index = .ok (.ref r) := rfl
      simp only [Decode.array, hfield, bind, Except.bind, Heap.array?, hr]
      rfl
    have hobject : Decode.object h (Decode.value h depth)
        #[.i32 Tag.object.code, .i64 0, .f64 0, .null, .ref o] =
          (props.toList.mapM (Decode.value h depth)).map (classId, ·) := by
      have hfield : Decode.field #[.i32 Tag.object.code, .i64 0, .f64 0, .null, .ref o]
        ValueField.ref.index = .ok (.ref o) := rfl
      have hclass : Decode.int32 #[.i32 classId, .ref r] ObjectField.classId.index = .ok classId := rfl
      have htype : h.typeOf (.ref o) = Shape.object := by simp [Heap.typeOf, ho, Cell.type]
      simp only [Decode.object, hfield, bind, Except.bind, Heap.struct?, ho, htype, if_true, hclass,
        hprops]
      cases props.toList.mapM (Decode.value h depth) <;> rfl
    rw [value_record hb, hrecord, hobject]
    simp only [View.parts]
    cases props.toList.mapM (Decode.value h depth) <;> rfl

end Viewed

/-! ## Sets of values -/

/-- An operand for a part: a null reference or one of some values. -/
def Part (A : Nat → Prop) : Val → Prop
  | .null => True
  | .ref c => A c
  | _ => False

/-- A set of values on the heap with all their parts, of which no two share a cell. -/
structure Values (h : Heap) where
  mem : Nat → Prop
  view : Nat → View
  cells : Nat → List Nat
  viewed : ∀ b, mem b → Viewed h b (view b) (cells b)
  closed : ∀ b, mem b → ∀ u ∈ (view b).parts, Part mem u
  apart : ∀ b c, mem b → mem c → b ≠ c → (cells b).Disjoint (cells c)

namespace Values

section Depth

variable {h : Heap} (V : Values h) {b n : Nat} {u : Val} {x : Value}

theorem lt_size (hb : V.mem b) : b < h.size := by
  obtain ⟨t, i, f, y, r, hc⟩ := (V.viewed b hb).cell
  exact (Array.getElem?_eq_some_iff.mp hc).1

theorem value_succ (hu : Part V.mem u) (hx : Decode.value h n u = .ok x) :
    Decode.value h (n + 1) u = .ok x := by
  induction n generalizing u x with
  | zero => cases hx
  | succ n ih =>
    cases u with
    | null => exact hx
    | ref c =>
      have hv := V.viewed c hu
      rw [hv.value_eq, map_eq_ok] at hx
      obtain ⟨ys, hys, rfl⟩ := hx
      rw [hv.value_eq, mapM_mono (fun y hy z hz => ih (V.closed c hu y hy) hz) hys]
      rfl
    | i32 | i64 | f64 => exact hu.elim

theorem value_mono {k : Nat} (hu : Part V.mem u) (hk : n ≤ k) (hx : Decode.value h n u = .ok x) :
    Decode.value h k u = .ok x := by
  induction k, hk using Nat.le_induction with
  | base => exact hx
  | succ k _ ih => exact V.value_succ hu ih

/-- A value decodes exactly if all its parts do to the depth below. -/
theorem value_isOk (hb : V.mem b) : (∃ x, Decode.value h (n + 1) (.ref b) = .ok x) ↔
    ∀ u ∈ (V.view b).parts, ∃ x, Decode.value h n u = .ok x := by
  rw [(V.viewed b hb).value_eq, ← mapM_isOk]
  simp only [map_eq_ok]
  constructor
  · rintro ⟨_, ys, hys, -⟩
    exact ⟨ys, hys⟩
  · rintro ⟨ys, hys⟩
    exact ⟨_, ys, hys, rfl⟩

/-- The only thing that goes wrong is that the depth runs out. -/
theorem value_error {e : DecodeError} (hu : Part V.mem u) (he : Decode.value h n u = .error e) :
    e = .broken := by
  induction n generalizing u with
  | zero =>
    cases he
    rfl
  | succ n ih =>
    cases u with
    | null => cases he
    | ref c =>
      rw [(V.viewed c hu).value_eq] at he
      cases hparts : (V.view c).parts.mapM (Decode.value h n) with
      | ok ys =>
        rw [hparts] at he
        cases he
      | error e' =>
        rw [hparts] at he
        cases he
        obtain ⟨y, hy, hye⟩ := mapM_error hparts
        exact ih (V.closed c hu y hy) hye
    | i32 | i64 | f64 => exact hu.elim

open Classical in
/-- The values that decode to a depth. -/
noncomputable def readable (n : Nat) : Finset Nat :=
  (Finset.range h.size).filter fun b => V.mem b ∧ ∃ x, Decode.value h n (.ref b) = .ok x

theorem mem_readable : b ∈ V.readable n ↔ V.mem b ∧ ∃ x, Decode.value h n (.ref b) = .ok x := by
  simp only [readable, Finset.mem_filter, Finset.mem_range, and_iff_right_iff_imp]
  intro hb
  exact V.lt_size hb.1

theorem readable_subset (n : Nat) : V.readable n ⊆ V.readable (n + 1) := by
  intro b hb
  obtain ⟨hb, x, hx⟩ := V.mem_readable.mp hb
  exact V.mem_readable.mpr ⟨hb, x, V.value_succ hb hx⟩

theorem card_readable_le (n : Nat) : (V.readable n).card ≤ h.size := by
  classical
  have := Finset.card_filter_le (Finset.range h.size)
    fun b => V.mem b ∧ ∃ x, Decode.value h n (.ref b) = .ok x
  rw [Finset.card_range] at this
  rw [readable]
  convert this

/-- Once a step brings no more values, no later one does. A null reference decodes from depth one on,
which is where the count starts. -/
theorem readable_succ (hn : V.readable (n + 2) = V.readable (n + 1)) :
    V.readable (n + 3) = V.readable (n + 2) := by
  refine subset_antisymm (fun b hb => ?_) (V.readable_subset _)
  obtain ⟨hb, hx⟩ := V.mem_readable.mp hb
  refine V.mem_readable.mpr ⟨hb, (V.value_isOk hb).mpr fun u hu => ?_⟩
  have hpart := (V.value_isOk hb).mp hx u hu
  have hclosed := V.closed b hb u hu
  cases u with
  | null => exact ⟨_, rfl⟩
  | ref c =>
    have hc : c ∈ V.readable (n + 2) := V.mem_readable.mpr ⟨hclosed, hpart⟩
    rw [hn] at hc
    exact (V.mem_readable.mp hc).2
  | i32 | i64 | f64 => exact hclosed.elim

theorem readable_eq {k : Nat} (hn : V.readable (n + 2) = V.readable (n + 1)) (hk : n ≤ k) :
    V.readable (k + 2) = V.readable (k + 1) := by
  induction k, hk using Nat.le_induction with
  | base => exact hn
  | succ k _ ih => exact V.readable_succ ih

/-- As long as every step brings more values, there are at least as many as steps. -/
theorem le_card_readable (hn : V.readable (n + 2) ≠ V.readable (n + 1)) :
    n + 1 ≤ (V.readable (n + 2)).card := by
  induction n with
  | zero =>
    have hgrow := Finset.card_lt_card ((V.readable_subset 1).ssubset_of_ne hn.symm)
    exact Nat.lt_of_le_of_lt (Nat.zero_le _) hgrow
  | succ n ih =>
    have hprev : V.readable (n + 2) ≠ V.readable (n + 1) := fun heq => hn (V.readable_succ heq)
    have hgrow := Finset.card_lt_card ((V.readable_subset (n + 2)).ssubset_of_ne hn.symm)
    exact Nat.lt_of_le_of_lt (ih hprev) hgrow

theorem readable_size {k : Nat} (hk : h.size ≤ k) : V.readable (k + 1) = V.readable (h.size + 1) := by
  have hstable : V.readable (h.size + 2) = V.readable (h.size + 1) := by
    by_contra hne
    have := V.le_card_readable hne
    have := V.card_readable_le (h.size + 2)
    omega
  induction k, hk using Nat.le_induction with
  | base => rfl
  | succ k hk ih => rw [V.readable_eq hstable hk, ih]

/-- The size of the heap is deep enough for every value. -/
theorem value_stable (hb : V.mem b) (hn : h.size < n) :
    Decode.value h n (.ref b) = decode h (.ref b) := by
  obtain ⟨k, rfl⟩ : ∃ k, n = k + 1 := ⟨n - 1, by omega⟩
  cases hx : decode h (.ref b) with
  | ok x => exact V.value_mono hb (by omega) hx
  | error e =>
    cases hy : Decode.value h (k + 1) (.ref b) with
    | error e' => rw [V.value_error (u := .ref b) hb hx, V.value_error (u := .ref b) hb hy]
    | ok y =>
      have hmem := V.mem_readable.mpr ⟨hb, y, hy⟩
      rw [V.readable_size (show h.size ≤ k by omega)] at hmem
      obtain ⟨-, z, hz⟩ := V.mem_readable.mp hmem
      cases hx.symm.trans hz

end Depth

section Store

variable {h h' : Heap} (V : Values h) {a a' : Nat} {s s' : Items} {copy : Bool}

/-- A value that is there is no new one. -/
theorem ne_of_none {b p : Nat} (hb : V.mem b) (hp : h[p]? = none) : b ≠ p := by
  rintro rfl
  have := V.lt_size hb
  rw [Array.getElem?_eq_none_iff] at hp
  omega

/-- A store into an array leaves all other values as they are. -/
theorem viewed_other {b : Nat} (ha : V.mem a) (hs : V.view a = .array s)
    (hl : Landed h a (V.cells a) h' s' copy a') (hb : V.mem b) (hne : b ≠ a') :
    Viewed h' b (V.view b) (V.cells b) := by
  have hv := V.viewed b hb
  cases hl with
  | inPlace hw =>
    have harr := V.viewed a ha
    rw [hs] at harr
    cases harr with
    | array harr => exact Viewed.keeps harr hv hne (V.apart b a hb ha hne) hw.keeps
  | copied hp hw => exact hv.extends fun c d hd => hw.keeps c d hd List.not_mem_nil

/-- The cells of the array that a store leaves are not those of another value. -/
theorem apart_other {b : Nat} {S : List Nat} (ha : V.mem a)
    (hl : Landed h a (V.cells a) h' s' copy a')
    (hS : ∀ x ∈ S, x ∈ (if copy then [] else V.cells a) ∨ h[x]? = none) (hb : V.mem b) (hne : b ≠ a') :
    (V.cells b).Disjoint S := by
  intro x hx hxS
  obtain ⟨c, hc⟩ := (V.viewed b hb).mem_some hx
  rcases hS x hxS with hm | hnone
  · cases hl with
    | inPlace => exact V.apart b a hb ha hne hx (by simpa using hm)
    | copied => exact absurd hm (by simp)
  · cases hc.symm.trans hnone

/-- The values after other cells were made. -/
def extended (he : Extends h h') : Values h' where
  mem := V.mem
  view := V.view
  cells := V.cells
  viewed b hb := (V.viewed b hb).extends he
  closed := V.closed
  apart := V.apart

/-- A set of values with one array more or one that differs, which shares no cells with the others. -/
theorem updated {S : List Nat} (ha : ArrayAt h' a s S) (hparts : ∀ p ∈ s.pairs, Part V.mem p.2)
    (hother : ∀ b, V.mem b → b ≠ a → Viewed h' b (V.view b) (V.cells b))
    (hapart : ∀ b, V.mem b → b ≠ a → (V.cells b).Disjoint S) :
    ∃ V' : Values h', (V'.mem = fun b => V.mem b ∨ b = a) ∧
      V'.view = Function.update V.view a (.array s) := by
  have hpart {u : Val} (hu : Part V.mem u) : Part (fun b => V.mem b ∨ b = a) u := by
    cases u with
    | null => trivial
    | ref c => exact .inl hu
    | i32 | i64 | f64 => exact hu
  have hold {b : Nat} (hb : V.mem b ∨ b = a) (hne : b ≠ a) : V.mem b := hb.resolve_right hne
  refine ⟨{
    mem := fun b => V.mem b ∨ b = a
    view := Function.update V.view a (.array s)
    cells := Function.update V.cells a S
    viewed := fun b hb => ?_
    closed := fun b hb u hu => ?_
    apart := fun b c hb hc hne => ?_ }, rfl, rfl⟩
  · by_cases hba : b = a
    · subst hba
      rw [Function.update_self, Function.update_self]
      exact .array ha
    · rw [Function.update_of_ne hba, Function.update_of_ne hba]
      exact hother b (hold hb hba) hba
  · by_cases hba : b = a
    · rw [hba, Function.update_self] at hu
      obtain ⟨p, hp, rfl⟩ := List.mem_map.mp hu
      exact hpart (hparts p hp)
    · rw [Function.update_of_ne hba] at hu
      exact hpart (V.closed b (hold hb hba) u hu)
  · by_cases hba : b = a
    · have hca : c ≠ a := fun heq => hne (hba.trans heq.symm)
      rw [hba, Function.update_self, Function.update_of_ne hca]
      exact (hapart c (hold hc hca) hca).symm
    · rw [Function.update_of_ne hba]
      by_cases hca : c = a
      · rw [hca, Function.update_self]
        exact hapart b (hold hb hba) hba
      · rw [Function.update_of_ne hca]
        exact V.apart b c (hold hb hba) (hold hc hca) hne

/-- A new array beside the others. -/
theorem added (hw : Written h [] h' a s) (hparts : ∀ p ∈ s.pairs, Part V.mem p.2) :
    ∃ V' : Values h', (V'.mem = fun b => V.mem b ∨ b = a) ∧
      V'.view = Function.update V.view a (.array s) := by
  obtain ⟨S', ha', hS'⟩ := hw.array
  have hext : Extends h h' := fun c d hd => hw.keeps c d hd List.not_mem_nil
  refine V.updated ha' hparts (fun b hb _ => (V.viewed b hb).extends hext) fun b hb _ x hx hxS => ?_
  obtain ⟨c, hc⟩ := (V.viewed b hb).mem_some hx
  cases hc.symm.trans ((hS' x hxS).resolve_left List.not_mem_nil)

/-- A store into an array of some values leaves these values and the array with its new contents. -/
theorem stored (ha : V.mem a) (hs : V.view a = .array s)
    (hl : Landed h a (V.cells a) h' s' copy a') (hparts : ∀ p ∈ s'.pairs, Part V.mem p.2) :
    ∃ V' : Values h', (V'.mem = fun b => V.mem b ∨ b = a') ∧
      V'.view = Function.update V.view a' (.array s') := by
  obtain ⟨S', ha', hS'⟩ : ∃ S', ArrayAt h' a' s' S' ∧
      ∀ x ∈ S', x ∈ (if copy then [] else V.cells a) ∨ h[x]? = none := by
    cases hl with
    | inPlace hw => exact hw.array
    | copied hp hw => exact hw.array
  exact V.updated ha' hparts (fun b hb hne => V.viewed_other ha hs hl hb hne)
    fun b hb hne => V.apart_other ha hl hS' hb hne

end Store

/-- Values that are made of the same parts on two heaps decode alike, to every depth. -/
theorem value_congr {h₁ h₂ : Heap} (V₁ : Values h₁) (V₂ : Values h₂) {A : Nat → Prop}
    (hA₁ : ∀ b, A b → V₁.mem b) (hA₂ : ∀ b, A b → V₂.mem b)
    (hview : ∀ b, A b → V₁.view b = V₂.view b)
    (hclosed : ∀ b, A b → ∀ u ∈ (V₁.view b).parts, Part A u) {n : Nat} {u : Val} (hu : Part A u) :
    Decode.value h₁ n u = Decode.value h₂ n u := by
  induction n generalizing u with
  | zero => rfl
  | succ n ih =>
    cases u with
    | null => rfl
    | ref c =>
      rw [(V₁.viewed c (hA₁ c hu)).value_eq, (V₂.viewed c (hA₂ c hu)).value_eq, ← hview c hu,
        mapM_congr fun u hu' => ih (hclosed c hu u hu')]
    | i32 | i64 | f64 => exact hu.elim

end Values

end HeapScript.Library
