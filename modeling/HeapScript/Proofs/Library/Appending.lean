import HeapScript.Proofs.Library.ArrayRefinement

/-!
# Appending to arrays

Appending stores under the next free integer key: the length of a list, or the counter of a table,
which every new integer key pushes up. The counter is a machine word. Once the largest integer is a key
it has gone around to the smallest one, and the next element may take the place of another.
-/

namespace HeapScript.Library

open Machine Machine.Processor Code Execution Compile

/-! ## The counter of a table -/

/-- The counter of a table is above all its integer keys, unless the largest integer is one of them. -/
def Ahead (ps : List (Value × Val)) (next : Int64) : Prop :=
  hasKey ps (.int Int64.maxValue) = true ∨ ∀ i, hasKey ps (.int i) = true → i < next

section Counter

variable {ps : List (Value × Val)} {next : Int64} {x : Value} {v : Val}

theorem strictEq_int {i : Int64} : x.strictEq (.int i) = true ↔ x = .int i := by
  cases x <;> simp [Value.strictEq]

theorem hasKey_append (p : Value × Val) (y : Value) :
    hasKey (ps ++ [p]) y = (hasKey ps y || p.1.strictEq y) := by
  simp [hasKey]

/-- Storing under a key that is there leaves the keys. -/
theorem hasKey_put_of_hasKey (hx : hasKey ps x = true) (y : Value) :
    hasKey (put ps x v) y = hasKey ps y := by
  rw [put, if_pos hx, hasKey, hasKey, List.any_map]
  congr 1
  funext p
  simp only [Function.comp_apply]
  split <;> rfl

theorem Ahead.append (h : Ahead ps next) (x : Value) (v : Val) :
    Ahead (ps ++ [(x, v)]) (nextBehind next x) := by
  rcases h with hmax | hbelow
  · left
    rw [hasKey_append, hmax, Bool.true_or]
  by_cases hx : x = .int Int64.maxValue
  · left
    rw [hasKey_append, strictEq_int.mpr hx, Bool.or_true]
  right
  intro i hi
  rw [hasKey_append, Bool.or_eq_true, strictEq_int] at hi
  cases x with
  | int j =>
    have hj : j ≠ Int64.maxValue := fun heq => hx (heq ▸ rfl)
    -- the successor of a key below the largest integer is above it
    have hsucc : j < j + 1 := by
      have hlt := Int64.toInt_lt j
      have hle := Int64.le_toInt j
      have hne : j.toInt ≠ 2 ^ 63 - 1 := fun heq => hj (Int64.toInt_inj.mp heq)
      rw [Int64.lt_iff_toInt_lt, Int64.toInt_add, Int64.toInt_one,
        Int.bmod_eq_of_le (by omega) (by omega)]
      omega
    rcases hi with hi | hi
    · have hlt := hbelow i hi
      simp only [nextBehind]
      split <;> rename_i hle
      · exact Int64.lt_trans (Int64.lt_of_lt_of_le hlt hle) hsucc
      · exact hlt
    · cases hi
      simp only [nextBehind]
      split <;> rename_i hle
      · exact hsucc
      · exact Int64.not_le.mp hle
  | null | bool | float | str | array | object =>
    rcases hi with hi | hi
    · exact hbelow i hi
    · cases hi

theorem Ahead.put (h : Ahead ps next) (x : Value) (v : Val) :
    Ahead (put ps x v) (nextAfter ps next x) := by
  by_cases hx : hasKey ps x = true
  · simp only [Ahead, hasKey_put_of_hasKey hx, nextAfter, if_pos hx]
    exact h
  · rw [Library.put, if_neg hx, nextAfter, if_neg hx]
    exact h.append x v

/-- The counter of a table that pairs were stored in one after the other. -/
theorem ahead_nextOf (ps : List (Value × Val)) : Ahead ps (Items.nextOf ps) := by
  induction ps using List.reverseRecOn with
  | nil => exact .inr fun i hi => by cases hi
  | append_singleton ps p ih =>
    have hnext : Items.nextOf (ps ++ [p]) = nextBehind (Items.nextOf ps) p.1 := by
      simp [Items.nextOf]
    rw [hnext]
    exact ih.append p.1 p.2

end Counter

/-! ## The counters of arrays -/

namespace Items

/-- The counter of an array is ahead of its keys. A list has its length for a counter. -/
def Ahead : Items → Prop
  | dense _ => True
  | hash ps next => Library.Ahead ps next

/-- An array holds what another one does, and behind that an element under a new integer. -/
def Appended (s s' : Items) (v : Val) : Prop :=
  ∃ i, hasKey s.pairs (.int i) = false ∧ s'.pairs = s.pairs ++ [(.int i, v)] ∧
    s'.length = s.length + 1

variable {s : Items} {v : Val}

theorem ahead_promote (items : List (Option Val)) (x : Value) (v : Val) : (promote items x v).Ahead :=
  (ahead_nextOf (entriesOf items)).append x v

theorem Ahead.setInt (h : s.Ahead) (i : Int64) (v : Val) : (s.setInt i v).Ahead := by
  cases s with
  | hash ps next => exact Library.Ahead.put h _ v
  | dense items =>
    simp only [Items.setInt]
    split
    · exact ahead_promote items _ v
    · trivial

theorem Ahead.set (h : s.Ahead) (x : Value) (v : Val) : (s.set x v).Ahead := by
  cases x with
  | int i => exact h.setInt i v
  | null | bool | float | str | array | object =>
    cases s with
    | hash ps next => exact Library.Ahead.put h _ v
    | dense items => exact ahead_promote items _ v

/-- Under a new key, appending puts the element behind all others. -/
theorem appended_push (hlen : ∀ items, s = dense items → items.length < 2 ^ 31)
    (hfree : hasKey s.pairs (.int s.free) = false) : s.Appended (s.push v) v := by
  refine ⟨s.free, hfree, ?_⟩
  cases s with
  | hash ps next =>
    have hput : put ps (.int next) v = ps ++ [(.int next, v)] := by
      rw [put, if_neg (by rw [show hasKey ps (.int next) = false from hfree]; simp)]
    exact ⟨hput, by simp [push, free, setInt, length, hput]⟩
  | dense items =>
    have hlt := hlen items rfl
    have hset : setAt items items.length v = items ++ [some v] := by
      simp [setAt]
    simp only [push, free, setInt, if_neg (not_ofNat_lt_zero (show items.length < 2 ^ 63 by omega)),
      toNatClampNeg_ofNat (show items.length < 2 ^ 63 by omega), hset, pairs, entriesOf_append, length]
    exact ⟨rfl, by simp⟩

/-- Under a key that is there, it does not. -/
theorem not_appended_push (hlen : ∀ items, s = dense items → items.length < 2 ^ 31)
    (hfree : hasKey s.pairs (.int s.free) = true) : ¬ s.Appended (s.push v) v := by
  rintro ⟨i, -, hpairs, -⟩
  cases s with
  | hash ps next =>
    have hput : (put ps (.int next) v).length = ps.length := by
      rw [put, if_pos (show hasKey ps (.int next) = true from hfree), List.length_map]
    have hlength : (put ps (.int next) v).length = (ps ++ [(Value.int i, v)]).length :=
      congrArg List.length hpairs
    rw [hput, List.length_append, List.length_singleton] at hlength
    omega
  | dense items =>
    have hlt := hlen items rfl
    have hnone : hasKey (entriesOf items) (indexKey items.length) = false :=
      hasKey_entriesOf trivial fun j hj heq => by
        have := (indexKey_inj (by omega) (by omega)).mp heq
        omega
    rw [show hasKey (entriesOf items) (indexKey items.length) = true from hfree] at hnone
    cases hnone

/-- A counter that is ahead of its keys is none of them, unless the largest integer is a key. -/
theorem Ahead.free_new (h : s.Ahead) (hlen : ∀ items, s = dense items → items.length < 2 ^ 31)
    (hmax : hasKey s.pairs (.int Int64.maxValue) = false) :
    hasKey s.pairs (.int s.free) = false := by
  cases s with
  | hash ps next =>
    rw [← Bool.not_eq_true]
    intro hnext
    rcases h with h | h
    · rw [show hasKey ps (.int Int64.maxValue) = false from hmax] at h
      cases h
    · exact Int64.lt_irrefl (h next hnext)
  | dense items =>
    have hlt := hlen items rfl
    refine hasKey_entriesOf trivial fun j hj heq => ?_
    have := (indexKey_inj (by omega) (by omega)).mp heq
    omega

end Items

/-! ## Appending on the machine -/

section Append

variable {m : Processor Output} {l : Links} {w : World Output} {a b : Nat} {s : Items} {S : List Nat}

theorem Reached.ahead (h : Reached m l w a s) : s.Ahead := by
  induction h with
  | new => trivial
  | more _ _ ih => exact ih
  | set _ _ _ _ _ ih => exact ih.set _ _
  | setInt _ _ _ ih => exact ih.setInt _ _
  | push _ _ _ ih => exact ih.setInt _ _

theorem ArrayAt.length_lt {h : Heap} (ha : ArrayAt h a s S) (items : List (Option Val))
    (hs : s = .dense items) : items.length < 2 ^ 31 := by
  cases ha with
  | dense _ _ hlen hcap =>
    cases hs
    omega
  | hash => cases hs

end Append

/-- On the machine of every compiled program, appending to an array that was made by stores ends. The
element stands under a new integer behind all others, and the count grows by one, exactly when the next
free key is new. This is so as long as the largest integer is no key. -/
theorem append_behind_unless_wrapped {p : Program} {o : Options} {c : Compiled}
    (hc : (Program.compile p o).outcome = .ok c) :
    ∃ m, machineFor c 0 = .ok m ∧
      ∀ w a s b, Reached m c.links w a s → s.Allows (.int s.free) →
        ∃ a' w', m.Ends w (c.links.index .arrPush) [.ref a, .ref b] (.returned [.ref a']) w' ∧
          Reached m c.links w' a' (s.push (.ref b)) ∧
          decode w'.heap (.ref a') =
            (decodePairs (Decode.value w'.heap w'.heap.size) (s.push (.ref b)).pairs).map
              (.array (a' + 1)) ∧
          (∃ w'', m.Ends w' (c.links.index .arrCount) [.ref a']
            (.returned [.i64 (Int64.ofNat (s.push (.ref b)).length)]) w'') ∧
          (s.Appended (s.push (.ref b)) (.ref b) ↔ hasKey s.pairs (.int s.free) = false) ∧
          (hasKey s.pairs (.int Int64.maxValue) = false →
            s.Appended (s.push (.ref b)) (.ref b)) := by
  obtain ⟨m, hm, hready⟩ := ready_of_compiled hc
  refine ⟨m, hm, fun w a s b hreached hs => ?_⟩
  obtain ⟨S, ha⟩ := hreached.array hready
  obtain ⟨a', w', hends, hw⟩ := hready.arrPush ha hs
  obtain ⟨S', ha', -⟩ := hw.array
  obtain ⟨w'', hcount, -⟩ := hready.arrCount ha'
  refine ⟨a', w', hends, hreached.push hs hends, ha'.decode_eq, ⟨w'', hcount⟩, ⟨fun happ => ?_, ?_⟩,
    fun hmax => ?_⟩
  · rw [← Bool.not_eq_true]
    exact fun hfree => Items.not_appended_push ha.length_lt hfree happ
  · exact Items.appended_push ha.length_lt
  · exact Items.appended_push ha.length_lt (hreached.ahead.free_new ha.length_lt hmax)

/-- An element behind an empty array stands under 0. -/
theorem append_to_empty :
    ∃ c m w a, (Program.compile [] {}).outcome = .ok c ∧ machineFor c 0 = .ok m ∧
      Reached m c.links w a (.dense []) ∧
      ∀ b, ∃ a' w', m.Ends w (c.links.index .arrPush) [.ref a, .ref b] (.returned [.ref a']) w' ∧
        Reached m c.links w' a' (.dense [some (.ref b)]) := by
  obtain ⟨c, hc⟩ := compile_nothing
  obtain ⟨m, hm, happend⟩ := append_behind_unless_wrapped hc
  obtain ⟨m', hm', hready⟩ := ready_of_compiled hc
  cases hm.symm.trans hm'
  obtain ⟨a, w, hnew, -⟩ := hready.arrNew ⟨#[], #[], 0⟩
  have hreached : Reached m c.links w a (.dense []) := .new hnew
  refine ⟨c, m, w, a, hc, hm, hreached, fun b => ?_⟩
  have hallows : (Items.dense []).Allows (.int (Items.dense []).free) := by
    refine ⟨by decide, fun items i _ hi => ?_⟩
    cases hi
    decide
  obtain ⟨a', w', hends, hpush, -⟩ := happend w a _ b hreached hallows
  exact ⟨a', w', hends, hpush⟩

/-- With the smallest and the largest integer for keys, appending overwrites the element under the
smallest one, and the array still has two elements. -/
theorem append_overwrites :
    ∃ c m w a b₁ b₂ b₃, (Program.compile [] {}).outcome = .ok c ∧ machineFor c 0 = .ok m ∧
      Reached m c.links w a
        (.hash [(.int Int64.minValue, .ref b₁), (.int Int64.maxValue, .ref b₂)] Int64.minValue) ∧
      decode w.heap (.ref a) = .ok (.array (a + 1)
        [(.int Int64.minValue, .int 1), (.int Int64.maxValue, .int 2)]) ∧
      ∃ a' w' w'',
        m.Ends w (c.links.index .arrPush) [.ref a, .ref b₃] (.returned [.ref a']) w' ∧
        m.Ends w' (c.links.index .arrCount) [.ref a'] (.returned [.i64 2]) w'' ∧
        decode w'.heap (.ref a') = .ok (.array (a' + 1)
          [(.int Int64.minValue, .int 3), (.int Int64.maxValue, .int 2)]) := by
  obtain ⟨c, hc⟩ := compile_nothing
  obtain ⟨m, hm, hready⟩ := ready_of_compiled hc
  obtain ⟨a₁, w₁, hnew, -⟩ := hready.arrNew ⟨#[], #[], 0⟩
  -- three integers for elements, made after the array
  let intCell (i : Int64) : Cell := valueCell .int i 0 .null .null
  let w₂ : World Output :=
    ⟨((w₁.heap.push (intCell 1)).push (intCell 2)).push (intCell 3), #[], 0⟩
  have hone : Boxed w₂.heap (.ref w₁.heap.size) (.int 1) :=
    (Boxed.int (getElem?_push_size _ _)).push.push
  have htwo : Boxed w₂.heap (.ref (w₁.heap.size + 1)) (.int 2) :=
    (Boxed.int (getElem?_push_at (by simp) _)).push
  have hthree : Boxed w₂.heap (.ref (w₁.heap.size + 2)) (.int 3) :=
    .int (getElem?_push_at (by simp) _)
  have hreached₂ : Reached m c.links w₂ a₁ (.dense []) :=
    (Reached.new hnew).more (((Extends.push _ _).trans (.push _ _)).trans (.push _ _))
  -- the smallest integer makes it a table
  have hallows₂ : (Items.dense []).Allows (.int Int64.minValue) := by
    refine ⟨by decide, fun items i _ hi => ?_⟩
    cases hi
    decide
  obtain ⟨S₂, ha₂⟩ := hreached₂.array hready
  obtain ⟨a₃, w₃, -, hreached₃, hkeep₃⟩ := ha₂.stores
    (hready.arrSetInt (b := w₁.heap.size) ha₂ hallows₂) fun _ _ => hreached₂.setInt hallows₂
  -- the largest one turns its counter around
  have hallows₃ : ((Items.dense []).setInt Int64.minValue (.ref w₁.heap.size)).Allows
      (.int Int64.maxValue) := ⟨show 1 < 2 ^ 29 by decide, fun items i hs => by cases hs⟩
  obtain ⟨S₃, ha₃⟩ := hreached₃.array hready
  obtain ⟨a₄, w₄, -, hreached₄, hkeep₄⟩ := ha₃.stores
    (hready.arrSetInt (b := w₁.heap.size + 1) ha₃ hallows₃) fun _ _ => hreached₃.setInt hallows₃
  have hkeep : ∀ u x, HasKey x → Boxed w₂.heap u x → Boxed w₄.heap u x :=
    fun u x hx hu => hkeep₄ u x hx (hkeep₃ u x hx hu)
  obtain ⟨S₄, ha₄⟩ := hreached₄.array hready
  have hallows₄ : ((((Items.dense []).setInt Int64.minValue (.ref w₁.heap.size)).setInt
      Int64.maxValue (.ref (w₁.heap.size + 1)))).Allows (.int Int64.minValue) :=
    ⟨show 2 < 2 ^ 29 by decide, fun items i hs => by cases hs⟩
  obtain ⟨a₅, w₅, hends₅, hreached₅, hkeep₅⟩ := ha₄.stores
    (hready.arrPush (b := w₁.heap.size + 2) ha₄ hallows₄) fun _ _ => hreached₄.push hallows₄
  obtain ⟨S₅, ha₅⟩ := hreached₅.array hready
  obtain ⟨w₆, hcount, -⟩ := hready.arrCount ha₅
  refine ⟨c, m, w₄, a₄, _, _, _, hc, hm, hreached₄, ha₄.decode_plain ?_, a₅, w₅, w₆, hends₅, hcount,
    ha₅.decode_plain ?_⟩
  · exact .cons ⟨rfl, trivial, hkeep _ _ trivial hone⟩
      (.cons ⟨rfl, trivial, hkeep _ _ trivial htwo⟩ .nil)
  · exact .cons ⟨rfl, trivial, hkeep₅ _ _ trivial (hkeep _ _ trivial hthree)⟩
      (.cons ⟨rfl, trivial, hkeep₅ _ _ trivial (hkeep _ _ trivial htwo)⟩ .nil)

end HeapScript.Library
