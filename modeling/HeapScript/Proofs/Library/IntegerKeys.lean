import HeapScript.Proofs.Library.ValueGraphs

/-!
# Access by an integer and by a key

Each way to read or to store an element comes in two forms. One takes an integer; the other takes a
value and finds out which key it stands for. For a value that stands for an integer the two do the same.
-/

namespace HeapScript.Library

open Machine Machine.Processor Code Execution Compile

/-! ## Reads -/

/-- The element under a key of a value; only arrays have elements. -/
def View.get : View → Value → Option Val
  | array s, x => s.get x
  | _, _ => none

section Reads

variable {m : Processor Output} {l : Links} {d k : Nat} {h : Heap} {w : Output} {Q : Post Output}
  {a : Nat} {t : Tag} {n : Int64} {x : Float} {s r : Val}

/-- A read of a value without elements gives a new null, whatever would follow. -/
theorem nullUnlessArray_wp (hi : Installed m l) (hr : Room m d (k + 1)) {f : String} {rest : Code}
    {ls : List Val} (ha : h[a]? = some (valueCell t n x s r)) (ht : t ≠ .array)
    (hq : ∀ h' v, Extends h h' → Boxed h' v .null → Q.returned [v] h' w) :
    m.wp ⟨f, 1, d⟩ (nullUnlessArray l ++ rest) [] Q ⟨h, w, .ref a :: ls, []⟩ := by
  obtain ⟨code, hcode⟩ : ∃ code, t.code = code := ⟨_, rfl⟩
  have hne : code ≠ 5 := by
    rintro rfl
    cases t with
    | array => exact ht rfl
    | null | bool | int | float | string | object => exact absurd hcode (by decide)
  simp only [valueCell, hcode] at ha
  simp [nullUnlessArray, ha, hne, wp_call_routine hi]
  refine newNull_calls hi hr ?_
  simp
  exact hq _ _ (.push _ _) (.null (getElem?_push_size _ _))

theorem arrGetInt_other (hi : Installed m l) (hr : Room m d (k + 2)) {i : Int64}
    (ha : h[a]? = some (valueCell t n x s r)) (ht : t ≠ .array)
    (hq : ∀ h' v, Extends h h' → Boxed h' v .null → Q.returned [v] h' w) :
    m.Calls d (l.index .arrGetInt) [.ref a, .i64 i] h w Q := by
  refine calls_routine hi hr ?_
  exact nullUnlessArray_wp (k := k) (Q := Q.later) hi (hr.mono (by omega)) ha ht hq

theorem arrGet_other (hi : Installed m l) (hr : Room m d (k + 2)) {u : Val}
    (ha : h[a]? = some (valueCell t n x s r)) (ht : t ≠ .array)
    (hq : ∀ h' v, Extends h h' → Boxed h' v .null → Q.returned [v] h' w) :
    m.Calls d (l.index .arrGet) [.ref a, u] h w Q := by
  refine calls_routine hi hr ?_
  exact nullUnlessArray_wp (k := k) (Q := Q.later) hi (hr.mono (by omega)) ha ht hq

end Reads

section Calls

variable {m : Processor Output} {l : Links} {w : World Output} {a b : Nat} {v : View} {S : List Nat}
  {s : Items} {i : Int64} {u : Val} {x : Value}

/-- A value that is no array has the record of one. -/
theorem Viewed.cell_other (hv : Viewed w.heap a v S) (hno : ∀ s, v ≠ .array s) :
    ∃ t n x y r, w.heap[a]? = some (valueCell t n x y r) ∧ t ≠ .array := by
  cases hv with
  | plain hx hb =>
    cases hb with
    | null hb | bool hb | int hb | float hb | str hb => exact ⟨_, _, _, _, _, hb, by decide⟩
    | array | object => exact hx.elim
  | array ha => exact absurd rfl (hno _)
  | object hb => exact ⟨_, _, _, _, _, hb, by decide⟩

theorem Ready.getInt (hm : Ready m l) (hv : Viewed w.heap a v S) (i : Int64) :
    Reads m l w .arrGetInt [.ref a, .i64 i] (v.get (.int i)) := by
  have hother (hno : ∀ s, v ≠ .array s) : Reads m l w .arrGetInt [.ref a, .i64 i] none := by
    obtain ⟨t, n, x, y, r, ha, ht⟩ := hv.cell_other hno
    exact hm.reads rfl (arrGetInt_other (k := 0) hm.installed (hm.room.mono (by decide)) ha ht
      fun _ v hext hnull => ⟨⟨v, rfl, hext, hnull⟩, rfl⟩)
  cases hv with
  | array ha => exact hm.arrGetInt ha i
  | plain | object => exact hother fun s => by rintro ⟨⟩

theorem Ready.get (hm : Ready m l) (hv : Viewed w.heap a v S) (hu : Boxed w.heap u x) (hx : HasKey x) :
    Reads m l w .arrGet [.ref a, u] (v.get x.normalizeKey) := by
  have hother (hno : ∀ s, v ≠ .array s) : Reads m l w .arrGet [.ref a, u] none := by
    obtain ⟨t, n, y, z, r, ha, ht⟩ := hv.cell_other hno
    exact hm.reads rfl (arrGet_other (k := 0) hm.installed (hm.room.mono (by decide)) ha ht
      fun _ v hext hnull => ⟨⟨v, rfl, hext, hnull⟩, rfl⟩)
  cases hv with
  | array ha => exact hm.arrGet ha hu hx
  | plain | object => exact hother fun s => by rintro ⟨⟩

/-! ## Stores -/

/-- How a store under an integer ends in an array that is not full: it lands, unless the index is beyond
those of a list. -/
def landing (h : Heap) (a : Nat) (S : List Nat) (s : Items) (i : Int64) (v : Val) : Post Output where
  returned vs h' _ := ¬ s.Beyond (.int i) ∧
    ∃ a', vs = [.ref a'] ∧ Landed h a S h' (s.setInt i v) (s.promotes (.int i)) a'
  trapped f _ _ _ := s.Beyond (.int i) ∧ f = "rt.illegal_offset"
  fuel := none

theorem Items.not_full (hcount : s.pairs.length < 2 ^ 29) (x : Value) : ¬ s.Full x := by
  rintro ⟨⟨-, hlen⟩, -⟩
  omega

theorem Items.set_int (s : Items) (i : Int64) (v : Val) : s.set (.int i) v = s.setInt i v := by
  cases s <;> rfl

theorem Ready.calls_setInt (hm : Ready m l) (ha : ArrayAt w.heap a s S)
    (hcount : s.pairs.length < 2 ^ 29) :
    m.Calls 0 (l.index .arrSetInt) [.ref a, .i64 i, .ref b] w.heap w.host
      (landing w.heap a S s i (.ref b)) :=
  arrSetInt_total (k := 0) hm.installed (hm.room.mono (by decide)) ha ⟨b, rfl⟩
    (fun hno _ a' hl => ⟨hno, a', rfl, hl⟩) (fun hf => absurd hf (s.not_full hcount _))
    fun hb => ⟨hb, rfl⟩

theorem Ready.calls_set (hm : Ready m l) (ha : ArrayAt w.heap a s S)
    (hcount : s.pairs.length < 2 ^ 29) (hu : Boxed w.heap u x) (hx : HasKey x)
    (hkey : x.normalizeKey = .int i) :
    m.Calls 0 (l.index .arrSet) [.ref a, u, .ref b] w.heap w.host
      (landing w.heap a S s i (.ref b)) := by
  refine arrSet_total (k := 0) hm.installed (hm.room.mono (by decide)) ha hu ⟨b, rfl⟩
    (fun _ hno _ a' hl => ?_) (fun _ hf => absurd hf (s.not_full hcount _)) fun hno _ _ => ?_
  · rw [hkey] at hno hl
    rw [Items.set_int] at hl
    exact ⟨hno, a', rfl, hl⟩
  · rw [hkey] at hno
    exact ⟨hno.resolve_left (not_not.mpr hx), rfl⟩

theorem landing_alike {w₁ w₂ : World Output} {e₁ e₂ : Ending} {v : Val}
    (h₁ : (landing w.heap a S s i v).accepts w₁ e₁) (h₂ : (landing w.heap a S s i v).accepts w₂ e₂) :
    (∃ t₁ t₂, e₁ = .trapped t₁ ∧ t₁.func = "rt.illegal_offset" ∧ e₂ = .trapped t₂ ∧
      t₂.func = "rt.illegal_offset") ∨
    ∃ a₁ a₂, e₁ = .returned [.ref a₁] ∧ e₂ = .returned [.ref a₂] ∧
      Landed w.heap a S w₁.heap (s.setInt i v) (s.promotes (.int i)) a₁ ∧
      Landed w.heap a S w₂.heap (s.setInt i v) (s.promotes (.int i)) a₂ := by
  cases e₁ with
  | malformed => exact h₁.elim
  | trapped t₁ =>
    cases e₂ with
    | malformed => exact h₂.elim
    | trapped t₂ => exact .inl ⟨t₁, t₂, rfl, h₁.2, rfl, h₂.2⟩
    | returned vs₂ => exact absurd h₁.1 h₂.1
  | returned vs₁ =>
    cases e₂ with
    | malformed => exact h₂.elim
    | trapped t₂ => exact absurd h₂.1 h₁.1
    | returned vs₂ =>
      obtain ⟨-, a₁, rfl, hl₁⟩ := h₁
      obtain ⟨-, a₂, rfl, hl₂⟩ := h₂
      exact .inr ⟨a₁, a₂, rfl, rfl, hl₁, hl₂⟩

end Calls

/-! ## Decoded contents -/

section Contents

variable {h h₁ h₂ : Heap} {a a₁ a₂ : Nat} {s s' : Items} {copy : Bool}

theorem Landed.same_choice {S : List Nat} (hl₁ : Landed h a S h₁ s copy a₁)
    (hl₂ : Landed h a S h₂ s copy a₂) :
    (a₁ = a ∧ a₂ = a) ∨ (h[a₁]? = none ∧ h[a₂]? = none) := by
  cases hl₁ with
  | inPlace =>
    cases hl₂ with
    | inPlace => exact .inl ⟨rfl, rfl⟩
  | copied hp₁ =>
    cases hl₂ with
    | copied hp₂ => exact .inr ⟨hp₁, hp₂⟩

/-- Two stores that leave the same contents in one array, or in two copies of it, leave arrays that
decode to the same entries. -/
theorem Values.decode_same (V : Values h) (ha : V.mem a) (hs : V.view a = .array s)
    (hl₁ : Landed h a (V.cells a) h₁ s' copy a₁) (hl₂ : Landed h a (V.cells a) h₂ s' copy a₂)
    (hparts : ∀ p ∈ s'.pairs, Part V.mem p.2) :
    ∃ es : Decode (List (Value × Value)), decode h₁ (.ref a₁) = es.map (.array (a₁ + 1)) ∧
      decode h₂ (.ref a₂) = es.map (.array (a₂ + 1)) := by
  obtain ⟨V₁, hmem₁, hview₁⟩ := V.stored ha hs hl₁ hparts
  obtain ⟨V₂, hmem₂, hview₂⟩ := V.stored ha hs hl₂ hparts
  have hin₁ : ∀ b, V.mem b → V₁.mem b := fun b hb => hmem₁ ▸ .inl hb
  have hin₂ : ∀ b, V.mem b → V₂.mem b := fun b hb => hmem₂ ▸ .inl hb
  -- on the values from before the two stores had the same effect
  have hview : ∀ b, V.mem b → V₁.view b = V₂.view b := by
    intro b hb
    rw [hview₁, hview₂]
    rcases hl₁.same_choice hl₂ with ⟨rfl, rfl⟩ | ⟨hp₁, hp₂⟩
    · rfl
    · rw [Function.update_of_ne (V.ne_of_none hb hp₁), Function.update_of_ne (V.ne_of_none hb hp₂)]
  have hclosed : ∀ b, V.mem b → ∀ u ∈ (V₁.view b).parts, Part V.mem u := by
    intro b hb u hu
    rw [hview₁] at hu
    by_cases hba : b = a₁
    · rw [hba, Function.update_self] at hu
      obtain ⟨p, hp, rfl⟩ := List.mem_map.mp hu
      exact hparts p hp
    · rw [Function.update_of_ne hba] at hu
      exact V.closed b hb u hu
  obtain ⟨S₁, harr₁, -⟩ := hl₁.written.array
  obtain ⟨S₂, harr₂, -⟩ := hl₂.written.array
  have hin₁' : V₁.mem a₁ := hmem₁ ▸ .inr rfl
  have hin₂' : V₂.mem a₂ := hmem₂ ▸ .inr rfl
  -- one depth that is enough on both heaps
  let n := h₁.size + h₂.size
  have hpairs : decodePairs (Decode.value h₁ n) s'.pairs = decodePairs (Decode.value h₂ n) s'.pairs := by
    rw [decodePairs_eq, decodePairs_eq, mapM_congr fun u hu => ?_]
    obtain ⟨p, hp, rfl⟩ := List.mem_map.mp hu
    exact V₁.value_congr V₂ hin₁ hin₂ hview hclosed (hparts p hp)
  refine ⟨decodePairs (Decode.value h₁ n) s'.pairs, ?_, ?_⟩
  · rw [← V₁.value_stable hin₁' (show h₁.size < n + 1 by omega), harr₁.value_eq]
  · rw [← V₂.value_stable hin₂' (show h₂.size < n + 1 by omega), harr₂.value_eq, hpairs]

theorem mem_setInt_pairs {i : Int64} {v : Val} {p : Value × Val} (hp : p ∈ (s.setInt i v).pairs) :
    p.2 = v ∨ ∃ q ∈ s.pairs, q.2 = p.2 := by
  cases s with
  | hash ps next => exact (mem_put hp).imp_right fun hp => ⟨p, hp, rfl⟩
  | dense items =>
    simp only [Items.setInt] at hp
    split at hp
    · rcases List.mem_append.mp hp with hp | hp
      · exact .inr ⟨p, hp, rfl⟩
      · exact .inl (congrArg Prod.snd (List.mem_singleton.mp hp))
    · obtain ⟨j, u, hu, rfl⟩ := mem_entriesOf.mp hp
      rcases mem_setAt (List.mem_of_getElem? hu) with rfl | hu
      · exact .inl rfl
      · obtain ⟨j', hj'⟩ := List.mem_iff_getElem?.mp hu
        exact .inr ⟨_, mem_entriesOf.mpr ⟨j', u, hj', rfl⟩, rfl⟩

end Contents

/-- On the machine of every compiled program, an integer and a value that stands for it as a key lead to
the same element of every value, and to a new null where there is none. They lead to the same store into
every array with room for a key: both end the run for an illegal offset, or both return an array with
the same contents and the same next free key, in the array that was given or both in a copy, and the two
arrays decode to the same entries. -/
theorem integer_access_agrees {p : Program} {o : Options} {c : Compiled}
    (hc : (Program.compile p o).outcome = .ok c) :
    ∃ m, machineFor c 0 = .ok m ∧
      (∀ w a v S i k x, Viewed w.heap a v S → Boxed w.heap k x → x.normalizeKey = .int i →
        Reads m c.links w .arrGetInt [.ref a, .i64 i] (v.get (.int i)) ∧
        Reads m c.links w .arrGet [.ref a, k] (v.get (.int i))) ∧
      ∀ w (V : Values w.heap) a s b i k x, V.mem a → V.view a = .array s → V.mem b →
        s.pairs.length < 2 ^ 29 → Boxed w.heap k x → x.normalizeKey = .int i →
        ∃ e₁ w₁ e₂ w₂,
          m.Ends w (c.links.index .arrSetInt) [.ref a, .i64 i, .ref b] e₁ w₁ ∧
          m.Ends w (c.links.index .arrSet) [.ref a, k, .ref b] e₂ w₂ ∧
          ((∃ t₁ t₂, e₁ = .trapped t₁ ∧ t₁.func = "rt.illegal_offset" ∧ e₂ = .trapped t₂ ∧
            t₂.func = "rt.illegal_offset") ∨
          ∃ a₁ a₂, e₁ = .returned [.ref a₁] ∧ e₂ = .returned [.ref a₂] ∧
            ((a₁ = a ∧ a₂ = a) ∨ (w.heap[a₁]? = none ∧ w.heap[a₂]? = none)) ∧
            (∃ S₁ S₂, ArrayAt w₁.heap a₁ (s.setInt i (.ref b)) S₁ ∧
              ArrayAt w₂.heap a₂ (s.setInt i (.ref b)) S₂) ∧
            ∃ es : Decode (List (Value × Value)),
              decode w₁.heap (.ref a₁) = es.map (.array (a₁ + 1)) ∧
              decode w₂.heap (.ref a₂) = es.map (.array (a₂ + 1))) := by
  obtain ⟨m, hm, hready⟩ := ready_of_compiled hc
  have hhas {x : Value} {i : Int64} (hkey : x.normalizeKey = .int i) : HasKey x := by
    cases x with
    | array | object => cases hkey
    | null | bool | int | float | str => trivial
  refine ⟨m, hm, fun w a v S i k x hv hk hkey => ?_, fun w V a s b i k x ha hs hb hcount hk hkey => ?_⟩
  · refine ⟨hready.getInt hv i, ?_⟩
    rw [← hkey]
    exact hready.get hv hk (hhas hkey)
  · have harr := V.viewed a ha
    rw [hs] at harr
    cases harr with
    | array harr =>
      obtain ⟨e₁, w₁, hends₁, h₁⟩ :=
        hready.ends rfl rfl (hready.calls_setInt (i := i) (b := b) harr hcount)
      obtain ⟨e₂, w₂, hends₂, h₂⟩ :=
        hready.ends rfl rfl (hready.calls_set (b := b) harr hcount hk (hhas hkey) hkey)
      refine ⟨e₁, w₁, e₂, w₂, hends₁, hends₂, ?_⟩
      rcases landing_alike h₁ h₂ with htraps | ⟨a₁, a₂, rfl, rfl, hl₁, hl₂⟩
      · exact .inl htraps
      · obtain ⟨S₁, harr₁, -⟩ := hl₁.written.array
        obtain ⟨S₂, harr₂, -⟩ := hl₂.written.array
        refine .inr ⟨a₁, a₂, rfl, rfl, hl₁.same_choice hl₂, ⟨S₁, S₂, harr₁, harr₂⟩,
          V.decode_same ha hs hl₁ hl₂ fun q hq => ?_⟩
        rcases mem_setInt_pairs hq with hv | ⟨q', hq', hv⟩
        · rw [hv]
          exact hb
        · rw [← hv]
          refine V.closed a ha _ ?_
          rw [hs]
          exact List.mem_map_of_mem hq'

/-- The string of the bytes of -3 leads to the same store into an empty array as the integer: both make
a copy. -/
theorem string_stores_as_integer :
    ∃ c m w a b k, (Program.compile [] {}).outcome = .ok c ∧ machineFor c 0 = .ok m ∧
      Boxed w.heap k (.str [45, 51]) ∧
      ∃ w₁ w₂ a₁ a₂,
        m.Ends w (c.links.index .arrSetInt) [.ref a, .i64 (-3), .ref b] (.returned [.ref a₁]) w₁ ∧
        m.Ends w (c.links.index .arrSet) [.ref a, k, .ref b] (.returned [.ref a₂]) w₂ ∧
        ∃ es : Decode (List (Value × Value)), decode w₁.heap (.ref a₁) = es.map (.array (a₁ + 1)) ∧
          decode w₂.heap (.ref a₂) = es.map (.array (a₂ + 1)) := by
  obtain ⟨c, hc⟩ := compile_nothing
  obtain ⟨m, hm, -, hstore⟩ := integer_access_agrees hc
  obtain ⟨m', hm', hready⟩ := ready_of_compiled hc
  cases hm.symm.trans hm'
  obtain ⟨a, w₀, -, S, ha₀⟩ := hready.arrNew ⟨#[], #[], 0⟩
  -- the value to store, and the key with its bytes
  let h₁ := w₀.heap.push (valueCell .int 7 0 .null .null)
  let h₂ := h₁.push (.array Shape.bytes (byteVals [45, 51]))
  let w : World Output :=
    ⟨h₂.push (valueCell .string 0 0 (.ref (w₀.heap.size + 1)) .null), #[], 0⟩
  have hext : Extends w₀.heap w.heap := ((Extends.push _ _).trans (.push _ _)).trans (.push _ _)
  have ha : ArrayAt w.heap a (.dense []) S := ha₀.extends hext
  have hb : Boxed w.heap (.ref w₀.heap.size) (.int 7) :=
    (Boxed.int (getElem?_push_size _ _)).push.push
  have hbytes : h₂[w₀.heap.size + 1]? =
      some (.array Shape.bytes (byteVals [45, 51])) := getElem?_push_at (by simp [h₁]) _
  have hk : Boxed w.heap (.ref (w₀.heap.size + 2)) (.str [45, 51]) :=
    .str (getElem?_push_at (by simp [h₂, h₁]) _) ⟨_, rfl, Extends.push _ _ _ _ hbytes⟩ (by decide)
  have hne : w₀.heap.size ≠ a := by
    obtain ⟨n, r, hcell⟩ := ha₀.cell
    exact (ne_size hcell).symm
  let V : Values w.heap :=
    { mem := fun x => x = a ∨ x = w₀.heap.size
      view := fun x => if x = a then .array (.dense []) else .plain (.int 7)
      cells := fun x => if x = a then S else []
      viewed := by
        rintro x (rfl | rfl)
        · rw [if_pos rfl, if_pos rfl]
          exact .array ha
        · rw [if_neg hne, if_neg hne]
          exact .plain trivial hb
      closed := by
        rintro x (rfl | rfl) u hu
        · rw [if_pos rfl] at hu
          cases hu
        · rw [if_neg hne] at hu
          cases hu
      apart := by
        rintro x y (rfl | rfl) (rfl | rfl) hxy
        · exact absurd rfl hxy
        · rw [if_neg hne]
          exact List.disjoint_nil_right _
        · rw [if_neg hne]
          exact List.disjoint_nil_left _
        · exact absurd rfl hxy }
  obtain ⟨e₁, w₁, e₂, w₂, hends₁, hends₂, hcase⟩ := hstore w V a (.dense []) w₀.heap.size (-3)
    (.ref (w₀.heap.size + 2)) (.str [45, 51]) (.inl rfl) (if_pos rfl) (.inr rfl) (by decide) hk rfl
  have hallows : (Items.dense []).Allows (.int (-3)) := by
    refine ⟨by decide, fun items i _ hi => ?_⟩
    cases hi
    decide
  obtain ⟨a', w', hends, -⟩ := hready.arrSetInt (b := w₀.heap.size) ha hallows
  obtain ⟨rfl, -⟩ := hends.unique hends₁
  rcases hcase with ⟨t₁, t₂, htrap, -⟩ | ⟨a₁, a₂, he₁, he₂, -, -, hes⟩
  · cases htrap
  · cases he₁
    subst he₂
    exact ⟨c, m, w, a, _, _, hc, hm, hk, w₁, w₂, _, a₂, hends₁, hends₂, hes⟩

end HeapScript.Library
