import HeapScript.Proofs.Machine.Outcome

/-!
# What instructions have done

From the configuration behind an instruction that went on: what it found on the stack and in the
heap, and what it changed. There is one lemma for each form of instruction that is neither control
flow nor a call.
-/

namespace HeapScript.Machine.Processor

variable {ω : Type} {m : Processor ω} {i : Instr} {c c' : Cfg ω}

/-! ## Operands -/

theorem effect_next (he : m.effect i c = .next c') : ∃ s, m.exec c.state i = .next s ∧
    c' = ⟨s.heap, s.host, s.frame.locals.toList, s.frame.stack⟩ := by
  unfold effect at he
  split at he <;> cases he
  exact ⟨_, ‹_›, rfl⟩

theorem effect_push {v : Val} (hx : m.exec c.state i = c.state.push v)
    (he : m.effect i c = .next c') : c' = { c with stack := v :: c.stack } := by
  rw [effect, hx] at he
  cases he
  rfl

theorem effect_replaceTop {f : Val → Option Val} (hx : m.exec c.state i = c.state.replaceTop f)
    (he : m.effect i c = .next c') :
    ∃ v r st, c.stack = v :: st ∧ f v = some r ∧ c' = { c with stack := r :: st } := by
  obtain ⟨s, hs, rfl⟩ := effect_next he
  rw [hx] at hs
  simp only [State.replaceTop, Cfg.state] at hs
  repeat' split at hs
  all_goals cases hs
  exact ⟨_, _, _, ‹_›, ‹_›, rfl⟩

theorem effect_combine {f : Val → Val → Option (Except TrapReason Val)}
    (hx : m.exec c.state i = c.state.combine f) (he : m.effect i c = .next c') :
    ∃ a b r st, c.stack = b :: a :: st ∧ f a b = some (.ok r) ∧
      c' = { c with stack := r :: st } := by
  obtain ⟨s, hs, rfl⟩ := effect_next he
  rw [hx] at hs
  simp only [State.combine, Cfg.state] at hs
  repeat' split at hs
  all_goals cases hs
  exact ⟨_, _, _, _, ‹_›, ‹_›, rfl⟩

theorem effect_drop (he : m.effect .drop c = .next c') :
    ∃ v st, c.stack = v :: st ∧ c' = { c with stack := st } := by
  obtain ⟨s, hs, rfl⟩ := effect_next he
  simp only [exec.eq_def, Cfg.state] at hs
  split at hs <;> cases hs
  exact ⟨_, _, ‹_›, rfl⟩

theorem effect_localGet_next {j : Int} (he : m.effect (.localGet j) c = .next c') :
    ∃ v, local? c.locals j = some v ∧ c' = { c with stack := v :: c.stack } := by
  rw [show c = ⟨c.heap, c.host, c.locals, c.stack⟩ from rfl, effect_localGet] at he
  split at he <;> cases he
  exact ⟨_, ‹_›, rfl⟩

theorem effect_localSet_next {j : Int} (he : m.effect (.localSet j) c = .next c') :
    ∃ v st ls, c.stack = v :: st ∧ setLocal? c.locals v j = some ls ∧
      c' = { c with locals := ls, stack := st } := by
  obtain ⟨heap, host, locals, _ | ⟨v, st⟩⟩ := c
  · cases he
  · rw [effect_localSet] at he
    split at he <;> cases he
    exact ⟨_, _, _, rfl, ‹_›, rfl⟩

theorem effect_localTee_next {j : Int} (he : m.effect (.localTee j) c = .next c') :
    ∃ v st ls, c.stack = v :: st ∧ setLocal? c.locals v j = some ls ∧
      c' = { c with locals := ls } := by
  obtain ⟨heap, host, locals, _ | ⟨v, st⟩⟩ := c
  · cases he
  · rw [effect_localTee] at he
    split at he <;> cases he
    exact ⟨_, _, _, rfl, ‹_›, rfl⟩

theorem effect_refTest {t : Int} (he : m.effect (.refTest t) c = .next c') :
    ∃ v st x, c.stack = v :: st ∧ c' = { c with stack := .i32 x :: st } := by
  obtain ⟨s, hs, rfl⟩ := effect_next he
  simp only [exec.eq_def, execRecord.eq_def, Cfg.state] at hs
  split at hs <;> cases hs
  exact ⟨_, _, _, ‹_›, rfl⟩

theorem effect_refCast {t : Int} (he : m.effect (.refCast t) c = .next c') :
    ∃ v st, c.stack = v :: st ∧ (v = .null ∨ c.heap.typeOf v = t) ∧ c' = c := by
  obtain ⟨s, hs, rfl⟩ := effect_next he
  simp only [exec.eq_def, execRecord.eq_def, Cfg.state] at hs
  repeat' split at hs
  all_goals cases hs
  rename_i v st hc hcast
  refine ⟨v, st, hc, ?_, by simp only [← hc]⟩
  rcases Bool.or_eq_true _ _ ▸ hcast with hn | ht
  · cases v <;> cases hn
    exact .inl rfl
  · exact .inr (beq_iff_eq.1 ht)

/-! ## Records -/

theorem struct?_eq {h : Heap} {v : Val} {a : Nat} {fields : Array Val}
    (hs : h.struct? v = some (a, fields)) : v = .ref a ∧ ∃ t, h[a]? = some (.struct t fields) := by
  cases v with
  | ref b =>
    simp only [Heap.struct?] at hs
    split at hs
    · rename_i t fs hb
      cases hs
      exact ⟨rfl, t, hb⟩
    · cases hs
  | i32 | i64 | f64 | null => cases hs

theorem array?_eq {h : Heap} {v : Val} {a : Nat} {t : Int} {elems : Array Val}
    (hs : h.array? v = some (a, t, elems)) : v = .ref a ∧ h[a]? = some (.array t elems) := by
  cases v with
  | ref b =>
    simp only [Heap.array?] at hs
    split at hs
    · rename_i t fs hb
      cases hs
      exact ⟨rfl, hb⟩
    · cases hs
  | i32 | i64 | f64 | null => cases hs

theorem effect_structGet {t f : Int} (he : m.effect (.structGet t f) c = .next c') :
    ∃ a t' fields v st, c.stack = .ref a :: st ∧ c.heap[a]? = some (.struct t' fields) ∧
      at? fields f = some v ∧ c' = { c with stack := v :: st } := by
  obtain ⟨s, hs, rfl⟩ := effect_next he
  simp only [exec.eq_def, execRecord.eq_def, Cfg.state] at hs
  repeat' split at hs
  all_goals cases hs
  rename_i r st hc _ a fields hr _ v hv
  obtain ⟨rfl, t', hcell⟩ := struct?_eq hr
  exact ⟨a, t', fields, v, _, hc, hcell, hv, rfl⟩

theorem effect_structSet {t f : Int} (he : m.effect (.structSet t f) c = .next c') :
    ∃ a t' fields v st, c.stack = v :: .ref a :: st ∧ c.heap[a]? = some (.struct t' fields) ∧
      c' = { c with heap := c.heap.setField a f.toNat v, stack := st } := by
  obtain ⟨s, hs, rfl⟩ := effect_next he
  simp only [exec.eq_def, execRecord.eq_def, Cfg.state] at hs
  repeat' split at hs
  all_goals cases hs
  rename_i v r st hc _ a size hmap hf
  obtain ⟨⟨a, fields⟩, hr, ⟨⟩⟩ := Option.map_eq_some_iff.1 hmap
  obtain ⟨rfl, t', hcell⟩ := struct?_eq hr
  exact ⟨a, t', fields, v, st, hc, hcell, rfl⟩

theorem popMany_eq {n : Nat} {stack taken vs below : List Val}
    (h : Frame.popMany n stack taken = some (vs, below)) :
    vs = (stack.take n).reverse ++ taken ∧ below = stack.drop n ∧ n ≤ stack.length := by
  induction n generalizing stack taken with
  | zero =>
    cases h
    simp
  | succ n ih =>
    cases stack with
    | nil => cases h
    | cons v stack =>
      obtain ⟨rfl, rfl, hn⟩ := ih h
      simp [hn]

theorem effect_structNew {t : Int} (he : m.effect (.structNew t) c = .next c') :
    ∃ type, at? m.program.types t = some type ∧ type.fieldCount ≤ c.stack.length ∧
      c' = { c with
        heap := c.heap.push (.struct t (c.stack.take type.fieldCount).reverse.toArray)
        stack := .ref c.heap.size :: c.stack.drop type.fieldCount } := by
  obtain ⟨s, hs, rfl⟩ := effect_next he
  simp only [exec.eq_def, execRecord.eq_def, Cfg.state] at hs
  repeat' split at hs
  all_goals cases hs
  rename_i type ht _ fields below hp
  obtain ⟨rfl, rfl, hn⟩ := popMany_eq hp
  exact ⟨type, ht, hn, by simp⟩

/-! ## Arrays -/

theorem effect_arrayNewDefault {t : Int} (he : m.effect (.arrayNewDefault t) c = .next c') :
    ∃ n st type, c.stack = .i32 n :: st ∧ at? m.program.types t = some type ∧
      c' = { c with
        heap := c.heap.push (.array t (Array.replicate n.toInt.toNat (Val.zero type.elem)))
        stack := .ref c.heap.size :: st } := by
  obtain ⟨s, hs, rfl⟩ := effect_next he
  simp only [exec.eq_def, execArray.eq_def, Cfg.state] at hs
  repeat' split at hs
  all_goals cases hs
  exact ⟨_, _, _, ‹_›, ‹_›, rfl⟩

theorem effect_arrayNewData {t segment : Int} (he : m.effect (.arrayNewData t segment) c = .next c') :
    ∃ u v st bs, c.stack = u :: v :: st ∧
      c' = { c with heap := (c.heap.allocBytes t bs).2, stack := .ref c.heap.size :: st } := by
  obtain ⟨s, hs, rfl⟩ := effect_next he
  simp only [exec.eq_def, execArray.eq_def, Cfg.state] at hs
  repeat' split at hs
  all_goals cases hs
  exact ⟨_, _, _, _, ‹_›, rfl⟩

theorem effect_arrayGet {t : Int} (hi : i = .arrayGet t ∨ i = .arrayGetU t)
    (he : m.effect i c = .next c') :
    ∃ n a t' elems v st, c.stack = .i32 n :: .ref a :: st ∧
      c.heap[a]? = some (.array t' elems) ∧ v ∈ elems ∧ c' = { c with stack := v :: st } := by
  obtain ⟨s, hs, rfl⟩ := effect_next he
  have hx : m.exec c.state i = execArray m c.state (.arrayGet t) := by
    rcases hi with rfl | rfl <;> simp only [exec.eq_def, execArray.eq_def]
  rw [hx] at hs
  simp only [execArray.eq_def, Cfg.state] at hs
  repeat' split at hs
  all_goals cases hs
  rename_i n r st hc _ a t' elems hr _ v hv
  obtain ⟨rfl, hcell⟩ := array?_eq hr
  exact ⟨n, a, t', elems, v, st, hc, hcell, Array.mem_of_getElem? hv, rfl⟩

theorem effect_arrayLen (he : m.effect .arrayLen c = .next c') :
    ∃ a t elems st x, c.stack = .ref a :: st ∧ c.heap[a]? = some (.array t elems) ∧
      c' = { c with stack := .i32 x :: st } := by
  obtain ⟨s, hs, rfl⟩ := effect_next he
  simp only [exec.eq_def, execArray.eq_def, Cfg.state] at hs
  repeat' split at hs
  all_goals cases hs
  rename_i r st hc _ a t elems hr
  obtain ⟨rfl, hcell⟩ := array?_eq hr
  exact ⟨a, t, elems, st, _, hc, hcell, rfl⟩

theorem effect_arraySet {t : Int} (he : m.effect (.arraySet t) c = .next c') :
    ∃ v n a t' elems st type stored j, c.stack = v :: .i32 n :: .ref a :: st ∧
      c.heap[a]? = some (.array t' elems) ∧ at? m.program.types t' = some type ∧
      (if type.elem = .i8 then ∃ x, stored = .i32 x else stored = v) ∧
      c' = { c with heap := c.heap.setElem a j stored, stack := st } := by
  obtain ⟨s, hs, rfl⟩ := effect_next he
  simp only [exec.eq_def, execArray.eq_def, execArraySet, Cfg.state] at hs
  -- The choice of what is stored stays as it is.
  split at hs
  on_goal 2 => cases hs
  rename_i v n r st hc
  split at hs
  · cases hs
  rename_i a t' size hr
  obtain ⟨⟨a', t'', elems⟩, har, heq⟩ := Option.map_eq_some_iff.1 hr
  cases heq
  obtain ⟨rfl, hcell⟩ := array?_eq har
  split at hs
  on_goal 2 => cases hs
  split at hs
  · cases hs
  rename_i type ht
  split at hs <;> cases hs
  rename_i stored hst
  refine ⟨v, n, _, _, elems, st, type, stored, _, hc, hcell, ht, ?_, rfl⟩
  split at hst <;> rename_i he8
  · obtain ⟨b, -, rfl⟩ := Option.map_eq_some_iff.1 hst
    rw [if_pos he8]
    exact ⟨_, rfl⟩
  · rw [if_neg he8]
    exact (Option.some.inj hst).symm

theorem effect_arrayCopy {t t' : Int} (he : m.effect (.arrayCopy t t') c = .next c') :
    ∃ n₁ n₂ n₃ source target ts tt selems telems st start moved,
      c.stack = .i32 n₁ :: .i32 n₂ :: .ref source :: .i32 n₃ :: .ref target :: st ∧
      c.heap[source]? = some (.array ts selems) ∧ c.heap[target]? = some (.array tt telems) ∧
      (∀ v ∈ moved, v ∈ selems) ∧
      c' = { c with heap := c.heap.setElems target start moved, stack := st } := by
  obtain ⟨s, hs, rfl⟩ := effect_next he
  simp only [exec.eq_def, execArray.eq_def, execArrayCopy, Cfg.state] at hs
  repeat' split at hs
  all_goals cases hs
  rename_i n off src _ source ts selems hsrc _ dst target st hc _ addr size hr _
  obtain ⟨rfl, hscell⟩ := array?_eq hsrc
  obtain ⟨⟨a', t'', telems⟩, har, heq⟩ := Option.map_eq_some_iff.1 hr
  cases heq
  obtain ⟨rfl, hcell⟩ := array?_eq har
  refine ⟨n, off, dst, source, _, ts, t'', selems, telems, st, _, _, hc, hscell, hcell,
    fun v hv => ?_, rfl⟩
  obtain ⟨j, hj, rfl⟩ := Array.mem_extract_iff_getElem.1 hv
  exact Array.getElem_mem _

end HeapScript.Machine.Processor
