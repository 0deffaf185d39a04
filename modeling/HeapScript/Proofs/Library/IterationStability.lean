import HeapScript.Proofs.Library.IntegerKeys
import HeapScript.Proofs.Library.Iteration
import HeapScript.Proofs.Library.StoreEffects

/-!
# Iterating over an array that is stored into

While an iteration goes over the positions of an array, stores may come in between, into this array or
any other one. They never move an entry: a table keeps its keys in their places, a list keeps its indices
and loses no element, and an array that cannot stay in its place is copied and itself left alone.
-/

namespace HeapScript.Library

open Machine Machine.Processor Code Execution Compile

/-! ## What stores keep -/

/-- Every key of an array is one that it would be stored under again. -/
def Items.Normal (s : Items) : Prop := ∀ p ∈ s.pairs, p.1.normalizeKey = p.1

/-- What stores do to an array that stays in its place: a list gets no shorter and loses no element, a
table keeps its keys in their places. -/
inductive Items.Grown : Items → Items → Prop
  | dense {items items' : List (Option Val)} (hlen : items.length ≤ items'.length)
    (hkept : ∀ p : Nat, items[p]?.join.isSome → items'[p]?.join.isSome) :
    Items.Grown (.dense items) (.dense items')
  | hash {ps ps' : List (Value × Val)} {next next' : Int64}
    (hkeys : ps.map Prod.fst <+: ps'.map Prod.fst) : Items.Grown (.hash ps next) (.hash ps' next')

namespace Items

section Stores

variable {s s' s'' : Items} {p : Nat} {x : Value} {o : Option Val} {v : Val}

theorem Grown.refl (s : Items) : s.Grown s := by
  cases s with
  | dense items => exact .dense (Nat.le_refl _) fun _ ho => ho
  | hash ps next => exact .hash (List.prefix_refl _)

theorem Grown.trans (h : s.Grown s') (h' : s'.Grown s'') : s.Grown s'' := by
  cases h with
  | dense hlen hkept =>
    cases h' with
    | dense hlen' hkept' => exact .dense (hlen.trans hlen') fun p hp => hkept' p (hkept p hp)
  | hash hkeys =>
    cases h' with
    | hash hkeys' => exact .hash (hkeys.trans hkeys')

theorem normalizeKey_idem (hx : HasKey x) : x.normalizeKey.normalizeKey = x.normalizeKey := by
  cases x with
  | str bs =>
    rw [Value.normalizeKey]
    split
    · rfl
    · rename_i hno
      rw [Value.normalizeKey, if_neg hno]
  | array | object => exact hx.elim
  | _ => rfl

theorem normal_dense (items : List (Option Val)) : (dense items).Normal := by
  intro q hq
  obtain ⟨i, u, -, rfl⟩ := mem_entriesOf.mp hq
  rfl

theorem fst_mem_put {ps : List (Value × Val)} {q : Value × Val} (hq : q ∈ put ps x v) :
    q.1 = x ∨ ∃ q' ∈ ps, q'.1 = q.1 := by
  unfold put at hq
  split at hq
  · obtain ⟨q', hq', rfl⟩ := List.mem_map.mp hq
    refine .inr ⟨q', hq', ?_⟩
    split <;> rfl
  · rcases List.mem_append.mp hq with hq | hq
    · exact .inr ⟨q, hq, rfl⟩
    · exact .inl (congrArg Prod.fst (List.mem_singleton.mp hq))

/-- A store under a key in its normal form leaves all keys so. -/
theorem Normal.set (hs : s.Normal) (hx : x.normalizeKey = x) : (s.set x v).Normal := by
  cases s with
  | hash ps next =>
    have hset : (hash ps next).set x v = hash (put ps x v) (nextAfter ps next x) := by
      cases x <;> rfl
    rw [hset]
    intro q hq
    rcases fst_mem_put hq with heq | ⟨q', hq', heq⟩
    · rw [heq, hx]
    · rw [← heq, hs q' hq']
  | dense items =>
    have hpromote : (promote items x v).Normal := by
      intro q hq
      rcases List.mem_append.mp hq with hq | hq
      · exact normal_dense items q hq
      · rw [List.mem_singleton.mp hq, hx]
    cases x with
    | int i =>
      simp only [Items.set, setInt]
      split
      · exact hpromote
      · exact normal_dense _
    | _ => exact hpromote

theorem map_fst_put (ps : List (Value × Val)) (x : Value) (v : Val) :
    ps.map Prod.fst <+: (put ps x v).map Prod.fst := by
  unfold put
  split
  · rw [List.map_map]
    have hkeys : (Prod.fst ∘ fun q : Value × Val => if q.1.strictEq x then (q.1, v) else q) =
        Prod.fst := by
      funext q
      simp only [Function.comp_apply]
      split <;> rfl
    rw [hkeys]
  · rw [List.map_append]
    exact List.prefix_append ..

/-- A store that does not copy the array lets it grow. -/
theorem grown_set (hx : s.promotes x = false) : s.Grown (s.set x v) := by
  cases s with
  | hash ps next =>
    cases x <;> exact .hash (map_fst_put ps _ v)
  | dense items =>
    cases x with
    | int i =>
      have hneg : ¬ i < 0 := by simpa [promotes] using hx
      simp only [set, setInt, if_neg hneg]
      refine .dense ?_ fun p hp => ?_
      · rw [length_setAt]
        split <;> omega
      · rw [getElem?_setAt]
        split
        · rfl
        · exact hp
    | _ => simp [promotes] at hx

end Stores

end Items

/-- A demand on stores: where the new contents are, and that an array in its place has grown. -/
def growing (h : Heap) (a : Nat) (S : List Nat) (s s' : Items) : Post Output where
  returned vs h' _ := ∃ a' copy, vs = [.ref a'] ∧ Landed h a S h' s' copy a' ∧
    (s.Normal → s'.Normal) ∧ (copy = false → s.Grown s')
  trapped _ _ _ _ := True
  fuel := none

section Calls

variable {m : Processor Output} {l : Links} {w w' : World Output} {a : Nat} {s s' : Items}
  {S : List Nat} {r : Routine} {args : List Val}

theorem growing_set {h h' : Heap} {a' : Nat} {x : Value} {v : Val} {w' : Output}
    (hx : x.normalizeKey = x) (hl : Landed h a S h' (s.set x v) (s.promotes x) a') :
    (growing h a S s (s.set x v)).returned [.ref a'] h' w' :=
  ⟨a', _, rfl, hl, fun hs => hs.set hx, Items.grown_set⟩

theorem StoreCall.grows (hm : Ready m l) (ha : ArrayAt w.heap a s S)
    (hc : StoreCall w.heap a s r args s') :
    m.Calls 0 (l.index r) args w.heap w.host (growing w.heap a S s s') := by
  cases hc with
  | set hu b =>
    exact arrSet_total (k := 0) hm.installed (hm.room.mono (by decide)) ha hu ⟨b, rfl⟩
      (fun hx _ _ a' hl => growing_set (Items.normalizeKey_idem hx) hl) (fun _ _ _ _ _ => trivial)
      fun _ _ _ => trivial
  | setInt i b =>
    rw [← Items.set_int]
    refine arrSetInt_total (k := 0) hm.installed (hm.room.mono (by decide)) ha ⟨b, rfl⟩
      (fun _ h' a' hl => ?_) (fun _ _ _ _ => trivial) fun _ => trivial
    rw [← Items.set_int] at hl
    exact growing_set rfl hl
  | push b =>
    rw [Items.push, ← Items.set_int]
    refine arrPush_total (k := 0) hm.installed (hm.room.mono (by decide)) ha ⟨b, rfl⟩
      (fun _ h' a' hl => ?_) (fun _ _ _ _ => trivial) fun _ => trivial
    rw [Items.push, ← Items.set_int] at hl
    exact growing_set rfl hl

/-- What a store leaves that returns. -/
theorem StoreCall.landed (hm : Ready m l) (ha : ArrayAt w.heap a s S)
    (hc : StoreCall w.heap a s r args s') {vs : List Val}
    (he : m.Ends w (l.index r) args (.returned vs) w') :
    ∃ a' copy, vs = [.ref a'] ∧ Landed w.heap a S w'.heap s' copy a' ∧ (s.Normal → s'.Normal) ∧
      (copy = false → s.Grown s') := by
  obtain ⟨ending, w₁, hends, haccept⟩ := hm.ends hc.length rfl (hc.grows hm ha)
  obtain ⟨rfl, rfl⟩ := hends.unique he
  exact haccept

end Calls

/-! ## Arrays in use -/

/-- Arrays in use side by side: no two share a cell, and their keys are in their normal form. -/
structure Arrays (h : Heap) where
  mem : Nat → Prop
  items : Nat → Items
  cells : Nat → List Nat
  arrayAt : ∀ a, mem a → ArrayAt h a (items a) (cells a)
  normal : ∀ a, mem a → (items a).Normal
  apart : ∀ a b, mem a → mem b → a ≠ b → (cells a).Disjoint (cells b)

namespace Arrays

variable {h h' : Heap} (V : Arrays h) {a a' : Nat} {s : Items} {copy : Bool}

/-- The arrays after other cells were made. -/
def extended (he : Extends h h') : Arrays h' where
  mem := V.mem
  items := V.items
  cells := V.cells
  arrayAt a ha := (V.arrayAt a ha).extends he
  normal := V.normal
  apart := V.apart

theorem mem_some {b x : Nat} (hb : V.mem b) (hx : x ∈ V.cells b) : ∃ c, h[x]? = some c := by
  obtain ⟨c, hc, -⟩ := (V.arrayAt b hb).mem_type hx
  exact ⟨c, hc⟩

/-- A set of arrays with one more or one that differs, which shares no cells with the others. -/
theorem updated {S : List Nat} (ha : ArrayAt h' a s S) (hn : s.Normal)
    (hother : ∀ b, V.mem b → b ≠ a → ArrayAt h' b (V.items b) (V.cells b))
    (hapart : ∀ b, V.mem b → b ≠ a → (V.cells b).Disjoint S) :
    ∃ V' : Arrays h', (V'.mem = fun b => V.mem b ∨ b = a) ∧
      V'.items = Function.update V.items a s := by
  have hold {b : Nat} (hb : V.mem b ∨ b = a) (hne : b ≠ a) : V.mem b := hb.resolve_right hne
  refine ⟨{
    mem := fun b => V.mem b ∨ b = a
    items := Function.update V.items a s
    cells := Function.update V.cells a S
    arrayAt := fun b hb => ?_
    normal := fun b hb => ?_
    apart := fun b c hb hc hne => ?_ }, rfl, rfl⟩
  · by_cases hba : b = a
    · subst hba
      rw [Function.update_self, Function.update_self]
      exact ha
    · rw [Function.update_of_ne hba, Function.update_of_ne hba]
      exact hother b (hold hb hba) hba
  · by_cases hba : b = a
    · rw [hba, Function.update_self]
      exact hn
    · rw [Function.update_of_ne hba]
      exact V.normal b (hold hb hba)
  · by_cases hba : b = a
    · have hca : c ≠ a := fun heq => hne (hba.trans heq.symm)
      rw [hba, Function.update_self, Function.update_of_ne hca]
      exact (hapart c (hold hc hca) hca).symm
    · rw [Function.update_of_ne hba]
      by_cases hca : c = a
      · rw [hca, Function.update_self]
        exact hapart b (hold hb hba) hba
      · rw [Function.update_of_ne hca]
        exact V.apart b c (hold hb hba) (hold hc hca) hne

/-- A new array beside the others. -/
theorem added (hw : Written h [] h' a s) (hn : s.Normal) :
    ∃ V' : Arrays h', (V'.mem = fun b => V.mem b ∨ b = a) ∧
      V'.items = Function.update V.items a s := by
  obtain ⟨S', ha', hS'⟩ := hw.array
  have hext : Extends h h' := fun c d hd => hw.keeps c d hd List.not_mem_nil
  refine V.updated ha' hn (fun b hb _ => (V.arrayAt b hb).extends hext) fun b hb _ x hx hxS => ?_
  obtain ⟨c, hc⟩ := V.mem_some hb hx
  cases hc.symm.trans ((hS' x hxS).resolve_left List.not_mem_nil)

/-- A store into one of the arrays leaves the others as they are. -/
theorem stored (ha : V.mem a) (hl : Landed h a (V.cells a) h' s copy a') (hn : s.Normal) :
    ∃ V' : Arrays h', (V'.mem = fun b => V.mem b ∨ b = a') ∧
      V'.items = Function.update V.items a' s := by
  cases hl with
  | copied _ hw => exact V.added hw hn
  | inPlace hw =>
    obtain ⟨S', ha', hS'⟩ := hw.array
    refine V.updated ha' hn (fun b hb hne => (V.arrayAt a ha).keeps (V.arrayAt b hb) hne
      (V.apart b a hb ha hne) hw.keeps) fun b hb hne x hx hxS => ?_
    obtain ⟨c, hc⟩ := V.mem_some hb hx
    rcases hS' x hxS with hm | hnone
    · exact V.apart b a hb ha hne hx hm
    · cases hc.symm.trans hnone

/-- An array in use is no new cell. -/
theorem ne_of_none {p : Nat} (ha : V.mem a) (hp : h[p]? = none) : a ≠ p := by
  rintro rfl
  obtain ⟨n, r, hc⟩ := (V.arrayAt a ha).cell
  cases hc.symm.trans hp

end Arrays

/-! ## Runs of stores -/

/-- From a world with some arrays in use, stores into these and into what they return lead to another.
Between the calls new arrays and other cells may be made. -/
inductive Interleaved (m : Processor Output) (l : Links) (w : World Output) (A : Nat → Prop) :
    World Output → (Nat → Prop) → Prop
  | start : Interleaved m l w A w A
  | more {w₁ w₂ : World Output} {A₁ : Nat → Prop} (h : Interleaved m l w A w₁ A₁)
    (he : Extends w₁.heap w₂.heap) : Interleaved m l w A w₂ A₁
  | new {w₁ w₂ : World Output} {A₁ : Nat → Prop} {a : Nat} (h : Interleaved m l w A w₁ A₁)
    (he : m.Ends w₁ (l.index .arrNew) [] (.returned [.ref a]) w₂) :
    Interleaved m l w A w₂ fun b => A₁ b ∨ b = a
  | store {w₁ w₂ : World Output} {A₁ : Nat → Prop} {a a' : Nat} {r : Routine} {args : List Val}
    (h : Interleaved m l w A w₁ A₁) (ha : A₁ a) (hc : ∀ s, ∃ s', StoreCall w₁.heap a s r args s')
    (he : m.Ends w₁ (l.index r) args (.returned [.ref a']) w₂) :
    Interleaved m l w A w₂ fun b => A₁ b ∨ b = a'

section Runs

variable {m : Processor Output} {l : Links} {w w' : World Output} {A : Nat → Prop} {a p : Nat}
  {s : Items} {x : Value} {o : Option Val}

theorem arrNew_written {d k : Nat} {h : Heap} {w : Output} {Q : Post Output} (hi : Installed m l)
    (hr : Room m d (k + 1))
    (hq : ∀ h' a, h[a]? = none → Written h [] h' a (.dense []) → Q.returned [.ref a] h' w) :
    m.Calls d (l.index .arrNew) [] h w Q := by
  refine calls_routine hi hr ?_
  have hnew : Array.replicate 8 Val.null = elemsOf 8 [] := rfl
  simp [Routine.body, arrNew, Routine.results, denseCapacity, hi.dense, hi.value]
  rw [hnew]
  have hcells := getElem?_push_size h (.array Shape.dense (elemsOf 8 []))
  refine hq _ _ (by simp) ⟨⟨_, .dense (getElem?_push_at (by simp) _) (Extends.push _ _ _ _ hcells)
    (by simp) (by decide) (by simp), fun b hb => .inr ?_⟩, .of_extends ((Extends.push _ _).trans (.push _ _))⟩
  simp only [List.mem_cons, List.not_mem_nil, or_false] at hb
  rcases hb with rfl | rfl <;> simp

theorem Ready.arrNew_written (hm : Ready m l) {vs : List Val}
    (he : m.Ends w (l.index .arrNew) [] (.returned vs) w') :
    ∃ a, vs = [.ref a] ∧ w.heap[a]? = none ∧ Written w.heap [] w'.heap a (.dense []) := by
  have hcall : m.Calls 0 (l.index .arrNew) [] w.heap w.host (returning w.host
      fun vs h => ∃ a, vs = [.ref a] ∧ w.heap[a]? = none ∧ Written w.heap [] h a (.dense [])) :=
    Library.arrNew_written (k := 0) hm.installed (hm.room.mono (by decide))
      fun h' a hnone hw => ⟨⟨a, rfl, hnone, hw⟩, rfl⟩
  obtain ⟨vs', w₁, hends, hvs, -⟩ := hm.returns rfl hcall
  obtain ⟨heq, rfl⟩ := hends.unique he
  cases heq
  exact hvs

/-- Along such a run the arrays stay in use, and each has grown in its place. -/
theorem Interleaved.arrays (hm : Ready m l) (V : Arrays w.heap)
    (h : Interleaved m l w V.mem w' A) :
    ∃ V' : Arrays w'.heap, V'.mem = A ∧ ∀ a, V.mem a → V'.mem a ∧ (V.items a).Grown (V'.items a) := by
  induction h with
  | start => exact ⟨V, rfl, fun a ha => ⟨ha, .refl _⟩⟩
  | more _ he ih =>
    obtain ⟨V₁, hmem, hgrown⟩ := ih
    exact ⟨V₁.extended he, hmem, hgrown⟩
  | @new w₁ w₂ A₁ a _ he ih =>
    obtain ⟨V₁, rfl, hgrown⟩ := ih
    obtain ⟨a', heq, hnone, hw⟩ := hm.arrNew_written he
    cases heq
    obtain ⟨V₂, hmem, hitems⟩ := V₁.added hw (Items.normal_dense _)
    refine ⟨V₂, hmem, fun b hb => ?_⟩
    obtain ⟨hb₁, hg⟩ := hgrown b hb
    rw [hmem, hitems, Function.update_of_ne (V₁.ne_of_none hb₁ hnone)]
    exact ⟨.inl hb₁, hg⟩
  | @store w₁ w₂ A₁ a a' r args _ ha hc he ih =>
    obtain ⟨V₁, rfl, hgrown⟩ := ih
    obtain ⟨s', hcall⟩ := hc (V₁.items a)
    obtain ⟨a'', copy, heq, hl, hnormal, hkeeps⟩ := hcall.landed hm (V₁.arrayAt a ha) he
    cases heq
    obtain ⟨V₂, hmem, hitems⟩ := V₁.stored ha hl (hnormal (V₁.normal a ha))
    refine ⟨V₂, hmem, fun b hb => ?_⟩
    obtain ⟨hb₁, hg⟩ := hgrown b hb
    rw [hmem, hitems]
    refine ⟨.inl hb₁, ?_⟩
    cases hl with
    | copied hp =>
      rw [Function.update_of_ne (V₁.ne_of_none hb₁ hp)]
      exact hg
    | inPlace =>
      by_cases hba : b = a
      · subst hba
        rw [Function.update_self]
        exact hg.trans (hkeeps rfl)
      · rw [Function.update_of_ne hba]
        exact hg

/-- What the routines of an iteration say of a position: whether there is a value, the key, and the
value, which is what a read under that key gives. None of them ends the run. -/
structure Visits (m : Processor Output) (l : Links) (w : World Output) (a p : Nat) (x : Value)
    (o : Option Val) : Prop where
  has : ∃ w', m.Ends w (l.index .arrIterHas) [.ref a, .i32 (num p)]
    (.returned [.i32 (if o.isSome then 1 else 0)]) w' ∧ w'.heap = w.heap
  key : ∃ u w', m.Ends w (l.index .arrIterKey) [.ref a, .i32 (num p)] (.returned [u]) w' ∧
    Extends w.heap w'.heap ∧ Boxed w'.heap u x ∧ Reads m l w' .arrGet [.ref a, u] o
  value : ∀ v, o = some v → ∃ w', m.Ends w (l.index .arrIterValue) [.ref a, .i32 (num p)]
    (.returned [v]) w' ∧ w'.heap = w.heap
  get : ∀ u y, Boxed w.heap u y → HasKey y → y.normalizeKey = x → Reads m l w .arrGet [.ref a, u] o

/-- What the rules say of a routine that only looks at the heap, for a whole call. -/
theorem Ready.answers (hm : Ready m l) {r : Routine} {args : List Val} {v : Val}
    (hlen : r.params.length = args.length)
    (hcall : m.Calls 0 (l.index r) args w.heap w.host (returning w.host
      fun vs h => vs = [v] ∧ h = w.heap)) :
    ∃ w', m.Ends w (l.index r) args (.returned [v]) w' ∧ w'.heap = w.heap := by
  obtain ⟨vs, w', hends, ⟨rfl, hheap⟩, -⟩ := hm.returns hlen hcall
  exact ⟨w', hends, hheap⟩

theorem Arrays.normal_at (V : Arrays w.heap) (ha : V.mem a) (hp : (V.items a).At p x o) :
    x.normalizeKey = x := by
  have hn := V.normal a ha
  generalize V.items a = s at hp hn
  cases hp with
  | dense => rfl
  | hash hp => exact hn _ (List.mem_of_getElem? hp)

/-- The routines say of every position of an array in use what is there. -/
theorem Arrays.visits (hm : Ready m l) (V : Arrays w.heap) (ha : V.mem a)
    (hp : (V.items a).At p x o) : Visits m l w a p x o := by
  have harr := V.arrayAt a ha
  have hget := harr.get_at hp
  have hkey := harr.isKey_at hp
  refine ⟨?_, ?_, ?_, ?_⟩
  · exact hm.answers rfl (arrIterHas_calls (k := 0) hm.installed (hm.room.mono (by decide)) harr hp
      ⟨⟨rfl, rfl⟩, rfl⟩)
  · have hcall : m.Calls 0 (l.index .arrIterKey) [.ref a, .i32 (num p)] w.heap w.host
        (returning w.host fun vs h => ∃ u, vs = [u] ∧ Extends w.heap h ∧ Boxed h u x) :=
      arrIterKey_calls (k := 0) hm.installed (hm.room.mono (by decide)) harr hp
        fun h' u he hu => ⟨⟨u, rfl, he, hu⟩, rfl⟩
    obtain ⟨vs, w', hends, ⟨u, rfl, he, hu⟩, -⟩ := hm.returns rfl hcall
    refine ⟨u, w', hends, he, hu, ?_⟩
    have hread := hm.arrGet (harr.extends he) hu hkey.hasKey
    rwa [V.normal_at ha hp, hget] at hread
  · rintro v rfl
    exact hm.answers rfl (arrIterValue_calls (k := 0) hm.installed (hm.room.mono (by decide)) harr hp
      ⟨⟨rfl, rfl⟩, rfl⟩)
  · rintro u y hu hy rfl
    have hread := hm.arrGet harr hu hy
    rwa [hget] at hread

end Runs

/-! ## Loops -/

/-- What is at a position of an array that was stored into, given what it held at first: a table has
the same key there, a list the index, and an element is still an element. -/
inductive Items.Stays : Items → Nat → Value → Option Val → Prop
  | dense {items : List (Option Val)} {p : Nat} {o : Option Val}
    (ho : items[p]?.join.isSome → o.isSome) : Items.Stays (.dense items) p (indexKey p) o
  | hash {ps : List (Value × Val)} {next : Int64} {p : Nat} {q : Value × Val} {v : Val}
    (hq : ps[p]? = some q) : Items.Stays (.hash ps next) p q.1 (some v)

/-- The keys that are visited from a position on, given what the array held at first: those of the
positions in order, where only a hole may be left out. -/
inductive Items.Visited (s : Items) : Nat → List Value → Prop
  | done : Items.Visited s s.length []
  | skip {p : Nat} {x : Value} {xs : List Value} (hp : p < s.length) (hx : s.Stays p x none)
    (rest : Items.Visited s (p + 1) xs) : Items.Visited s p xs
  | visit {p : Nat} {x : Value} {xs : List Value} {v : Val} (hp : p < s.length)
    (hx : s.Stays p x (some v)) (rest : Items.Visited s (p + 1) xs) : Items.Visited s p (x :: xs)

section Loops

variable {m : Processor Output} {l : Links} {w w' : World Output} {A : Nat → Prop} {a len p : Nat}
  {s s' : Items} {x : Value} {o : Option Val} {es : List (Value × Val)} {xs : List Value}

/-- A table is visited in the order of its keys, from a position on. -/
theorem Items.Visited.keys {ps : List (Value × Val)} {next : Int64}
    (h : (Items.hash ps next).Visited p xs) : xs = (ps.map Prod.fst).drop p := by
  generalize hs : Items.hash ps next = s at h
  induction h with
  | done =>
    subst hs
    rw [Items.length, ← List.length_map Prod.fst, List.drop_length]
  | skip _ hx =>
    subst hs
    cases hx
  | @visit p x xs v hp hx _ ih =>
    subst hs
    cases hx with
    | @hash _ _ _ q _ hq =>
      have hkey : (ps.map Prod.fst)[p]? = some q.1 := by rw [List.getElem?_map, hq]; rfl
      rw [ih, ← List.singleton_append, ← Option.toList_some, ← hkey]
      exact List.drop_eq_getElem?_toList_append.symm

/-- The elements of a list are visited in the order of their indices, from a position on. -/
theorem Items.Visited.indices {items : List (Option Val)} (h : (Items.dense items).Visited p xs) :
    ∃ ns : List Nat, xs = ns.map indexKey ∧ ns.Sublist (List.range' p (items.length - p)) ∧
      ∀ i, p ≤ i → items[i]?.join.isSome → i ∈ ns := by
  generalize hs : Items.dense items = s at h
  have hrange {p : Nat} (hp : p < items.length) : List.range' p (items.length - p) =
      p :: List.range' (p + 1) (items.length - (p + 1)) := by
    rw [← List.range'_succ]
    congr 1
    omega
  induction h with
  | done =>
    subst hs
    refine ⟨[], rfl, List.nil_sublist _, fun i hi hsome => ?_⟩
    rw [List.getElem?_eq_none hi] at hsome
    cases hsome
  | @skip p x xs hp hx _ ih =>
    obtain ⟨ns, rfl, hsub, hall⟩ := ih
    subst hs
    cases hx with
    | dense ho =>
      refine ⟨ns, rfl, ?_, fun i hi hsome => ?_⟩
      · rw [hrange hp]
        exact hsub.cons _
      · rcases Nat.eq_or_lt_of_le hi with rfl | hlt
        · exact absurd (ho hsome) (by decide)
        · exact hall i hlt hsome
  | @visit p x xs v hp hx _ ih =>
    obtain ⟨ns, rfl, hsub, hall⟩ := ih
    subst hs
    cases hx with
    | dense ho =>
      refine ⟨p :: ns, rfl, ?_, fun i hi hsome => ?_⟩
      · rw [hrange hp]
        exact hsub.cons_cons _
      · rcases Nat.eq_or_lt_of_le hi with rfl | hlt
        · exact List.mem_cons_self
        · exact List.mem_cons_of_mem _ (hall i hlt hsome)

end Loops

end HeapScript.Library
