import HeapScript.Proofs.Compile.ElementStores

/-!
# Stores at places

The code that is drafted for a store at a place with keys reads the variable, goes down and up, and
stores the array that is now on top in the variable. The temporaries for the way are not those of the
keys, of the value or of anything else in use. So the store does what the way up leaves, and a later
read at the place finds the value.
-/

namespace HeapScript.Compile

open Machine Machine.Processor Library Execution Gen
open Code (load store choose)

/-! ## What is drafted -/

section Drafts

variable {c : Context} {d d' : Draft} {name : String}

theorem runs_findVar {v : Variable} (hr : Runs (findVar c name) d v d') :
    d'.vars.lookup name = some v ∧ ∀ u, d.vars.lookup name = some u → u = v ∧ d' = d := by
  obtain ⟨s, d₁, hs, hr₁⟩ := runs_bind.1 hr
  obtain ⟨rfl, rfl⟩ := runs_get.1 hs
  split at hr₁
  · rename_i u hu
    obtain ⟨rfl, rfl⟩ := runs_pure.1 hr₁
    exact ⟨hu, fun _ h => ⟨Option.some.inj (h.symm.trans hu), rfl⟩⟩
  · rename_i hnone
    obtain ⟨_, d₂, hset, hr₂⟩ := runs_bind.1 hr₁
    obtain ⟨rfl, rfl⟩ := runs_pure.1 hr₂
    obtain rfl := runs_set.1 hset
    exact ⟨List.lookup_cons_self, fun _ h => by cases h.symm.trans hnone⟩

def Variable.read (c : Context) (v : Variable) : Code :=
  if v.storage ≠ .boxed ∨ v.definite then load v.slot
  else load v.slot ++ [.refIsNull] ++ choose Shape.valueRef (c.links.call .newNull) (load v.slot)

theorem runs_readVar {p : Piece} (hr : Runs (readVar c name) d p d') :
    ∃ v, Runs (findVar c name) d v d' ∧ p.code = v.read c := by
  obtain ⟨v, d₁, hv, hr⟩ := runs_bind.1 hr
  refine ⟨v, ?_⟩
  unfold Variable.read
  split at hr
  · rename_i hplain
    obtain ⟨rfl, rfl⟩ := runs_pure.1 hr
    exact ⟨hv, (if_pos hplain).symm⟩
  · rename_i hplain
    obtain ⟨rfl, rfl⟩ := runs_pure.1 hr
    exact ⟨hv, (if_neg hplain).symm⟩

theorem runs_readRoot {code : Code} (hr : Runs (readRoot c (.var name)) d code d') :
    ∃ v, Runs (findVar c name) d v d' ∧ code = v.read c := by
  obtain ⟨p, d₁, hp, hr⟩ := runs_bind.1 hr
  obtain ⟨rfl, rfl⟩ := runs_pure.1 hr
  exact runs_readVar hp

theorem runs_readPlace {loc : Location} {keys : List Key} {code : Code}
    (hr : Runs (readPlace c loc ⟨.var name, keys⟩) d code d') :
    ∃ v, Runs (findVar c name) d v d' ∧ code = v.read c ++ keys.flatMap (getKey c) := by
  unfold readPlace at hr
  split at hr
  · obtain ⟨_, _, hfail, -⟩ := runs_bind.1 hr
    exact (runs_fail hfail).elim
  · obtain ⟨top, d₁, htop, hr⟩ := runs_bind.1 hr
    obtain ⟨rfl, rfl⟩ := runs_pure.1 hr
    obtain ⟨v, hv, rfl⟩ := runs_readRoot htop
    exact ⟨v, hv, rfl⟩

theorem runs_tempsFor {γ : Type} {xs : List γ} {ts : List Nat} (hr : Runs (tempsFor xs) d ts d') :
    d'.vars = d.vars := by
  induction xs generalizing d ts with
  | nil =>
    obtain ⟨-, rfl⟩ := runs_pure.1 hr
    rfl
  | cons _ xs ih =>
    obtain ⟨t, d₁, ht, hr⟩ := runs_bind.1 hr
    obtain ⟨_, d₂, hts, hr⟩ := runs_bind.1 hr
    obtain ⟨-, rfl⟩ := runs_pure.1 hr
    obtain ⟨-, rfl⟩ := runs_temp.1 ht
    have hrest := ih hts
    exact hrest

theorem runs_release {t : Nat} {u : Unit} (hr : Runs (release t) d u d') :
    d'.vars = d.vars ∧ d'.layout.size = d.layout.size := by
  obtain ⟨s, d₁, hs, hr₁⟩ := runs_bind.1 hr
  obtain ⟨rfl, rfl⟩ := runs_get.1 hs
  split at hr₁
  · rename_i l hl
    obtain rfl := runs_set.1 hr₁
    refine ⟨rfl, ?_⟩
    simp only [Layout.release] at hl
    repeat' split at hl
    all_goals cases hl
    rfl
  · exact (runs_fail hr₁).elim

theorem runs_releaseAll {ts : List Nat} {u : Unit} (hr : Runs (releaseAll ts) d u d') :
    d'.vars = d.vars ∧ d'.layout.size = d.layout.size := by
  induction ts generalizing d with
  | nil =>
    obtain ⟨-, rfl⟩ := runs_pure.1 hr
    exact ⟨rfl, rfl⟩
  | cons t ts ih =>
    obtain ⟨_, d₁, ht, hr⟩ := runs_bind.1 hr
    obtain ⟨hv, hs⟩ := ih hr
    obtain ⟨hv', hs'⟩ := runs_release ht
    exact ⟨hv.trans hv', hs.trans hs'⟩

/-- The parts of a store at a place of a variable, and where its temporaries are. -/
theorem runs_writePlace {keys : List Key} {val : Nat} {code : Code} {W : List Nat}
    (hr : Runs (writePlace c ⟨.var name, keys⟩ val) d code d') (hd : d.Holds W) :
    ∃ v arrays result, d'.vars.lookup name = some v ∧ v.slot ∉ W ∧
      (arrays : List Nat).length = keys.length ∧
      (result :: arrays).Nodup ∧
      (∀ t ∈ result :: arrays, t ∉ W ∧ t ≠ v.slot ∧ t < d'.layout.size) ∧
      (∀ n u, d.vars.lookup n = some u → u.slot ∉ result :: arrays) ∧
      code = v.read c ++ (descend c (keys.zip arrays) ++ (ascend c val result (keys.zip arrays) ++
        store v.slot)) := by
  have hr : Runs (do
      let arrays ← tempsFor keys
      let result ← temp .boxed
      let levels := keys.zip arrays
      let top ← readRoot c (.var name)
      let bottom ← rebind c result (.var name)
      releaseAll arrays
      release result
      return top ++ descend c levels ++ ascend c val result levels ++ bottom) d code d' := by
    cases keys <;> exact hr
  obtain ⟨arrays, d₁, harrays, hr⟩ := runs_bind.1 hr
  obtain ⟨result, d₂, hresult, hr⟩ := runs_bind.1 hr
  obtain ⟨top, d₃, htop, hr⟩ := runs_bind.1 hr
  obtain ⟨bottom, d₄, hbottom, hr⟩ := runs_bind.1 hr
  obtain ⟨_, d₅, hfree, hr⟩ := runs_bind.1 hr
  obtain ⟨_, d₆, hfree', hr⟩ := runs_bind.1 hr
  obtain ⟨rfl, rfl⟩ := runs_pure.1 hr
  obtain ⟨v, hv, rfl⟩ := runs_readRoot htop
  obtain ⟨v', _, hv', hr⟩ := runs_bind.1 hbottom
  obtain ⟨rfl, rfl⟩ := runs_pure.1 hr
  obtain ⟨hlookup, -⟩ := runs_findVar hv
  obtain ⟨rfl, rfl⟩ := (runs_findVar hv').2 v hlookup
  obtain ⟨hvars, hsize⟩ := runs_releaseAll hfree
  obtain ⟨hvars', hsize'⟩ := runs_release hfree'
  -- what is in use when the variable is looked up
  obtain ⟨_, ⟨rfl, hnodup, hnew, hlen⟩, hd₁⟩ := tempsFor_protects keys d arrays d₁ harrays hd
  obtain ⟨_, ⟨rfl, hresult'⟩, hd₂⟩ := temp_protects .boxed d₁ result d₂ hresult hd₁
  obtain ⟨_, ⟨rfl, hslot⟩, hd₃⟩ := findVar_respects c name _ d₂ v _ hv hd₂
  simp only [List.mem_cons, List.mem_append, not_or] at hslot hresult'
  refine ⟨v, arrays, result, ?_, hslot.2.2, hlen, List.nodup_cons.mpr ⟨hresult'.1, hnodup⟩,
    fun t ht => ⟨?_, ?_, ?_⟩, fun n u hn hm => ?_, by simp⟩
  · rw [hvars', hvars]
    exact hlookup
  · rcases List.mem_cons.mp ht with rfl | ht
    · exact hresult'.2
    · exact hnew t ht
  · rintro rfl
    exact (List.mem_cons.mp ht).elim hslot.1 hslot.2.1
  · rw [hsize', hsize]
    exact hd₃.lt_size (by simpa using Or.imp_right Or.inl (List.mem_cons.mp ht))
  · obtain ⟨-, rfl⟩ := runs_temp.1 hresult
    refine hd₂.var_not_mem (n := n) (v := u) ((runs_tempsFor harrays).symm ▸ hn) ?_
    simpa using Or.imp_right Or.inl (List.mem_cons.mp hm)

end Drafts

/-! ## What is read -/

section Reads

variable {c : Context} {m : Processor Output} {a : Act} {h : Heap} {w : Output} {ls st : List Val}
  {R : TrapReason → Prop}

theorem yields_choose {t : ValType} {yes no : Code} {x : Int32} {P : Cfg Output → Prop}
    (hy : Nests yes []) (hn : Nests no [])
    (hc : m.Yields a (if x ≠ 0 then yes else no) ⟨h, w, ls, st⟩ R P) :
    m.Yields a (choose t yes no) ⟨h, w, ls, .i32 x :: st⟩ R P := by
  have hwp {rest : Code} {conts : List Cont} {Q : Post Output}
      (hq : m.wp a (if x ≠ 0 then yes else no) (.block rest st.length t.arity :: conts) Q
        ⟨h, w, ls, st⟩) : m.wp a (choose t yes no ++ rest) conts Q ⟨h, w, ls, .i32 x :: st⟩ := by
    rw [wp_choose hy hn]
    split
    · rename_i hx
      rwa [if_pos hx] at hq
    · rename_i hx
      rwa [if_neg hx] at hq
  rcases hc with ⟨c', hP, hr⟩ | ⟨f, reason, h', w', hR, hall⟩
  · refine .inl ⟨c', hP, fun rest conts Q hq => hwp ?_⟩
    have := hr [] (.block rest st.length t.arity :: conts) Q (by simpa using hq)
    rwa [List.append_nil] at this
  · refine .inr ⟨f, reason, h', w', hR, fun rest conts Q hq => hwp ?_⟩
    have := hall [] (.block rest st.length t.arity :: conts) Q hq
    rwa [List.append_nil] at this

/-- A read of a variable: what is in it, or a new value for an unset one. -/
theorem read_yields (hi : Installed m c.links) (hR : R .callStackExhausted) {v : Variable}
    {V : Values h} {u : Val} (hu : ls[v.slot]? = some u) (hpart : Part V.mem u) :
    m.Yields a (v.read c) ⟨h, w, ls, st⟩ R fun c' => ∃ h' u', c' = ⟨h', w, ls, u' :: st⟩ ∧
      ∃ he : Extends h h', (V.extended he).Finds u' (V.arrayOf u) ∧ (u ≠ .null → u' = u) := by
  have hplain : m.Yields a (load v.slot) ⟨h, w, ls, st⟩ R fun c' => ∃ h' u',
      c' = ⟨h', w, ls, u' :: st⟩ ∧ ∃ he : Extends h h',
        (V.extended he).Finds u' (V.arrayOf u) ∧ (u ≠ .null → u' = u) :=
    (reaches_load hu).yields ⟨h, u, rfl, .refl h, Values.finds_arrayOf (V := V.extended (.refl h)) hpart,
      fun _ => rfl⟩
  unfold Variable.read
  split
  · exact hplain
  · rw [List.append_assoc]
    refine ((reaches_load hu).yields rfl).trans ?_
    rintro _ rfl
    cases u with
    | i32 | i64 | f64 => exact hpart.elim
    | ref b =>
      refine Yields.trans (P := fun c' => c' = ⟨h, w, ls, .i32 0 :: st⟩)
        (Reaches.yields (fun rest conts Q hq => by simpa using hq) rfl) ?_
      rintro _ rfl
      exact yields_choose (by simp) (by simp) hplain
    | null =>
      refine Yields.trans (P := fun c' => c' = ⟨h, w, ls, .i32 1 :: st⟩)
        (Reaches.yields (fun rest conts Q hq => by simpa using hq) rfl) ?_
      rintro _ rfl
      have hext : Extends h (h.push (valueCell .null 0 0 .null .null)) := .push h _
      let Q : Post Output := {
        returned := fun us h' w' => w' = w ∧ ∃ u', us = [u'] ∧ Extends h h' ∧ Boxed h' u' .null
        trapped := fun _ _ _ _ => False
        fuel := none }
      have hc : m.unbounded.Calls a.depth (c.links.index .newNull) [] h w Q :=
        newNull_calls (k := 0) (installed_unbounded hi) (room_unbounded m _ _)
          ⟨rfl, _, rfl, hext, .null (by simp)⟩
      refine yields_choose (by simp) (by simp) ((yields_call hi [] rfl rfl hR
        (fun _ _ _ _ hf => False.elim hf) hc).mono ?_)
      rintro _ ⟨_, h', _, ⟨rfl, u', rfl, he, hb⟩, rfl⟩
      exact ⟨h', u', rfl, he, Values.finds_null hb, fun hno => absurd rfl hno⟩

/-- A read by the keys of a store, on a heap with the arrays that the store has left. -/
theorem keys_yield (hi : Installed m c.links) (hR : R .callStackExhausted) {h₀ h₁ : Heap}
    {V : Values h₀} {V₁ : Values h₁} {v : Val} {o : Option Nat} {xs : List Value} {b : Nat}
    {bs : List Nat} (hr : V.Rebound V₁ v o xs (b :: bs)) {keys : List Key} (he : Extends h₁ h)
    (hkeys : List.Forall₂ (Key.Holds h ls) keys xs) :
    m.Yields a (keys.flatMap (getKey c)) ⟨h, w, ls, .ref b :: st⟩ R fun c' => ∃ h',
      c' = ⟨h', w, ls, v :: st⟩ ∧ Extends h h' := by
  have hstep {k : Key} {o : Option Nat} {x : Value} {u : Val} {b : Nat} {h : Heap}
      (hu : V.Updated V₁ o x u b) (he : Extends h₁ h) (hk : k.Holds h ls x) :
      m.Yields a (getKey c k) ⟨h, w, ls, .ref b :: st⟩ R fun c' => ∃ h',
        c' = ⟨h', w, ls, u :: st⟩ ∧ Extends h h' := by
    obtain ⟨s, hs, hmap⟩ := hu.map
    have ha : ArrayAt h b s (V₁.cells b) :=
      arrayAt_of_view (V := V₁.extended he) (show (V₁.extended he).mem b from hu.mem) hs
    refine (getKey_yields hi hR ha hk (.inl hu.key)).mono ?_
    rintro _ ⟨h', u', rfl, -, hext, hans⟩
    rw [hmap.here] at hans
    obtain rfl : u' = u := hans
    exact ⟨h', rfl, hext⟩
  generalize hbs : b :: bs = bs' at hr
  induction hr generalizing b bs keys h with
  | last hu =>
    cases hbs
    obtain ⟨k, rfl⟩ := List.length_eq_one_iff.mp hkeys.length_eq
    obtain ⟨hk, -⟩ := List.forall₂_cons.mp hkeys
    rw [List.flatMap_singleton]
    exact hstep hu he hk
  | cons hu _ ih =>
    cases hbs
    cases hkeys with
    | cons hk hkeys =>
    rw [List.flatMap_cons]
    refine (hstep hu he hk).trans ?_
    rintro _ ⟨h', rfl, hext⟩
    have hkeys' : List.Forall₂ (Key.Holds h' ls) _ _ :=
      hkeys.imp fun k x hk => hk.kept (fun _ _ => rfl) fun _ => Boxed.mono hext
    refine (ih (he.trans hext) hkeys' rfl).mono ?_
    rintro _ ⟨h'', rfl, hext'⟩
    exact ⟨h'', rfl, hext.trans hext'⟩

end Reads

/-! ## Stores -/

/-- A store of a value into an element, at any depth, ends the run or does the following, if no array
is met twice on the way to the element. The variable holds an array, every array on the way differs
from what was there only under its key, where the next one is, and under the last key is the value.
All other values are as they were, and so are all other variables and all temporaries in use. A read
at the same place, then or later, gives the value unless a call in it is refused. -/
theorem element_store_in_place {m : Processor Output} {c : Context} (hi : Installed m c.links)
    {name : String} {keys : List Key} {val : Nat} {W : List Nat} {d d' : Draft} {code : Code}
    (hrun : Runs (writePlace c ⟨.var name, keys⟩ val) d code d') (hheld : d.Holds W)
    (hW : val :: keys.flatMap Key.temps ⊆ W) {v : Variable} (hvar : d'.vars.lookup name = some v)
    {a : Act} {h : Heap} {w : Output} {ls st : List Val} (hsize : d'.layout.size ≤ ls.length)
    {V : Values h} {u : Val} {e : Nat} {xs : List Value} (hu : ls[v.slot]? = some u)
    (hpart : Part V.mem u) (hval : ls[val]? = some (.ref e)) (he : V.mem e)
    (hkeys : List.Forall₂ (Key.Holds h ls) keys xs) (hne : keys ≠ [])
    (hway : (V.way (V.arrayOf u) xs).reduceOption.Nodup) :
    m.Yields a code ⟨h, w, ls, st⟩ (fun _ => True) fun c' =>
      ∃ h' ls' b bs, ∃ V' : Values h', c' = ⟨h', w, ls', st⟩ ∧ ls'[v.slot]? = some (.ref b) ∧
        V.Rebound V' (.ref e) (V.arrayOf u) xs (b :: bs) ∧
        (∀ i, V.mem i → V'.mem i ∧ (i ∉ b :: bs → V'.view i = V.view i)) ∧
        (∀ t, t ≠ v.slot → (t ∈ W ∨ ∃ n x, d.vars.lookup n = some x ∧ x.slot = t) →
          ls'[t]? = ls[t]?) ∧
        List.Forall₂ (Key.Holds h' ls') keys xs ∧
        ∀ keys' loc D read D', Runs (readPlace c loc ⟨.var name, keys'⟩) D read D' →
          D.vars.lookup name = some v → ∀ h₂ w₂ ls₂ st₂, Extends h' h₂ →
          ls₂[v.slot]? = some (.ref b) → List.Forall₂ (Key.Holds h₂ ls₂) keys' xs →
          m.Yields a read ⟨h₂, w₂, ls₂, st₂⟩ (· = .callStackExhausted) fun c₂ =>
            ∃ h₃, c₂ = ⟨h₃, w₂, ls₂, .ref e :: st₂⟩ ∧ Extends h₂ h₃ := by
  obtain ⟨v', arrays, result, hvar', hslot, hlen, hnodup, hfresh, hvars, rfl⟩ :=
    runs_writePlace hrun hheld
  cases hvar.symm.trans hvar'
  obtain ⟨hresult, harrays⟩ := List.nodup_cons.mp hnodup
  have hfst : (keys.zip arrays).map Prod.fst = keys := List.map_fst_zip hlen.ge
  have hsnd : (keys.zip arrays).map Prod.snd = arrays := List.map_snd_zip hlen.le
  have hlevel {l : Key × Nat} (hl : l ∈ keys.zip arrays) :
      l.2 ∈ arrays ∧ ∀ t ∈ l.1.temps, t ∈ W := by
    obtain ⟨hk, ht⟩ := List.of_mem_zip hl
    exact ⟨ht, fun t ht => hW (List.mem_cons_of_mem _ (List.mem_flatMap.mpr ⟨l.1, hk, ht⟩))⟩
  have hsep : Separate (keys.zip arrays) ls.length := {
    nodup := hsnd.symm ▸ harrays
    below := fun l hl => (hfresh l.2 (List.mem_cons_of_mem _ (hlevel hl).1)).2.2.trans_le hsize
    apart := fun l hl l' hl' hm =>
      (hfresh l.2 (List.mem_cons_of_mem _ (hlevel hl).1)).1 ((hlevel hl').2 _ hm) }
  have hne' : keys.zip arrays ≠ [] := by
    intro hnil
    rw [hnil] at hfst
    exact hne hfst.symm
  -- the way down starts at what is read from the variable
  refine (read_yields hi trivial hu hpart).trans ?_
  rintro _ ⟨h₁, u', rfl, hext₁, hfinds, -⟩
  have hsub₁ := V.sub_extended hext₁
  have hspot : V.Spot (V.arrayOf u) := Values.spot_arrayOf hpart
  have hkeys₁ : List.Forall₂ (fun l x => l.1.Holds h₁ ls x) (keys.zip arrays) xs := by
    rw [← List.forall₂_map_left_iff (R := Key.Holds h₁ ls), hfst]
    exact hkeys.imp fun k x hk => hk.kept (fun _ _ => rfl) fun _ => Boxed.mono hext₁
  refine (descend_yields hi _ hne' h₁ ls u' _ xs (V.extended hext₁) hfinds hkeys₁ hsep
    ((hsub₁.way hspot xs).symm ▸ hway)).trans ?_
  rintro _ ⟨h₂, ls₂, V₂, bs, rfl, hext₂, hsub₂, halt₂, hop, hbs⟩
  rw [hsnd] at halt₂
  have hold {t : Nat} (ht : t ∈ W) : ls₂[t]? = ls[t]? :=
    halt₂.same t fun hm => (hfresh t (List.mem_cons_of_mem _ hm)).1 ht
  have hkeys₂ : List.Forall₂ (fun l x => l.1.Holds h₂ ls₂ x) (keys.zip arrays) xs :=
    keys_kept hkeys₁ (fun l hl t ht => hold ((hlevel hl).2 t ht)) fun _ _ _ => Boxed.mono hext₂
  have hsub := hsub₁.trans hsub₂
  refine (ascend_yields hi (hop.of_sub hsub₁ hspot) hsub hspot hbs hway hkeys₂
    ((hold (hW (by simp))).trans hval) (hsub.mem e he)
    (halt₂.length.symm ▸ (hfresh result (by simp)).2.2.trans_le hsize) fun l hl =>
      ⟨fun heq : result = l.2 => hresult (heq ▸ (hlevel hl).1), fun hm =>
        (hfresh result (by simp)).1 ((hlevel hl).2 _ hm)⟩).trans ?_
  rintro _ ⟨h', ls₃, V', b, bs', rfl, halt₃, hasc⟩
  have hbelow : v.slot < ls₃.length := by
    rw [halt₃.length, halt₂.length]
    exact (List.getElem?_eq_some_iff.mp hu).1
  have hkept (t : Nat) (hne : t ≠ v.slot) (ht : t ∉ result :: arrays) :
      (ls₃.set v.slot (.ref b))[t]? = ls[t]? := by
    rw [List.getElem?_set_ne hne.symm, halt₃.same t fun hm => ht (by simp [List.mem_singleton.mp hm]),
      halt₂.same t fun hm => ht (List.mem_cons_of_mem _ hm)]
  have hW' {t : Nat} (ht : t ∈ W) : (ls₃.set v.slot (.ref b))[t]? = ls[t]? :=
    hkept t (fun heq => hslot (heq ▸ ht)) fun hm => (hfresh t hm).1 ht
  refine (reaches_store hbelow).yields ⟨h', _, b, bs', V', rfl, List.getElem?_set_self hbelow,
    hasc.rebound, fun i hi => ⟨hasc.mem i (hsub.mem i hi), fun hne => ?_⟩, ?_, ?_, ?_⟩
  · exact (hasc.view i (hsub.mem i hi) hne).trans (hsub.view i hi)
  · rintro t hne (ht | ⟨n, x, hn, rfl⟩)
    · exact hW' ht
    · exact hkept x.slot hne (hvars n x hn)
  · have hkeys' : List.Forall₂ (fun l x => l.1.Holds h' (ls₃.set v.slot (.ref b)) x)
        (keys.zip arrays) xs := by
      refine keys_kept hkeys₂ (fun l hl t ht => ?_) fun x hx u hu =>
        hasc.boxed u x (hasc.rebound.hasKey x hx) hu
      exact (hW' ((hlevel hl).2 t ht)).trans (hold ((hlevel hl).2 t ht)).symm
    rwa [← List.forall₂_map_left_iff (R := Key.Holds h' (ls₃.set v.slot (.ref b))), hfst] at hkeys'
  · intro keys' loc D read D' hread hD h₄ w₄ ls₄ st₄ hext hb hkeys'
    obtain ⟨v', hv', rfl⟩ := runs_readPlace hread
    obtain ⟨rfl, -⟩ := (runs_findVar hv').2 v hD
    have hmem : Part (V'.extended hext).mem (.ref b) := hasc.rebound.mem (by simp)
    refine (read_yields (R := (· = .callStackExhausted)) hi rfl hb hmem).trans ?_
    rintro _ ⟨h₅, u₅, rfl, hext', -, hsame⟩
    obtain rfl := hsame (by simp)
    have hkeys₅ : List.Forall₂ (Key.Holds h₅ ls₄) keys' xs :=
      hkeys'.imp fun k x hk => hk.kept (fun _ _ => rfl) fun _ => Boxed.mono hext'
    refine (keys_yield (R := (· = .callStackExhausted)) hi rfl hasc.rebound (hext.trans hext')
      hkeys₅).mono ?_
    rintro _ ⟨h₆, rfl, hext''⟩
    exact ⟨h₆, rfl, hext'.trans hext''⟩

/-- A store of the number 7 at `$a[0][1]` with `$a` unset leaves an array in `$a` with an array under
0 with the number under 1, unless a call in it is refused. -/
theorem element_store_in_unset_variable :
    ∃ (p : Compiled) (m : Processor Output) (c : Context) (d d' : Draft) (code : Code),
      (Program.compile [] {}).outcome = .ok p ∧ machineFor p 0 = .ok m ∧ c.links = p.links ∧
      d.Holds [1, 2, 3] ∧ Runs (writePlace c ⟨.var "a", [.int 2, .int 3]⟩ 1) d code d' ∧
      m.Yields ⟨"f", 0, 0⟩ code
        ⟨#[valueCell .int 7 0 .null .null], #[],
          [.null, .ref 0, .i64 0, .i64 1, .null, .null, .null], []⟩ (fun _ => True) fun c' =>
        ∃ b b' s s', ∃ V : Values c'.heap, c'.locals[0]? = some (.ref b) ∧
          V.view b = .array s ∧ s.get (.int 0) = some (.ref b') ∧
          V.view b' = .array s' ∧ s'.get (.int 1) = some (.ref 0) := by
  obtain ⟨p, hp⟩ := compile_nothing
  obtain ⟨m, hm, hready⟩ := ready_of_compiled hp
  let c : Context := { decls := {}, links := p.links, name := "f", optimize := false, unroll := 0 }
  let d : Draft := {
    layout := {
      refType := Shape.valueRef
      params := []
      locals := #[Shape.valueRef, Shape.valueRef, .i64, .i64]
      kinds := [(1, .ref), (2, .int), (3, .int)]
      inUse := [1, 2, 3] }
    vars := [("a", ⟨0, .boxed, none, true⟩)]
    pool := { strings := #[] } }
  have hd : d.Holds [1, 2, 3] := by
    refine ⟨⟨by decide, by decide, fun t k hk => ?_⟩, fun n v hv => ?_, List.Subset.refl _⟩
    · by_contra hlarge
      have hbig : 4 ≤ t := Nat.not_lt.mp hlarge
      have hne (i : Nat) (hi : i < 4) : (t == i) = false := beq_eq_false_iff_ne.mpr (by omega)
      simp [d, Layout.kindOf?, List.lookup_cons, hne] at hk
    · rw [List.lookup_cons] at hv
      split at hv
      · cases hv
        decide
      · cases hv
  let V : Values (#[valueCell .int 7 0 .null .null] : Heap) := {
    mem := (· = 0)
    view := fun _ => .plain (.int 7)
    cells := fun _ => []
    viewed := fun b hb => .plain trivial (by subst hb; exact .int rfl)
    closed := fun _ _ _ hu => absurd hu List.not_mem_nil
    apart := fun _ _ _ _ _ => List.disjoint_nil_left _ }
  have hrun : ∃ code d', Runs (writePlace c ⟨.var "a", [.int 2, .int 3]⟩ 1) d code d' ∧
      d'.layout.size = 7 ∧ d'.vars = d.vars := by
    have hfind (l : Layout) : Runs (findVar c "a") { d with layout := l } ⟨0, .boxed, none, true⟩
        { d with layout := l } := by
      refine runs_bind.2 ⟨_, _, runs_get.2 ⟨rfl, rfl⟩, ?_⟩
      simp [d]
    have hread (l : Layout) : Runs (readRoot c (.var "a")) { d with layout := l } (load 0)
        { d with layout := l } :=
      runs_bind.2 ⟨⟨load 0, .boxed⟩, _, runs_bind.2 ⟨_, _, hfind l, rfl⟩, rfl⟩
    let grown (free inUse : List Nat) : Layout := {
      refType := Shape.valueRef
      params := []
      locals := d.layout.locals ++ #[Shape.valueRef, Shape.valueRef, Shape.valueRef]
      kinds := [(6, .ref), (5, .ref), (4, .ref), (1, .ref), (2, .int), (3, .int)]
      free := free
      inUse := inUse }
    refine ⟨_, { d with layout := grown [6, 5, 4] [1, 2, 3] }, runs_bind.2 ⟨[4, 5], _, rfl, runs_bind.2
      ⟨6, { d with layout := grown [] [6, 5, 4, 1, 2, 3] }, rfl, runs_bind.2
        ⟨_, _, hread _, runs_bind.2 ⟨_, _, runs_bind.2 ⟨_, _, hfind _, rfl⟩, runs_bind.2
          ⟨(), { d with layout := grown [5, 4] [6, 1, 2, 3] }, rfl, runs_bind.2 ⟨(), _, rfl, rfl⟩⟩⟩⟩⟩⟩,
      rfl, rfl⟩
  obtain ⟨code, d', hrun, hsize, hvars⟩ := hrun
  refine ⟨p, m, c, d, d', code, hp, hm, rfl, hd, hrun, ?_⟩
  refine (element_store_in_place (V := V) (u := .null) (e := 0)
    hready.installed hrun hd (by simp [Key.temps]) (v := ⟨0, .boxed, none, true⟩) (by rw [hvars]; rfl)
    (by rw [hsize]; decide) rfl trivial rfl rfl
    (.cons ⟨0, rfl, rfl⟩ (.cons ⟨1, rfl, rfl⟩ .nil)) (by simp) ?_).mono ?_
  · simp [Values.way, Values.arrayOf]
  · rintro _ ⟨h', ls', b, bs, V', rfl, hb, hr, -⟩
    cases hr with
    | cons hu rest =>
    cases rest with
    | cons _ rest => cases rest
    | last hu' =>
    obtain ⟨s, hs, hmap⟩ := hu.map
    obtain ⟨s', hs', hmap'⟩ := hu'.map
    exact ⟨b, _, s, s', V', hb, hs, hmap.here, hs', hmap'.here⟩

end HeapScript.Compile
