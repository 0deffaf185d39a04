import HeapScript.Proofs.Compile.Computation
import HeapScript.Proofs.Memory.Programs

/-!
# Members found by the class of an object

The slot of a property and the function of a method are found at run time by the number of the class
of an object, with one test after the other. The numbers of classes are different, and an object keeps
the one that its constructor gave it. So what is found belongs to the class that made the object.
-/

namespace HeapScript.Machine

variable {ω : Type}

theorem Post.later_eq {Q : Post ω} (hq : Q.fuel = none) : Q.later = Q := by
  cases Q
  cases hq
  rfl

namespace Processor

/-! ## Results -/

section Results

variable {m : Processor ω} {a : Act} {code : List Instr} {conts : List Cont} {c : Cfg ω}

theorem popMany_length {n : Nat} {stack taken vs below : List Val}
    (h : Frame.popMany n stack taken = some (vs, below)) :
    vs.length = taken.length + n ∧ stack.length = below.length + n := by
  induction n generalizing stack taken with
  | zero =>
    cases h
    exact ⟨rfl, rfl⟩
  | succ n ih =>
    cases stack with
    | nil => cases h
    | cons v stack =>
      have := ih h
      simp only [List.length_cons] at this ⊢
      omega

theorem giveBack_results {vs : List Val} {heap : Heap} {host : ω}
    (h : giveBack a c = .returned vs heap host) : vs.length = a.results := by
  unfold giveBack at h
  split at h <;> cases h
  rename_i below hpop
  simpa using (popMany_length hpop).1

theorem next_results {vs : List Val} {heap : Heap} {host : ω}
    (h : m.next a code conts c = .ends (.returned vs heap host)) : vs.length = a.results := by
  have hjump (d : Int) (c : Cfg ω) : jump d conts c ≠ .ends (.returned vs heap host) := by
    unfold jump
    repeat' split
    all_goals simp
  unfold next at h
  split at h
  · exact giveBack_results (Next.ends.inj h)
  · cases h
  · split at h
    · cases h
    · cases h
    · split at h
      · unfold enterIf at h
        repeat' split at h
        all_goals cases h
      · cases h
    · exact (hjump _ _ h).elim
    · split at h
      · split at h
        · exact (hjump _ _ h).elim
        · cases h
      · cases h
    · exact giveBack_results (Next.ends.inj h)
    · unfold enterCall at h
      repeat' split at h
      all_goals cases h
    · cases h
    · cases h
    · unfold afterEffect at h
      split at h <;> cases h

/-- An activation gives back as many results as its function has. -/
theorem run_results {n : Nat} {vs : List Val} {heap : Heap} {host : ω}
    (h : m.run n a code conts c = .returned vs heap host) : vs.length = a.results := by
  fun_induction run m n a code conts c with
  | case1 n a code conts c code' conts' c' hn ih => exact ih h
  | case2 => cases h
  | case3 a code conts c code' conts' c' hn n ih => exact ih h
  | case4 n a code conts c f hn =>
    rw [h] at hn
    exact next_results hn
  | case5 => cases h
  | case6 a code conts c inner body ci rest locals stack hn n vs' heap' host' hr ihi iho => exact iho h
  | case7 a code conts c inner body ci rest locals stack hn n hr ihi => exact (hr _ _ _ h).elim

end Results

/-! ## Calls -/

variable {m : Processor ω}

/-- A call whose results are given back at once is the call itself. -/
theorem calls_handed_on {func : Int} {name f : String} {depth d : Nat} {locals args ls : List Val}
    {body rest : List Instr} {conts : List Cont} {heap : Heap} {host : ω} {Q : Post ω}
    (hc : m.callee? func = some (.code name 1 locals body)) :
    m.Calls depth func args heap host (resume m ⟨f, 1, d⟩ (.ret :: rest) conts Q ls []) ↔
      m.Calls depth func args heap host Q := by
  have hholds (n : Nat) : (resume m ⟨f, 1, d⟩ (.ret :: rest) conts Q ls []).holds
      (m.run n ⟨name, 1, depth + 1⟩ body [] ⟨heap, host, args ++ locals, []⟩) ↔
      Q.holds (m.run n ⟨name, 1, depth + 1⟩ body [] ⟨heap, host, args ++ locals, []⟩) := by
    cases hr : m.run n ⟨name, 1, depth + 1⟩ body [] ⟨heap, host, args ++ locals, []⟩ with
    | returned vs heap' host' =>
      obtain ⟨v, rfl⟩ := List.length_eq_one_iff.1 (run_results hr)
      simp [Post.holds, giveBack, Frame.popMany]
    | trapped | more | stuck => exact Iff.rfl
  unfold Calls
  rw [hc]
  dsimp only
  split
  · exact Iff.rfl
  · unfold wp
    simp only [Post.later_holds, hholds]
    rfl

/-- The same step, with another number of open activations. -/
def Next.atDepth (depth : Nat) : Next ω → Next ω
  | .enter inner body c rest locals stack =>
    .enter { inner with depth := depth } body c rest locals stack
  | x => x

theorem next_depth (hm : m.maxDepth ≤ 0) (a : Act) (code : List Instr) (conts : List Cont)
    (c : Cfg ω) (depth : Nat) :
    m.next { a with depth := depth } code conts c =
      Next.atDepth (depth + 1) (m.next a code conts c) := by
  have hfull (k : Nat) : m.full k = false := by
    simp only [full, decide_eq_false_iff_not]
    omega
  cases code with
  | nil => cases conts <;> rfl
  | cons i rest =>
    cases i with
    | call func =>
      simp only [next, enterCall, hfull]
      repeat' split
      all_goals rfl
    | branchIf t =>
      simp only [next, enterIf]
      repeat' split
      all_goals rfl
    | br d | brIf d =>
      simp only [next, jump]
      repeat' split
      all_goals rfl
    | block | loop | ret | otherwise | close => rfl
    | _ =>
      simp only [next, afterEffect]
      split <;> rfl

/-- Without a bound on open activations, what a run does does not depend on how many are open. -/
theorem run_depth (hm : m.maxDepth ≤ 0) (n : Nat) (a : Act) (code : List Instr) (conts : List Cont)
    (c : Cfg ω) (depth : Nat) :
    m.run n { a with depth := depth } code conts c = m.run n a code conts c := by
  have hstep {a : Act} {code : List Instr} {conts : List Cont} {c : Cfg ω} {x : Next ω}
      (depth : Nat) (h : m.next a code conts c = x) :
      m.next { a with depth := depth } code conts c = Next.atDepth (depth + 1) x :=
    h ▸ next_depth hm a code conts c depth
  fun_induction run m n a code conts c generalizing depth with
  | case1 n a code conts c code' conts' c' hn ih => rw [run_go (hstep depth hn), ih]
  | case2 a code conts c code' conts' c' hn => exact run_again_zero (hstep depth hn)
  | case3 a code conts c code' conts' c' hn n ih => rw [run_again_succ (hstep depth hn), ih]
  | case4 n a code conts c f hn => exact run_ends (hstep depth hn)
  | case5 a code conts c inner body ci rest locals stack hn => exact run_enter_zero (hstep depth hn)
  | case6 a code conts c inner body ci rest locals stack hn n vs heap host hr ihi iho =>
    rw [run_enter_succ (hstep depth hn), ihi, hr]
    exact iho depth
  | case7 a code conts c inner body ci rest locals stack hn n hr ihi =>
    rw [run_enter_succ (hstep depth hn), ihi]
    split
    · rename_i vs heap host hv
      exact absurd hv (hr vs heap host)
    · rfl

theorem calls_depth (hm : m.maxDepth ≤ 0) {func : Int} {args : List Val} {heap : Heap} {host : ω}
    {Q : Post ω} (depth depth' : Nat) :
    m.Calls depth func args heap host Q ↔ m.Calls depth' func args heap host Q := by
  have hfull (k : Nat) : m.full k = false := by
    simp only [full, decide_eq_false_iff_not]
    omega
  unfold Calls
  split
  · exact Iff.rfl
  · rename_i name results locals body _
    have hrun (n : Nat) := run_depth hm n ⟨name, results, depth' + 1⟩ body []
      ⟨heap, host, args ++ locals, []⟩ (depth + 1)
    simp only [hfull, wp]
    simp only [hrun]
  · exact Iff.rfl

end Processor

end HeapScript.Machine

namespace HeapScript.Compile

open Machine Machine.Processor Library Execution Code Gen

/-! ## Objects -/

/-- A machine holds a function of a program. -/
structure Body.Held (m : Processor Output) (b : Body) : Prop where
  signature : m.program.signature? b.index = some (.func b.params b.results)
  callee : m.callee? b.index = some (.code b.name b.results.length (b.locals.map Val.zero) b.code)

/-- An object of a class: a value with its number. -/
def ClassInfo.Instance (k : ClassInfo) (h : Heap) (v : Val) : Prop :=
  ∃ id values, Boxed h v (.object id (num k.id) values)

/-- A value that is no object. -/
def NonObject (h : Heap) (v : Val) : Prop :=
  ∃ (a : Nat) (t : Tag) (i : Int64) (x : Float) (s r : Val), v = .ref a ∧
    h[a]? = some (valueCell t i x s r) ∧ t ≠ .object

/-- Classes are numbered in order, and their numbers fit into 32 bits. -/
structure Declarations.Numbered (d : Declarations) : Prop where
  id : ∀ (i : Nat) (k : ClassInfo), d.classes[i]? = some k → k.id = i
  fit : d.classes.length < 2 ^ 32

/-- Different classes have different numbers on the machine. -/
theorem class_of_number {d : Declarations} (hd : d.Numbered) {k k' : ClassInfo}
    (hk : k ∈ d.classes) (hk' : k' ∈ d.classes) (h : num k'.id = num k.id) : k' = k := by
  obtain ⟨i, hi, rfl⟩ := List.getElem_of_mem hk
  obtain ⟨j, hj, rfl⟩ := List.getElem_of_mem hk'
  rw [hd.id i _ (List.getElem?_eq_getElem hi), hd.id j _ (List.getElem?_eq_getElem hj)] at h
  have h := congrArg (fun x => x.toUInt32.toNat) h
  simp only [toNat_num (Nat.lt_trans hi hd.fit), toNat_num (Nat.lt_trans hj hd.fit)] at h
  subst h
  rfl

/-- No class has the number of those that have none. -/
theorem number_ne {d : Declarations} (hd : d.Numbered) {k : ClassInfo} (hk : k ∈ d.classes) :
    num k.id ≠ -1 := by
  obtain ⟨i, hi, rfl⟩ := List.getElem_of_mem hk
  rw [hd.id i _ (List.getElem?_eq_getElem hi)]
  intro h
  have h := congrArg (fun x => x.toUInt32.toNat) h
  simp only [toNat_num (Nat.lt_trans hi hd.fit)] at h
  have hlast : (Int32.toUInt32 (-1)).toNat = 2 ^ 32 - 1 := by decide
  have hfit := hd.fit
  omega

section Calls

variable {m : Processor Output} {l : Links} {depth n : Nat} {args : List Val} {h : Heap}
  {w : Output} {Q : Post Output} {k : ClassInfo} {v : Val}

/-- A call of a function runs its code. -/
theorem calls_code {func : Int} {name : String} {results : Nat} {zeros : List Val} {body : Code}
    (hc : m.callee? func = some (.code name results zeros body)) (hr : Room m depth (n + 1))
    (hq : Q.fuel = none) : m.Calls depth func args h w Q ↔
      m.wp ⟨name, results, depth + 1⟩ body [] Q ⟨h, w, args ++ zeros, []⟩ := by
  simp only [Calls, hc, hr.not_full, Bool.false_eq_true, if_false, hq, Post.later_eq hq,
    reduceCtorEq, false_or]

/-- The number of the class of an object. -/
theorem objClass_calls (hi : Installed m l) (hr : Room m depth (n + 1)) (hq : Q.fuel = none)
    (hv : k.Instance h v) :
    m.Calls depth (l.index .objClass) [v] h w Q ↔ Q.returned [.i32 (num k.id)] h w := by
  obtain ⟨id, values, hv⟩ := hv
  rw [calls_code (hi.callee _) hr hq]
  cases hv with
  | object ha ho =>
    simp [Routine.body, objClass, Routine.results, ha, ho, valueCell, Heap.typeOf, Cell.type]

/-- Anything but an object has no class. -/
theorem objClass_calls_other (hi : Installed m l) (hr : Room m depth (n + 1)) (hq : Q.fuel = none)
    (hv : NonObject h v) :
    m.Calls depth (l.index .objClass) [v] h w Q ↔ Q.returned [.i32 (-1)] h w := by
  obtain ⟨a, t, i, x, s, r, rfl, ha, ht⟩ := hv
  rw [calls_code (hi.callee _) hr hq]
  cases t with
  | object => exact absurd rfl ht
  | null | bool | int | float | string | array =>
    simp [Routine.body, objClass, Routine.results, ha, valueCell]

/-! ## Slots -/

/-- The chain of tests of a slot finder ends in the case of the class with a number. -/
theorem wp_slotCases {a : Act} (ha : a.results = 1) (prop : String) (x : Int32)
    (ks : List ClassInfo) :
    m.wp a (ks.flatMap (fun k => localIs 0 k.id ++
        when (const32 ((k.slot? prop).getD 0) ++ [.ret])) ++ const32 (-1)) [] Q
        ⟨h, w, [.i32 x], []⟩ ↔
      Q.returned [.i32 ((ks.find? fun k => x == num k.id).elim (-1) fun k =>
        num ((k.slot? prop).getD 0))] h w := by
  obtain ⟨f, _, d⟩ := a
  cases ha
  have test (k : ClassInfo) (rest : Code) :
      m.wp ⟨f, 1, d⟩ (localIs 0 k.id ++ when (const32 ((k.slot? prop).getD 0) ++ [.ret]) ++ rest) []
          Q ⟨h, w, [.i32 x], []⟩ ↔
        if x == num k.id then Q.returned [.i32 (num ((k.slot? prop).getD 0))] h w
        else m.wp ⟨f, 1, d⟩ rest [] Q ⟨h, w, [.i32 x], []⟩ := by
    simp
  induction ks with
  | nil => simp
  | cons k ks ih =>
    rw [List.flatMap_cons, List.append_assoc, test, List.find?_cons]
    cases x == num k.id with
    | true => exact Iff.rfl
    | false => exact ih

/-- The number of the slot of a property, -1 if the class does not declare it. -/
def ClassInfo.slotNumber (k : ClassInfo) (prop : String) : Int32 := (k.slot? prop).elim (-1) num

theorem find_withProperty {d : Declarations} (hd : d.Numbered) (hk : k ∈ d.classes) (prop : String) :
    ((d.withProperty prop).find? fun k' => num k.id == num k'.id).elim (-1)
      (fun k => num ((k.slot? prop).getD 0)) = k.slotNumber prop := by
  cases hf : (d.withProperty prop).find? fun k' => num k.id == num k'.id with
  | some k' =>
    have hmem := List.mem_filter.1 (List.mem_of_find?_eq_some hf)
    have hid := List.find?_some hf
    obtain rfl := class_of_number hd hk hmem.1 (beq_iff_eq.1 hid).symm
    obtain ⟨slot, hslot⟩ := Option.isSome_iff_exists.1 hmem.2
    simp [ClassInfo.slotNumber, hslot]
  | none =>
    cases hs : k.slot? prop with
    | none => simp [ClassInfo.slotNumber, hs]
    | some slot =>
      have hmem : k ∈ d.withProperty prop := List.mem_filter.2 ⟨hk, by simp [hs]⟩
      exact absurd (List.find?_eq_none.1 hf k hmem) (by simp)

/-! ## Methods -/

/-- Arguments are loaded in order. -/
theorem wp_loads {a : Act} {rest : Code} {conts : List Cont} {ls st : List Val} {j : Nat}
    (hj : j ≤ ls.length) :
    m.wp a ((List.range j).flatMap load ++ rest) conts Q ⟨h, w, ls, st⟩ ↔
      m.wp a rest conts Q ⟨h, w, ls, (ls.take j).reverse ++ st⟩ := by
  induction j generalizing rest with
  | zero => simp
  | succ j ih =>
    have hlt : j < ls.length := hj
    have htop : (ls.take (j + 1)).reverse = ls[j] :: (ls.take j).reverse := by
      rw [List.take_succ_eq_append_getElem hlt, List.reverse_append]
      rfl
    rw [List.range_succ, List.flatMap_append, List.append_assoc, ih (Nat.le_of_lt hlt), htop]
    simp [hlt]

/-- The chain of tests of a dispatcher ends in the case of the class with a number and the method
with as many parameters. -/
theorem wp_dispatchCases {a : Act} (ha : a.results = 1) {cases : List (ClassInfo × FunctionInfo)}
    (hf : ∀ p ∈ cases, ∃ name locals body,
      m.callee? p.2.index = some (.code name 1 locals body) ∧
      m.program.signature? p.2.index = some (.func (boxedParams (p.2.arity + 1)) [Shape.valueRef]))
    (hargs : args.length = n + 1) (x : Int32) :
    m.wp a (dispatchCases (n + 1) (n + 1) n cases ++ [.unreachable]) [] Q
        ⟨h, w, args ++ [.i32 x], []⟩ ↔
      (cases.find? fun p => p.2.arity == n && x == num p.1.id).elim
        (Q.trapped a.func .unreachable h w) fun p => m.Calls a.depth p.2.index args h w Q := by
  obtain ⟨f, _, d⟩ := a
  cases ha
  induction cases with
  | nil => simp [dispatchCases]
  | cons p cases ih =>
    obtain ⟨k, g⟩ := p
    obtain ⟨name, locals, body, hcallee, hsig⟩ := hf (k, g) (by simp)
    replace ih := ih fun p hp => hf p (by simp [hp])
    rw [dispatchCases, List.find?_cons]
    by_cases harity : g.arity = n
    · have hlocal : local? (args ++ [.i32 x]) (n + 1 : Nat) = some (.i32 x) := by
        simp [← hargs]
      have hall : (args ++ [Val.i32 x]).take (n + 1) = args := by
        rw [← hargs, List.take_left]
      have hpop : Frame.popMany (n + 1) (args.reverse ++ []) [] = some (args, []) := by
        have := popMany_append args.reverse [] []
        simpa [hargs] using this
      have hcall (rest : Code) (conts : List Cont) :
          m.wp ⟨f, 1, d⟩ ((List.range (n + 1)).flatMap load ++ .call g.index :: .ret :: rest) conts Q
              ⟨h, w, args ++ [.i32 x], []⟩ ↔ m.Calls d g.index args h w Q := by
        rw [wp_loads (by simp [hargs]), wp_call, hall]
        simp only [hsig, Option.some.injEq, exists_eq_left', TypeDef.params, boxedParams,
          List.length_replicate, harity, hpop]
        exact calls_handed_on hcallee
      have hnests : Nests ((List.range (n + 1)).flatMap load ++ [.call g.index, .ret]) [] := by
        simp [nests_append (nests_loads _)]
      rw [if_pos harity, beq_iff_eq.2 harity, Bool.true_and, List.append_assoc, List.append_assoc]
      simp only [localIs, load, const32, List.cons_append, List.nil_append,
        wp_localGet, hlocal, Option.some.injEq, exists_eq_left', wp_i32Const, wp_i32, I32Op.eval,
        ofInt_natCast]
      rw [wp_when hnests]
      cases x == num k.id with
      | true => exact hcall _ _
      | false => exact ih
    · have hne : (g.arity == n) = false := beq_false_of_ne harity
      rw [if_neg harity, hne, Bool.false_and, List.nil_append]
      exact ih


theorem find_withMethod {d : Declarations} (hd : d.Numbered) (hk : k ∈ d.classes) (name : String)
    (n : Nat) :
    (d.withMethod name).find? (fun p => p.2.arity == n && num k.id == num p.1.id) =
      ((k.method? name).filter fun f => f.arity == n).map fun f => (k, f) := by
  cases hf : (d.withMethod name).find? fun p => p.2.arity == n && num k.id == num p.1.id with
  | some p =>
    have hp := List.find?_some hf
    obtain ⟨k', hk', hm⟩ := List.mem_filterMap.1 (List.mem_of_find?_eq_some hf)
    obtain ⟨f, hmethod, rfl⟩ := Option.map_eq_some_iff.1 hm
    rw [Bool.and_eq_true, beq_iff_eq (a := num k.id)] at hp
    obtain rfl := class_of_number hd hk hk' hp.2.symm
    rw [hmethod, Option.filter_some, if_pos hp.1]
    rfl
  | none =>
    cases hm : (k.method? name).filter fun f => f.arity == n with
    | none => rfl
    | some f =>
      obtain ⟨hmethod, harity⟩ := Option.filter_eq_some_iff.1 hm
      have hmem : (k, f) ∈ d.withMethod name := List.mem_filterMap.2 ⟨k, hk, by rw [hmethod]; rfl⟩
      exact absurd (List.find?_eq_none.1 hf _ hmem) (by simp_all)

theorem find_withMethod_none {d : Declarations} (hd : d.Numbered) (name : String) (n : Nat) :
    (d.withMethod name).find? (fun p => p.2.arity == n && (-1 : Int32) == num p.1.id) = none := by
  refine List.find?_eq_none.2 fun p hp => ?_
  obtain ⟨k, hk, hm⟩ := List.mem_filterMap.1 hp
  obtain ⟨f, -, rfl⟩ := Option.map_eq_some_iff.1 hm
  have hne := number_ne hd hk
  simp [Ne.symm hne]

/-! ## Helpers -/

/-- The helper of a property finds its slot in the class with a number. -/
theorem slotFinder_calls {d : Declarations} (hd : d.Numbered) (hk : k ∈ d.classes) {prop : String}
    {index : Nat}
    (hb : ((Helper.slotFinder prop).body d l index).Held m) (hr : Room m depth 1)
    (hq : Q.fuel = none) :
    m.Calls depth index [.i32 (num k.id)] h w Q ↔ Q.returned [.i32 (k.slotNumber prop)] h w := by
  rw [← find_withProperty hd hk prop]
  exact (calls_code (n := 0) hb.callee hr hq).trans
    (wp_slotCases rfl prop (num k.id) (d.withProperty prop))

/-- A method as the code of a dispatcher calls it. -/
def FunctionInfo.Called (m : Processor Output) (f : FunctionInfo) : Prop :=
  ∃ name locals body, m.callee? f.index = some (.code name 1 locals body) ∧
    m.program.signature? f.index = some (.func (boxedParams (f.arity + 1)) [Shape.valueRef])

/-- The helper of a method calls the one of the first class with the number of the receiver and as
many parameters. -/
theorem dispatcher_calls {d : Declarations} (hi : Installed m l) {method : String} {index : Nat}
    (hb : ((Helper.dispatcher method n).body d l index).Held m) (hr : Room m depth 2)
    (hq : Q.fuel = none) (hf : ∀ p ∈ d.withMethod method, p.2.Called m) (hargs : args.length = n)
    {x : Int32} (hx : ∀ R : Post Output, R.fuel = none →
      (m.Calls (depth + 1) (l.index .objClass) [v] h w R ↔ R.returned [.i32 x] h w)) :
    m.Calls depth index (v :: args) h w Q ↔
      ((d.withMethod method).find? fun p => p.2.arity == n && x == num p.1.id).elim
        (Q.trapped ("dispatch." ++ dispatcherKey method n) .unreachable h w)
        fun p => m.Calls (depth + 1) p.2.index (v :: args) h w Q := by
  have hset : setLocal? (v :: args ++ [Val.i32 0]) (.i32 x) (n + 1 : Nat) =
      some (v :: args ++ [.i32 x]) := by
    rw [setLocal?_natCast, if_pos (by simp [hargs]), ← hargs]
    simp
  refine (calls_code (n := 1) hb.callee hr hq).trans ?_
  refine Iff.trans ?_ (wp_dispatchCases (a := ⟨"dispatch." ++ dispatcherKey method n, 1, depth + 1⟩)
    rfl hf (by simp [hargs]) x)
  simp only [Helper.body, Links.call, load, store, List.cons_append, List.nil_append,
    List.map_cons, List.map_nil, Val.zero, wp_localGet, wp_call, hi.signature]
  have hfirst : local? (v :: (args ++ [Val.i32 0])) (0 : Nat) = some v := rfl
  have hpop : Frame.popMany (TypeDef.func Routine.objClass.params Routine.objClass.results).params.length
      [v] [] = some ([v], []) := rfl
  simp only [hfirst, Option.some.injEq, exists_eq_left', hpop]
  refine (hx (resume m _ _ _ _ _ _) hq).trans ?_
  simp only [resume_returned, List.reverse_cons, List.reverse_nil, List.nil_append, List.append_nil,
    wp_localSet]
  rw [List.cons_append] at hset
  simp only [hset]
  simp

/-! ## Access in code -/

/-- The slot of a property that the class of an object declares can be found or be given. -/
theorem wp_slot_found {d : Declarations} (hd : d.Numbered) (hk : k ∈ d.classes)
    (hi : Installed m l) {prop : String} {index slot t : Nat}
    (hb : ((Helper.slotFinder prop).body d l index).Held m) {a : Act} (hr : Room m a.depth 1)
    (hq : Q.fuel = none) (hv : k.Instance h v) (hslot : k.slot? prop = some slot) {ls st : List Val}
    (ht : ls[t]? = some v) {rest : Code} {conts : List Cont} :
    m.wp a (load t ++ (l.call .objClass ++ (.call index :: rest))) conts Q ⟨h, w, ls, st⟩ ↔
      m.wp a (const32 slot ++ rest) conts Q ⟨h, w, ls, st⟩ := by
  have hlocal : local? ls t = some v := by rw [local?_natCast, ht]
  have hclass : Frame.popMany
      (TypeDef.func Routine.objClass.params Routine.objClass.results).params.length (v :: st) [] =
      some ([v], st) := rfl
  have hnumber : Frame.popMany (TypeDef.func ((Helper.slotFinder prop).body d l index).params
      ((Helper.slotFinder prop).body d l index).results).params.length (.i32 (num k.id) :: st) [] =
      some ([.i32 (num k.id)], st) := rfl
  have hfound := hb.signature
  change m.program.signature? index = _ at hfound
  simp only [load, Links.call, const32, List.cons_append, List.nil_append, wp_localGet, wp_call,
    hlocal, hi.signature, Option.some.injEq, exists_eq_left', hclass, wp_i32Const, ofInt_natCast]
  refine (objClass_calls (n := 0) (Q := resume m _ _ _ _ _ _) hi hr hq hv).trans ?_
  simp only [resume_returned, List.reverse_cons, List.reverse_nil, List.nil_append,
    List.cons_append, wp_call, hfound, Option.some.injEq, exists_eq_left', hnumber]
  refine (slotFinder_calls (Q := resume m _ _ _ _ _ _) hd hk hb hr hq).trans ?_
  rw [resume_returned, ClassInfo.slotNumber, hslot]
  exact Iff.rfl

/-- Without a bound on open activations, a method that the class of an object declares can be called
through the helper or at once. -/
theorem wp_method_found {d : Declarations} (hd : d.Numbered) (hk : k ∈ d.classes)
    (hi : Installed m l) {method : String} {index : Nat}
    (hb : ((Helper.dispatcher method args.length).body d l index).Held m)
    (hf : ∀ p ∈ d.withMethod method, p.2.Called m) {a : Act} (hm : m.maxDepth ≤ 0)
    (hq : Q.fuel = none) (hv : k.Instance h v) {f : FunctionInfo} (hmethod : k.method? method = some f)
    (harity : f.arity = args.length) {ls st : List Val} {rest : Code} {conts : List Cont} :
    m.wp a (.call index :: rest) conts Q ⟨h, w, ls, args.reverse ++ v :: st⟩ ↔
      m.wp a (.call f.index :: rest) conts Q ⟨h, w, ls, args.reverse ++ v :: st⟩ := by
  have hfound := hb.signature
  change m.program.signature? index = _ at hfound
  obtain ⟨name, locals, body, -, hsig⟩ :=
    hf (k, f) (List.mem_filterMap.2 ⟨k, hk, by rw [hmethod]; rfl⟩)
  have hpop : Frame.popMany (args.length + 1) (args.reverse ++ v :: st) [] = some (v :: args, st) := by
    have := popMany_append (args.reverse ++ [v]) st []
    simpa using this
  simp only [wp_call, hfound, hsig, Option.some.injEq, exists_eq_left', TypeDef.params, boxedParams,
    Helper.body, List.length_replicate, harity, hpop]
  refine (dispatcher_calls (Q := resume m _ _ _ _ _ _) hi hb (.inl hm) hq hf rfl
    fun R hR => objClass_calls (n := 0) hi (.inl hm) hR hv).trans ?_
  rw [find_withMethod hd hk, hmethod, Option.filter_some, if_pos (beq_iff_eq.2 harity)]
  exact calls_depth hm _ _

end Calls

/-! ## Constructors -/

/-- The code of a constructor makes an object of its class first and gives it back at the end. -/
def Body.Creates (l : Links) (k : ClassInfo) (b : Body) : Prop :=
  ∃ run, b.code = const32 k.id ++ (const32 k.props.length ++ (l.call .objNew ++ (store k.arity ++
    (run ++ load k.arity))))

theorem creator_creates {c : Context} {k : ClassInfo} {pool : Pool} {notes : Array String} {b : Body}
    {D : Draft} (hr : Runs (creator c k) (Draft.start pool notes k.arity) b D) :
    b.Creates c.links k := by
  obtain ⟨s, d₁, hget, hr⟩ := runs_bind.1 hr
  obtain ⟨rfl, rfl⟩ := runs_get.1 hget
  obtain ⟨_, d₂, hset, hr⟩ := runs_bind.1 hr
  obtain ⟨fill, d₃, hfill, hr⟩ := runs_bind.1 hr
  obtain ⟨s, d₄, hget, hr⟩ := runs_bind.1 hr
  obtain ⟨rfl, rfl⟩ := runs_pure.1 hr
  have hsize : (Draft.start pool notes k.arity).layout.size = k.arity := start_size pool notes k.arity
  refine ⟨fill ++ k.initializer?.elim [] fun m =>
    load k.arity ++ (List.range k.arity).flatMap load ++ [.call m.index, .drop], ?_⟩
  cases k.initializer? <;> simp [hsize]

section Creation

variable {m : Processor Output} {l : Links} {k : ClassInfo} {a : Act} {c : Cfg Output}

/-- A new object belongs to the class with its number. -/
theorem objNew_calls (hi : Installed m l) (h : Heap) (w : Output) (depth : Nat) :
    m.Calls depth (l.index .objNew) [.i32 (num k.id), .i32 (num k.props.length)] h w
      { returned := fun vs h _ => ∃ v, vs = [v] ∧ k.Instance h v
        trapped := fun _ _ _ _ => m.full depth = true ∨ num k.props.length < 0, fuel := none } := by
  simp only [Calls, hi.callee]
  split
  · rename_i hfull
    exact .inl hfull
  · right
    have hobject : at? m.program.types Shape.object =
        some (.struct [⟨.i32, false⟩, ⟨Shape.denseRef, false⟩]) := hi.type_at rfl
    simp [Routine.body, objNew, newValue, Routine.results, hobject, hi.value, hi.dense,
      Frame.popMany]
    split
    · exact .inr ‹_›
    · refine ⟨_, [], .object (o := h.size + 1) ?_
        (show _ = some (Cell.struct Shape.object #[.i32 (num k.id), .ref h.size]) from ?_)⟩
      · simp [Array.getElem_push, valueCell]
      · simp [Array.getElem_push]

end Creation

section Lifetime

variable {ω : Type} {m : Processor ω} {hidden : Nat → Prop} {s s' : State ω} {h h' : Heap}

/-- No store is meant for the record of an object. -/
theorem Change.object_kept (hch : Change hidden h h') {a : Nat} {fields : Array Val}
    (hc : h[a]? = some (.struct Shape.object fields)) :
    h'[a]? = some (.struct Shape.object fields) := by
  cases hch with
  | none => exact hc
  | made =>
    obtain ⟨hlt, heq⟩ := Array.getElem?_eq_some_iff.1 hc
    rw [← heq]
    exact Array.getElem?_push_lt hlt
  | arrayValue hc' | table hc' | entry hc' =>
    rw [Heap.setField_other, hc]
    rintro rfl
    have heq := Option.some.inj (hc.symm.trans hc')
    simp only [Cell.struct.injEq] at heq
    exact absurd heq.1 (by decide)
  | elements hc' _ ht =>
    rw [Array.getElem?_setIfInBounds_ne, hc]
    rintro rfl
    cases hc.symm.trans hc'

theorem steps_object_kept (hm : Disciplined m) {n a : Nat} {fields : Array Val}
    (hr : Running m hidden s) (hs : Steps m n s s')
    (hc : s.heap[a]? = some (.struct Shape.object fields)) :
    s'.heap[a]? = some (.struct Shape.object fields) := by
  induction hs generalizing hidden with
  | refl => exact hc
  | step hstep _ ih =>
    obtain ⟨hidden₁, hr₁, hch, -⟩ := step_sound hm hr hstep
    exact ih hr₁ (Change.object_kept hch hc)

/-- An object keeps its class. -/
theorem ClassInfo.Instance.steps {k : ClassInfo} {v : Val} (hm : Disciplined m) {n : Nat}
    (hr : Running m hidden s) (hs : Steps m n s s') (hv : k.Instance s.heap v) :
    k.Instance s'.heap v := by
  obtain ⟨id, values, hv⟩ := hv
  cases hv with
  | object ha ho =>
    have ha' := steps_fixed hm hr hs ha ⟨rfl, by simp [Tag.code]⟩
    exact ⟨_, values, .object ha' (steps_object_kept hm hr hs ho)⟩

end Lifetime

/-! ## Compiled programs -/

section Compiled

variable {p : Program} {o : Options} {c : Compiled} {m : Processor Output}

/-- Classes are numbered in the order of their declarations. -/
theorem id_of_class (p : Program) (i : Nat) (k : ClassInfo) :
    (Program.decls p).classes[i]? = some k → k.id = i := by
  refine List.foldlRecOn p _ (motive := fun c : Collection => ∀ i k, c.decls.classes[i]? = some k →
    k.id = i) ?_ (fun c hc s _ => ?_) i k
  · nofun
  cases s with
  | function decl =>
    simp only [Collection.addFunction]
    split <;> exact hc
  | classDecl loc name properties methods =>
    simp only [Collection.addClass]
    split
    · exact hc
    · intro i k hk
      change (c.decls.classes ++ _)[i]? = some k at hk
      rw [List.getElem?_append] at hk
      split at hk
      · exact hc i k hk
      · obtain ⟨hi, rfl⟩ := List.getElem?_eq_some_iff.1 hk
        simp at hi ⊢
        omega
  | expr | echo | ifElse | whileDo | doWhile | forLoop | foreach | switch | leave | next | ret =>
    exact hc

/-- The machine of a compiled program holds its functions. -/
theorem held_of_compiled (hc : (Program.compile p o).outcome = .ok c) {maxSteps : Int}
    (hm : machineFor c maxSteps = .ok m) (limit : Int) {b : Body} (hb : b ∈ Program.bodies p o) :
    b.Held { m with maxDepth := limit } := by
  obtain ⟨links, hres, hm', -⟩ := machine_of_compiled hc maxSteps
  obtain rfl := Except.ok.inj (hm'.symm.trans hm)
  obtain ⟨-, -, -, ha⟩ := Program.compile_inv hc
  exact ⟨(callee_of_has (ha.has b hb) hres).1, (callee_of_has (ha.has b hb) hres).2⟩

theorem installed_of_compiled (hc : (Program.compile p o).outcome = .ok c) {maxSteps : Int}
    (hm : machineFor c maxSteps = .ok m) (limit : Int) :
    Installed { m with maxDepth := limit } (Program.links p) := by
  obtain ⟨links, -, hm', hi⟩ := machine_of_compiled hc maxSteps
  obtain rfl := Except.ok.inj (hm'.symm.trans hm)
  obtain ⟨-, -, -, ha⟩ := Program.compile_inv hc
  rw [ha.base] at hi
  exact ⟨hi.types, hi.signature, hi.callee, hi.echoSignature, hi.echo, hi.renderSignature, hi.render,
    hi.data⟩

/-- The methods of a compiled program can be called by its dispatchers. -/
theorem methods_called (hc : (Program.compile p o).outcome = .ok c) {maxSteps : Int}
    (hm : machineFor c maxSteps = .ok m) (limit : Int) {name : String} {x : ClassInfo × FunctionInfo}
    (hx : x ∈ (Program.decls p).withMethod name) : x.2.Called { m with maxDepth := limit } := by
  obtain ⟨k, hk, hx⟩ := List.mem_filterMap.1 hx
  obtain ⟨f, hf, rfl⟩ := Option.map_eq_some_iff.1 hx
  have hmem : f ∈ k.methods := List.mem_of_find?_eq_some hf
  let j : Job := { info := f, facts := Function.facts f.decl k.known? o.optimize, isMethod := true }
  have hj : j ∈ jobs p (Program.decls p) o.optimize :=
    List.mem_append_right _ (List.mem_flatMap.2 ⟨k, hk, List.mem_map_of_mem hmem⟩)
  obtain ⟨fs, cs, hbodies, hfs, -⟩ := session_heads (errors_of_compiled hc)
  obtain ⟨b, hb, hindex, hparams, hresults⟩ := forall₂_left hfs hj
  have hheld := held_of_compiled hc hm limit (b := b) (by
    rw [Program.bodies, hbodies]
    simp [hb])
  have hcallee := hheld.callee
  have hsig := hheld.signature
  rw [hindex, hresults] at hcallee
  rw [hindex, hresults, hparams] at hsig
  exact ⟨_, _, _, hcallee, hsig⟩

/-- The constructor of a class is one of the functions of a compiled program. -/
theorem creator_of_compiled (hc : (Program.compile p o).outcome = .ok c) {k : ClassInfo}
    (hk : k ∈ (Program.decls p).classes) :
    ∃ b ∈ Program.bodies p o, b.index = k.create ∧ b.Creates (Program.links p) k := by
  obtain ⟨-, fs, cs, hbodies, -, hcs⟩ := session_adds (p := p) (o := o)
    (K := fun s => s.errors.errors = []) (P := fun _ _ => True)
    (Q := fun k b => b.index = k.create ∧ b.Creates (Program.links p) k) (errors_of_compiled hc)
    (fun s j _ hs => by
      obtain ⟨b, ha⟩ := addJob_adds s j hs
      exact ⟨ha.errors, b, ha.bodies, trivial⟩)
    (fun s k _ hs => by
      obtain ⟨b, ha⟩ := addClass_adds s k hs
      obtain ⟨notes, D, hr, -⟩ := ha.drafted
      have hheads := creator_heads _ _ _ _ _ hr
      exact ⟨ha.errors, b, ha.bodies, hheads.index, creator_creates hr⟩)
  obtain ⟨b, hb, h⟩ := forall₂_left hcs hk
  refine ⟨b, ?_, h⟩
  rw [Program.bodies, hbodies]
  simp [hb]

end Compiled

/-- A helper of a compiled program has some number. -/
def Helper.At (p : Program) (o : Options) (h : Helper) (index : Nat) : Prop :=
  h.body (Program.decls p) (Program.links p) index ∈ Program.bodies p o

/-- The constructor of a class first calls for an object and keeps it in a local, which it gives back
at the end. The call gives an object of the class, unless too many activations are open or the class has
more properties than an array can hold. In a run of the program an object of the class stays one. -/
structure ClassInfo.Constructs (p : Program) (o : Options) (c : Compiled) (m : Processor Output)
    (k : ClassInfo) : Prop where
  code : ∃ b ∈ Program.bodies p o, b.index = k.create ∧ b.Creates (Program.links p) k
  made : ∀ depth h w, m.Calls depth ((Program.links p).index .objNew)
    [.i32 (num k.id), .i32 (num k.props.length)] h w
    { returned := fun vs h _ => ∃ v, vs = [v] ∧ k.Instance h v
      trapped := fun _ _ _ _ => m.full depth = true ∨ num k.props.length < 0, fuel := none }
  kept : ∀ s₀ s s' i j v, m.start freshWorld c.main [] = .ok (.next s₀) → Steps m i s₀ s →
    k.Instance s.heap v → Steps m j s s' → k.Instance s'.heap v

/-- With an object of a class, the helpers of a program find the members of that class. -/
structure OwnMembers (p : Program) (o : Options) (m : Processor Output) (k : ClassInfo) (h : Heap)
    (v : Val) : Prop where
  /-- The number of the class of the object is that of its class, and with it the helper of a property
  finds the slot there. -/
  slot : ∀ (prop : String) (index : Nat), (Helper.slotFinder prop).At p o index →
      ∀ depth w (Q : Post Output), Room m depth 1 → Q.fuel = none →
    (m.Calls depth ((Program.links p).index .objClass) [v] h w Q ↔ Q.returned [.i32 (num k.id)] h w) ∧
    (m.Calls depth index [.i32 (num k.id)] h w Q ↔ Q.returned [.i32 (k.slotNumber prop)] h w)
  /-- The helper of a method calls the method of the class with the object and the arguments if it
  takes as many, and traps otherwise. -/
  method : ∀ (name : String) (args : List Val) (index : Nat),
      (Helper.dispatcher name args.length).At p o index →
      ∀ depth w (Q : Post Output), Room m depth 2 → Q.fuel = none →
    (m.Calls depth index (v :: args) h w Q ↔
      match (k.method? name).filter fun f => f.arity == args.length with
      | some f => m.Calls (depth + 1) f.index (v :: args) h w Q
      | none => Q.trapped ("dispatch." ++ dispatcherKey name args.length) .unreachable h w)
  /-- Code that finds the slot of a declared property does the same as code that knows it. -/
  sameSlot : ∀ (prop : String) (index slot : Nat), (Helper.slotFinder prop).At p o index →
      k.slot? prop = some slot → ∀ (a : Act) (t : Nat) rest conts w ls st (Q : Post Output),
      Room m a.depth 1 → Q.fuel = none → ls[t]? = some v →
    (m.wp a (load t ++ ((Program.links p).call .objClass ++ (.call index :: rest))) conts Q
        ⟨h, w, ls, st⟩ ↔
      m.wp a (const32 slot ++ rest) conts Q ⟨h, w, ls, st⟩)
  /-- Code that finds a declared method does the same as code that knows it. The helper takes an
  activation of its own, so this is without a bound on them. -/
  sameMethod : ∀ (name : String) (args : List Val) (index : Nat) (f : FunctionInfo),
      (Helper.dispatcher name args.length).At p o index → k.method? name = some f →
      f.arity = args.length → ∀ (a : Act) rest conts w ls st (Q : Post Output), m.maxDepth ≤ 0 →
      Q.fuel = none →
    (m.wp a (.call index :: rest) conts Q ⟨h, w, ls, args.reverse ++ v :: st⟩ ↔
      m.wp a (.call f.index :: rest) conts Q ⟨h, w, ls, args.reverse ++ v :: st⟩)

/-- **The members of an object are those of its class.** In a run of a compiled program, what the
constructor of a class makes is an object of the class for the rest of the run. Whatever the
bound on open activations, the helpers of the program find its members in that class, with the same
effect as access to members that are known; and a value that is no object makes the helper of a method
trap. The numbers of classes have 32 bits, so there are less than `2 ^ 32` of them. -/
theorem dispatch_selects_own_member {p : Program} {o : Options} {c : Compiled} {m : Processor Output}
    (hc : (Program.compile p o).outcome = .ok c) (hm : machineFor c 0 = .ok m)
    (hn : (Program.decls p).classes.length < 2 ^ 32) {k : ClassInfo}
    (hk : k ∈ (Program.decls p).classes) :
    k.Constructs p o c m ∧
    (∀ (limit : Int) (h : Heap) (v : Val), k.Instance h v →
      OwnMembers p o { m with maxDepth := limit } k h v) ∧
    ∀ (limit : Int) (h : Heap) (v : Val), NonObject h v →
      ∀ (name : String) (args : List Val) (index : Nat),
        (Helper.dispatcher name args.length).At p o index → ∀ depth w (Q : Post Output),
        Room { m with maxDepth := limit } depth 2 → Q.fuel = none →
      ({ m with maxDepth := limit }.Calls depth index (v :: args) h w Q ↔
        Q.trapped ("dispatch." ++ dispatcherKey name args.length) .unreachable h w) := by
  have hd : (Program.decls p).Numbered := ⟨id_of_class p, hn⟩
  refine ⟨⟨creator_of_compiled hc hk, fun depth h w => objNew_calls
    (installed_of_compiled hc hm m.maxDepth) h w depth, fun s₀ s s' i j v hs₀ hs hv hs' => ?_⟩,
    fun limit h v hv => ?_,
    fun limit h v hv name args index hb depth w Q hr hq => ?_⟩
  · have hdisc := machine_disciplined hc hm
    obtain ⟨hidden, hrun, -⟩ := steps_sound hdisc (running_of_start hc hm hs₀) hs
    exact hv.steps hdisc hrun hs'
  · have hi := installed_of_compiled hc hm limit
    refine ⟨fun prop index hb depth w Q hr hq => ?_, fun name args index hb depth w Q hr hq => ?_,
      fun prop index slot hb hslot a t rest conts w ls st Q hr hq ht => ?_,
      fun name args index f hb hf harity a rest conts w ls st Q hlimit hq => ?_⟩
    · exact ⟨objClass_calls (n := 0) hi hr hq hv,
        slotFinder_calls hd hk (held_of_compiled hc hm limit hb) hr hq⟩
    · rw [dispatcher_calls hi (held_of_compiled hc hm limit hb) hr hq
        (fun x hx => methods_called hc hm limit hx) rfl fun R hR =>
          objClass_calls (n := 0) hi (hr.mono (by omega)) hR hv, find_withMethod hd hk]
      cases (k.method? name).filter fun f => f.arity == args.length <;> rfl
    · exact wp_slot_found hd hk hi (held_of_compiled hc hm limit hb) hr hq hv hslot ht
    · exact wp_method_found hd hk hi (held_of_compiled hc hm limit hb)
        (fun x hx => methods_called hc hm limit hx) hlimit hq hv hf harity
  · have hi := installed_of_compiled hc hm limit
    rw [dispatcher_calls hi (held_of_compiled hc hm limit hb) hr hq
      (fun x hx => methods_called hc hm limit hx) rfl fun R hR =>
        objClass_calls_other (n := 0) hi (hr.mono (by omega)) hR hv, find_withMethod_none hd]
    rfl

/-- A program that calls a method on a receiver of an unknown class. -/
def callingProgram : Program :=
  [.classDecl {} "A" [] [⟨{}, "m", [], []⟩], .expr {} (.method {} (.lit {} .null) "m" [])]

/-- The method of the class of an object is found. -/
theorem object_finds_method : ∃ c m k index h v f,
    (Program.compile callingProgram {}).outcome = .ok c ∧ machineFor c 0 = .ok m ∧
    k ∈ (Program.decls callingProgram).classes ∧
    (Helper.dispatcher "m" 0).At callingProgram {} index ∧ k.Instance h v ∧
    k.method? "m" = some f ∧ ∀ w (Q : Post Output), Q.fuel = none →
      ({ m with maxDepth := 0 }.Calls 0 index [v] h w Q ↔
        { m with maxDepth := 0 }.Calls 1 f.index [v] h w Q) := by
  have hok : (Program.compile callingProgram {}).outcome.isOk = true := by decide +kernel
  have hhelper : (Program.session callingProgram {}).pool.helpers[0]? = some (.dispatcher "m" 0) := by
    decide +kernel
  have hclass : (Program.decls callingProgram).classes.length = 1 := by decide +kernel
  obtain ⟨k, hone⟩ := List.length_eq_one_iff.1 hclass
  have hmethod : ((Program.decls callingProgram).classes.head?.bind (·.method? "m")).map
      FunctionInfo.arity = some 0 := by decide +kernel
  rw [hone] at hmethod
  obtain ⟨f, hf, harity⟩ := Option.map_eq_some_iff.1 hmethod
  replace hf : k.method? "m" = some f := hf
  have hk : k ∈ (Program.decls callingProgram).classes := by simp [hone]
  let h : Heap := #[.struct Shape.object #[.i32 (num k.id), .null],
    valueCell .object 0 0 .null (.ref 0)]
  have hinst : k.Instance h (.ref 1) := ⟨_, [], .object (o := 0) rfl rfl⟩
  cases hc : (Program.compile callingProgram {}).outcome with
  | error e =>
    rw [hc] at hok
    cases hok
  | ok c =>
    obtain ⟨links, -, hm, -⟩ := machine_of_compiled hc 0
    obtain ⟨-, hfinds, -⟩ := dispatch_selects_own_member hc hm (by rw [hclass]; decide) hk
    refine ⟨c, _, k, _, h, _, f, rfl, hm, hk, helper_in hhelper, hinst, hf, fun w Q hq => ?_⟩
    have hcall := (hfinds 0 h _ hinst).method "m" [] _ (helper_in hhelper) 0 w Q
      (.inl (Int.le_refl 0)) hq
    rw [hf, Option.filter_some, if_pos (by simp [harity])] at hcall
    exact hcall

end HeapScript.Compile
