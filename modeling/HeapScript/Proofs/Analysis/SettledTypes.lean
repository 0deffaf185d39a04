import HeapScript.Proofs.Analysis.Escapes

/-!
# The types of variables settle

Variables type each other: what is assigned to one may read others, so giving up one type can
contradict further ones. Types are ordered by what they say. Forgetting the types of variables never
makes an expression say more, so a type that some consistent choice keeps is never given up, in
whatever order the variables are looked at. What is left when nothing is contradicted any more is
therefore the greatest consistent choice.
-/

namespace HeapScript

/-! ## The order of types -/

/-- One type is below another if it says the same or nothing. -/
instance : PartialOrder StaticType where
  le s t := s = .unknown ∨ s = t
  le_refl t := .inr rfl
  le_trans r s t hrs hst := by
    rcases hrs with rfl | rfl
    · exact .inl rfl
    · exact hst
  le_antisymm s t hst hts := by
    rcases hst with rfl | rfl
    · rcases hts with rfl | rfl
      · rfl
      · rfl
    · rfl

namespace StaticType

theorem unknown_le (t : StaticType) : unknown ≤ t := .inl rfl

theorem eq_of_le {s t : StaticType} (h : s ≤ t) (hs : s ≠ unknown) : s = t := h.resolve_left hs

theorem ofBinary_mono (op : BinaryOp) {l l' r r' : StaticType} (hl : l ≤ l') (hr : r ≤ r') :
    ofBinary op l r ≤ ofBinary op l' r' := by
  rcases hl with rfl | rfl
  · -- Nothing is known of the left operand, and so of the result.
    have hnone : ofBinary op unknown r = unknown := by
      unfold ofBinary
      split <;> simp [combine, isNumeric]
    rw [hnone]
    exact unknown_le _
  · rcases hr with rfl | rfl
    · have hnone : ofBinary op l unknown = unknown := by
        unfold ofBinary
        split <;> cases l <;> simp [combine, isNumeric]
      rw [hnone]
      exact unknown_le _
    · exact le_rfl

end StaticType

/-- An expression says more if its variables do. -/
theorem Expr.staticType_mono (e : Expr) : Monotone fun vars => e.staticType vars := by
  intro A B h
  dsimp only
  fun_induction Expr.staticType A e with
  | case1 loc v => rw [staticType]
  | case2 loc name =>
    rw [staticType]
    exact h name
  | case3 loc op l r ihl ihr =>
    rw [staticType]
    exact StaticType.ofBinary_mono op ihl ihr
  | case4 loc e ih | case5 loc e ih =>
    rw [staticType]
    exact ih
  | case6 => exact StaticType.unknown_le _
  | case7 loc increment before target name =>
    rw [staticType]
    exact h name
  | case8 loc name arg => rw [staticType]
  | case9 => exact StaticType.unknown_le _

/-! ## Visits -/

section Visits

variable {uses : List (String × VarUse)} {A B : String → StaticType} {name : String}

/-- Everything assigned to a variable that keeps a type has this type. -/
def Consistent (uses : List (String × VarUse)) (A : String → StaticType) : Prop :=
  ∀ name u, uses.lookup name = some u → A name ≠ .unknown →
    ∀ e ∈ u.assigned, e.staticType A = A name

def Contradicted (uses : List (String × VarUse)) (A : String → StaticType) (name : String) : Prop :=
  A name ≠ .unknown ∧ ∃ u ∈ uses.lookup name, ∃ e ∈ u.assigned, e.staticType A ≠ A name

instance (uses : List (String × VarUse)) (A : String → StaticType) (name : String) :
    Decidable (Contradicted uses A name) := inferInstanceAs (Decidable (_ ∧ _))

/-- Looks at a variable and gives up its type if it is contradicted. -/
def visit (uses : List (String × VarUse)) (A : String → StaticType) (name : String) :
    String → StaticType :=
  if Contradicted uses A name then Function.update A name .unknown else A

theorem visit_le (uses : List (String × VarUse)) (A : String → StaticType) (name : String) :
    visit uses A name ≤ A := by
  unfold visit
  split
  · intro n
    by_cases hn : n = name
    · subst hn
      rw [Function.update_self]
      exact StaticType.unknown_le _
    · rw [Function.update_of_ne hn]
  · exact le_rfl

/-- A visit gives up no type that a consistent choice keeps. -/
theorem le_visit (hB : Consistent uses B) (h : B ≤ A) (name : String) : B ≤ visit uses A name := by
  unfold visit
  split
  · rename_i hc
    obtain ⟨-, u, hu, e, he, hne⟩ := hc
    intro n
    by_cases hn : n = name
    · subst hn
      rw [Function.update_self]
      -- Were the type kept, the assignment would have it here as well.
      refine .inl (Decidable.not_not.1 fun hk => hne ?_)
      have heB := hB n u hu hk e he
      have hle : e.staticType B ≤ e.staticType A := e.staticType_mono h
      rw [heB] at hle
      rw [← StaticType.eq_of_le hle hk, StaticType.eq_of_le (h n) hk]
    · rw [Function.update_of_ne hn]
      exact h n
  · exact h

theorem consistent_iff : Consistent uses A ↔ ∀ name, ¬ Contradicted uses A name := by
  constructor
  · rintro h name ⟨hk, u, hu, e, he, hne⟩
    exact hne (h name u hu hk e he)
  · intro h name u hu hk e he
    by_contra hne
    exact h name ⟨hk, u, hu, e, he, hne⟩

theorem visit_of_contradicted (h : Contradicted uses A name) : visit uses A name ≠ A := by
  intro he
  have hself : visit uses A name name = .unknown := by
    rw [visit, if_pos h, Function.update_self]
  rw [he] at hself
  exact h.1 hself

theorem foldl_visit_le (order : List String) (A : String → StaticType) :
    order.foldl (visit uses) A ≤ A := by
  induction order generalizing A with
  | nil => exact le_rfl
  | cons name order ih => exact (ih _).trans (visit_le uses A name)

theorem le_foldl_visit (hB : Consistent uses B) (h : B ≤ A) (order : List String) :
    B ≤ order.foldl (visit uses) A := by
  induction order generalizing A with
  | nil => exact h
  | cons name order ih => exact ih (le_visit hB h name)

/-- Visits in any order, after which nothing is contradicted, leave the greatest consistent
choice. -/
theorem foldl_visit_isGreatest {order : List String}
    (h : Consistent uses (order.foldl (visit uses) A)) :
    IsGreatest {B | B ≤ A ∧ Consistent uses B} (order.foldl (visit uses) A) :=
  ⟨⟨foldl_visit_le order A, h⟩, fun _ hB => le_foldl_visit hB.2 hB.1 order⟩

/-- Visits that change nothing in the end have changed nothing on the way. -/
theorem foldl_visit_eq_self {order : List String} (h : order.foldl (visit uses) A = A) :
    ∀ name ∈ order, ¬ Contradicted uses A name := by
  induction order with
  | nil => simp
  | cons name order ih =>
    have hfirst : visit uses A name = A :=
      le_antisymm (visit_le uses A name) (h.symm.le.trans (foldl_visit_le order _))
    rw [List.foldl_cons, hfirst] at h
    intro n hn
    rcases List.mem_cons.1 hn with rfl | hn
    · exact fun hc => visit_of_contradicted hc hfirst
    · exact ih h n hn

/-! ## Passes -/

def typed (names : List String) (A : String → StaticType) : Finset String :=
  names.toFinset.filter fun name => A name ≠ .unknown

theorem mem_typed {names : List String} :
    name ∈ typed names A ↔ name ∈ names ∧ A name ≠ .unknown := by
  simp [typed]

/-- Below a choice of types there are fewer of them. -/
theorem card_typed_lt {names : List String} (h : B ≤ A) (hne : B ≠ A)
    (hnames : ∀ name, A name ≠ .unknown → name ∈ names) :
    (typed names B).card < (typed names A).card := by
  have hsub : typed names B ⊆ typed names A := by
    intro n hn
    rw [mem_typed] at hn ⊢
    exact ⟨hn.1, by rw [← StaticType.eq_of_le (h n) hn.2]; exact hn.2⟩
  obtain ⟨name, hname⟩ := Function.ne_iff.1 hne
  have hB : B name = .unknown := (h name).resolve_right hname
  have hA : A name ≠ .unknown := fun hA => hname (hB.trans hA.symm)
  apply Finset.card_lt_card
  refine Finset.ssubset_iff_subset_ne.2 ⟨hsub, fun he => ?_⟩
  have hmem : name ∈ typed names B := he ▸ mem_typed.2 ⟨hnames name hA, hA⟩
  exact (mem_typed.1 hmem).2 hB

/-- A pass that changes nothing has found nothing contradicted. -/
theorem consistent_of_pass {order : List String} (h : order.foldl (visit uses) A = A)
    (hall : ∀ name, A name ≠ .unknown → name ∈ order) : Consistent uses A := by
  rw [consistent_iff]
  intro name hc
  exact foldl_visit_eq_self h name (hall name hc.1) hc

/-- Passes over all typed variables come to an end after at most as many of them as there are
types. -/
theorem iterate_pass (uses : List (String × VarUse)) {names order : List String} {n : Nat}
    (hnames : ∀ name, A name ≠ .unknown → name ∈ names)
    (hall : ∀ name, A name ≠ .unknown → name ∈ order) (hn : (typed names A).card ≤ n) :
    Consistent uses ((fun A => order.foldl (visit uses) A)^[n] A) := by
  induction n generalizing A with
  | zero =>
    have hnone (name : String) : A name = .unknown := by
      by_contra hk
      have hmem : name ∈ typed names A := mem_typed.2 ⟨hnames name hk, hk⟩
      rw [Finset.card_eq_zero.1 (Nat.le_zero.1 hn)] at hmem
      exact Finset.notMem_empty name hmem
    intro name u _ hk
    exact absurd (hnone name) hk
  | succ n ih =>
    rw [Function.iterate_succ_apply]
    have hle : order.foldl (visit uses) A ≤ A := foldl_visit_le order A
    have below (name : String) (hk : order.foldl (visit uses) A name ≠ .unknown) :
        A name ≠ .unknown := by
      rwa [← StaticType.eq_of_le (hle name) hk]
    by_cases hsame : order.foldl (visit uses) A = A
    · rw [hsame, Function.iterate_fixed hsame n]
      exact consistent_of_pass hsame hall
    · have hlt := card_typed_lt hle hsame hnames
      exact ih (fun name hk => hnames name (below name hk))
        (fun name hk => hall name (below name hk)) (by omega)

/-- Passes are visits, one after the other. -/
theorem iterate_pass_eq (order : List String) (n : Nat) (A : String → StaticType) :
    (fun A => order.foldl (visit uses) A)^[n] A =
      (List.replicate n order).flatten.foldl (visit uses) A := by
  induction n generalizing A with
  | zero => rfl
  | succ n ih =>
    rw [Function.iterate_succ_apply, ih, List.replicate_succ, List.flatten_cons, List.foldl_append]

end Visits

/-! ## The loop of the analysis -/

namespace VarTypes

variable {types types' : VarTypes}

theorem get_of_mem (h : (types.map Prod.fst).Nodup) {p : String × StaticType} (hp : p ∈ types) :
    types.get p.1 = p.2 := by
  rw [get, lookup_of_mem h hp]
  rfl

theorem mem_of_get {name : String} (h : types.get name ≠ .unknown) : name ∈ types.map Prod.fst := by
  by_contra hnot
  apply h
  have hnone : types.lookup name = none := by
    rw [List.lookup_eq_none_iff]
    intro p hp
    rw [bne_iff_ne]
    rintro rfl
    exact hnot (List.mem_map_of_mem hp)
  rw [get, hnone]
  rfl

/-- Types of the same variables are equal if each variable has the same type. -/
theorem eq_of_get (h : (types.map Prod.fst).Nodup)
    (hnames : types'.map Prod.fst = types.map Prod.fst) (hget : types'.get = types.get) :
    types' = types := by
  have listed (ts : VarTypes) (hn : (ts.map Prod.fst).Nodup) :
      ts = (ts.map Prod.fst).map fun name => (name, ts.get name) := by
    rw [List.map_map]
    refine (List.map_id' ts).symm.trans (List.map_congr_left fun p hp => ?_)
    rw [Function.comp_apply, get_of_mem hn hp]
  rw [listed types' (hnames ▸ h), listed types h, hnames, hget]

theorem get_forget (types : VarTypes) (name : String) :
    get (types.map fun e => if e.1 = name then (name, .unknown) else e) =
      Function.update types.get name .unknown := by
  funext n
  induction types with
  | nil =>
    by_cases hn : n = name
    · rw [hn, Function.update_self]
      rfl
    · rw [Function.update_of_ne hn]
      rfl
  | cons p rest ih =>
    have step (q : String × StaticType) (ts : VarTypes) :
        get (q :: ts) n = if n = q.1 then q.2 else get ts n := by
      unfold get
      rw [List.lookup_cons]
      by_cases hn : n = q.1
      · simp [hn]
      · simp [hn, beq_false_of_ne hn]
    rw [List.map_cons, step, ih]
    by_cases hn : n = name
    · subst hn
      rw [Function.update_self, Function.update_self]
      split <;> split <;> first | rfl | simp_all
    · rw [Function.update_of_ne hn, Function.update_of_ne hn, step]
      split <;> split <;> simp_all

end VarTypes

section Loop

variable {uses : List (String × VarUse)} {types : VarTypes}

theorem contradicted_iff {now : VarTypes} {name : String} {t : StaticType} (ht : now.get name = t) :
    Contradicted uses now.get name ↔ (t != .unknown && !agrees uses now name t) = true := by
  subst ht
  unfold Contradicted agrees
  cases uses.lookup name with
  | none => simp
  | some u => simp

/-- The rest of a pass visits the variables that are still to come. -/
theorem foldl_demote_get (todo now : VarTypes) (hn : (todo.map Prod.fst).Nodup)
    (hnow : ∀ p ∈ todo, now.get p.1 = p.2) :
    VarTypes.get (todo.foldl (fun now (name, t) =>
      if t != .unknown && !agrees uses now name t then
        now.map fun e => if e.1 = name then (name, .unknown) else e
      else now) now) = (todo.map Prod.fst).foldl (visit uses) now.get := by
  induction todo generalizing now with
  | nil => rfl
  | cons p rest ih =>
    obtain ⟨name, t⟩ := p
    rw [List.map_cons, List.nodup_cons] at hn
    have ht : now.get name = t := hnow _ List.mem_cons_self
    have hvisit : VarTypes.get (if t != .unknown && !agrees uses now name t then
        now.map fun e => if e.1 = name then (name, .unknown) else e else now) =
        visit uses now.get name := by
      unfold visit
      rw [apply_ite VarTypes.get, VarTypes.get_forget]
      exact if_congr (contradicted_iff ht).symm rfl rfl
    rw [List.foldl_cons, List.map_cons, List.foldl_cons, ← hvisit]
    refine ih _ hn.2 fun q hq => ?_
    have hne : q.1 ≠ name := by
      rintro rfl
      exact hn.1 (List.mem_map.2 ⟨q, hq, rfl⟩)
    rw [hvisit, visit]
    split
    · rw [Function.update_of_ne hne]
      exact hnow q (List.mem_cons_of_mem _ hq)
    · exact hnow q (List.mem_cons_of_mem _ hq)

/-- A round of the loop is a pass over the variables with types. -/
theorem demote_get (h : (types.map Prod.fst).Nodup) :
    (demote uses types).get = (types.map Prod.fst).foldl (visit uses) types.get :=
  foldl_demote_get types types h fun _ hp => VarTypes.get_of_mem h hp

/-- The loop stops by itself, before its bound, and has made some passes by then. -/
theorem settle_get (uses : List (String × VarUse)) {fuel : Nat} (h : (types.map Prod.fst).Nodup)
    (hfuel : (typed (types.map Prod.fst) types.get).card < fuel) :
    demote uses (settle uses fuel types) = settle uses fuel types ∧
      ∃ n, (settle uses fuel types).get =
        (fun A => (types.map Prod.fst).foldl (visit uses) A)^[n] types.get := by
  induction fuel generalizing types with
  | zero => omega
  | succ fuel ih =>
    rw [settle]
    split
    · rename_i hsame
      exact ⟨hsame, 0, rfl⟩
    · rename_i hne
      have hnames := map_demote uses types
      have hget : (demote uses types).get ≠ types.get := fun he =>
        hne (VarTypes.eq_of_get h hnames he)
      have hle : (demote uses types).get ≤ types.get := by
        rw [demote_get h]
        exact foldl_visit_le _ _
      have hlt := card_typed_lt hle hget fun _ => VarTypes.mem_of_get
      obtain ⟨hstop, n, hn⟩ := @ih (demote uses types) (hnames ▸ h) (by rw [hnames]; omega)
      refine ⟨hstop, n + 1, ?_⟩
      rw [hn, hnames, Function.iterate_succ_apply, demote_get h]

/-- Steps that add at most a type for the variable they look at meet the variables in order. -/
theorem foldl_names_sublist {step : VarTypes → String × VarUse → VarTypes}
    (hstep : ∀ types p, step types p = types ∨ ∃ t, step types p = types ++ [(p.1, t)])
    (seen : VarTypes) : ∃ names, names.Sublist (uses.map Prod.fst) ∧
      (uses.foldl step seen).map Prod.fst = seen.map Prod.fst ++ names := by
  induction uses generalizing seen with
  | nil => exact ⟨[], List.Sublist.refl _, by simp⟩
  | cons p rest ih =>
    obtain ⟨names, hsub, heq⟩ := ih (step seen p)
    rw [List.foldl_cons, heq]
    rcases hstep seen p with hs | ⟨t, hs⟩ <;> rw [hs]
    · exact ⟨names, hsub.cons _, rfl⟩
    · exact ⟨p.1 :: names, hsub.cons_cons _, by simp⟩

theorem candidateTypes_nodup (h : (uses.map Prod.fst).Nodup) :
    ((candidateTypes uses).map Prod.fst).Nodup := by
  obtain ⟨names, hsub, heq⟩ : ∃ names, names.Sublist (uses.map Prod.fst) ∧
      (candidateTypes uses).map Prod.fst = names := by
    refine foldl_names_sublist (fun types p => ?_) []
    dsimp only
    split
    · split
      · exact .inr ⟨_, rfl⟩
      · exact .inl rfl
    · exact .inl rfl
  rw [heq]
  exact hsub.nodup h

theorem card_typed_le (types : VarTypes) :
    (typed (types.map Prod.fst) types.get).card ≤ types.length := by
  calc (typed (types.map Prod.fst) types.get).card
      ≤ (types.map Prod.fst).toFinset.card := Finset.card_filter_le _ _
    _ ≤ (types.map Prod.fst).length := List.toFinset_card_le _
    _ = types.length := List.length_map _

/-- What the loop settles is the greatest consistent choice below the candidates. -/
theorem settle_isGreatest {fuel : Nat} (h : (uses.map Prod.fst).Nodup)
    (hfuel : (candidateTypes uses).length < fuel) :
    IsGreatest {A | A ≤ (candidateTypes uses).get ∧ Consistent uses A}
      (settle uses fuel (candidateTypes uses)).get := by
  have hnodup := candidateTypes_nodup h
  obtain ⟨hstop, n, hn⟩ := settle_get uses hnodup (Nat.lt_of_le_of_lt (card_typed_le _) hfuel)
  have hpass : ((candidateTypes uses).map Prod.fst).foldl (visit uses)
      (settle uses fuel (candidateTypes uses)).get =
      (settle uses fuel (candidateTypes uses)).get := by
    have hnames := map_settle uses fuel (candidateTypes uses)
    rw [← hnames, ← demote_get (hnames ▸ hnodup), hstop]
  have hconsistent := consistent_of_pass hpass fun name hk => by
    rw [← map_settle uses fuel (candidateTypes uses)]
    exact VarTypes.mem_of_get hk
  rw [hn, iterate_pass_eq] at hconsistent ⊢
  exact foldl_visit_isGreatest hconsistent

end Loop

/-- The types by which the variables of a function are held are settled: the loop that gives up
types ends by itself, and it leaves the greatest choice below the candidates that no assignment
contradicts. The same is left by any visits after which nothing is contradicted, and by passes over
the candidates in any order. -/
theorem held_types_settle (f : Function) (this : Option String) :
    let uses := (Function.uses f this).vars
    let start := candidateTypes uses
    demote uses (numericTypes uses) = numericTypes uses ∧
      (∀ fuel, start.length < fuel → settle uses fuel start = numericTypes uses) ∧
      IsGreatest {A | A ≤ start.get ∧ Consistent uses A} (numericTypes uses).get ∧
      (∀ order : List String, Consistent uses (order.foldl (visit uses) start.get) →
        order.foldl (visit uses) start.get = (numericTypes uses).get) ∧
      (∀ order : List String, start.map Prod.fst ⊆ order → ∀ n, start.length ≤ n →
        (fun A => order.foldl (visit uses) A)^[n] start.get = (numericTypes uses).get) ∧
      ∀ name, ((Function.facts f this true).lookup name).storage.type =
        (numericTypes uses).get name := by
  intro uses start
  have hunique := Function.uses_unique f this
  have hnodup : (start.map Prod.fst).Nodup := candidateTypes_nodup hunique
  have hgreatest : IsGreatest {A | A ≤ start.get ∧ Consistent uses A} (numericTypes uses).get :=
    settle_isGreatest hunique (Nat.lt_succ_self _)
  refine ⟨?_, fun fuel hfuel => ?_, hgreatest, fun order horder => ?_,
    fun order horder n hn => ?_, fun name => ?_⟩
  · exact (settle_get uses hnodup (Nat.lt_succ_of_le (card_typed_le start))).1
  · apply VarTypes.eq_of_get
    · rw [numericTypes, map_settle]
      exact hnodup
    · rw [numericTypes, map_settle, map_settle]
    · exact (settle_isGreatest hunique hfuel).unique hgreatest
  · exact (foldl_visit_isGreatest horder).unique hgreatest
  · have hconsistent := iterate_pass uses (fun _ => VarTypes.mem_of_get)
      (fun _ hk => horder (VarTypes.mem_of_get hk)) ((card_typed_le start).trans hn)
    rw [iterate_pass_eq] at hconsistent ⊢
    exact (foldl_visit_isGreatest hconsistent).unique hgreatest
  · rw [Function.facts_storage]
    cases (numericTypes uses).get name <;> rfl

end HeapScript
