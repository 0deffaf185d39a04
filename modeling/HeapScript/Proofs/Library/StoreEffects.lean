import HeapScript.Proofs.Library.ArrayRefinement

/-!
# What stores into arrays change

A store into an array ends in one of three ways. It ends the run, and all cells from before are as they
were. It returns the array, and of the cells from before only those of the array may differ: its
record and its elements, or its table with the slots and entries. Or it returns a copy, and again all
cells from before are as they were, those of the array with them.
-/

namespace HeapScript.Library

open Machine Machine.Processor Code Execution Compile

/-- A call that stores into an array, and what the array should then hold. -/
inductive StoreCall (h : Heap) (a : Nat) (s : Items) : Routine → List Val → Items → Prop
  | set {u : Val} {x : Value} (hu : Boxed h u x) (b : Nat) :
    StoreCall h a s .arrSet [.ref a, u, .ref b] (s.set x.normalizeKey (.ref b))
  | setInt (i : Int64) (b : Nat) :
    StoreCall h a s .arrSetInt [.ref a, .i64 i, .ref b] (s.setInt i (.ref b))
  | push (b : Nat) : StoreCall h a s .arrPush [.ref a, .ref b] (s.push (.ref b))

/-- How a store into an array with some cells ends, if it should leave some contents. -/
inductive StoreEnding (h : Heap) (a : Nat) (S : List Nat) (s : Items) (h' : Heap) : Ending → Prop
  | trapped {t : Trap} (he : Extends h h') : StoreEnding h a S s h' (.trapped t)
  | inPlace (ha : ∃ S', ArrayAt h' a s S') (hk : Keeps S h h') :
    StoreEnding h a S s h' (.returned [.ref a])
  | copied {p : Nat} (hp : h[p]? = none) (ha : ∃ S', ArrayAt h' p s S') (he : Extends h h') :
    StoreEnding h a S s h' (.returned [.ref p])

/-- A demand on calls that all three ways meet. -/
def storing (w : Output) (h : Heap) (a : Nat) (S : List Nat) (s : Items) : Post Output where
  returned vs h' w' := (∃ a' copy, vs = [.ref a'] ∧ Landed h a S h' s copy a') ∧ w' = w
  trapped _ _ h' w' := Extends h h' ∧ w' = w
  fuel := none

section Stores

variable {m : Processor Output} {l : Links} {w : World Output} {a : Nat} {s s' : Items} {S : List Nat}
  {r : Routine} {args : List Val}

/-- A machine with another bound on its activations, or with none. -/
theorem Ready.withDepth (hm : Ready m l) {limit : Int} (hl : limit ≤ 0 ∨ 2000 ≤ limit) :
    Ready { m with maxDepth := limit } l where
  linked := ⟨hm.linked.marked, hm.linked.oblivious, hm.linked.unlimited⟩
  installed :=
    { types := hm.installed.types
      signature := hm.installed.signature
      callee := hm.installed.callee
      echoSignature := hm.installed.echoSignature
      echo := hm.installed.echo
      renderSignature := hm.installed.renderSignature
      render := hm.installed.render
      data := hm.installed.data }
  room := by simpa [Room] using hl

theorem StoreCall.length (hc : StoreCall w.heap a s r args s') : r.params.length = args.length := by
  cases hc <;> rfl

/-- Every store meets the demand. -/
theorem StoreCall.calls (hm : Ready m l) (ha : ArrayAt w.heap a s S)
    (hc : StoreCall w.heap a s r args s') :
    m.Calls 0 (l.index r) args w.heap w.host (storing w.host w.heap a S s') := by
  cases hc with
  | set hu b =>
    exact arrSet_total (k := 0) hm.installed (hm.room.mono (by decide)) ha hu ⟨b, rfl⟩
      (fun _ _ _ a' hl => ⟨⟨a', _, rfl, hl⟩, rfl⟩) (fun _ _ _ _ he => ⟨he, rfl⟩)
      fun _ _ he => ⟨he, rfl⟩
  | setInt i b =>
    exact arrSetInt_total (k := 0) hm.installed (hm.room.mono (by decide)) ha ⟨b, rfl⟩
      (fun _ _ a' hl => ⟨⟨a', _, rfl, hl⟩, rfl⟩) (fun _ _ _ he => ⟨he, rfl⟩)
      fun _ => ⟨.refl _, rfl⟩
  | push b =>
    exact arrPush_total (k := 0) hm.installed (hm.room.mono (by decide)) ha ⟨b, rfl⟩
      (fun _ _ a' hl => ⟨⟨a', _, rfl, hl⟩, rfl⟩) (fun _ _ _ he => ⟨he, rfl⟩)
      fun _ => ⟨.refl _, rfl⟩

/-- A call that meets the demand ends in one of the three ways. -/
theorem StoreEnding.of_accepts {w' : World Output} {ending : Ending}
    (h : (storing w.host w.heap a S s).accepts w' ending) :
    StoreEnding w.heap a S s w'.heap ending := by
  cases ending with
  | returned vs =>
    obtain ⟨⟨a', copy, rfl, hl⟩, -⟩ := h
    cases hl with
    | inPlace hw =>
      obtain ⟨S', ha, -⟩ := hw.array
      exact .inPlace ⟨S', ha⟩ hw.keeps
    | copied hp hw =>
      obtain ⟨S', ha, -⟩ := hw.array
      exact .copied hp ⟨S', ha⟩ fun b c hc => hw.keeps b c hc List.not_mem_nil
  | trapped t => exact .trapped h.1
  | malformed => exact h.elim

theorem StoreCall.ends (hm : Ready m l) (ha : ArrayAt w.heap a s S)
    (hc : StoreCall w.heap a s r args s') :
    ∃ ending w', m.Ends w (l.index r) args ending w' ∧
      StoreEnding w.heap a S s' w'.heap ending := by
  obtain ⟨ending, w', hends, haccept⟩ := hm.ends hc.length rfl (hc.calls hm ha)
  exact ⟨ending, w', hends, .of_accepts haccept⟩

end Stores

/-- On the machine of every compiled program, without a bound on its instructions and with the usual
bound on its activations or none, every store into an array ends in one of three ways: in a trap, with
all cells from before as they were; in the array itself, with all cells from before as they were but
those of the array; or in a new copy, with all cells from before as they were. -/
theorem stores_end_one_of_three_ways {p : Program} {o : Options} {c : Compiled}
    (hc : (Program.compile p o).outcome = .ok c) :
    ∃ m, machineFor c 0 = .ok m ∧ ∀ limit : Int, limit ≤ 0 ∨ 2000 ≤ limit →
      ∀ w a s S, ArrayAt w.heap a s S → ∀ r args s', StoreCall w.heap a s r args s' →
        ∃ ending w', { m with maxDepth := limit }.Ends w (c.links.index r) args ending w' ∧
          StoreEnding w.heap a S s' w'.heap ending := by
  obtain ⟨m, hm, hready⟩ := ready_of_compiled hc
  refine ⟨m, hm, fun limit hlimit w a s S ha r args s' hcall => ?_⟩
  exact hcall.ends (hready.withDepth hlimit) ha

/-- A store under -1 into an empty array, without a bound on activations. -/
theorem store_below_empty_array :
    ∃ c m, (Program.compile [] {}).outcome = .ok c ∧ machineFor c 0 = .ok m ∧
      ∃ w a S, ArrayAt w.heap a (.dense []) S ∧
        ∀ b, ∃ ending w', { m with maxDepth := 0 }.Ends w (c.links.index .arrSetInt)
          [.ref a, .i64 (-1), .ref b] ending w' ∧
          StoreEnding w.heap a S (.hash [(.int (-1), .ref b)] 0) w'.heap ending := by
  obtain ⟨c, hc⟩ := compile_nothing
  obtain ⟨m, hm, hstore⟩ := stores_end_one_of_three_ways hc
  obtain ⟨m', hm', hready⟩ := ready_of_compiled hc
  cases hm.symm.trans hm'
  obtain ⟨a, w, -, S, ha⟩ := hready.arrNew ⟨#[], #[], 0⟩
  refine ⟨c, m, hc, hm, w, a, S, ha, fun b => ?_⟩
  exact hstore 0 (.inl (by decide)) w a _ S ha _ _ _ (.setInt (-1) b)

end HeapScript.Library
