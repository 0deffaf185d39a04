import HeapScript.Proofs.Machine.Modules

/-!
# Sharing of signatures

Signatures of the type section are shared when they are written alike. A signature is written as
the list of its parameters, an arrow and the list of its results. The types of a list stand with
blanks between them and without escapes, although a reference type has blanks of its own.
-/

namespace HeapScript.Machine

/-! ## Written types -/

/-- A text that ends at a mark is cut off at the first one. -/
theorem append_mark_inj {α : Type} {c : α} {x y r s : List α} (hx : c ∉ x) (hy : c ∉ y)
    (h : x ++ c :: r = y ++ c :: s) : x = y ∧ r = s := by
  induction x generalizing y with
  | nil =>
    cases y with
    | nil => exact ⟨rfl, (List.cons.inj h).2⟩
    | cons b y => exact absurd (List.cons.inj h).1 fun hb => hy (by simp [hb])
  | cons a x ih =>
    cases y with
    | nil => exact absurd (List.cons.inj h).1 fun ha => hx (by simp [ha])
    | cons b y =>
      obtain ⟨rfl, ht⟩ := List.cons.inj h
      obtain ⟨rfl, rfl⟩ := ih (fun hc => hx (by simp [hc])) (fun hc => hy (by simp [hc])) ht
      exact ⟨rfl, rfl⟩

/-- A number is written with digits and a sign. -/
theorem bracket_notMem_repr (i : Int) : ')' ∉ i.repr.toList := by
  have hdigits (n : Nat) : ')' ∉ n.repr.toList := by
    intro hmem
    rw [Nat.repr_eq_ofList_toDigits, String.toList_ofList] at hmem
    have := Nat.isDigit_of_mem_toDigits (by decide) (by decide) hmem
    revert this
    decide
  rw [Int.repr_eq_if]
  split
  · exact hdigits _
  · simpa using hdigits _

namespace ValType

/-- The two forms of a reference type. -/
theorem text_ref (heap : Int) :
    (heap = anyHeap ∧ (ref heap).text.toList = "anyref".toList) ∨
      (heap ≠ anyHeap ∧
        (ref heap).text.toList = "(ref null ".toList ++ (heap.repr.toList ++ [')'])) := by
  by_cases h : heap = anyHeap
  · exact .inl ⟨h, by simp [text, h]⟩
  · exact .inr ⟨h, by simp [text, h]⟩

theorem ref_inj_of_text {a b : Int} {r s : List Char}
    (h : (ref a).text.toList ++ r = (ref b).text.toList ++ s) : a = b ∧ r = s := by
  obtain ⟨ha, hta⟩ | ⟨ha, hta⟩ := text_ref a <;> obtain ⟨hb, htb⟩ | ⟨hb, htb⟩ := text_ref b <;>
    rw [hta, htb] at h
  · exact ⟨ha.trans hb.symm, List.append_cancel_left h⟩
  · simp at h
  · simp at h
  · simp only [List.append_assoc, List.singleton_append, List.append_cancel_left_eq] at h
    obtain ⟨hab, hrs⟩ := append_mark_inj (bracket_notMem_repr a) (bracket_notMem_repr b) h
    exact ⟨Int.repr_injective (String.toList_inj.mp hab), hrs⟩

/-- A type that is no reference is told from every reference by its first letter. -/
theorem text_ne_ref {a : ValType} {heap : Int} (ha : ∀ i, a ≠ ref i) (r s : List Char) :
    a.text.toList ++ r ≠ (ref heap).text.toList ++ s := by
  obtain ⟨-, ht⟩ | ⟨-, ht⟩ := text_ref heap <;> rw [ht] <;> cases a <;> simp [text] at ha ⊢

/-- Types are written so that none is the beginning of another: two texts that begin with types
agree in them and in what follows. -/
theorem alike_of_text {a b : ValType} {r s : List Char}
    (h : a.text.toList ++ r = b.text.toList ++ s) : a.alike b = true ∧ r = s := by
  by_cases ha : ∃ i, a = ref i
  · obtain ⟨i, rfl⟩ := ha
    by_cases hb : ∃ j, b = ref j
    · obtain ⟨j, rfl⟩ := hb
      obtain ⟨rfl, rfl⟩ := ref_inj_of_text h
      exact ⟨by simp [alike], rfl⟩
    · exact absurd h.symm (text_ne_ref (not_exists.mp hb) s r)
  · by_cases hb : ∃ j, b = ref j
    · obtain ⟨j, rfl⟩ := hb
      exact absurd h (text_ne_ref (not_exists.mp ha) r s)
    · cases a <;> cases b <;> simp [text, alike] at ha hb h ⊢ <;> exact h

@[simp] theorem alike_refl (a : ValType) : a.alike a = true := by
  cases a <;> simp [alike]

theorem text_eq_of_alike {a b : ValType} (h : a.alike b = true) : a.text = b.text := by
  unfold alike at h
  split at h
  · rfl
  · rw [beq_iff_eq.mp h]

@[simp] theorem allAlike_refl (as : List ValType) : allAlike as as = true := by
  induction as with
  | nil => rfl
  | cons a as ih => simp [allAlike, ih]

def listText (types : List ValType) : String :=
  "[" ++ " ".intercalate (types.map text) ++ "]"

/-- What is written of a list behind its first type. -/
def restText : List ValType → List Char
  | [] => [']']
  | t :: ts => ' ' :: (t.text.toList ++ restText ts)

theorem listText_nil : (listText []).toList = ['[', ']'] := rfl

theorem listText_cons (t : ValType) (ts : List ValType) :
    (listText (t :: ts)).toList = '[' :: (t.text.toList ++ restText ts) := by
  have hrest : [' '].intercalate (t.text.toList :: ts.map (String.toList ∘ text)) ++ [']'] =
      t.text.toList ++ restText ts := by
    induction ts generalizing t with
    | nil => simp [restText]
    | cons u us ih =>
      rw [List.map_cons, List.intercalate_cons_cons, List.append_assoc, Function.comp_apply, ih]
      simp [restText]
  simpa [listText, String.toList_intercalate] using hrest

theorem allAlike_of_restText {as bs : List ValType} {r s : List Char}
    (h : restText as ++ r = restText bs ++ s) : allAlike as bs = true ∧ r = s := by
  induction as generalizing bs with
  | nil =>
    cases bs with
    | nil => exact ⟨rfl, (List.cons.inj h).2⟩
    | cons b bs => simp [restText] at h
  | cons a as ih =>
    cases bs with
    | nil => simp [restText] at h
    | cons b bs =>
      simp only [restText, List.cons_append, List.append_assoc, List.cons.injEq, true_and] at h
      obtain ⟨hab, ht⟩ := alike_of_text h
      obtain ⟨hs, rfl⟩ := ih ht
      exact ⟨by simp [allAlike, hab, hs], rfl⟩

/-- No type is written with a closing bracket in front. -/
theorem text_ne_bracket (t : ValType) (r s : List Char) : t.text.toList ++ r ≠ ']' :: s := by
  cases t with
  | ref heap => obtain ⟨-, ht⟩ | ⟨-, ht⟩ := text_ref heap <;> rw [ht] <;> simp
  | _ => simp [text]

theorem allAlike_of_listText {as bs : List ValType} {r s : List Char}
    (h : (listText as).toList ++ r = (listText bs).toList ++ s) :
    allAlike as bs = true ∧ r = s := by
  cases as with
  | nil =>
    cases bs with
    | nil => exact ⟨rfl, by simpa [listText_nil] using h⟩
    | cons b bs =>
      simp only [listText_nil, listText_cons, List.cons_append, List.append_assoc,
        List.nil_append, List.cons.injEq, true_and] at h
      exact absurd h.symm (text_ne_bracket _ _ _)
  | cons a as =>
    cases bs with
    | nil =>
      simp only [listText_nil, listText_cons, List.cons_append, List.append_assoc,
        List.nil_append, List.cons.injEq, true_and] at h
      exact absurd h (text_ne_bracket _ _ _)
    | cons b bs =>
      simp only [listText_cons, List.cons_append, List.append_assoc, List.cons.injEq,
        true_and] at h
      obtain ⟨hab, ht⟩ := alike_of_text h
      obtain ⟨hs, rfl⟩ := allAlike_of_restText ht
      exact ⟨by simp [allAlike, hab, hs], rfl⟩

theorem listText_eq_of_allAlike {as bs : List ValType} (h : allAlike as bs = true) :
    listText as = listText bs := by
  have hmap : as.map text = bs.map text := by
    induction as generalizing bs with
    | nil =>
      cases bs with
      | nil => rfl
      | cons b bs => cases h
    | cons a as ih =>
      cases bs with
      | nil => cases h
      | cons b bs =>
        simp only [allAlike, Bool.and_eq_true] at h
        rw [List.map_cons, List.map_cons, text_eq_of_alike h.1, ih h.2]
  rw [listText, listText, hmap]

end ValType

/-! ## Written signatures -/

def signatureText (params results : List ValType) : String :=
  ValType.listText params ++ "->" ++ ValType.listText results

/-- A signature serves a request exactly if both are written alike. -/
theorem TypeDef.isSignature_iff_text {params results ps rs : List ValType} :
    (TypeDef.func ps rs).isSignature params results = true ↔
      signatureText ps rs = signatureText params results := by
  simp only [TypeDef.isSignature, Bool.and_eq_true]
  constructor
  · rintro ⟨hp, hr⟩
    rw [signatureText, signatureText, ValType.listText_eq_of_allAlike hp,
      ValType.listText_eq_of_allAlike hr]
  · intro h
    simp only [signatureText, ← String.toList_inj, String.toList_append, List.append_assoc] at h
    obtain ⟨hp, ht⟩ := ValType.allAlike_of_listText h
    have hr : (ValType.listText rs).toList ++ [] = (ValType.listText results).toList ++ [] := by
      simpa using ht
    exact ⟨hp, (ValType.allAlike_of_listText hr).1⟩

/-- The written signature tells apart signatures whose types have a meaning. -/
theorem signatureText_inj {params results ps rs : List ValType} (hp : Module.Known params)
    (hr : Module.Known results) :
    signatureText ps rs = signatureText params results ↔ ps = params ∧ rs = results := by
  rw [← TypeDef.isSignature_iff_text]
  simp only [TypeDef.isSignature, Bool.and_eq_true]
  constructor
  · rintro ⟨h, h'⟩
    exact ⟨Module.eq_of_allAlike hp h, Module.eq_of_allAlike hr h'⟩
  · rintro ⟨rfl, rfl⟩
    simp

/-! ## Requests -/

inductive TypeRequest where
  | func (params results : List ValType)
  | struct (fields : List Field)
  | array (elem : Field)

/-- Whether a signature that is asked for has only types with a meaning. -/
def TypeRequest.Known : TypeRequest → Prop
  | func params results => Module.Known params ∧ Module.Known results
  | _ => True

namespace Module

/-- The index that answers a request. -/
def request (m : Module) : TypeRequest → Nat × Module
  | .func params results => m.addType params results
  | .struct fields => m.addStruct fields
  | .array elem => m.addArray elem

/-- The indices that answer requests made one after the other. -/
def requests (m : Module) : List TypeRequest → List Nat × Module
  | [] => ([], m)
  | r :: rs =>
    let first := m.request r
    let rest := first.2.requests rs
    (first.1 :: rest.1, rest.2)

theorem requests_append (m : Module) (rs qs : List TypeRequest) :
    m.requests (rs ++ qs) =
      ((m.requests rs).1 ++ ((m.requests rs).2.requests qs).1,
        ((m.requests rs).2.requests qs).2) := by
  induction rs generalizing m with
  | nil => rfl
  | cons r rs ih => simp only [List.cons_append, requests, ih]

/-- A request leaves the type section or appends to it. -/
theorem request_types (m : Module) (r : TypeRequest) :
    (m.request r).2.types = m.types ∨ ∃ d, (m.request r).2.types = m.types.push d := by
  cases r with
  | func params results =>
    simp only [request, addType]
    split
    · exact .inl rfl
    · exact .inr ⟨_, rfl⟩
  | struct fields => exact .inr ⟨_, rfl⟩
  | array elem => exact .inr ⟨_, rfl⟩

theorem request_keeps (m : Module) (r : TypeRequest) {i : Nat} {d : TypeDef}
    (h : m.types[i]? = some d) : (m.request r).2.types[i]? = some d := by
  obtain ht | ⟨e, ht⟩ := m.request_types r
  · rw [ht, h]
  · rw [ht]
    exact getElem?_push_of_some e h

theorem request_find (m : Module) (r : TypeRequest) {p : TypeDef → Bool} {i : Nat}
    (h : m.types.findIdx? p = some i) : (m.request r).2.types.findIdx? p = some i := by
  obtain ht | ⟨e, ht⟩ := m.request_types r
  · rw [ht, h]
  · rw [ht, Array.findIdx?_push, h, Option.some_or]

theorem request_lt (m : Module) (r : TypeRequest) :
    (m.request r).1 < (m.request r).2.types.size := by
  cases r with
  | func params results =>
    simp only [request, addType]
    split
    · rename_i i hi
      exact (Array.findIdx?_eq_some_iff_getElem.mp hi).1
    · simp
  | struct fields => simp [request, addStruct]
  | array elem => simp [request, addArray]

/-- The answer to a request for a signature is the first place where it is found. -/
theorem addType_find (m : Module) (params results : List ValType) :
    (m.addType params results).2.types.findIdx? (TypeDef.isSignature params results) =
      some (m.addType params results).1 := by
  unfold addType
  split
  · assumption
  · rename_i hnone
    rw [Array.findIdx?_push, hnone]
    simp [TypeDef.isSignature]

theorem requests_keeps (m : Module) (rs : List TypeRequest) {i : Nat} {d : TypeDef}
    (h : m.types[i]? = some d) : (m.requests rs).2.types[i]? = some d := by
  induction rs generalizing m with
  | nil => exact h
  | cons r rs ih => exact ih _ (m.request_keeps r h)

theorem requests_keeps_find (m : Module) (rs : List TypeRequest) {p : TypeDef → Bool} {i : Nat}
    (h : m.types.findIdx? p = some i) : (m.requests rs).2.types.findIdx? p = some i := by
  induction rs generalizing m with
  | nil => exact h
  | cons r rs ih => exact ih _ (m.request_find r h)

theorem requests_lt (m : Module) (rs : List TypeRequest) {i : Nat} (hi : i ∈ (m.requests rs).1) :
    ∃ d, (m.requests rs).2.types[i]? = some d := by
  induction rs generalizing m with
  | nil => cases hi
  | cons r rs ih =>
    obtain rfl | hi := List.mem_cons.mp hi
    · exact ⟨_, requests_keeps _ rs (Array.getElem?_eq_getElem (m.request_lt r))⟩
    · exact ih _ hi

/-- The answer to a request for a signature stays the first place where it is found. -/
theorem requests_find (m : Module) {rs : List TypeRequest} {k : Nat}
    {params results : List ValType} (hk : rs[k]? = some (.func params results)) :
    ∃ i, (m.requests rs).1[k]? = some i ∧
      (m.requests rs).2.types.findIdx? (TypeDef.isSignature params results) = some i := by
  induction rs generalizing m k with
  | nil => cases hk
  | cons r rs ih =>
    cases k with
    | zero =>
      obtain rfl : r = .func params results := by simpa using hk
      exact ⟨_, rfl, requests_keeps_find _ rs (m.addType_find params results)⟩
    | succ k => exact ih _ hk

/-- What is found for a signature is written as it is. -/
theorem find_text {m : Module} {params results : List ValType} {i : Nat}
    (h : m.types.findIdx? (TypeDef.isSignature params results) = some i) :
    ∃ ps rs, m.types[i]? = some (.func ps rs) ∧
      signatureText ps rs = signatureText params results := by
  obtain ⟨hlt, hsig, -⟩ := Array.findIdx?_eq_some_iff_getElem.mp h
  rw [Array.getElem?_eq_getElem hlt]
  cases ht : m.types[i] with
  | func ps rs => exact ⟨ps, rs, rfl, TypeDef.isSignature_iff_text.mp (by rwa [ht] at hsig)⟩
  | struct | array =>
    rw [ht] at hsig
    cases hsig

/-- Two signatures are found at one place exactly if they are written alike. -/
theorem find_eq_iff_text {m : Module} {params results params' results' : List ValType}
    {i j : Nat} (hi : m.types.findIdx? (TypeDef.isSignature params results) = some i)
    (hj : m.types.findIdx? (TypeDef.isSignature params' results') = some j) :
    i = j ↔ signatureText params results = signatureText params' results' := by
  constructor
  · rintro rfl
    obtain ⟨ps, rs, hd, ht⟩ := find_text hi
    obtain ⟨ps', rs', hd', ht'⟩ := find_text hj
    obtain ⟨rfl, rfl⟩ : ps = ps' ∧ rs = rs' := by simpa [hd] using hd'
    exact ht.symm.trans ht'
  · intro h
    have hsame : TypeDef.isSignature params results = TypeDef.isSignature params' results' := by
      funext d
      cases d with
      | func ps rs =>
        rw [Bool.eq_iff_iff, TypeDef.isSignature_iff_text, TypeDef.isSignature_iff_text, h]
      | struct | array => rfl
    rw [hsame, hj] at hi
    exact (Option.some.inj hi).symm

/-- Signatures whose types have a meaning are stored as they were asked for. Two requests have one
answer exactly if they ask for equal signatures, which are those that are written alike. No later
request changes what an answer refers to. -/
theorem signatures_shared_iff_equal (m : Module) (rs : List TypeRequest)
    (hk : ∀ r ∈ rs, r.Known) :
    (∀ (k : Nat) (params results : List ValType), rs[k]? = some (.func params results) →
      ∃ i, (m.requests rs).1[k]? = some i ∧
        (m.requests rs).2.types[i]? = some (.func params results)) ∧
    (∀ (j k : Nat) (params results params' results' : List ValType),
      rs[j]? = some (.func params results) → rs[k]? = some (.func params' results') →
      ((m.requests rs).1[j]? = (m.requests rs).1[k]? ↔
          params = params' ∧ results = results') ∧
        (signatureText params results = signatureText params' results' ↔
          params = params' ∧ results = results')) ∧
    (∀ (before after : List TypeRequest) (i : Nat), rs = before ++ after →
      i ∈ (m.requests before).1 →
      ∃ d, (m.requests before).2.types[i]? = some d ∧ (m.requests rs).2.types[i]? = some d) := by
  refine ⟨fun k params results hr => ?_, fun j k params results params' results' hj hk' => ?_,
    fun before after i hrs hi => ?_⟩
  · obtain ⟨hp, hq⟩ : Known params ∧ Known results := hk _ (List.mem_of_getElem? hr)
    obtain ⟨i, hi, hfind⟩ := m.requests_find hr
    obtain ⟨ps, qs, hd, ht⟩ := find_text hfind
    obtain ⟨rfl, rfl⟩ := (signatureText_inj hp hq).mp ht
    exact ⟨i, hi, hd⟩
  · obtain ⟨hp, hq⟩ : Known params' ∧ Known results' := hk _ (List.mem_of_getElem? hk')
    obtain ⟨i, hi, hfind⟩ := m.requests_find hj
    obtain ⟨i', hi', hfind'⟩ := m.requests_find hk'
    have htext : signatureText params results = signatureText params' results' ↔
        params = params' ∧ results = results' := signatureText_inj hp hq
    rw [hi, hi', Option.some_inj, find_eq_iff_text hfind hfind']
    exact ⟨htext, htext⟩
  · obtain ⟨d, hd⟩ := m.requests_lt before hi
    refine ⟨d, hd, ?_⟩
    rw [hrs, requests_append]
    exact requests_keeps _ after hd

/-- Signatures with the same digits in their references, cut at different places. -/
theorem signatures_shared_cut_digits :
    let rs : List TypeRequest := [.func [.ref 1, .ref 12] [], .array ⟨.i8, true⟩,
      .func [.ref 11, .ref 2] [], .func [.ref 1, .ref 12] []]
    (∀ r ∈ rs, r.Known) ∧ (({} : Module).requests rs).1[0]? ≠ (({} : Module).requests rs).1[2]? ∧
      (({} : Module).requests rs).1[0]? = (({} : Module).requests rs).1[3]? := by
  intro rs
  have hk : ∀ r ∈ rs, r.Known := by simp [rs, TypeRequest.Known, Known]
  obtain ⟨-, hshared, -⟩ := signatures_shared_iff_equal {} rs hk
  refine ⟨hk, fun h => ?_, ?_⟩
  · exact absurd ((hshared 0 2 _ _ _ _ rfl rfl).1.mp h) (by decide)
  · exact (hshared 0 3 _ _ _ _ rfl rfl).1.mpr ⟨rfl, rfl⟩

end Module

end HeapScript.Machine
