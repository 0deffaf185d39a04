import HeapScript.Execution.Decode
import HeapScript.Proofs.Library.Keys

/-!
# Records read back

Decoding the record of a value without parts gives that value.
-/

namespace HeapScript.Execution

open Machine Library

theorem bytes?_byteVals (bs : Bytes) : Heap.bytes? (byteVals bs) = some bs := by
  have h (b : UInt8) : b.toUInt32.toInt32.toUInt32.toUInt8 = b := by simp
  have hall : ∀ cs : Bytes, (cs.map fun b => Val.i32 b.toUInt32.toInt32).mapM Heap.byte? = some cs := by
    intro cs
    induction cs with
    | nil => rfl
    | cons c cs ih =>
      rw [List.map_cons, List.mapM_cons, ih]
      simp only [Heap.byte?, h]
      rfl
  simpa [Heap.bytes?, byteVals] using hall bs

theorem value_record {h : Heap} {a : Nat} {t : Tag} {i : Int64} {f : Float} {s r : Val}
    (ha : h[a]? = some (valueCell t i f s r)) (depth : Nat) :
    Decode.value h (depth + 1) (.ref a) =
      Decode.record h (Decode.value h depth) a #[.i32 t.code, .i64 i, .f64 f, s, r] := by
  simp only [Decode.value, Heap.struct?, Heap.typeOf, ha, valueCell, Option.map_some, Cell.type,
    Option.getD_some, if_true]

/-- The record of a value without parts reads back as that value, at every depth. -/
theorem Boxed.value_eq {h : Heap} {v : Val} {x : Value} (hv : Boxed h v x) (hx : HasKey x)
    (depth : Nat) : Decode.value h (depth + 1) v = .ok x := by
  cases hv with
  | null ha | int ha | float ha =>
    rw [value_record ha]
    rfl
  | @bool _ b ha =>
    rw [value_record ha]
    cases b <;> rfl
  | @str a s bs ha hs hl =>
    obtain ⟨b, rfl, hb⟩ := hs
    have hbytes : Decode.bytes h (.ref b) = .ok bs := by
      simp only [Decode.bytes, Heap.array?, hb, bytes?_byteVals]
      rfl
    rw [value_record ha]
    have hrec : Decode.record h (Decode.value h depth) a
        #[.i32 Tag.string.code, .i64 0, .f64 0, .ref b, .null] =
          (do return .str (← Decode.bytes h (.ref b))) := rfl
    rw [hrec, hbytes]
    rfl
  | array | object => exact hx.elim

theorem Boxed.decode_eq {h : Heap} {v : Val} {x : Value} (hv : Boxed h v x) (hx : HasKey x) :
    decode h v = .ok x :=
  Boxed.value_eq hv hx h.size

end HeapScript.Execution
