import H264SendReceiver.Cursor

/-!
# Reading in pieces

`readNBits` clamps its count to what is left, so that a read across the end
delivers the remaining bits with smaller weights. Two reads still make up one
of the joint count, with the weight of the bits that the second one delivers.
-/

namespace H264SendReceiver

open Bits

namespace BitStream

/-- The results of `n` calls of `readOneBit`, one after the other. -/
def oneBits : ℕ → BitStream → List CInt
  | 0, _ => []
  | n + 1, s =>
      let (bit, s) := s.readOneBit.val
      bit :: oneBits n s

/-- The `int` that `readNBits` makes of the results of `readOneBit`. -/
def assemble (wide : CInt → ℕ → CInt) : List CInt → CInt
  | [] => 0
  | bit :: bits => CInt.shl wide bit bits.length ||| assemble wide bits

/-- A read puts together results of `readOneBit`, and none of them is its end
sentinel. -/
def SentinelFree (wide : CInt → ℕ → CInt) (s : BitStream) (count : ℕ) : Prop :=
  (s.readNBits wide count).val.1 = assemble wide (oneBits (min count s.getRemainBitSize) s) ∧
    -1 ∉ oneBits (min count s.getRemainBitSize) s

theorem length_oneBits (n : ℕ) : ∀ s : BitStream, (oneBits n s).length = n := by
  induction n with
  | zero => intro s; rfl
  | succ n ih => intro s; exact congrArg (· + 1) (ih s.readOneBit.val.2)

theorem readNBitsLoop_assemble (wide : CInt → ℕ → CInt) (left : ℕ) :
    ∀ (ret : CInt) (s : BitStream),
      (readNBitsLoop wide left ret s).val.1 = ret ||| assemble wide (oneBits left s) := by
  induction left with
  | zero => intro ret s; exact BitVec.or_zero.symm
  | succ left ih =>
      intro ret s
      simp only [readNBitsLoop, Traced.val_bind, ih, oneBits, assemble, length_oneBits,
        BitVec.or_assoc]

theorem sentinel_notMem_oneBits {s : BitStream} (n : ℕ) :
    ∀ i, i + n ≤ 8 * s.buffer.length → -1 ∉ oneBits n (s.seek i) := by
  induction n with
  | zero => intro i _; exact List.not_mem_nil
  | succ n ih =>
      intro i hi
      obtain ⟨b, hb⟩ := exists_getElem?_bits (s := s) (i := i) (by omega)
      rw [oneBits, readOneBit_seek hb, List.mem_cons, not_or]
      refine ⟨?_, ih (i + 1) (by omega)⟩
      cases b <;> decide

theorem sentinelFree_seek (wide : CInt → ℕ → CInt) {s : BitStream} {i : ℕ}
    (hi : i ≤ 8 * s.buffer.length) (count : ℕ) : SentinelFree wide (s.seek i) count := by
  constructor
  · rw [readNBits, Nat.min_def]
    exact (readNBitsLoop_assemble wide _ 0 (s.seek i)).trans BitVec.zero_or
  · rw [getRemainBitSize_seek hi]
    exact sentinel_notMem_oneBits _ i (by omega)

theorem toNat_readNBits (wide : CInt → ℕ → CInt) {s : BitStream} {i count : ℕ}
    (hi : i ≤ 8 * s.buffer.length) (h32 : min count (8 * s.buffer.length - i) ≤ 32) :
    ((s.seek i).readNBits wide count).val.1.toNat = value ((s.bits.drop i).take count) := by
  have hlt := value_lt ((s.bits.drop i).take count)
  rw [List.length_take, List.length_drop, length_bits] at hlt
  have hpow : 2 ^ min count (8 * s.buffer.length - i) ≤ 2 ^ 32 :=
    Nat.pow_le_pow_right (by omega) h32
  rw [readNBits_value wide hi h32, BitVec.toNat_ofNat, Nat.mod_eq_of_lt (hlt.trans_le hpow)]

theorem readNBits_add (wide : CInt → ℕ → CInt) {s : BitStream} {i a b : ℕ}
    (hi : i ≤ 8 * s.buffer.length) (h32 : min (a + b) (8 * s.buffer.length - i) ≤ 32) :
    let rem := 8 * s.buffer.length - i
    let first := ((s.seek i).readNBits wide a).val
    let second := (first.2.readNBits wide b).val
    let whole := ((s.seek i).readNBits wide (a + b)).val
    second.2 = whole.2 ∧
      whole.1.toNat =
        first.1.toNat * 2 ^ (min (a + b) rem - min a rem) + second.1.toNat := by
  intro rem first second whole
  have hmid : i + min a rem ≤ 8 * s.buffer.length := by omega
  have hfirst : first.2 = s.seek (i + min a rem) := (readNBits_cursor wide a hi).1
  have hsecond : second = ((s.seek (i + min a rem)).readNBits wide b).val := by
    rw [← hfirst]
  constructor
  · rw [hsecond, (readNBits_cursor wide b hmid).1, (readNBits_cursor wide (a + b) hi).1]
    congr 1
    omega
  · -- the bits of the second read follow those of the first
    have hrest : (s.bits.drop (i + min a rem)).take b = ((s.bits.drop i).drop a).take b := by
      rw [List.drop_drop]
      by_cases ha : a ≤ rem
      · rw [Nat.min_eq_left ha]
      · rw [List.drop_eq_nil_of_le (by rw [length_bits]; omega),
          List.drop_eq_nil_of_le (by rw [length_bits]; omega)]
    have hlen : (((s.bits.drop i).drop a).take b).length = min (a + b) rem - min a rem := by
      rw [List.length_take, List.length_drop, List.length_drop, length_bits]
      omega
    rw [hsecond, toNat_readNBits wide hi h32, toNat_readNBits wide hi (by omega),
      toNat_readNBits wide hmid (by omega), hrest, List.take_add, value_append, hlen]

end BitStream

namespace ReadCall

open BitStream

/-- Wherever the cursor stands, and also across the end, two reads leave the
cursor and deliver the number of one read of the joint count. -/
theorem readNBits_compose (wide : CInt → ℕ → CInt) (buffer : List UInt8)
    (hsize : buffer.length < 2 ^ 28) (cs : List ReadCall) (a b : ℕ) (hab : a + b < 2 ^ 64) :
    let s := (run wide cs (ofBuffer buffer (fits_of_lt hsize))).val
    let rem := s.getRemainBitSize
    let first := (s.readNBits wide a).val
    let second := (first.2.readNBits wide b).val
    let whole := (s.readNBits wide (SizeT.add a b)).val
    min (SizeT.add a b) rem ≤ 32 →
      second.2 = whole.2 ∧
      whole.1.toNat = first.1.toNat * 2 ^ (min (SizeT.add a b) rem - min a rem) +
        second.1.toNat ∧
      SentinelFree wide s a ∧ SentinelFree wide first.2 b ∧
        SentinelFree wide s (SizeT.add a b) := by
  obtain ⟨i, hi, hrun⟩ := run_ofBuffer wide (fits_of_lt hsize) cs
  obtain ⟨s, hs⟩ : ∃ s, s = ofBuffer buffer (fits_of_lt hsize) := ⟨_, rfl⟩
  have hlen : s.buffer = buffer := by rw [hs]; rfl
  rw [← hlen] at hi
  rw [← hs] at hrun
  simp only [← hs, hrun, SizeT.add_eq hab, getRemainBitSize_seek hi]
  intro h32
  obtain ⟨hcursor, hvalue⟩ := readNBits_add wide hi h32
  refine ⟨hcursor, hvalue, sentinelFree_seek wide hi a, ?_, sentinelFree_seek wide hi (a + b)⟩
  rw [(readNBits_cursor wide a hi).1]
  exact sentinelFree_seek wide (by omega) b

theorem readNBits_compose_short :
    let s := (run (fun _ _ ↦ 0) [.readNBits 5] (ofBuffer [0x67, 0x42] (by decide))).val
    let rem := s.getRemainBitSize
    let first := (s.readNBits (fun _ _ ↦ 0) 7).val
    let second := (first.2.readNBits (fun _ _ ↦ 0) 9).val
    let whole := (s.readNBits (fun _ _ ↦ 0) (SizeT.add 7 9)).val
    second.2 = whole.2 ∧
      whole.1.toNat = first.1.toNat * 2 ^ (min (SizeT.add 7 9) rem - min 7 rem) +
        second.1.toNat ∧
      SentinelFree (fun _ _ ↦ 0) s 7 ∧ SentinelFree (fun _ _ ↦ 0) first.2 9 ∧
        SentinelFree (fun _ _ ↦ 0) s (SizeT.add 7 9) :=
  readNBits_compose (fun _ _ ↦ 0) [0x67, 0x42] (by decide) [.readNBits 5] 7 9 (by decide)
    (by decide +kernel)

end ReadCall

end H264SendReceiver
