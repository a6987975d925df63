import H264SendReceiver.Common.BitStream
import H264SendReceiver.Library.ExpGolomb

/-!
# The Exp-Golomb decoders

`AnnexB::NaluStream` adds the two Exp-Golomb readers to the bit stream. Both
count zero bits in a loop whose condition reads the stream, then read as many
bits as they counted and put a one bit in front of them.
-/

namespace H264SendReceiver

open Bits BitStream ExpGolomb

abbrev NaluStream := BitStream

namespace NaluStream

/-- The loop that counts zero bits. When its condition fails the bit that
ended it has been read already. The count grows in every round and stops at
32, so that `33` rounds are never exhausted. -/
def readZeros : ℕ → ℕ → NaluStream → Traced BitRead (ℕ × NaluStream)
  | 0, zeroPosCount, s => pure (zeroPosCount, s)
  | rounds + 1, zeroPosCount, s => do
      let (bit, s) ← s.readOneBit
      if bit = 0 ∧ !s.isEnd ∧ zeroPosCount < 32 then readZeros rounds (zeroPosCount + 1) s
      else pure (zeroPosCount, s)

def readUev (wide : CInt → ℕ → CInt) (s : NaluStream) : Traced BitRead (CInt × NaluStream) := do
  let (zeroPosCount, s) ← readZeros 33 0 s
  let (ret, s) ← s.readNBits wide zeroPosCount
  let ret := ret ||| CInt.shl wide 1 zeroPosCount
  pure (ret - 1, s)

def readSev (wide : CInt → ℕ → CInt) (s : NaluStream) : Traced BitRead (CInt × NaluStream) := do
  let (zeroPosCount, s) ← readZeros 33 0 s
  let (ret, s) ← s.readNBits wide zeroPosCount
  let ret := ret ||| CInt.shl wide 1 zeroPosCount
  let sign := ret &&& 0x01
  let ret := ret.sshiftRight 1
  pure (if sign = 0 then ret else -ret, s)

/-- The number both decoders assemble before they interpret it. -/
def readCodeNum (wide : CInt → ℕ → CInt) (s : NaluStream) :
    Traced BitRead (CInt × NaluStream) := do
  let (zeroPosCount, s) ← readZeros 33 0 s
  let (ret, s) ← s.readNBits wide zeroPosCount
  pure (ret ||| CInt.shl wide 1 zeroPosCount, s)

def signedOf (ret : CInt) : CInt :=
  if ret &&& 0x01 = 0 then ret.sshiftRight 1 else -ret.sshiftRight 1

theorem readUev_eq (wide : CInt → ℕ → CInt) (s : NaluStream) :
    readUev wide s =
      ⟨((readCodeNum wide s).val.1 - 1, (readCodeNum wide s).val.2),
        (readCodeNum wide s).log⟩ := by
  unfold readUev readCodeNum
  rfl

theorem readSev_eq (wide : CInt → ℕ → CInt) (s : NaluStream) :
    readSev wide s =
      ⟨(signedOf (readCodeNum wide s).val.1, (readCodeNum wide s).val.2),
        (readCodeNum wide s).log⟩ := by
  unfold readSev readCodeNum
  rfl

/-! ## What the zero count consumes -/

theorem readZeros_succ {s : NaluStream} {i : ℕ} {b : Bool} (hb : s.bits[i]? = some b)
    (rounds z : ℕ) :
    readZeros (rounds + 1) z (s.seek i) =
      if b = false ∧ i + 1 < 8 * s.buffer.length ∧ z < 32 then
        ⟨(readZeros rounds (z + 1) (s.seek (i + 1))).val,
          readsFrom i 1 ++ (readZeros rounds (z + 1) (s.seek (i + 1))).log⟩
      else ⟨(z, s.seek (i + 1)), readsFrom i 1⟩ := by
  have hi : i < 8 * s.buffer.length := by
    rw [← length_bits]
    exact (List.getElem?_eq_some_iff.mp hb).1
  have hbit : BitVec.ofNat 32 b.toNat = (0 : CInt) ↔ b = false := by cases b <;> decide
  have hend : (!(s.seek (i + 1)).isEnd) = true ↔ i + 1 < 8 * s.buffer.length := by
    rw [isEnd_seek hi, Bool.not_eq_true', decide_eq_false_iff_not]
    omega
  rw [readZeros, readOneBit_seek hb]
  change Traced.mk _ _ = _
  simp only [hbit, hend]
  split <;> rfl

/-- The zero bits the loop counts, `cap` at most: those in front of the first
one bit, or those in front of the last bit. -/
def zeroCount (cap : ℕ) (u : List Bool) : ℕ := min (min (leadingZeros u) (u.length - 1)) cap

theorem zeroCount_le (cap : ℕ) (u : List Bool) : zeroCount cap u ≤ cap := Nat.min_le_right _ _

theorem zeroCount_false {cap : ℕ} {u : List Bool} (hu : 0 < u.length) :
    zeroCount (cap + 1) (false :: u) = zeroCount cap u + 1 := by
  simp only [zeroCount, leadingZeros_false, List.length_cons]
  omega

theorem readZeros_eq {s : NaluStream} (rounds : ℕ) :
    ∀ (i z : ℕ), i ≤ 8 * s.buffer.length → z ≤ 32 → 32 < rounds + z →
      readZeros rounds z (s.seek i) =
        ⟨(z + zeroCount (32 - z) (s.bits.drop i),
            s.seek (i + min (zeroCount (32 - z) (s.bits.drop i) + 1) (8 * s.buffer.length - i))),
          readsFrom i
            (min (zeroCount (32 - z) (s.bits.drop i) + 1) (8 * s.buffer.length - i))⟩ := by
  induction rounds with
  | zero => intro i z hi hz hrounds; omega
  | succ rounds ih =>
      intro i z hi hz hrounds
      by_cases hlt : i < 8 * s.buffer.length
      · have hlen : i < s.bits.length := by rwa [length_bits]
        obtain ⟨b, hb⟩ := exists_getElem?_bits hlt
        obtain ⟨_, hget⟩ := List.getElem?_eq_some_iff.mp hb
        have hrest : (s.bits.drop (i + 1)).length = 8 * s.buffer.length - (i + 1) := by
          rw [List.length_drop, length_bits]
        rw [readZeros_succ hb, List.drop_eq_getElem_cons hlen, hget]
        split
        · -- one more zero bit counted
          rename_i hgo
          obtain ⟨rfl, hmore, hcap⟩ := hgo
          have hstep : zeroCount (32 - (z + 1) + 1) (false :: s.bits.drop (i + 1)) = _ :=
            zeroCount_false (by omega)
          rw [show 32 - (z + 1) + 1 = 32 - z by omega] at hstep
          rw [ih (i + 1) (z + 1) hmore.le (by omega) (by omega), hstep, readsFrom_append]
          generalize zeroCount (32 - (z + 1)) (s.bits.drop (i + 1)) = c
          rw [show 1 + min (c + 1) (8 * s.buffer.length - (i + 1)) =
              min (c + 1 + 1) (8 * s.buffer.length - i) by omega,
            show i + 1 + min (c + 1) (8 * s.buffer.length - (i + 1)) =
              i + min (c + 1 + 1) (8 * s.buffer.length - i) by omega,
            show z + 1 + c = z + (c + 1) by omega]
        · -- a one bit, the last bit or the cap ends the loop
          rename_i hstop
          have hzero : zeroCount (32 - z) (b :: s.bits.drop (i + 1)) = 0 := by
            cases b with
            | true => simp [zeroCount]
            | false =>
                simp only [true_and, not_and, not_lt] at hstop
                simp only [zeroCount, List.length_cons]
                omega
          rw [hzero, show min (0 + 1) (8 * s.buffer.length - i) = 1 by omega]
          rfl
      · have hend : i = 8 * s.buffer.length := by omega
        have hnil : s.bits.drop i = [] := List.drop_eq_nil_of_le (by rw [length_bits]; omega)
        have hzero : zeroCount (32 - z) [] = 0 := by simp [zeroCount]
        rw [readZeros, readOneBit_seek_end hend, hnil, hzero,
          show min (0 + 1) (8 * s.buffer.length - i) = 0 by omega]
        rfl

theorem readZeros_seek {s : NaluStream} {i : ℕ} (hi : i ≤ 8 * s.buffer.length) :
    readZeros 33 0 (s.seek i) =
      ⟨(zeroCount 32 (s.bits.drop i),
          s.seek (i + min (zeroCount 32 (s.bits.drop i) + 1) (8 * s.buffer.length - i))),
        readsFrom i (min (zeroCount 32 (s.bits.drop i) + 1) (8 * s.buffer.length - i))⟩ := by
  have hzeros := readZeros_eq 33 i 0 hi (by omega) (by omega)
  rwa [Nat.zero_add, Nat.sub_zero] at hzeros

/-! ## The assembled number -/

/-- Whatever lies behind the cursor, a decoder reads the zero bits it counts,
the bit behind them and as many more, as far as there are any. -/
theorem readCodeNum_cursor (wide : CInt → ℕ → CInt) {s : NaluStream} {i : ℕ}
    (hi : i ≤ 8 * s.buffer.length) :
    (readCodeNum wide (s.seek i)).val.2 =
        s.seek (i + min (2 * zeroCount 32 (s.bits.drop i) + 1) (8 * s.buffer.length - i)) ∧
      (readCodeNum wide (s.seek i)).log =
        readsFrom i
          (min (2 * zeroCount 32 (s.bits.drop i) + 1) (8 * s.buffer.length - i)) := by
  have hzeros := readZeros_seek hi
  generalize zeroCount 32 (s.bits.drop i) = z at hzeros ⊢
  obtain ⟨hcursor, hlog⟩ := readNBits_cursor wide z
    (show i + min (z + 1) (8 * s.buffer.length - i) ≤ 8 * s.buffer.length by omega)
  have htotal : min (z + 1) (8 * s.buffer.length - i) +
      min z (8 * s.buffer.length - (i + min (z + 1) (8 * s.buffer.length - i))) =
        min (2 * z + 1) (8 * s.buffer.length - i) := by omega
  simp only [readCodeNum, Traced.val_bind, Traced.log_bind, Traced.val_pure, Traced.log_pure,
    hzeros, hcursor, hlog, List.append_nil]
  rw [readsFrom_append, Nat.add_assoc, htotal]
  exact ⟨rfl, rfl⟩

/-- The bits behind the marker bit, as far as there are any. -/
def suffixBits (u : List Bool) : List Bool := (u.drop (zeroCount 32 u + 1)).take (zeroCount 32 u)

theorem value_suffixBits_lt (u : List Bool) : value (suffixBits u) < 2 ^ zeroCount 32 u :=
  (value_lt _).trans_le
    (Nat.pow_le_pow_right (by omega) ((List.length_take_le _ _)))

theorem readCodeNum_value (wide : CInt → ℕ → CInt) {s : NaluStream} {i : ℕ}
    (hi : i ≤ 8 * s.buffer.length) :
    (readCodeNum wide (s.seek i)).val.1 =
      BitVec.ofNat 32 (value (suffixBits (s.bits.drop i))) |||
        CInt.shl wide 1 (zeroCount 32 (s.bits.drop i)) := by
  have hzeros := readZeros_seek hi
  have hcap := zeroCount_le 32 (s.bits.drop i)
  have hsuffix : suffixBits (s.bits.drop i) = (s.bits.drop (i +
      min (zeroCount 32 (s.bits.drop i) + 1) (8 * s.buffer.length - i))).take
        (zeroCount 32 (s.bits.drop i)) := by
    rw [suffixBits, List.drop_drop]
    generalize zeroCount 32 (s.bits.drop i) = z
    by_cases hz : z + 1 ≤ 8 * s.buffer.length - i
    · rw [Nat.min_eq_left hz]
    · rw [List.drop_eq_nil_of_le (by rw [length_bits]; omega),
        List.drop_eq_nil_of_le (by rw [length_bits]; omega)]
  rw [hsuffix]
  generalize zeroCount 32 (s.bits.drop i) = z at hzeros hcap ⊢
  have hmarker : i + min (z + 1) (8 * s.buffer.length - i) ≤ 8 * s.buffer.length := by omega
  have hvalue := readNBits_value wide hmarker ((Nat.min_le_left z _).trans hcap)
  simp only [readCodeNum, Traced.val_bind, Traced.val_pure, hzeros, hvalue]

theorem or_marker (wide : CInt → ℕ → CInt) {m k : ℕ} (hk : k < 32) (hm : m < 2 ^ k) :
    BitVec.ofNat 32 m ||| CInt.shl wide 1 k = BitVec.ofNat 32 (m + 2 ^ k) := by
  have hor : m + 2 ^ k = m ||| 2 ^ k := by
    rw [Nat.add_comm, Nat.or_comm, ← Nat.mul_one (2 ^ k), Nat.two_pow_add_eq_or_of_lt hm]
  rw [CInt.shl_of_lt hk, hor, BitVec.ofNat_or]
  congr 1
  apply BitVec.eq_of_toNat_eq
  rw [BitVec.toNat_shiftLeft, BitVec.toNat_ofNat, Nat.shiftLeft_eq]
  change 1 * 2 ^ k % _ = _
  rw [Nat.one_mul]

theorem readCodeNum_value_of_lt (wide : CInt → ℕ → CInt) {s : NaluStream} {i : ℕ}
    (hi : i ≤ 8 * s.buffer.length) (hz : zeroCount 32 (s.bits.drop i) < 32) :
    (readCodeNum wide (s.seek i)).val.1 =
      BitVec.ofNat 32
        (value (suffixBits (s.bits.drop i)) + 2 ^ zeroCount 32 (s.bits.drop i)) := by
  rw [readCodeNum_value wide hi, or_marker wide hz (value_suffixBits_lt _)]

theorem zeroCount_ueCode {v : ℕ} (hv : v + 1 < 2 ^ 32) (rest : List Bool) :
    zeroCount 32 (ueCode v ++ rest) = (v + 1).log2 := by
  have hk : (v + 1).log2 < 32 := (Nat.log2_lt (by omega)).mpr hv
  rw [zeroCount, leadingZeros_ueCode, List.length_append, length_ueCode]
  omega

theorem suffixBits_ueCode {v : ℕ} (hv : v + 1 < 2 ^ 32) (rest : List Bool) :
    suffixBits (ueCode v ++ rest) = digits (v + 1).log2 (v + 1) := by
  rw [suffixBits, zeroCount_ueCode hv, ueCode_eq, List.append_assoc, List.cons_append,
    List.append_cons, List.drop_left' (by simp), List.take_left' (length_digits _ _)]

theorem readCodeNum_codeword (wide : CInt → ℕ → CInt) {s : NaluStream} {i v : ℕ}
    {rest : List Bool} (hv : v + 1 < 2 ^ 32) (hbits : s.bits.drop i = ueCode v ++ rest) :
    (readCodeNum wide (s.seek i)).val =
      (BitVec.ofNat 32 (v + 1), s.seek (i + (ueCode v).length)) := by
  have hlen := congrArg List.length hbits
  rw [List.length_drop, length_bits, List.length_append, length_ueCode] at hlen
  have hi : i ≤ 8 * s.buffer.length := by omega
  have hzeros := zeroCount_ueCode hv rest
  have hlog : (v + 1).log2 < 32 := (Nat.log2_lt (by omega)).mpr hv
  have hall : min (2 * (v + 1).log2 + 1) (8 * s.buffer.length - i) = 2 * (v + 1).log2 + 1 := by
    omega
  refine Prod.ext ?_ ?_
  · rw [readCodeNum_value_of_lt wide hi (by rwa [hbits, hzeros]), hbits, hzeros,
      suffixBits_ueCode hv, value_suffix]
  · rw [(readCodeNum_cursor wide hi).1, hbits, hzeros, length_ueCode, hall]

end NaluStream

end H264SendReceiver
