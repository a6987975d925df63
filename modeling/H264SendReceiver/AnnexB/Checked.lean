import H264SendReceiver.AnnexB.NaluStream

/-!
# The decoders with checked arithmetic

The same functions once more, with every operation on an `int` that the
language may leave undefined replaced by its checked form: a result means that
no such operation was undefined. The decoders of `NaluStream` agree with it,
whatever they yield elsewhere.
-/

namespace H264SendReceiver

open BitStream

namespace BitStream

/-- The loop of `readNBits` from the index `idx` on, for `left` more rounds. -/
def readNBitsLoop? : ℕ → ℕ → CInt → BitStream → Option (CInt × BitStream)
  | 0, _, ret, s => some (ret, s)
  | left + 1, idx, ret, s => do
      let (bit, s) := s.readOneBit.val
      let shifted ← CInt.shl? bit left
      if idx + 1 < 2 ^ 31 then readNBitsLoop? left (idx + 1) (ret ||| shifted) s else none

def readNBits? (s : BitStream) (count : ℕ) : Option (CInt × BitStream) :=
  let remainBites := s.getRemainBitSize
  let count := if count ≤ remainBites then count else remainBites
  readNBitsLoop? count 1 0 s

/-- Up to 32 bits are put together by defined operations. -/
theorem readNBitsLoop?_eq (wide : CInt → ℕ → CInt) {s : BitStream} (left : ℕ) (h32 : left ≤ 32) :
    ∀ (i idx : ℕ) (ret : CInt), i + left ≤ 8 * s.buffer.length → idx + left < 2 ^ 31 →
      readNBitsLoop? left idx ret (s.seek i) =
        some (readNBitsLoop wide left ret (s.seek i)).val := by
  induction left with
  | zero => intro i idx ret _ _; rfl
  | succ left ih =>
      intro i idx ret hle hidx
      obtain ⟨b, hb⟩ := exists_getElem?_bits (s := s) (i := i) (by omega)
      have hrest := ih (by omega) (i + 1) (idx + 1)
        (ret ||| CInt.shl wide (BitVec.ofNat 32 b.toNat) left) (by omega) (by omega)
      rw [readNBitsLoop_succ wide hb, ← hrest, CInt.shl_of_lt (by omega)]
      simp only [readNBitsLoop?, readOneBit_seek hb, CInt.shl?_bit b (show left < 32 by omega),
        Option.bind_eq_bind, Option.bind_some]
      exact if_pos (by omega)

theorem readNBits?_eq (wide : CInt → ℕ → CInt) {s : BitStream} {i count : ℕ}
    (hi : i ≤ 8 * s.buffer.length) (hcount : count ≤ 32) :
    (s.seek i).readNBits? count = some ((s.seek i).readNBits wide count).val := by
  rw [readNBits?, readNBits]
  simp only [clamp_getRemainBitSize hi]
  exact readNBitsLoop?_eq wide _ (by omega) i 1 0 (by omega) (by omega)

end BitStream

namespace NaluStream

def readUev? (s : NaluStream) : Option (CInt × NaluStream) := do
  let (zeroPosCount, s) := (readZeros 33 0 s).val
  let (ret, s) ← s.readNBits? zeroPosCount
  let ret := ret ||| (← CInt.shl? 1 zeroPosCount)
  return (← CInt.sub? ret 1, s)

def readSev? (s : NaluStream) : Option (CInt × NaluStream) := do
  let (zeroPosCount, s) := (readZeros 33 0 s).val
  let (ret, s) ← s.readNBits? zeroPosCount
  let ret := ret ||| (← CInt.shl? 1 zeroPosCount)
  let sign := ret &&& 0x01
  let ret := ret.sshiftRight 1
  if sign = 0 then return (ret, s) else return (← CInt.neg? ret, s)

def readCodeNum? (s : NaluStream) : Option (CInt × NaluStream) := do
  let (zeroPosCount, s) := (readZeros 33 0 s).val
  let (ret, s) ← s.readNBits? zeroPosCount
  return (ret ||| (← CInt.shl? 1 zeroPosCount), s)

theorem readUev?_eq (s : NaluStream) :
    readUev? s = (readCodeNum? s).bind fun x ↦ (CInt.sub? x.1 1).map fun ret ↦ (ret, x.2) := by
  simp only [readUev?, readCodeNum?, Option.pure_def, Option.bind_eq_bind]
  cases (readZeros 33 0 s).val.2.readNBits? (readZeros 33 0 s).val.1 with
  | none => rfl
  | some x =>
      cases CInt.shl? 1 (readZeros 33 0 s).val.1 with
      | none => rfl
      | some m =>
          simp only [Option.bind_some]
          cases CInt.sub? (x.1 ||| m) 1 <;> rfl

theorem readSev?_eq (s : NaluStream) :
    readSev? s = (readCodeNum? s).bind fun x ↦
      if x.1 &&& 0x01 = 0 then some (x.1.sshiftRight 1, x.2)
      else (CInt.neg? (x.1.sshiftRight 1)).map fun ret ↦ (ret, x.2) := by
  simp only [readSev?, readCodeNum?, Option.pure_def, Option.bind_eq_bind]
  cases (readZeros 33 0 s).val.2.readNBits? (readZeros 33 0 s).val.1 with
  | none => rfl
  | some x =>
      cases CInt.shl? 1 (readZeros 33 0 s).val.1 with
      | none => rfl
      | some m =>
          simp only [Option.bind_some]
          cases CInt.neg? ((x.1 ||| m).sshiftRight 1) <;> rfl

/-- The number is assembled by defined operations unless 32 zero bits have been
counted: `1 << 32` is not defined. -/
theorem readCodeNum?_seek (wide : CInt → ℕ → CInt) {s : NaluStream} {i : ℕ}
    (hi : i ≤ 8 * s.buffer.length) :
    readCodeNum? (s.seek i) =
      if zeroCount 32 (s.bits.drop i) < 32 then some (readCodeNum wide (s.seek i)).val
      else none := by
  have hzeros := readZeros_seek hi
  have hcap := zeroCount_le 32 (s.bits.drop i)
  generalize zeroCount 32 (s.bits.drop i) = z at hzeros hcap ⊢
  have hbits := readNBits?_eq wide
    (show i + min (z + 1) (8 * s.buffer.length - i) ≤ 8 * s.buffer.length by omega) hcap
  simp only [readCodeNum?, readCodeNum, hzeros, hbits, Option.pure_def, Option.bind_eq_bind,
    Option.bind_some, Traced.val_bind, Traced.val_pure]
  by_cases hz : z < 32
  · have hone : CInt.shl? 1 z = some (1 <<< z) := CInt.shl?_bit true hz
    rw [if_pos hz, hone, CInt.shl_of_lt hz]
    rfl
  · rw [if_neg hz, CInt.shl?_eq_none (by omega)]
    rfl

/-- Where the checked decoders have a result it is that of the decoders. -/
theorem readUev?_seek (wide : CInt → ℕ → CInt) {s : NaluStream} {i : ℕ}
    (hi : i ≤ 8 * s.buffer.length) :
    readUev? (s.seek i) =
      if zeroCount 32 (s.bits.drop i) < 32 ∧
          (readCodeNum wide (s.seek i)).val.1 ≠ BitVec.intMin 32 then
        some (readUev wide (s.seek i)).val
      else none := by
  rw [readUev?_eq, readCodeNum?_seek wide hi]
  by_cases hz : zeroCount 32 (s.bits.drop i) < 32
  · rw [if_pos hz, Option.bind_some, CInt.sub?_one]
    by_cases hlow : (readCodeNum wide (s.seek i)).val.1 = BitVec.intMin 32
    · rw [if_pos hlow, if_neg fun h ↦ h.2 hlow]
      rfl
    · rw [if_neg hlow, if_pos ⟨hz, hlow⟩, readUev_eq]
      rfl
  · rw [if_neg hz, if_neg fun h ↦ hz h.1]
    rfl

theorem sshiftRight_one_ne (x : CInt) : x.sshiftRight 1 ≠ BitVec.intMin 32 := by
  have hrange := CInt.toInt_range x
  rw [CInt.ne_intMin_iff, BitVec.toInt_sshiftRight, Int.shiftRight_eq_div_pow]
  omega

theorem readSev?_seek (wide : CInt → ℕ → CInt) {s : NaluStream} {i : ℕ}
    (hi : i ≤ 8 * s.buffer.length) :
    readSev? (s.seek i) =
      if zeroCount 32 (s.bits.drop i) < 32 then some (readSev wide (s.seek i)).val else none := by
  rw [readSev?_eq, readCodeNum?_seek wide hi]
  split
  · rw [Option.bind_some, CInt.neg?_of_ne (sshiftRight_one_ne _), Option.map_some, readSev_eq,
      signedOf]
    split <;> rfl
  · rfl

end NaluStream

end H264SendReceiver
