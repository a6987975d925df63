import H264SendReceiver.Cursor

/-!
# Values without a codeword

`readUev` returns a value for every stream. Its loop takes the end sentinel of
`readOneBit` for a marker bit and gives up after 32 zero bits, and the digits
that are missing at the end of the buffer are left out. Only in front of a
whole codeword is the value the one that was written.
-/

namespace H264SendReceiver

open Bits BitStream ExpGolomb

namespace NaluStream

/-- A value other than the highest is reported only when the bits read are its
codeword. -/
def NoFalseDecode (s : NaluStream) (r : Traced BitRead (CInt × NaluStream)) : Prop :=
  r.val.1.toNat ≤ 2 ^ 32 - 2 → s.bitsRead r.log = ueCode r.val.1.toNat

theorem bitsRead_readUev (wide : CInt → ℕ → CInt) {s : NaluStream} {i : ℕ}
    (hi : i ≤ 8 * s.buffer.length) :
    (s.seek i).bitsRead (readUev wide (s.seek i)).log =
      (s.bits.drop i).take (2 * zeroCount 32 (s.bits.drop i) + 1) := by
  have hlen : (s.bits.drop i).length = 8 * s.buffer.length - i := by
    rw [List.length_drop, length_bits]
  rw [readUev_eq, (readCodeNum_cursor wide hi).2]
  change s.bitsRead _ = _
  rw [bitsRead_readsFrom s _ i (by omega), ← hlen, ← List.take_eq_take_min]

/-- The marker bit makes the assembled number positive; where its shift is
undefined, let it yield one. -/
theorem readCodeNum_ne_zero {s : NaluStream} {i : ℕ} (hi : i ≤ 8 * s.buffer.length) :
    (readCodeNum (fun _ _ ↦ 1) (s.seek i)).val.1 ≠ 0 := by
  have hmarker : CInt.shl (fun _ _ ↦ 1) 1 (zeroCount 32 (s.bits.drop i)) ≠ 0 := by
    by_cases hz : zeroCount 32 (s.bits.drop i) < 32
    · have hpow : 2 ^ zeroCount 32 (s.bits.drop i) < 2 ^ 32 :=
        Nat.pow_lt_pow_right (by omega) hz
      have hone : (1 : CInt).toNat = 1 := rfl
      rw [CInt.shl_of_lt hz, ne_eq, ← BitVec.toNat_inj, BitVec.toNat_shiftLeft, hone,
        Nat.one_shiftLeft, Nat.mod_eq_of_lt hpow]
      exact (Nat.two_pow_pos _).ne'
    · rw [CInt.shl, if_neg hz]
      decide
  rw [readCodeNum_value _ hi]
  exact fun hzero ↦ hmarker (BitVec.or_eq_zero_iff.mp hzero).2

theorem toNat_sub_one_le {x : CInt} (h : x ≠ 0) : (x - 1).toNat ≤ 2 ^ 32 - 2 := by
  have hpos : x.toNat ≠ 0 := fun hx ↦ h (BitVec.eq_of_toNat_eq hx)
  have hlt := x.isLt
  have hone : (1 : CInt).toNat = 1 := rfl
  rw [BitVec.toNat_sub, hone]
  omega

theorem noFalseDecode_iff {s : NaluStream} {i : ℕ} (hi : i ≤ 8 * s.buffer.length) :
    (∀ wide, NoFalseDecode (s.seek i) (readUev wide (s.seek i))) ↔
      leadingZeros (s.bits.drop i) < 32 ∧
        2 * leadingZeros (s.bits.drop i) + 1 ≤ (s.bits.drop i).length := by
  rw [← exists_ueCode_prefix_iff]
  constructor
  · -- the bits read are the beginning of the unread ones
    intro h
    have hle := toNat_sub_one_le (readCodeNum_ne_zero hi)
    have hread := h (fun _ _ ↦ 1) hle
    rw [bitsRead_readUev _ hi] at hread
    exact ⟨_, Nat.lt_of_le_of_lt (Nat.succ_le_succ hle) (by omega), hread ▸ List.take_prefix _ _⟩
  · rintro ⟨v, hv, rest, hbits⟩ wide -
    have hvalue : (readUev wide (s.seek i)).val.1.toNat = v := by
      have hone : (1 : CInt).toNat = 1 := rfl
      rw [readUev_eq, readCodeNum_codeword wide hv hbits.symm, BitVec.toNat_sub,
        BitVec.toNat_ofNat, hone]
      omega
    rw [hvalue, bitsRead_readUev wide hi, ← hbits, zeroCount_ueCode hv]
    exact List.take_left' (length_ueCode v)

end NaluStream

namespace ReadCall

open NaluStream

/-- Whatever the undefined shift yields, `readUev` reports no value without
its codeword exactly when fewer than 32 zero bits, a one bit and as many bits
more as there are zeros lie behind the cursor. -/
theorem readUev_noFalseDecode_iff (wide : CInt → ℕ → CInt) (buffer : List UInt8)
    (h : buffer.length < 2 ^ 61) (cs : List ReadCall) :
    let s := (run wide cs (ofBuffer buffer h)).val
    (∀ wide, NoFalseDecode s (NaluStream.readUev wide s)) ↔
      leadingZeros s.unread < 32 ∧ 2 * leadingZeros s.unread + 1 ≤ s.unread.length := by
  obtain ⟨i, hi, hrun⟩ := run_ofBuffer wide h cs
  simp only [hrun, unread_seek]
  exact noFalseDecode_iff (s := ofBuffer buffer h) hi

theorem readUev_noFalseDecode_iff_short :
    let s := (run (fun _ _ ↦ 0) [.readUev] (ofBuffer [0x67] (by decide))).val
    (∀ wide, NoFalseDecode s (NaluStream.readUev wide s)) ↔
      leadingZeros s.unread < 32 ∧ 2 * leadingZeros s.unread + 1 ≤ s.unread.length :=
  readUev_noFalseDecode_iff (fun _ _ ↦ 0) [0x67] (by decide) [.readUev]

/-- Seven zero bits and a one bit at the end of the buffer: 127 is reported,
without any of its digits. -/
theorem readUev_falseDecode :
    ¬ ∀ (wide : CInt → ℕ → CInt) (buffer : List UInt8) (h : buffer.length < 2 ^ 61)
      (cs : List ReadCall), let s := (run wide cs (ofBuffer buffer h)).val
      NoFalseDecode s (NaluStream.readUev wide s) := by
  intro h
  have hread := h (fun _ _ ↦ 0) [0x01] (by decide) [] (by decide +kernel)
  revert hread
  decide +kernel

end ReadCall

end H264SendReceiver
