import H264SendReceiver.Cursor
import H264SendReceiver.SignedGolomb

/-!
# Both decoders in step

`readUev` and `readSev` read the same bits and assemble the same number,
whether the codeword is whole, cut off or missing. While that number leaves
the sign bit free they differ only in how they number the integers.
-/

namespace H264SendReceiver

open Bits BitStream

namespace NaluStream

/-- The signed value numbered `k`. -/
def signedValue (k : ℕ) : ℤ := if k % 2 = 1 then ((k + 1) / 2 : ℕ) else -((k / 2 : ℕ) : ℤ)

theorem toInt_signedOf_eq_signedValue {n : ℕ} (hpos : 0 < n) (hn : n < 2 ^ 31) :
    (signedOf (BitVec.ofNat 32 n)).toInt = signedValue (n - 1) := by
  rw [toInt_signedOf (by omega), signedValue, if_pos hn]
  split <;> split <;> omega

theorem readSev_readUev {s : NaluStream} (wide : CInt → ℕ → CInt) {i : ℕ}
    (hi : i ≤ 8 * s.buffer.length) (hzeros : leadingZeros (s.bits.drop i) < 31) :
    (readSev wide (s.seek i)).val.2 = (readUev wide (s.seek i)).val.2 ∧
      (readSev wide (s.seek i)).val.1.toInt =
        signedValue (readUev wide (s.seek i)).val.1.toNat := by
  refine ⟨rfl, ?_⟩
  have hcount : zeroCount 32 (s.bits.drop i) ≤ 30 := by
    simp only [zeroCount]
    omega
  have hvalue := readCodeNum_value_of_lt wide hi (by omega)
  have hsuffix := value_suffixBits_lt (s.bits.drop i)
  have hmarker : 2 ^ zeroCount 32 (s.bits.drop i) ≤ 2 ^ 30 :=
    Nat.pow_le_pow_right (by omega) hcount
  have hpos : 0 < 2 ^ zeroCount 32 (s.bits.drop i) := Nat.two_pow_pos _
  obtain ⟨n, hn⟩ : ∃ n, n = value (suffixBits (s.bits.drop i)) + 2 ^ zeroCount 32 (s.bits.drop i) :=
    ⟨_, rfl⟩
  rw [readSev_eq, readUev_eq, hvalue, ← hn]
  have hone : (1 : CInt).toNat = 1 := rfl
  have hk : (BitVec.ofNat 32 n - 1).toNat = n - 1 := by
    rw [BitVec.toNat_sub, BitVec.toNat_ofNat, hone]
    omega
  exact hk ▸ toInt_signedOf_eq_signedValue (by omega) (by omega)

end NaluStream

namespace ReadCall

/-- From every position with fewer than 31 zero bits in front of the first one
bit or the end, both decoders leave the same cursor, and `readSev` returns the
signed value whose number `readUev` returns. -/
theorem readSev_inStep (wide : CInt → ℕ → CInt) (buffer : List UInt8)
    (hsize : buffer.length < 2 ^ 28) (cs : List ReadCall) :
    let s := (run wide cs (ofBuffer buffer (fits_of_lt hsize))).val
    let u := (NaluStream.readUev wide s).val
    let v := (NaluStream.readSev wide s).val
    leadingZeros s.unread < 31 →
      v.2.pos = u.2.pos ∧ v.2.bitOffset = u.2.bitOffset ∧
        v.1.toInt = NaluStream.signedValue u.1.toNat := by
  obtain ⟨i, hi, hrun⟩ := run_ofBuffer wide (fits_of_lt hsize) cs
  simp only [hrun, unread_seek]
  intro hzeros
  obtain ⟨hstream, hvalue⟩ := NaluStream.readSev_readUev
    (s := ofBuffer buffer (fits_of_lt hsize)) wide hi hzeros
  exact ⟨congrArg pos hstream, congrArg bitOffset hstream, hvalue⟩

theorem readSev_inStep_short :
    let s := (run (fun _ _ ↦ 0) [.readNBits 3] (ofBuffer [0x67] (by decide))).val
    let u := (NaluStream.readUev (fun _ _ ↦ 0) s).val
    let v := (NaluStream.readSev (fun _ _ ↦ 0) s).val
    v.2.pos = u.2.pos ∧ v.2.bitOffset = u.2.bitOffset ∧
      v.1.toInt = NaluStream.signedValue u.1.toNat :=
  readSev_inStep (fun _ _ ↦ 0) [0x67] (by decide) [.readNBits 3] (by decide +kernel)

end ReadCall

end H264SendReceiver
