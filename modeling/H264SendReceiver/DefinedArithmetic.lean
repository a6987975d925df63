import H264SendReceiver.AnnexB.Checked
import H264SendReceiver.Cursor

/-!
# Where the decoders leave defined arithmetic

The loop that counts zero bits stops at 32, one too late for `1 << 32`. With
31 of them the assembled number has its sign bit set, and `readUev` subtracts
one from it: that overflows when no other bit of it is set. A stream can
put any bits behind the cursor, so both are reached.
-/

namespace H264SendReceiver

open Bits BitStream

namespace NaluStream

theorem ofNat_eq_intMin_iff {m z : ℕ} (hz : z < 32) (hm : m < 2 ^ z) :
    BitVec.ofNat 32 (m + 2 ^ z) = BitVec.intMin 32 ↔ z = 31 ∧ m = 0 := by
  have hle : 2 ^ z ≤ 2 ^ 31 := Nat.pow_le_pow_right (by omega) (by omega)
  have hmin : (BitVec.intMin 32).toNat = 2 ^ 31 := rfl
  rw [← BitVec.toNat_inj, BitVec.toNat_ofNat, hmin, Nat.mod_eq_of_lt (by omega)]
  constructor
  · intro hsum
    have hz31 : z = 31 := by
      by_contra hne
      have hlt : 2 ^ z ≤ 2 ^ 30 := Nat.pow_le_pow_right (by omega) (by omega)
      omega
    subst hz31
    exact ⟨rfl, by omega⟩
  · rintro ⟨rfl, rfl⟩
    rfl

theorem readUev?_isSome_iff {s : NaluStream} {i : ℕ} (hi : i ≤ 8 * s.buffer.length) :
    (readUev? (s.seek i)).isSome ↔
      zeroCount 32 (s.bits.drop i) < 31 ∨
        zeroCount 32 (s.bits.drop i) = 31 ∧ true ∈ suffixBits (s.bits.drop i) := by
  have hsome : (readUev? (s.seek i)).isSome ↔ zeroCount 32 (s.bits.drop i) < 32 ∧
      (readCodeNum (fun _ _ ↦ 0) (s.seek i)).val.1 ≠ BitVec.intMin 32 := by
    rw [readUev?_seek (fun _ _ ↦ 0) hi]
    split
    · exact iff_of_true rfl ‹_›
    · exact iff_of_false (by simp) ‹_›
  have hlow (hz : zeroCount 32 (s.bits.drop i) < 32) :
      (readCodeNum (fun _ _ ↦ 0) (s.seek i)).val.1 = BitVec.intMin 32 ↔
        zeroCount 32 (s.bits.drop i) = 31 ∧ true ∉ suffixBits (s.bits.drop i) := by
    rw [readCodeNum_value_of_lt _ hi hz, ofNat_eq_intMin_iff hz (value_suffixBits_lt _),
      value_eq_zero_iff]
  rw [hsome]
  constructor
  · rintro ⟨hz, hne⟩
    rw [ne_eq, hlow hz, not_and, not_not] at hne
    by_cases hlast : zeroCount 32 (s.bits.drop i) = 31
    · exact Or.inr ⟨hlast, hne hlast⟩
    · exact Or.inl (by omega)
  · rintro (hz | ⟨hz, hone⟩)
    · refine ⟨by omega, fun h ↦ ?_⟩
      have hlast := ((hlow (by omega)).mp h).1
      omega
    · exact ⟨by omega, fun h ↦ ((hlow (by omega)).mp h).2 hone⟩

theorem readSev?_isSome_iff {s : NaluStream} {i : ℕ} (hi : i ≤ 8 * s.buffer.length) :
    (readSev? (s.seek i)).isSome ↔ zeroCount 32 (s.bits.drop i) < 32 := by
  rw [readSev?_seek (fun _ _ ↦ 0) hi]
  split <;> simp [*]

end NaluStream

namespace ReadCall

open NaluStream

/-- With `z` zero bits in front of the first one bit, or of the last bit when
there is no earlier one: all arithmetic of `readUev` is defined for `z < 31`,
and for `z = 31` if one of the 31 bits behind the next bit is a one; all of
`readSev` is defined for `z < 32`. -/
theorem decoders_defined_iff (wide : CInt → ℕ → CInt) (buffer : List UInt8)
    (h : buffer.length < 2 ^ 61) (cs : List ReadCall) :
    let s := (run wide cs (ofBuffer buffer h)).val
    let z := min (leadingZeros s.unread) (s.unread.length - 1)
    ((readUev? s).isSome ↔ z < 31 ∨ z = 31 ∧ true ∈ (s.unread.drop 32).take 31) ∧
      ((readSev? s).isSome ↔ z < 32) := by
  obtain ⟨i, hi, hrun⟩ := run_ofBuffer wide h cs
  have huev := readUev?_isSome_iff (s := ofBuffer buffer h) hi
  have hsev := readSev?_isSome_iff (s := ofBuffer buffer h) hi
  simp only [hrun, unread_seek]
  generalize (ofBuffer buffer h).bits.drop i = u at huev hsev ⊢
  rw [huev, hsev]
  have hlast : zeroCount 32 u = 31 → suffixBits u = (u.drop 32).take 31 := by
    intro hz
    rw [suffixBits, hz]
  have hcount : zeroCount 32 u = min (min (leadingZeros u) (u.length - 1)) 32 := rfl
  constructor
  · constructor
    · rintro (hz | ⟨hz, hone⟩)
      · exact Or.inl (by omega)
      · exact Or.inr ⟨by omega, by rwa [← hlast hz]⟩
    · rintro (hz | ⟨hz, hone⟩)
      · exact Or.inl (by omega)
      · exact Or.inr ⟨by omega, by rwa [hlast (by omega)]⟩
  · omega

theorem decoders_defined_iff_short :
    let s := (run (fun _ _ ↦ 0) [.readNBits 3] (ofBuffer [0x67] (by decide))).val
    let z := min (leadingZeros s.unread) (s.unread.length - 1)
    ((readUev? s).isSome ↔ z < 31 ∨ z = 31 ∧ true ∈ (s.unread.drop 32).take 31) ∧
      ((readSev? s).isSome ↔ z < 32) :=
  decoders_defined_iff (fun _ _ ↦ 0) [0x67] (by decide) [.readNBits 3]

/-- 32 zero bits lead both decoders to `1 << 32`; 31 of them and a one bit,
with zeros behind it, lead `readUev` below the lowest `int`. -/
theorem decoders_undefined :
    (¬ ∀ (wide : CInt → ℕ → CInt) (buffer : List UInt8) (h : buffer.length < 2 ^ 61)
      (cs : List ReadCall), (readSev? (run wide cs (ofBuffer buffer h)).val).isSome) ∧
    ¬ ∀ (wide : CInt → ℕ → CInt) (buffer : List UInt8) (h : buffer.length < 2 ^ 61)
      (cs : List ReadCall), (readUev? (run wide cs (ofBuffer buffer h)).val).isSome := by
  refine ⟨fun h ↦ ?_, fun h ↦ ?_⟩
  · have hdefined := h (fun _ _ ↦ 0) [0x00, 0x00, 0x00, 0x00, 0x80] (by decide) []
    revert hdefined
    decide +kernel
  · have hdefined := h (fun _ _ ↦ 0) [0x00, 0x00, 0x00, 0x01, 0x00, 0x00, 0x00, 0x00]
      (by decide) []
    revert hdefined
    decide +kernel

end ReadCall

end H264SendReceiver
