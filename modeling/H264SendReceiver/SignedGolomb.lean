import H264SendReceiver.AnnexB.NaluStream

/-!
# The range of the signed decoder

`readSev` assembles the code number plus one in an `int` and shifts it right
before it applies the sign. With 31 leading zeros the assembled number has
bit 31 set, the shift is arithmetic and copies that bit, and the value comes
out wrong; with fewer zeros it comes out right.
-/

namespace H264SendReceiver.NaluStream

open Bits BitStream ExpGolomb

theorem toInt_sshiftRight_one (n : ℕ) (hn : n < 2 ^ 32) :
    ((BitVec.ofNat 32 n).sshiftRight 1).toInt =
      (if n < 2 ^ 31 then (n : ℤ) else n - 2 ^ 32) / 2 := by
  rw [BitVec.toInt_sshiftRight, Int.shiftRight_eq_div_pow, BitVec.toInt_ofNat', Int.bmod_def]
  split <;> split <;> omega

theorem toInt_signedOf {n : ℕ} (hn : n < 2 ^ 32) :
    (signedOf (BitVec.ofNat 32 n)).toInt =
      if n % 2 = 0 then (if n < 2 ^ 31 then (n : ℤ) else n - 2 ^ 32) / 2
      else -((if n < 2 ^ 31 then (n : ℤ) else n - 2 ^ 32) / 2) := by
  have hshift := toInt_sshiftRight_one n hn
  have hsign : BitVec.ofNat 32 n &&& 0x01 = 0 ↔ n % 2 = 0 := by
    rw [← BitVec.toNat_inj, BitVec.toNat_and, BitVec.toNat_ofNat]
    change n % 2 ^ 32 &&& 1 = 0 ↔ _
    rw [Nat.and_one_is_mod]
    omega
  rw [signedOf]
  by_cases heven : n % 2 = 0
  · rw [if_pos (hsign.mpr heven), if_pos heven, hshift]
  · rw [if_neg (fun h ↦ heven (hsign.mp h)), if_neg heven, BitVec.toInt_neg, hshift, Int.bmod_def]
    split <;> split <;> omega

theorem codeNum_lt {v : ℤ} (hlo : -(2 ^ 31 - 1) ≤ v) (hhi : v ≤ 2 ^ 31 - 1) :
    codeNum v + 1 < 2 ^ 32 := by
  unfold codeNum
  split <;> omega

theorem signedOf_codeNum_iff {v : ℤ} (hlo : -(2 ^ 31 - 1) ≤ v) (hhi : v ≤ 2 ^ 31 - 1) :
    (signedOf (BitVec.ofNat 32 (codeNum v + 1))).toInt = v ↔ |v| < 2 ^ 30 := by
  rw [toInt_signedOf (codeNum_lt hlo hhi), abs_lt]
  unfold codeNum
  by_cases hv : 0 < v
  · rw [if_pos hv, if_pos (by omega)]
    split <;> omega
  · rw [if_neg hv, if_neg (by omega)]
    split <;> omega

/-- In front of the codeword of `v`, at any bit position and whatever
follows, `readSev` returns `v` and consumes exactly the codeword if and only
if `v` lies strictly between `-2 ^ 30` and `2 ^ 30`. -/
theorem readSev_codeword_iff (wide : CInt → ℕ → CInt) (s : NaluStream) (i : ℕ) (v : ℤ)
    (hlo : -(2 ^ 31 - 1) ≤ v) (hhi : v ≤ 2 ^ 31 - 1) (rest : List Bool)
    (hbits : s.bits.drop i = seCode v ++ rest) :
    ((readSev wide (s.seek i)).val.1.toInt = v ∧
      (readSev wide (s.seek i)).val.2 = s.seek (i + (seCode v).length)) ↔ |v| < 2 ^ 30 := by
  rw [readSev_eq, readCodeNum_codeword wide (codeNum_lt hlo hhi) hbits]
  exact (and_iff_left rfl).trans (signedOf_codeNum_iff hlo hhi)

theorem readSev_codeword_iff_minus_two :
    ((readSev (fun _ _ ↦ 0) ((ofBuffer [0xE5, 0x80] (by decide)).seek 3)).val.1.toInt = -2 ∧
      (readSev (fun _ _ ↦ 0) ((ofBuffer [0xE5, 0x80] (by decide)).seek 3)).val.2 =
        (ofBuffer [0xE5, 0x80] (by decide)).seek (3 + (seCode (-2)).length)) ↔
      |(-2 : ℤ)| < 2 ^ 30 :=
  readSev_codeword_iff (fun _ _ ↦ 0) (ofBuffer [0xE5, 0x80] (by decide)) 3 (-2) (by decide)
    (by decide) [true, false, false, false, false, false, false, false] (by decide)

/-- The codeword of `2 ^ 30`, with a zero bit behind it, is read as
`-2 ^ 30`. -/
theorem readSev_codeword_fails :
    ¬ ∀ (wide : CInt → ℕ → CInt) (s : NaluStream) (i : ℕ) (v : ℤ) (rest : List Bool),
      -(2 ^ 31 - 1) ≤ v → v ≤ 2 ^ 31 - 1 → s.bits.drop i = seCode v ++ rest →
      (readSev wide (s.seek i)).val.1.toInt = v ∧
        (readSev wide (s.seek i)).val.2 = s.seek (i + (seCode v).length) := by
  intro h
  have hread := (h (fun _ _ ↦ 0) (ofBuffer [0, 0, 0, 1, 0, 0, 0, 0] (by decide)) 0 (2 ^ 30)
    [false] (by decide) (by decide) (by decide +kernel)).1
  have hwrong : (readSev (fun _ _ ↦ 0)
      ((ofBuffer [0, 0, 0, 1, 0, 0, 0, 0] (by decide)).seek 0)).val.1.toInt = -2 ^ 30 := by
    decide +kernel
  rw [hwrong] at hread
  exact absurd hread (by decide)

end H264SendReceiver.NaluStream
