import H264SendReceiver.Draining
import H264SendReceiver.Fields
import H264SendReceiver.InStep
import H264SendReceiver.Library.Text

/-!
# What the stream tests print

`FuncTestBitStream` and `FuncTestNaluStream` run the stream readers on a fixed
buffer; the buffer is a parameter here. A test has no text where the reads are
not defined.
-/

namespace H264SendReceiver

open Bits BitStream ExpGolomb Text

/-- An `int` after `std::hex` and `std::showbase`: zero has no base. -/
def showHex (v : CInt) : List Char :=
  if v = 0 then ['0'] else '0' :: 'x' :: Nat.toDigits 16 v.toNat

def showInt (v : ℤ) : List Char :=
  if v < 0 then '-' :: decimal v.natAbs else decimal v.natAbs

def funcTestBitStream? (buffer : List UInt8) (h : buffer.length < 2 ^ 61) :
    Option (List Char) := do
  let bs := ofBuffer buffer h
  let (byte, bs) ← bs.readNBits? 8
  let (bytes, bs) ← bs.readNBits? 16
  let (rets, _) ← bs.drain? 5 (bs.getRemainBitSize + 1)
  return unlines (
    ["readOneByte: ".toList ++ showHex byte, "readTwoBytes: ".toList ++ showHex bytes] ++
      rets.map fun ret ↦ "readFiveBits: ".toList ++ showHex ret)

def funcTestNaluStream? (buffer : List UInt8) (h : buffer.length < 2 ^ 61) :
    Option (List Char) := do
  let (ue₁, ns) ← NaluStream.readUev? (ofBuffer buffer h)
  let (ue₂, _) ← NaluStream.readUev? ns
  let (se₁, ns) ← NaluStream.readSev? (ofBuffer buffer h)
  let (se₂, _) ← NaluStream.readSev? ns
  return unlines
    ["readUe(v): ".toList ++ decimal ue₁.toNat, "readUe(v): ".toList ++ decimal ue₂.toNat,
      "readSe(v): ".toList ++ showInt se₁.toInt, "readSe(v): ".toList ++ showInt se₂.toInt]

theorem drop_min_length {α : Type} (l : List α) (n : ℕ) : l.drop (min n l.length) = l.drop n := by
  rw [List.drop_eq_drop_iff]
  omega

/-- A byte, two bytes and groups of five bits, as far as the buffer goes. -/
theorem funcTestBitStream?_eq (buffer : List UInt8) (h : buffer.length < 2 ^ 61) :
    funcTestBitStream? buffer h = some (unlines (
      ["readOneByte: ".toList ++ showHex (BitVec.ofNat 32 (value ((bitsOf buffer).take 8))),
        "readTwoBytes: ".toList ++
          showHex (BitVec.ofNat 32 (value (((bitsOf buffer).drop 8).take 16)))] ++
      (groups 5 ((bitsOf buffer).drop 24)).map fun ret ↦
        "readFiveBits: ".toList ++ showHex ret)) := by
  obtain ⟨s, hs⟩ : ∃ s, s = ofBuffer buffer h := ⟨_, rfl⟩
  have hstart : s.seek 0 = ofBuffer buffer h := by rw [hs]; rfl
  have hbits : s.bits = bitsOf buffer := by rw [hs]; rfl
  have hlen : s.bits.length = 8 * s.buffer.length := s.length_bits
  -- the three positions, none of them behind the end
  have hbyte : (s.seek 0).readNBits? 8 = _ := readNBits?_of_narrow (Nat.zero_le _) (by omega)
  have hbytes : (s.seek (min 8 s.bits.length)).readNBits? 16 = _ :=
    readNBits?_of_narrow (by omega) (by omega)
  have hremain : (s.seek (min 24 s.bits.length)).getRemainBitSize = _ :=
    getRemainBitSize_seek (by omega)
  have hrest : (s.seek (min 24 s.bits.length)).drain? 5
      (8 * s.buffer.length - min 24 s.bits.length + 1) = _ :=
    drain?_seek (by omega) _ _ (by omega) (by omega)
  have hsteps : steps 5 (8 * s.buffer.length - min 24 s.bits.length) <
      8 * s.buffer.length - min 24 s.bits.length + 1 := by
    unfold steps
    omega
  rw [if_pos hsteps, drop_min_length] at hrest
  rw [drop_min_length] at hbytes
  rw [show min 8 s.bits.length + min 16 (8 * s.buffer.length - min 8 s.bits.length) =
    min 24 s.bits.length by omega] at hbytes
  rw [show 0 + min 8 (8 * s.buffer.length - 0) = min 8 s.bits.length by omega,
    List.drop_zero] at hbyte
  rw [funcTestBitStream?, ← hstart, ← hbits]
  simp only [Option.bind_eq_bind, hbyte, hbytes, hremain, hrest, Option.bind_some, Option.pure_def]

example : funcTestBitStream? [0x01, 0x02, 0x03, 0x06] (by decide) =
    some "readOneByte: 0x1\nreadTwoBytes: 0x203\nreadFiveBits: 0\nreadFiveBits: 0x6\n".toList := by
  decide +kernel

theorem codeNum_signedValue (k : ℕ) : codeNum (NaluStream.signedValue k) = k := by
  unfold codeNum NaluStream.signedValue
  split <;> split <;> omega

theorem signedValue_range {k : ℕ} (hk : k + 1 < 2 ^ 31) :
    -(2 ^ 31 - 1) ≤ NaluStream.signedValue k ∧ NaluStream.signedValue k ≤ 2 ^ 31 - 1 := by
  unfold NaluStream.signedValue
  split <;> omega

/-- Both halves of the test read the same two codewords, as numbers and as
signed values. -/
theorem funcTestNaluStream?_eq (buffer : List UInt8) (h : buffer.length < 2 ^ 61) {a b : ℕ}
    {rest : List Bool} (ha : a + 1 < 2 ^ 31) (hb : b + 1 < 2 ^ 31)
    (hbits : bitsOf buffer = ueCode a ++ (ueCode b ++ rest)) :
    funcTestNaluStream? buffer h = some (unlines
      ["readUe(v): ".toList ++ decimal a, "readUe(v): ".toList ++ decimal b,
        "readSe(v): ".toList ++ showInt (NaluStream.signedValue a),
        "readSe(v): ".toList ++ showInt (NaluStream.signedValue b)]) := by
  obtain ⟨s, hs⟩ : ∃ s, s = ofBuffer buffer h := ⟨_, rfl⟩
  have hstart : s.seek 0 = ofBuffer buffer h := by rw [hs]; rfl
  have hfirst : s.bits.drop 0 = ueCode a ++ (ueCode b ++ rest) := by rw [hs]; exact hbits
  have hle := Field.le_of_bits (Nat.zero_le _) hfirst
  have hsecond : s.bits.drop (0 + (ueCode a).length) = ueCode b ++ rest := by
    rw [← List.drop_drop, hfirst, List.drop_left]
  have hnum {k : ℕ} : seCode (NaluStream.signedValue k) = ueCode k := by
    rw [seCode, codeNum_signedValue]
  have huev {k i : ℕ} {t : List Bool} (hk : k + 1 < 2 ^ 31) (hi : i ≤ 8 * s.buffer.length)
      (ht : s.bits.drop i = ueCode k ++ t) : NaluStream.readUev? (s.seek i) =
        some (BitVec.ofNat 32 k, s.seek (i + (ueCode k).length)) := by
    rw [Field.readUev?_codeword hi (by omega) ht, if_neg (by omega)]
  have hsev {k i : ℕ} {t : List Bool} (hk : k + 1 < 2 ^ 31) (hi : i ≤ 8 * s.buffer.length)
      (ht : s.bits.drop i = ueCode k ++ t) : NaluStream.readSev? (s.seek i) =
        some (NaluStream.signedOf (BitVec.ofNat 32 (k + 1)), s.seek (i + (ueCode k).length)) := by
    have hrange := signedValue_range hk
    rw [← hnum] at ht ⊢
    rw [Field.readSev?_codeword hi hrange.1 hrange.2 ht, codeNum_signedValue]
  have hvalue {k : ℕ} (hk : k + 1 < 2 ^ 31) :
      (NaluStream.signedOf (BitVec.ofNat 32 (k + 1))).toInt = NaluStream.signedValue k :=
    NaluStream.toInt_signedOf_eq_signedValue (Nat.succ_pos k) hk
  have hword {k : ℕ} (hk : k + 1 < 2 ^ 31) : (BitVec.ofNat 32 k).toNat = k := by
    rw [BitVec.toNat_ofNat]
    omega
  rw [funcTestNaluStream?, ← hstart]
  simp only [huev ha (Nat.zero_le _) hfirst, huev hb hle hsecond, hsev ha (Nat.zero_le _) hfirst,
    hsev hb hle hsecond, Option.bind_eq_bind, Option.bind_some, Option.pure_def, hvalue ha,
    hvalue hb, hword ha, hword hb]

example : funcTestNaluStream? [0x67] (by decide) =
    some ("readUe(v): 2\nreadUe(v): 6\nreadSe(v): -1\nreadSe(v): -3\n").toList := by
  decide +kernel

end H264SendReceiver
