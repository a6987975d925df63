import H264SendReceiver.Library.Bits
import H264SendReceiver.Library.Machine
import H264SendReceiver.Library.Traced

/-!
# The bit stream reader

`Common::BitStream`: a byte buffer with a cursor of two counters, the byte
position and the number of bits of that byte that are still unread. The
functions return their `int` result and the stream they leave, and log every
evaluation of `m_buffer[m_pos] >> m_bitOffset`.

A stream whose cursor stands in front of bit `i` is `s.seek i`; the lemmas
below say what each function does to such a stream.
-/

namespace H264SendReceiver

open Bits

structure BitStream where
  pos : ℕ := 0
  bitOffset : ℕ := 8
  buffer : List UInt8
  /-- A vector in memory: the number of its bits fits `size_t`. -/
  size_fits : buffer.length < 2 ^ 61
  deriving DecidableEq, Repr

/-- One evaluation of `m_buffer[pos] >> shift`. -/
structure BitRead where
  pos : ℕ
  shift : ℕ
  deriving DecidableEq, Repr

namespace BitStream

def getRemainBitSize (s : BitStream) : ℕ :=
  SizeT.sub (SizeT.sub (SizeT.mul s.buffer.length 8) (SizeT.mul s.pos 8))
    (SizeT.sub 8 s.bitOffset)

def isEnd (s : BitStream) : Bool := decide (s.buffer.length ≤ s.pos)

def readOneBit (s : BitStream) : Traced BitRead (CInt × BitStream) :=
  if s.isEnd then pure (-1, s)
  else do
    let bitOffset := SizeT.sub s.bitOffset 1
    let byte ← Traced.access ⟨s.pos, bitOffset⟩ (s.buffer.getD s.pos 0)
    let bit : CInt := BitVec.ofNat 32 byte.toNat >>> bitOffset
    if bitOffset = 0 then
      pure (bit &&& 0x01, { s with bitOffset := 8, pos := SizeT.add s.pos 1 })
    else
      pure (bit &&& 0x01, { s with bitOffset := bitOffset })

/-- The loop of `readNBits`; `left` is `count - idx` plus one, so that the
bit read next is shifted by `left - 1`. The index is an `int` in the source and
not kept here: it stays in its range on buffers of fewer than `2 ^ 28` bytes. -/
def readNBitsLoop (wide : CInt → ℕ → CInt) :
    ℕ → CInt → BitStream → Traced BitRead (CInt × BitStream)
  | 0, ret, s => pure (ret, s)
  | left + 1, ret, s => do
      let (bit, s) ← s.readOneBit
      readNBitsLoop wide left (ret ||| CInt.shl wide bit left) s

def readNBits (wide : CInt → ℕ → CInt) (s : BitStream) (count : ℕ) :
    Traced BitRead (CInt × BitStream) :=
  let remainBites := s.getRemainBitSize
  let count := if count ≤ remainBites then count else remainBites
  readNBitsLoop wide count 0 s

def ofBuffer (buffer : List UInt8) (h : buffer.length < 2 ^ 61) : BitStream :=
  { buffer := buffer, size_fits := h }

theorem fits_of_lt {n : ℕ} (h : n < 2 ^ 28) : n < 2 ^ 61 := h.trans (by omega)

/-! ## Streams at a bit position -/

def bits (s : BitStream) : List Bool := bitsOf s.buffer

/-- The stream with its cursor in front of bit `i`. -/
def seek (s : BitStream) (i : ℕ) : BitStream := { s with pos := i / 8, bitOffset := 8 - i % 8 }

/-- The reads of the `n` bits from bit `i` on, most significant bit first. -/
def readsFrom (i n : ℕ) : List BitRead := (List.range' i n).map fun j ↦ ⟨j / 8, 7 - j % 8⟩

/-- The bits behind the cursor. -/
def unread (s : BitStream) : List Bool := s.bits.drop (8 * s.pos + (8 - s.bitOffset))

/-- The bits of the buffer that the given reads evaluate. -/
def bitsRead (s : BitStream) (reads : List BitRead) : List Bool :=
  reads.map fun a ↦ (s.buffer.getD a.pos 0).toNat.testBit a.shift

@[simp] theorem buffer_seek (s : BitStream) (i : ℕ) : (s.seek i).buffer = s.buffer := rfl

@[simp] theorem bits_seek (s : BitStream) (i : ℕ) : (s.seek i).bits = s.bits := rfl

@[simp] theorem seek_seek (s : BitStream) (i j : ℕ) : (s.seek i).seek j = s.seek j := rfl

theorem length_bits (s : BitStream) : s.bits.length = 8 * s.buffer.length := length_bitsOf _

theorem readsFrom_append (i m n : ℕ) :
    readsFrom i m ++ readsFrom (i + m) n = readsFrom i (m + n) := by
  rw [readsFrom, readsFrom, ← List.map_append, readsFrom, ← List.range'_append_1]

@[simp] theorem unread_seek (s : BitStream) (i : ℕ) : (s.seek i).unread = s.bits.drop i := by
  have hi : 8 * (i / 8) + (8 - (8 - i % 8)) = i := by omega
  exact congrArg (s.bits.drop ·) hi

theorem bitsRead_readsFrom (s : BitStream) (n : ℕ) :
    ∀ i, i + n ≤ 8 * s.buffer.length →
      s.bitsRead (readsFrom i n) = (s.bits.drop i).take n := by
  induction n with
  | zero => intro i _; rw [List.take_zero]; rfl
  | succ n ih =>
      intro i hi
      have hlt : i < s.bits.length := by
        rw [length_bits]
        omega
      have hbit : s.bits[i] = (s.buffer.getD (i / 8) 0).toNat.testBit (7 - i % 8) :=
        Option.some.inj ((List.getElem?_eq_getElem hlt).symm.trans (getElem?_bitsOf (by omega)))
      rw [List.drop_eq_getElem_cons hlt, List.take_succ_cons, ← ih (i + 1) (by omega), hbit]
      rfl

theorem isEnd_seek {s : BitStream} {i : ℕ} (hi : i ≤ 8 * s.buffer.length) :
    (s.seek i).isEnd = decide (i = 8 * s.buffer.length) := by
  rw [isEnd, decide_eq_decide]
  simp only [seek]
  omega

/-- Before the end the remaining size is the number of unread bits, and none
of its subtractions wraps. -/
theorem getRemainBitSize_seek {s : BitStream} {i : ℕ} (hi : i ≤ 8 * s.buffer.length) :
    (s.seek i).getRemainBitSize = 8 * s.buffer.length - i := by
  have hfit := s.size_fits
  simp only [getRemainBitSize, seek]
  rw [SizeT.mul_eq (by omega), SizeT.mul_eq (by omega),
    SizeT.sub_eq (a := 8) (by omega) (by omega),
    SizeT.sub_eq (a := s.buffer.length * 8) (by omega) (by omega),
    SizeT.sub_eq (by omega) (by omega)]
  omega

theorem and_one_of_byte (b : UInt8) (k : ℕ) :
    (BitVec.ofNat 32 b.toNat >>> k) &&& (0x01 : CInt) =
      BitVec.ofNat 32 (b.toNat.testBit k).toNat := by
  have hb := b.toNat_lt
  apply BitVec.eq_of_toNat_eq
  rw [BitVec.toNat_and, BitVec.toNat_ushiftRight, BitVec.toNat_ofNat, BitVec.toNat_ofNat,
    Nat.mod_eq_of_lt (by omega), Nat.toNat_testBit, Nat.shiftRight_eq_div_pow]
  change _ &&& 1 = _
  rw [Nat.and_one_is_mod]
  omega

theorem readOneBit_seek_end {s : BitStream} {i : ℕ} (hi : i = 8 * s.buffer.length) :
    (s.seek i).readOneBit = pure (-1, s.seek i) := by
  have hend : (s.seek i).isEnd = true := by rw [isEnd_seek hi.le, hi, decide_eq_true rfl]
  rw [readOneBit, if_pos hend]

theorem readOneBit_seek {s : BitStream} {i : ℕ} {b : Bool} (hb : s.bits[i]? = some b) :
    (s.seek i).readOneBit =
      ⟨(BitVec.ofNat 32 b.toNat, s.seek (i + 1)), readsFrom i 1⟩ := by
  have hi : i < 8 * s.buffer.length := by
    rw [← length_bits]
    exact (List.getElem?_eq_some_iff.mp hb).1
  have hfit := s.size_fits
  have hend : (s.seek i).isEnd = false := by
    rw [isEnd_seek hi.le]
    simpa using hi.ne
  have hbit : (s.buffer.getD (i / 8) 0).toNat.testBit (7 - i % 8) = b :=
    Option.some.inj ((getElem?_bitsOf hi).symm.trans hb)
  have hoff : SizeT.sub (8 - i % 8) 1 = 7 - i % 8 := by
    rw [SizeT.sub_eq (by omega) (by omega)]
    omega
  have hpos : SizeT.add (i / 8) 1 = i / 8 + 1 := SizeT.add_eq (by omega)
  have hread : readsFrom i 1 = [⟨i / 8, 7 - i % 8⟩] := rfl
  rw [readOneBit, hend, if_neg (by simp)]
  simp only [seek, hoff, hread]
  -- the byte is exhausted exactly when the next position starts a new one
  by_cases hlast : 7 - i % 8 = 0
  · have hnext : (i + 1) / 8 = i / 8 + 1 ∧ 8 - (i + 1) % 8 = 8 := by omega
    simp only [hlast, if_pos, hpos, hnext]
    rw [← hbit, hlast, ← and_one_of_byte]
    rfl
  · have hnext : (i + 1) / 8 = i / 8 ∧ 8 - (i + 1) % 8 = 7 - i % 8 := by omega
    simp only [if_neg hlast, hnext]
    rw [← hbit, ← and_one_of_byte]
    rfl

theorem exists_getElem?_bits {s : BitStream} {i : ℕ} (hi : i < 8 * s.buffer.length) :
    ∃ b, s.bits[i]? = some b :=
  ⟨_, List.getElem?_eq_getElem (by rwa [length_bits])⟩

theorem readNBitsLoop_succ (wide : CInt → ℕ → CInt) {s : BitStream} {i : ℕ} {b : Bool}
    (hb : s.bits[i]? = some b) (left : ℕ) (ret : CInt) :
    readNBitsLoop wide (left + 1) ret (s.seek i) =
      ⟨(readNBitsLoop wide left (ret ||| CInt.shl wide (BitVec.ofNat 32 b.toNat) left)
          (s.seek (i + 1))).val,
        readsFrom i 1 ++ (readNBitsLoop wide left
          (ret ||| CInt.shl wide (BitVec.ofNat 32 b.toNat) left) (s.seek (i + 1))).log⟩ := by
  rw [readNBitsLoop, readOneBit_seek hb]
  rfl

theorem readNBitsLoop_cursor (wide : CInt → ℕ → CInt) (s : BitStream) (left : ℕ) :
    ∀ (i : ℕ) (ret : CInt), i + left ≤ 8 * s.buffer.length →
      (readNBitsLoop wide left ret (s.seek i)).val.2 = s.seek (i + left) ∧
        (readNBitsLoop wide left ret (s.seek i)).log = readsFrom i left := by
  induction left with
  | zero => intro i ret _; exact ⟨rfl, rfl⟩
  | succ left ih =>
      intro i ret hle
      obtain ⟨b, hb⟩ := exists_getElem?_bits (s := s) (i := i) (by omega)
      obtain ⟨hcursor, hlog⟩ := ih (i + 1)
        (ret ||| CInt.shl wide (BitVec.ofNat 32 b.toNat) left) (by omega)
      rw [readNBitsLoop_succ wide hb]
      refine ⟨by rw [hcursor, Nat.add_assoc, Nat.add_comm 1], ?_⟩
      rw [hlog, readsFrom_append, Nat.add_comm 1]

/-- Up to 32 rounds put together the number that the bits denote. -/
theorem readNBitsLoop_value (wide : CInt → ℕ → CInt) (s : BitStream) (left : ℕ)
    (h32 : left ≤ 32) :
    ∀ (i : ℕ) (ret : CInt), i + left ≤ 8 * s.buffer.length →
      (readNBitsLoop wide left ret (s.seek i)).val.1 =
        ret ||| BitVec.ofNat 32 (value ((s.bits.drop i).take left)) := by
  induction left with
  | zero => intro i ret _; simp [readNBitsLoop]
  | succ left ih =>
      intro i ret hle
      obtain ⟨b, hb⟩ := exists_getElem?_bits (s := s) (i := i) (by omega)
      have hlen : ((s.bits.drop (i + 1)).take left).length = left := by
        rw [List.length_take, List.length_drop, length_bits]
        omega
      have hlt := value_lt ((s.bits.drop (i + 1)).take left)
      rw [hlen] at hlt
      -- the bit read in this round lies above the value of the later ones
      have hvalue : value ((s.bits.drop i).take (left + 1)) =
          b.toNat <<< left ||| value ((s.bits.drop (i + 1)).take left) := by
        obtain ⟨hi, hget⟩ := List.getElem?_eq_some_iff.mp hb
        rw [List.drop_eq_getElem_cons hi, hget, List.take_succ_cons, value_cons, hlen,
          ← Nat.shiftLeft_add_eq_or_of_lt hlt, Nat.shiftLeft_eq]
      rw [readNBitsLoop_succ wide hb, ih (by omega) (i + 1) _ (by omega), hvalue,
        CInt.shl_of_lt (by omega), BitVec.ofNat_or, BitVec.or_assoc]
      congr 2
      apply BitVec.eq_of_toNat_eq
      simp [BitVec.toNat_shiftLeft, Nat.shiftLeft_eq, Nat.mul_mod]

theorem clamp_getRemainBitSize {s : BitStream} {i count : ℕ} (hi : i ≤ 8 * s.buffer.length) :
    (if count ≤ (s.seek i).getRemainBitSize then count else (s.seek i).getRemainBitSize) =
      min count (8 * s.buffer.length - i) := by
  rw [getRemainBitSize_seek hi, Nat.min_def]

theorem readNBits_cursor (wide : CInt → ℕ → CInt) {s : BitStream} {i : ℕ} (count : ℕ)
    (hi : i ≤ 8 * s.buffer.length) :
    ((s.seek i).readNBits wide count).val.2 =
        s.seek (i + min count (8 * s.buffer.length - i)) ∧
      ((s.seek i).readNBits wide count).log =
        readsFrom i (min count (8 * s.buffer.length - i)) := by
  rw [readNBits]
  simp only [clamp_getRemainBitSize hi]
  exact readNBitsLoop_cursor wide s _ i 0 (by omega)

theorem readNBits_value (wide : CInt → ℕ → CInt) {s : BitStream} {i count : ℕ}
    (hi : i ≤ 8 * s.buffer.length) (h32 : min count (8 * s.buffer.length - i) ≤ 32) :
    ((s.seek i).readNBits wide count).val.1 =
      BitVec.ofNat 32 (value ((s.bits.drop i).take count)) := by
  have htake : (s.bits.drop i).take (min count (8 * s.buffer.length - i)) =
      (s.bits.drop i).take count := by
    rw [← length_bits, ← List.length_drop, ← List.take_eq_take_min]
  rw [readNBits]
  simp only [clamp_getRemainBitSize hi]
  rw [readNBitsLoop_value wide s _ h32 i 0 (by omega), htake]
  exact BitVec.zero_or

end BitStream

end H264SendReceiver
